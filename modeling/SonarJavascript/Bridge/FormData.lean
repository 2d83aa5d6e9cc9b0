import Mathlib.Data.List.DropRight
import SonarJavascript.Lib.FirstOccurrence
import SonarJavascript.Lib.Offsets

/-!
# Multipart responses

A response with an AST has two parts: `sendFormData` hands them to the form-data package, and
`FormDataUtils.parseFormData` scans the bytes for the boundary and for the first empty line of a part.

`parseFormData_sendFormData`: when the delimiter occurs in neither payload, both come back byte for byte.
-/

namespace SonarJavascript.Bridge.FormData

/-- `s.getBytes(UTF_8)`; ISO_8859_1 gives the same bytes for the texts in ASCII it is used for. -/
def getBytes (s : String) : List UInt8 := s.toByteArray.data.toList

/-- `new String(bytes, UTF_8)`; what it makes of malformed bytes is a parameter. -/
def newString (malformed : List UInt8 → String) (bytes : List UInt8) : String :=
  (String.fromUTF8? ⟨bytes.toArray⟩).getD (malformed bytes)

def CRLF : List UInt8 := [13, 10]

inductive JavaException
  | arrayIndexOutOfBounds
  | illegalArgument
  | illegalState (message : String)
  deriving DecidableEq

/-! ### The form-data package -/

/-- The fields of a response; the first one has a filename, `ast`. -/
inductive Field
  | ast
  | json
  deriving DecidableEq

/-- What is known of the package: its boundary is 26 hyphens and 24 digits, and the headers of a part, which
have no empty line and no two hyphens in a row, name the field. -/
structure Package where
  digits : List Char
  length_digits : digits.length = 24
  isDigit : ∀ c ∈ digits, c.isDigit
  headers : Field → String
  emptyLine : ∀ field, (offsets (CRLF ++ CRLF) (CRLF ++ getBytes (headers field) ++ CRLF ++ CRLF)).head? =
    some (2 + (getBytes (headers field)).length)
  hyphens : ∀ field, ¬ getBytes "--" <:+: getBytes (headers field)
  mentions_ast : "ast".toList <:+: (headers .ast).toList
  mentions_json : ∀ field, "json".toList <:+: (headers field).toList ↔ field = .json

namespace Package

variable (fd : Package)

def boundary : String := String.ofList (List.replicate 26 '-' ++ fd.digits)

def delimiter : List UInt8 := getBytes ("--" ++ fd.boundary)

/-- The body for parts in the order of their `append`. -/
def pipe (parts : List (String × List UInt8)) : List UInt8 :=
  (parts.flatMap fun (headers, body) => fd.delimiter ++ CRLF ++ getBytes headers ++ CRLF ++ CRLF ++ body ++ CRLF) ++
    fd.delimiter ++ getBytes "--" ++ CRLF

/-- `fd.getHeaders()['content-type']` -/
def contentType : String := "multipart/form-data; boundary=" ++ fd.boundary

end Package

/-- The Content-Type header and the body. -/
def sendFormData (fd : Package) (ast : List UInt8) (json : String) : String × List UInt8 :=
  (fd.contentType, fd.pipe [(fd.headers .ast, ast), (fd.headers .json, getBytes json)])

/-! ### FormDataUtils -/

/-- `Arrays.copyOfRange`, which pads with zeros. -/
def copyOfRange (array : List UInt8) (start stop : ℕ) : Except JavaException (List UInt8) :=
  if array.length < start then .error .arrayIndexOutOfBounds
  else if stop < start then .error .illegalArgument
  else .ok ((array.drop start).take (stop - start) ++ List.replicate (stop - array.length) 0)

def indexOf (array pattern : List UInt8) : Option ℕ :=
  ((List.range (array.length + 1 - pattern.length)).filter fun i => pattern.isPrefixOf (array.drop i)).head?

/-- A turn of the outer loop of `split`, for an index with an occurrence. -/
def splitAt (array delimiter : List UInt8) (state : List (List UInt8) × ℕ) (i : ℕ) :
    Except JavaException (List (List UInt8) × ℕ) := do
  let part ← copyOfRange array state.2 i
  return (state.1 ++ [part], i + delimiter.length)

def split (array delimiter : List UInt8) : Except JavaException (List (List UInt8)) := do
  if delimiter = [] then return []
  let (byteArrays, begin) ← (List.range (array.length + 1 - delimiter.length)).foldlM (fun state i =>
    if delimiter.isPrefixOf (array.drop i) then splitAt array delimiter state i else pure state) ([], 0)
  let last ← copyOfRange array begin array.length
  return byteArrays ++ [last]

/-- The pieces between the matches, which do not overlap; so many at most. -/
def pieces (pattern : List Char) : ℕ → List Char → List (List Char)
  | 0, text => [text]
  | fuel + 1, text =>
    match splitFirst pattern text with
    | none => [text]
    | some (before, after) => before :: pieces pattern fuel after

/-- `String.split` for a pattern without special characters: a text without a match is one piece, and empty
pieces at the end are dropped. -/
def stringSplit (pattern text : String) : List String :=
  match splitFirst pattern.toList text.toList with
  | none => [text]
  | some _ => ((pieces pattern.toList text.length text.toList).rdropWhile (· = [])).map String.ofList

/-- The variables of the loop over the parts. -/
structure Parsed where
  json : Option String
  ast : Option (List UInt8)

def parsePart (malformed : List UInt8 → String) (parsed : Parsed) (part : List UInt8) :
    Except JavaException Parsed := do
  match indexOf part (CRLF ++ CRLF) with
  | none => return parsed
  | some separatorIndex =>
    let headers ← copyOfRange part 2 separatorIndex
    let body ← copyOfRange part (separatorIndex + 4) (part.length - 2)
    let headersStr := newString malformed headers
    if "json".toList <:+: headersStr.toList then return { parsed with json := some (newString malformed body) }
    else if "ast".toList <:+: headersStr.toList then return { parsed with ast := some body }
    else return parsed

/-- `parseProtobuf` is a parameter; its result is the AST of the response. -/
def parseFormData {Node : Type} (malformed : List UInt8 → String) (parseProtobuf : List UInt8 → Option Node)
    (contentType : String) (responseBody : List UInt8) : Except JavaException (String × Option Node) := do
  let some boundary := (stringSplit "boundary=" contentType)[1]? | throw .arrayIndexOutOfBounds
  let parts ← split responseBody (getBytes ("--" ++ boundary))
  let parsed ← parts.foldlM (parsePart malformed) ⟨none, none⟩
  match parsed.json, parsed.ast with
  | some json, some ast => return (json, parseProtobuf ast)
  | _, _ => throw (.illegalState "Data missing from response")

/-! ### The scanner -/

theorem newString_getBytes (malformed : List UInt8 → String) (s : String) :
    newString malformed (getBytes s) = s := by
  have hbytes : (⟨(getBytes s).toArray⟩ : ByteArray) = s.toByteArray := by simp [getBytes]
  rw [newString, hbytes, String.fromUTF8?, dif_pos s.isValidUTF8]
  rfl

theorem copyOfRange_append {array : List UInt8} {start stop : ℕ} (x y z : List UInt8) (harray : array = x ++ y ++ z)
    (hstart : start = x.length) (hstop : stop = x.length + y.length) : copyOfRange array start stop = .ok y := by
  subst harray hstart hstop
  have hlen : (x ++ y ++ z).length = x.length + y.length + z.length := by simp [Nat.add_assoc]
  rw [copyOfRange, if_neg (by omega), if_neg (by omega), hlen,
    show x.length + y.length - (x.length + y.length + z.length) = 0 by omega, Nat.add_sub_cancel_left,
    List.append_assoc, List.drop_left, List.take_left, List.replicate_zero, List.append_nil]

theorem indexOf_eq {array pattern : List UInt8} (hne : pattern ≠ []) :
    indexOf array pattern = (offsets pattern array).head? := by
  rw [indexOf, filter_range_eq_offsets hne]

theorem split_eq {array delimiter : List UInt8} (hne : delimiter ≠ []) :
    split array delimiter = do
      let (byteArrays, begin) ← (offsets delimiter array).foldlM (splitAt array delimiter) ([], 0)
      let last ← copyOfRange array begin array.length
      return byteArrays ++ [last] := by
  rw [split, if_neg hne, ← filter_range_eq_offsets hne, List.foldlM_filter]

theorem stringSplit_boundary (boundary : String) (hnone : splitFirst "boundary=".toList boundary.toList = none)
    (hne : boundary.toList ≠ []) :
    (stringSplit "boundary=" ("multipart/form-data; boundary=" ++ boundary))[1]? = some boundary := by
  have hfirst : splitFirst "boundary=".toList ("multipart/form-data; boundary=" ++ boundary).toList =
      some ("multipart/form-data; ".toList, boundary.toList) := by
    rw [@String.toList_append _ boundary]
    simp [splitFirst]
  have hlength : ("multipart/form-data; boundary=" ++ boundary).length = boundary.length + 29 + 1 := by
    rw [String.length_append, Nat.add_comm]
    rfl
  have hpieces : pieces "boundary=".toList (boundary.length + 29 + 1)
      ("multipart/form-data; boundary=" ++ boundary).toList = ["multipart/form-data; ".toList, boundary.toList] := by
    rw [pieces, hfirst]
    dsimp only
    rw [pieces, hnone]
  rw [stringSplit, hfirst]
  dsimp only
  rw [hlength, hpieces, List.rdropWhile_eq_self_iff.mpr (fun _ => by simpa using hne)]
  simp

/-! ### The delimiter -/

theorem getBytes_append (s t : String) : getBytes (s ++ t) = getBytes s ++ getBytes t := by
  simp [getBytes]

theorem getBytes_ofList {l : List Char} (h : ∀ c ∈ l, c.utf8Size = 1) :
    getBytes (String.ofList l) = l.map fun c => c.val.toUInt8 := by
  rw [getBytes, String.toByteArray_ofList, List.utf8Encode]
  simp only [List.data_toByteArray]
  induction l with
  | nil => rfl
  | cons c l ih =>
    rw [List.flatMap_cons, String.utf8EncodeChar_eq_singleton (h c List.mem_cons_self),
      ih fun d hd => h d (List.mem_cons_of_mem c hd)]
    rfl

theorem utf8Size_of_isDigit {c : Char} (h : c.isDigit) : c.utf8Size = 1 ∧ 48 ≤ c.val.toUInt8.toNat ∧
    c.val.toUInt8.toNat ≤ 57 := by
  have hval : 48 ≤ c.val.toNat ∧ c.val.toNat ≤ 57 := by
    simpa [Char.isDigit, UInt32.le_iff_toNat_le] using h
  refine ⟨?_, ?_, ?_⟩
  · have hle : c.val.toNat ≤ (0x7f : UInt32).toNat := hval.2.trans (by decide)
    exact if_pos (UInt32.le_iff_toNat_le.mpr hle)
  · rw [UInt32.toNat_toUInt8]
    omega
  · rw [UInt32.toNat_toUInt8]
    omega

namespace Package

variable (fd : Package)

def digitBytes : List UInt8 := fd.digits.map fun c => c.val.toUInt8

theorem length_digitBytes : fd.digitBytes.length = 24 := by
  rw [digitBytes, List.length_map, fd.length_digits]

theorem digitBytes_bounds {b : UInt8} (h : b ∈ fd.digitBytes) : 48 ≤ b.toNat ∧ b.toNat ≤ 57 := by
  obtain ⟨c, hc, rfl⟩ := List.mem_map.mp h
  exact (utf8Size_of_isDigit (fd.isDigit c hc)).2

theorem delimiter_eq : fd.delimiter = List.replicate 28 45 ++ fd.digitBytes := by
  have htext : "--" ++ fd.boundary = String.ofList (List.replicate 28 '-' ++ fd.digits) := by
    rw [boundary, ← String.toList_inj]
    simp [List.replicate_succ]
  rw [delimiter, htext, getBytes_ofList]
  · simp [digitBytes]
    decide
  · intro c hc
    obtain hc | hc := List.mem_append.mp hc
    · rw [List.eq_of_mem_replicate hc]
      decide
    · exact (utf8Size_of_isDigit (fd.isDigit c hc)).1

theorem length_delimiter : fd.delimiter.length = 52 := by
  simp [delimiter_eq, length_digitBytes]

theorem delimiter_ne_nil : fd.delimiter ≠ [] := by
  rw [← List.length_pos_iff, length_delimiter]
  decide

theorem notMem_delimiter {c : UInt8} (h : c.toNat < 45) : c ∉ fd.delimiter := by
  rw [delimiter_eq, List.mem_append, not_or]
  constructor
  · intro hc
    rw [List.eq_of_mem_replicate hc] at h
    exact absurd h (by decide)
  · intro hc
    have hbounds := fd.digitBytes_bounds hc
    omega

theorem offsets_delimiter (rest : List UInt8) (h : rest.length ≤ 2) :
    offsets fd.delimiter (fd.delimiter ++ rest) = [0] := by
  refine offsets_eq_zero fd.delimiter_ne_nil (List.prefix_append _ _) fun i hpos hi hagain => ?_
  obtain ⟨tail, htail⟩ := hagain
  rw [List.length_append] at hi
  have hlength := fd.length_delimiter
  have hhyphen : fd.delimiter[28 - i]? = some 45 := by
    rw [delimiter_eq, List.getElem?_append_left (by simp; omega)]
    exact List.getElem?_replicate_of_lt (by omega)
  have hdigit : fd.delimiter[28]? = fd.digitBytes[0]? := by
    rw [delimiter_eq, List.getElem?_append_right (by simp)]
    simp
  have hsame := congrArg (·[28 - i]?) htail
  rw [List.getElem?_append_left (by omega), hhyphen, List.getElem?_drop, show i + (28 - i) = 28 by omega,
    List.getElem?_append_left (by omega), hdigit] at hsame
  have hbounds := fd.digitBytes_bounds (List.mem_of_getElem? hsame.symm)
  exact absurd hbounds.1 (by decide)

/-- The bytes of a part after its delimiter. -/
def part (field : Field) (body : List UInt8) : List UInt8 :=
  CRLF ++ getBytes (fd.headers field) ++ CRLF ++ CRLF ++ body ++ CRLF

theorem not_infix_headers (field : Field) : ¬ fd.delimiter <:+: getBytes (fd.headers field) := by
  intro h
  refine fd.hyphens field (List.IsInfix.trans ?_ h)
  rw [delimiter, getBytes_append]
  exact (List.prefix_append _ _).isInfix

theorem offsets_delimiter_append (x y : List UInt8) :
    offsets fd.delimiter (x ++ CRLF ++ y) =
      offsets fd.delimiter x ++ (offsets fd.delimiter y).map (· + (x.length + 2)) := by
  have hnil : offsets fd.delimiter ([] ++ 10 :: y) = (offsets fd.delimiter y).map (· + 1) :=
    offsets_append_cons fd.delimiter_ne_nil (fd.notMem_delimiter (by decide)) [] y
  rw [List.append_assoc, CRLF, List.cons_append, offsets_append_cons fd.delimiter_ne_nil
    (fd.notMem_delimiter (by decide)) x, List.cons_append, List.nil_append, ← List.nil_append (10 :: y), hnil,
    List.map_map]
  simp [Function.comp_def, Nat.add_comm, Nat.add_left_comm]

theorem offsets_part (field : Field) {body : List UInt8} (h : ¬ fd.delimiter <:+: body) (y : List UInt8) :
    offsets fd.delimiter (fd.delimiter ++ fd.part field body ++ y) =
      0 :: (offsets fd.delimiter y).map (· + (fd.delimiter ++ fd.part field body).length) := by
  have hfirst := fd.offsets_delimiter [] (by decide)
  have hnil : offsets fd.delimiter [] = [] := rfl
  have hregroup : fd.delimiter ++ fd.part field body ++ y =
      fd.delimiter ++ CRLF ++ (getBytes (fd.headers field) ++ CRLF ++ ([] ++ CRLF ++ (body ++ CRLF ++ y))) := by
    simp [part]
  rw [List.append_nil] at hfirst
  rw [hregroup, offsets_delimiter_append, hfirst, offsets_delimiter_append, offsets_eq_nil (fd.not_infix_headers field),
    offsets_delimiter_append, hnil, offsets_delimiter_append, offsets_eq_nil h]
  simp only [List.nil_append, List.cons_append, List.map_map, Function.comp_def]
  refine congrArg (0 :: ·) (List.map_congr_left fun a _ => ?_)
  simp [part, CRLF]
  omega

theorem pipe_eq (ast json : List UInt8) :
    fd.pipe [(fd.headers .ast, ast), (fd.headers .json, json)] =
      fd.delimiter ++ fd.part .ast ast ++ (fd.delimiter ++ fd.part .json json ++
        (fd.delimiter ++ (getBytes "--" ++ CRLF))) := by
  simp [pipe, part]

theorem split_pipe {ast json : List UInt8} (hast : ¬ fd.delimiter <:+: ast) (hjson : ¬ fd.delimiter <:+: json) :
    split (fd.pipe [(fd.headers .ast, ast), (fd.headers .json, json)]) fd.delimiter =
      .ok [[], fd.part .ast ast, fd.part .json json, getBytes "--" ++ CRLF] := by
  have hlast : offsets fd.delimiter (fd.delimiter ++ (getBytes "--" ++ CRLF)) = [0] := by
    have hregroup : fd.delimiter ++ (getBytes "--" ++ CRLF) = fd.delimiter ++ getBytes "--" ++ CRLF ++ [] := by simp
    rw [hregroup, offsets_delimiter_append, fd.offsets_delimiter _ (by decide)]
    rfl
  rw [pipe_eq, split_eq fd.delimiter_ne_nil, fd.offsets_part .ast hast, fd.offsets_part .json hjson, hlast]
  generalize fd.part .ast ast = p, fd.part .json json = q, getBytes "--" ++ CRLF = r, fd.delimiter = d
  generalize harray : d ++ p ++ (d ++ q ++ (d ++ r)) = array
  have h₀ : copyOfRange array 0 0 = .ok [] := copyOfRange_append [] [] array rfl rfl rfl
  have h₁ : copyOfRange array d.length (d ++ p).length = .ok p :=
    copyOfRange_append d p _ harray.symm rfl (by simp)
  have h₂ : copyOfRange array ((d ++ p).length + d.length) ((d ++ q).length + (d ++ p).length) = .ok q :=
    copyOfRange_append (d ++ p ++ d) q (d ++ r) (by simp [← harray]) (by simp; omega) (by simp; omega)
  have h₃ : copyOfRange array ((d ++ q).length + (d ++ p).length + d.length) array.length = .ok r :=
    copyOfRange_append (d ++ p ++ d ++ q ++ d) r [] (by simp [← harray]) (by simp; omega) (by simp [← harray]; omega)
  simp only [List.map_cons, List.map_nil, Nat.zero_add, List.foldlM_cons, List.foldlM_nil, splitAt, h₀, h₁, h₂, h₃,
    bind, Except.bind, pure, Except.pure, List.nil_append, List.cons_append]

/-! ### The parts -/

theorem indexOf_part (field : Field) (body : List UInt8) :
    indexOf (fd.part field body) (CRLF ++ CRLF) = some (2 + (getBytes (fd.headers field)).length) := by
  have hregroup : fd.part field body =
      CRLF ++ getBytes (fd.headers field) ++ CRLF ++ CRLF ++ (body ++ CRLF) := by simp [part]
  rw [indexOf_eq (by decide), hregroup]
  refine head?_offsets_append (fd.emptyLine field) ?_ _
  simp [CRLF]
  omega

theorem parsePart_part (malformed : List UInt8 → String) (parsed : Parsed) (field : Field) (body : List UInt8) :
    parsePart malformed parsed (fd.part field body) =
      .ok (match field with
        | .ast => { parsed with ast := some body }
        | .json => { parsed with json := some (newString malformed body) }) := by
  have hheaders : copyOfRange (fd.part field body) 2 (2 + (getBytes (fd.headers field)).length) =
      .ok (getBytes (fd.headers field)) :=
    copyOfRange_append CRLF _ (CRLF ++ CRLF ++ body ++ CRLF) (by simp [part]) rfl rfl
  have hbody : copyOfRange (fd.part field body) (2 + (getBytes (fd.headers field)).length + 4)
      ((fd.part field body).length - 2) = .ok body :=
    copyOfRange_append (CRLF ++ getBytes (fd.headers field) ++ CRLF ++ CRLF) body CRLF (by simp [part])
      (by simp [CRLF]; omega) (by simp [part, CRLF]; omega)
  rw [parsePart, indexOf_part]
  simp only [hheaders, hbody, newString_getBytes, fd.mentions_json, bind, Except.bind, pure, Except.pure]
  cases field with
  | ast => rw [if_neg (by decide), if_pos fd.mentions_ast]
  | json => rw [if_pos rfl]

/-! ### The Content-Type -/

theorem notMem_boundary {c : Char} (hhyphen : c ≠ '-') (hdigit : ¬ c.isDigit) : c ∉ fd.boundary.toList := by
  rw [boundary, String.toList_ofList, List.mem_append, not_or]
  exact ⟨fun hc => hhyphen (List.eq_of_mem_replicate hc), fun hc => hdigit (fd.isDigit c hc)⟩

theorem stringSplit_contentType : (stringSplit "boundary=" fd.contentType)[1]? = some fd.boundary := by
  refine stringSplit_boundary fd.boundary ?_ ?_
  · cases hsplit : splitFirst "boundary=".toList fd.boundary.toList with
    | none => rfl
    | some split =>
      refine absurd ?_ (fd.notMem_boundary (c := 'b') (by decide) (by decide))
      rw [splitFirst_eq_some hsplit]
      simp
  · rw [boundary, String.toList_ofList]
    exact List.append_ne_nil_of_left_ne_nil (by decide) _

end Package

/-- Both payloads come back as they were sent. -/
theorem parseFormData_sendFormData {Node : Type} (malformed : List UInt8 → String)
    (parseProtobuf : List UInt8 → Option Node) (fd : Package) (ast : List UInt8) (json : String)
    (hast : ¬ fd.delimiter <:+: ast) (hjson : ¬ fd.delimiter <:+: getBytes json) :
    parseFormData malformed parseProtobuf (sendFormData fd ast json).1 (sendFormData fd ast json).2 =
      .ok (json, parseProtobuf ast) := by
  have hempty : ∀ parsed, parsePart malformed parsed [] = .ok parsed := fun _ => rfl
  have hend : ∀ parsed, parsePart malformed parsed (getBytes "--" ++ CRLF) = .ok parsed := by
    intro parsed
    have hnone : indexOf (getBytes "--" ++ CRLF) (CRLF ++ CRLF) = none := by decide
    rw [parsePart, hnone]
    rfl
  rw [parseFormData, sendFormData]
  simp only [fd.stringSplit_contentType]
  have hsplit := fd.split_pipe hast hjson
  rw [Package.delimiter] at hsplit
  rw [hsplit]
  simp only [List.foldlM_cons, List.foldlM_nil, hempty, hend, Package.parsePart_part, newString_getBytes, bind, Except.bind,
    pure, Except.pure]

/-! ### A response -/

set_option maxRecDepth 4000 in
/-- The headers that the package writes. -/
def formData : Package where
  digits := List.replicate 24 '7'
  length_digits := List.length_replicate
  isDigit c hc := by
    rw [List.eq_of_mem_replicate hc]
    decide
  headers
    | .ast => "Content-Disposition: form-data; name=\"ast\"; filename=\"ast\"\r\nContent-Type: application/octet-stream"
    | .json => "Content-Disposition: form-data; name=\"json\""
  emptyLine := by rintro (_ | _) <;> decide
  hyphens := by rintro (_ | _) <;> decide
  mentions_ast := by decide
  mentions_json := by rintro (_ | _) <;> decide

/-- Line breaks, an empty line, hyphens and a byte that is not UTF-8. -/
theorem parseFormData_sendFormData_bytes :
    parseFormData (fun _ => "") some (sendFormData formData [13, 10, 45, 45, 13, 10, 13, 10, 255] "\x7b\x7d").1
        (sendFormData formData [13, 10, 45, 45, 13, 10, 13, 10, 255] "\x7b\x7d").2 =
      .ok ("\x7b\x7d", some [13, 10, 45, 45, 13, 10, 13, 10, 255]) :=
  parseFormData_sendFormData _ _ _ _ _ (by decide) (by decide)

end SonarJavascript.Bridge.FormData

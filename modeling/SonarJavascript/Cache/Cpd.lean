import SonarJavascript.Cache.VarLength
import SonarJavascript.Lib.ListResults

/-!
# Tokens of copy-paste detection

`CpdSerializer` and `CpdDeserializer`. The images of the tokens are interned in a string table in the
order in which they are first seen; the tokens refer to them by index. Tokens and table are written to
two streams.
-/

namespace SonarJavascript.Cache

open ListResults

/-- Start line, start column, end line and end column. -/
structure Location where
  startLine : JInt
  startCol : JInt
  endLine : JInt
  endCol : JInt
  deriving DecidableEq, Repr

structure CpdToken where
  location : Location
  image : String
  deriving DecidableEq, Repr

abbrev CpdData := List CpdToken

/-! ### String table -/

/-- The index of a text in the map is a position of the text in the list. -/
structure StringTable where
  table : List (String × ℕ)
  byIndex : List String
  agrees : ∀ s i, table.lookup s = some i → byIndex[i]? = some s

namespace StringTable

def empty : StringTable :=
  ⟨[], [], fun _ _ h => by cases h⟩

/-- `computeIfAbsent`: a text that is new gets the next index. -/
def getIndex (t : StringTable) (s : String) : ℕ × StringTable :=
  match h : t.table.lookup s with
  | some i => (i, t)
  | none =>
    (t.byIndex.length,
      { table := (s, t.byIndex.length) :: t.table
        byIndex := t.byIndex ++ [s]
        agrees := fun s' i h' => by
          by_cases hs : s' = s
          · subst hs
            obtain rfl : t.byIndex.length = i := by simpa using h'
            simp
          · rw [List.lookup_cons, beq_false_of_ne hs] at h'
            have hold := t.agrees s' i h'
            rwa [List.getElem?_append_left (List.getElem?_eq_some_iff.mp hold).1] })

variable (t : StringTable) (s : String)

theorem byIndex_prefix_getIndex : t.byIndex <+: (t.getIndex s).2.byIndex := by
  unfold getIndex
  split
  · exact List.prefix_refl _
  · exact List.prefix_append _ _

theorem getElem?_getIndex : (t.getIndex s).2.byIndex[(t.getIndex s).1]? = some s := by
  unfold getIndex
  split
  · rename_i i h
    exact t.agrees s i h
  · simp

end StringTable

/-! ### Serialization -/

/-- The bytes of a token, and the table with its image. -/
def writeToken (t : StringTable) (token : CpdToken) : Bytes × StringTable :=
  let (index, t) := t.getIndex token.image
  (writeInt token.location.startLine ++ writeInt token.location.startCol ++
    writeInt token.location.endLine ++ writeInt token.location.endCol ++
      writeInt (BitVec.ofNat 32 index), t)

def writeTokens (t : StringTable) : List CpdToken → Bytes × StringTable
  | [] => ([], t)
  | token :: rest =>
    let (bytes, t) := writeToken t token
    let (others, t) := writeTokens t rest
    (bytes ++ others, t)

def writeStringTable (byIndex : List String) : Bytes :=
  writeInt (BitVec.ofNat 32 byIndex.length) ++ byIndex.flatMap writeUTF ++ writeUTF "END"

structure SerializationResult where
  data : Bytes
  stringTable : Bytes
  deriving DecidableEq, Repr

/-- The streams are arrays, and have to be within the limit. -/
def toBinary (vm : Jvm) (cpdData : CpdData) : Except JavaException SerializationResult :=
  let (tokens, t) := writeTokens .empty cpdData
  let data := writeInt (BitVec.ofNat 32 cpdData.length) ++ tokens ++ writeUTF "END"
  let stringTable := writeStringTable t.byIndex
  if data.length ≤ vm.arrayLimit ∧ stringTable.length ≤ vm.arrayLimit then .ok ⟨data, stringTable⟩
  else .error .outOfMemory

/-! ### Deserialization -/

def readTexts (vm : Jvm) : ℕ → Bytes → Except JavaException (List String × Bytes)
  | 0, s => .ok ([], s)
  | n + 1, s => do
    let (text, s) ← readUTF vm s
    let (rest, s) ← readTexts vm n s
    return (text :: rest, s)

def readEnd (vm : Jvm) (s : Bytes) : Except JavaException Bytes := do
  let (text, s) ← readUTF vm s
  if text = "END" then return s else .error (.io "Can't read data from cache, format corrupted")

def readStringTable (vm : Jvm) (s : Bytes) : Except JavaException (List String × Bytes) := do
  let (size, s) ← readInt s
  let size ← newArrayList vm size
  let (byIndex, s) ← readTexts vm size s
  let s ← readEnd vm s
  return (byIndex, s)

/-- `byIndex.get(index)` -/
def getString (byIndex : List String) (index : JInt) : Except JavaException String :=
  if index.toInt < 0 then .error .indexOutOfBounds
  else
    match byIndex[index.toNat]? with
    | some s => .ok s
    | none => .error .indexOutOfBounds

def readLocation (s : Bytes) : Except JavaException (Location × Bytes) := do
  let (startLine, s) ← readInt s
  let (startCol, s) ← readInt s
  let (endLine, s) ← readInt s
  let (endCol, s) ← readInt s
  return (⟨startLine, startCol, endLine, endCol⟩, s)

def readCpdToken (byIndex : List String) (s : Bytes) : Except JavaException (CpdToken × Bytes) := do
  let (location, s) ← readLocation s
  let (index, s) ← readInt s
  let image ← getString byIndex index
  return (⟨location, image⟩, s)

def readCpdTokens (byIndex : List String) : ℕ → Bytes → Except JavaException (List CpdToken × Bytes)
  | 0, s => .ok ([], s)
  | n + 1, s => do
    let (token, s) ← readCpdToken byIndex s
    let (rest, s) ← readCpdTokens byIndex n s
    return (token :: rest, s)

/-- The tokens, and what is left of the two streams. -/
def readData (vm : Jvm) (data stringTable : Bytes) :
    Except JavaException (CpdData × Bytes × Bytes) := do
  let (byIndex, stringTable) ← readStringTable vm stringTable
  let (size, data) ← readInt data
  let size ← newArrayList vm size
  let (tokens, data) ← readCpdTokens byIndex size data
  let data ← readEnd vm data
  return (tokens, data, stringTable)

/-- An `IOException` is wrapped into another one. -/
def wrap {α : Type} : Except JavaException α → Except JavaException α
  | .error (.io _) => .error (.io "Can't deserialize data from the cache")
  | result => result

/-- The tokens, and what is left of the two streams when they are closed. -/
def convert (vm : Jvm) (data stringTable : Bytes) : Except JavaException (CpdData × Bytes × Bytes) :=
  wrap (readData vm data stringTable)

def fromBinary (vm : Jvm) (data stringTable : Bytes) : Except JavaException CpdData :=
  (convert vm data stringTable).map Prod.fst

/-! ### Round trip of the string table -/

section RoundTrip

variable {vm : Jvm}

theorem readTexts_writeUTF (texts : List String) (rest : Bytes)
    (h : ∀ s ∈ texts, (getBytes s).length ≤ vm.arrayLimit) :
    readTexts vm texts.length (texts.flatMap writeUTF ++ rest) = .ok (texts, rest) := by
  induction texts with
  | nil => rfl
  | cons s texts ih =>
    have hs := h s List.mem_cons_self
    have htexts := ih fun s' hs' => h s' (List.mem_cons_of_mem _ hs')
    rw [List.length_cons, readTexts, List.flatMap_cons, List.append_assoc, readUTF_writeUTF hs]
    simp only [ok_bind, htexts]
    rfl

theorem readEnd_writeUTF (rest : Bytes) (h : 3 ≤ vm.arrayLimit) :
    readEnd vm (writeUTF "END" ++ rest) = .ok rest := by
  have hlength : (getBytes "END").length = 3 := by decide
  rw [readEnd, readUTF_writeUTF (by omega)]
  rfl

theorem length_le_flatMap_writeUTF (texts : List String) :
    texts.length ≤ (texts.flatMap writeUTF).length ∧
      ∀ s ∈ texts, (getBytes s).length ≤ (texts.flatMap writeUTF).length := by
  induction texts with
  | nil => simp
  | cons s texts ih =>
    obtain ⟨hcount, htexts⟩ := ih
    have hpos : 0 < (writeUTF s).length := by
      have := length_writeInt_pos (BitVec.ofNat 32 (getBytes s).length)
      simp only [writeUTF, List.length_append]
      omega
    have hs := length_getBytes_le s
    refine ⟨?_, fun s' hs' => ?_⟩
    · simp only [List.length_cons, List.flatMap_cons, List.length_append]
      omega
    · simp only [List.flatMap_cons, List.length_append]
      rcases List.mem_cons.mp hs' with rfl | hs'
      · omega
      · have := htexts s' hs'
        omega

theorem three_le_writeUTF_end : 3 ≤ (writeUTF "END").length := by
  have hlength : (getBytes "END").length = 3 := by decide
  have := length_getBytes_le "END"
  omega

theorem readStringTable_writeStringTable (texts : List String) (rest : Bytes)
    (h : (writeStringTable texts).length ≤ vm.arrayLimit) :
    readStringTable vm (writeStringTable texts ++ rest) = .ok (texts, rest) := by
  obtain ⟨hcount, hlengths⟩ := length_le_flatMap_writeUTF texts
  have hend := three_le_writeUTF_end
  simp only [writeStringTable, List.length_append] at h
  have hsize : newArrayList vm (BitVec.ofNat 32 texts.length) = .ok texts.length :=
    newArrayList_count (by omega)
  have hlimit : 3 ≤ vm.arrayLimit := by omega
  have htexts := @readTexts_writeUTF vm texts (writeUTF "END" ++ rest) fun s hs => by
    have := hlengths s hs
    omega
  rw [readStringTable, writeStringTable, List.append_assoc, List.append_assoc, readInt_writeInt]
  simp only [ok_bind, hsize, htexts, readEnd_writeUTF rest hlimit]
  rfl

/-! ### Round trip of the tokens -/

theorem byIndex_prefix_writeToken (t : StringTable) (token : CpdToken) :
    t.byIndex <+: (writeToken t token).2.byIndex :=
  t.byIndex_prefix_getIndex token.image

theorem byIndex_prefix_writeTokens (t : StringTable) (tokens : List CpdToken) :
    t.byIndex <+: (writeTokens t tokens).2.byIndex := by
  induction tokens generalizing t with
  | nil => exact List.prefix_refl _
  | cons token rest ih => exact (byIndex_prefix_writeToken t token).trans (ih _)

/-- The index that a token has got leads to its image, also when more texts have been added since. -/
theorem getString_getIndex {t : StringTable} {s : String} {byIndex : List String}
    (hstart : (t.getIndex s).2.byIndex <+: byIndex) (hlimit : byIndex.length ≤ vm.arrayLimit) :
    getString byIndex (BitVec.ofNat 32 (t.getIndex s).1) = .ok s := by
  have hget : byIndex[(t.getIndex s).1]? = some s := by
    obtain ⟨added, rfl⟩ := hstart
    have hold := t.getElem?_getIndex s
    rwa [List.getElem?_append_left (List.getElem?_eq_some_iff.mp hold).1]
  have hlt : (t.getIndex s).1 < byIndex.length := (List.getElem?_eq_some_iff.mp hget).1
  have hindex : (t.getIndex s).1 ≤ vm.arrayLimit := by omega
  rw [getString, if_neg (toInt_count_nonneg hindex), toNat_count hindex, hget]

theorem readLocation_writeInt (l : Location) (rest : Bytes) :
    readLocation (writeInt l.startLine ++ (writeInt l.startCol ++ (writeInt l.endLine ++
      (writeInt l.endCol ++ rest)))) = .ok (l, rest) := by
  simp only [readLocation, readInt_writeInt, ok_bind]
  rfl

theorem readCpdToken_writeToken {t : StringTable} {token : CpdToken} {byIndex : List String}
    (hstart : (writeToken t token).2.byIndex <+: byIndex) (hlimit : byIndex.length ≤ vm.arrayLimit)
    (rest : Bytes) :
    readCpdToken byIndex ((writeToken t token).1 ++ rest) = .ok (token, rest) := by
  simp only [writeToken, List.append_assoc, readCpdToken, readLocation_writeInt, ok_bind,
    readInt_writeInt, getString_getIndex hstart hlimit]
  rfl

/-- The table only grows, so that the last one explains the indices of every token. -/
theorem readCpdTokens_writeTokens {t : StringTable} {tokens : List CpdToken} {byIndex : List String}
    (hstart : (writeTokens t tokens).2.byIndex <+: byIndex) (hlimit : byIndex.length ≤ vm.arrayLimit)
    (rest : Bytes) :
    readCpdTokens byIndex tokens.length ((writeTokens t tokens).1 ++ rest) = .ok (tokens, rest) := by
  induction tokens generalizing t with
  | nil => rfl
  | cons token tokens ih =>
    have htoken : (writeToken t token).2.byIndex <+: byIndex :=
      (byIndex_prefix_writeTokens _ tokens).trans hstart
    have htokens : readCpdTokens byIndex tokens.length
        ((writeTokens (writeToken t token).2 tokens).1 ++ rest) = .ok (tokens, rest) := ih hstart
    rw [List.length_cons, readCpdTokens, writeTokens]
    simp only [List.append_assoc, readCpdToken_writeToken htoken hlimit, ok_bind, htokens]
    rfl

theorem length_le_writeTokens (t : StringTable) (tokens : List CpdToken) :
    tokens.length ≤ (writeTokens t tokens).1.length := by
  induction tokens generalizing t with
  | nil => exact Nat.zero_le _
  | cons token tokens ih =>
    have hrest := ih (writeToken t token).2
    have hpos := length_writeInt_pos token.location.startLine
    simp only [writeTokens, writeToken, List.length_cons, List.length_append] at hrest ⊢
    omega

/-- Tokens are read as they were written, and nothing is left of the two streams. -/
theorem readData_toBinary {cpdData : CpdData} {r : SerializationResult}
    (h : toBinary vm cpdData = .ok r) : readData vm r.data r.stringTable = .ok (cpdData, [], []) := by
  obtain ⟨⟨hdata, htable⟩, rfl⟩ : (_ ∧ _) ∧ _ = r := by
    simp only [toBinary] at h
    split at h
    · exact ⟨‹_›, Except.ok.inj h⟩
    · cases h
  have hend := three_le_writeUTF_end
  have hcount := length_le_writeTokens .empty cpdData
  have htexts := (length_le_flatMap_writeUTF (writeTokens .empty cpdData).2.byIndex).1
  have htexts' : (writeTokens .empty cpdData).2.byIndex.length ≤ vm.arrayLimit := by
    simp only [writeStringTable, List.length_append] at htable
    omega
  simp only [List.length_append] at hdata
  have hsize : newArrayList vm (BitVec.ofNat 32 cpdData.length) = .ok cpdData.length :=
    newArrayList_count (by omega)
  have hread := readStringTable_writeStringTable _ [] htable
  rw [List.append_nil] at hread
  have htokens := readCpdTokens_writeTokens (List.prefix_refl _) htexts' (writeUTF "END")
  have hlast := @readEnd_writeUTF vm [] (by omega)
  rw [List.append_nil] at hlast
  rw [readData, hread, ok_bind]
  simp only [List.append_assoc, readInt_writeInt, ok_bind, hsize, htokens, hlast]
  rfl

theorem convert_toBinary {cpdData : CpdData} {r : SerializationResult}
    (h : toBinary vm cpdData = .ok r) : convert vm r.data r.stringTable = .ok (cpdData, [], []) := by
  rw [convert, readData_toBinary h]
  rfl

/-- What has been written to the cache is read back, from the first byte of both streams to the last. -/
theorem fromBinary_toBinary {cpdData : CpdData} {r : SerializationResult}
    (h : toBinary vm cpdData = .ok r) :
    fromBinary vm r.data r.stringTable = .ok cpdData ∧
      convert vm r.data r.stringTable = .ok (cpdData, [], []) := by
  have hconvert := convert_toBinary h
  refine ⟨?_, hconvert⟩
  rw [fromBinary, hconvert]
  rfl

end RoundTrip

def hotSpot : Jvm :=
  ⟨2147483645, by decide, fun _ => "\uFFFD"⟩

theorem fromBinary_toBinary_repeated :
    fromBinary hotSpot
        [2, 1, 0, 1, 255, 255, 255, 255, 15, 0, 172, 2, 2, 172, 2, 3, 0, 3, 69, 78, 68]
        [1, 1, 97, 3, 69, 78, 68] = .ok [⟨⟨1, 0, 1, -1⟩, "a"⟩, ⟨⟨300, 2, 300, 3⟩, "a"⟩] ∧
      convert hotSpot
        [2, 1, 0, 1, 255, 255, 255, 255, 15, 0, 172, 2, 2, 172, 2, 3, 0, 3, 69, 78, 68]
        [1, 1, 97, 3, 69, 78, 68] = .ok ([⟨⟨1, 0, 1, -1⟩, "a"⟩, ⟨⟨300, 2, 300, 3⟩, "a"⟩], [], []) := by
  have h : toBinary hotSpot [⟨⟨1, 0, 1, -1⟩, "a"⟩, ⟨⟨300, 2, 300, 3⟩, "a"⟩] =
      .ok ⟨[2, 1, 0, 1, 255, 255, 255, 255, 15, 0, 172, 2, 2, 172, 2, 3, 0, 3, 69, 78, 68],
        [1, 1, 97, 3, 69, 78, 68]⟩ := by
    decide +kernel
  exact fromBinary_toBinary h

end SonarJavascript.Cache

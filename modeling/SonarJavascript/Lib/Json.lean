import Mathlib.Data.Nat.Digits.Lemmas
import SonarJavascript.Lib.Utf16

/-!
# JSON

The writer and the reader of JSON texts, as lists of UTF-16 code units. What is written is read back
(`parse_stringify`). Numbers are of any type whose values are written in the characters of number literals.
-/

namespace SonarJavascript.Json

open Utf16

/-! ### Numbers -/

/-- Digits, signs, the point and the letter of an exponent. -/
def isNumberUnit (unit : ℕ) : Bool := (48 ≤ unit && unit ≤ 57) || unit ∈ [43, 45, 46, 69, 101]

/-- How the numbers are written, and which texts are read as numbers. -/
structure NumberFormat (Num : Type) where
  text : Num → List ℕ
  read : List ℕ → Option Num
  read_text : ∀ n, read (text n) = some n
  text_ne_nil : ∀ n, text n ≠ []
  isNumberUnit_text : ∀ n, ∀ unit ∈ text n, isNumberUnit unit = true

/-- Natural numbers with their decimal digits. -/
def decimal : NumberFormat ℕ where
  text n := if n = 0 then [48] else ((Nat.digits 10 n).map (48 + ·)).reverse
  read text :=
    if text ≠ [] ∧ ∀ unit ∈ text, 48 ≤ unit ∧ unit ≤ 57 then some (Nat.ofDigits 10 (text.reverse.map (· - 48)))
    else none
  read_text := by
    intro n
    split_ifs with hzero hdigits hdigits
    · rw [hzero]
      rfl
    · exact absurd ⟨List.cons_ne_nil _ _, by decide⟩ hdigits
    · simp [Function.comp_def, Nat.ofDigits_digits]
    · refine absurd ⟨by simpa [Nat.digits_eq_nil_iff_eq_zero] using hzero, fun unit hunit => ?_⟩ hdigits
      obtain ⟨digit, hdigit, rfl⟩ := List.mem_map.mp (List.mem_reverse.mp hunit)
      have := Nat.digits_lt_base (by decide) hdigit
      omega
  text_ne_nil := by
    intro n
    split_ifs with hzero
    · exact List.cons_ne_nil _ _
    · simpa [Nat.digits_eq_nil_iff_eq_zero] using hzero
  isNumberUnit_text := by
    intro n unit hunit
    split_ifs at hunit with hzero
    · obtain rfl := List.mem_singleton.mp hunit
      rfl
    · obtain ⟨digit, hdigit, rfl⟩ := List.mem_map.mp (List.mem_reverse.mp hunit)
      have hlt := Nat.digits_lt_base (by decide) hdigit
      simp only [isNumberUnit, Bool.or_eq_true, Bool.and_eq_true, decide_eq_true_eq]
      omega

/-! ### Values -/

inductive Value (Num : Type)
  | null
  | bool (b : Bool)
  | number (n : Num)
  | string (s : List ℕ)
  | array (items : List (Value Num))
  | object (members : List (List ℕ × Value Num))

/-! ### Strings -/

def hexUnit (digit : ℕ) : ℕ := if digit < 10 then 48 + digit else 87 + digit

def hexDigit (unit : ℕ) : Option ℕ :=
  if 48 ≤ unit ∧ unit ≤ 57 then some (unit - 48)
  else if 65 ≤ unit ∧ unit ≤ 70 then some (unit - 55)
  else if 97 ≤ unit ∧ unit ≤ 102 then some (unit - 87)
  else none

def unicodeEscape (unit : ℕ) : List ℕ :=
  [92, 117, hexUnit (unit / 4096), hexUnit (unit / 256 % 16), hexUnit (unit / 16 % 16), hexUnit (unit % 16)]

/-- A unit that is no half of a pair. -/
def quoteUnit (unit : ℕ) : List ℕ :=
  if unit = 8 then [92, 98]
  else if unit = 9 then [92, 116]
  else if unit = 10 then [92, 110]
  else if unit = 12 then [92, 102]
  else if unit = 13 then [92, 114]
  else if unit = 34 then [92, 34]
  else if unit = 92 then [92, 92]
  else if unit < 32 ∨ isHigh unit = true ∨ isLow unit = true then unicodeEscape unit
  else [unit]

/-- The units between the quotes. -/
def quoteBody : List ℕ → List ℕ
  | [] => []
  | [unit] => quoteUnit unit
  | high :: low :: rest =>
    if isHigh high = true ∧ isLow low = true then high :: low :: quoteBody rest
    else quoteUnit high ++ quoteBody (low :: rest)

def quote (s : List ℕ) : List ℕ := 34 :: (quoteBody s ++ [34])

def simpleEscape (unit : ℕ) : Option ℕ :=
  if unit = 34 then some 34
  else if unit = 92 then some 92
  else if unit = 47 then some 47
  else if unit = 98 then some 8
  else if unit = 102 then some 12
  else if unit = 110 then some 10
  else if unit = 114 then some 13
  else if unit = 116 then some 9
  else none

/-- The number of four hexadecimal digits. -/
def hexNumber (a b c d : ℕ) : Option ℕ :=
  match hexDigit a, hexDigit b, hexDigit c, hexDigit d with
  | some a, some b, some c, some d => some (((a * 16 + b) * 16 + c) * 16 + d)
  | _, _, _, _ => none

/-- The units up to the closing quote, and the rest. -/
def readString : List ℕ → Option (List ℕ × List ℕ)
  | [] => none
  | 34 :: rest => some ([], rest)
  | 92 :: 117 :: a :: b :: c :: d :: rest =>
    match hexNumber a b c d, readString rest with
    | some unit, some (s, rest) => some (unit :: s, rest)
    | _, _ => none
  | 92 :: escape :: rest =>
    match simpleEscape escape, readString rest with
    | some unit, some (s, rest) => some (unit :: s, rest)
    | _, _ => none
  | unit :: rest =>
    if unit < 32 ∨ unit = 92 then none
    else
      match readString rest with
      | some (s, rest) => some (unit :: s, rest)
      | none => none

/-! ### Writing -/

section

variable {Num : Type} (format : NumberFormat Num)

mutual

def stringify : Value Num → List ℕ
  | .null => [110, 117, 108, 108]
  | .bool true => [116, 114, 117, 101]
  | .bool false => [102, 97, 108, 115, 101]
  | .number n => format.text n
  | .string s => quote s
  | .array [] => [91, 93]
  | .array (item :: items) => 91 :: (stringify item ++ stringifyItems items)
  | .object [] => [123, 125]
  | .object ((key, value) :: members) => 123 :: (quote key ++ 58 :: (stringify value ++ stringifyMembers members))

/-- The items after the first one, with the bracket. -/
def stringifyItems : List (Value Num) → List ℕ
  | [] => [93]
  | item :: items => 44 :: (stringify item ++ stringifyItems items)

/-- The members after the first one, with the brace. -/
def stringifyMembers : List (List ℕ × Value Num) → List ℕ
  | [] => [125]
  | (key, value) :: members => 44 :: (quote key ++ 58 :: (stringify value ++ stringifyMembers members))

end

/-! ### Reading -/

def isWhiteSpace (unit : ℕ) : Bool := unit ∈ [9, 10, 13, 32]

def skip (text : List ℕ) : List ℕ := text.dropWhile isWhiteSpace

def readNumber (text : List ℕ) : Option (Value Num × List ℕ) :=
  (format.read (text.takeWhile isNumberUnit)).map fun n => (.number n, text.dropWhile isNumberUnit)

mutual

/-- There is no value when the fuel does not suffice. -/
def readValue : ℕ → List ℕ → Option (Value Num × List ℕ)
  | 0, _ => none
  | fuel + 1, text =>
    match skip text with
    | 110 :: 117 :: 108 :: 108 :: rest => some (.null, rest)
    | 116 :: 114 :: 117 :: 101 :: rest => some (.bool true, rest)
    | 102 :: 97 :: 108 :: 115 :: 101 :: rest => some (.bool false, rest)
    | 34 :: rest => (readString rest).map fun (s, rest) => (.string s, rest)
    | 91 :: rest =>
      match skip rest with
      | 93 :: rest => some (.array [], rest)
      | rest =>
        match readValue fuel rest with
        | some (item, rest) => (readItems fuel rest).map fun (items, rest) => (.array (item :: items), rest)
        | none => none
    | 123 :: rest =>
      match skip rest with
      | 125 :: rest => some (.object [], rest)
      | rest =>
        match readMember fuel rest with
        | some (member, rest) =>
          (readMembers fuel rest).map fun (members, rest) => (.object (member :: members), rest)
        | none => none
    | text => readNumber format text

def readItems : ℕ → List ℕ → Option (List (Value Num) × List ℕ)
  | 0, _ => none
  | fuel + 1, text =>
    match skip text with
    | 93 :: rest => some ([], rest)
    | 44 :: rest =>
      match readValue fuel rest with
      | some (item, rest) => (readItems fuel rest).map fun (items, rest) => (item :: items, rest)
      | none => none
    | _ => none

def readMember : ℕ → List ℕ → Option ((List ℕ × Value Num) × List ℕ)
  | 0, _ => none
  | fuel + 1, text =>
    match skip text with
    | 34 :: rest =>
      match readString rest with
      | some (key, rest) =>
        match skip rest with
        | 58 :: rest => (readValue fuel rest).map fun (value, rest) => ((key, value), rest)
        | _ => none
      | none => none
    | _ => none

def readMembers : ℕ → List ℕ → Option (List (List ℕ × Value Num) × List ℕ)
  | 0, _ => none
  | fuel + 1, text =>
    match skip text with
    | 125 :: rest => some ([], rest)
    | 44 :: rest =>
      match readMember fuel rest with
      | some (member, rest) => (readMembers fuel rest).map fun (members, rest) => (member :: members, rest)
      | none => none
    | _ => none

end

/-- Nothing but white space is after the value. -/
def parse (text : List ℕ) : Option (Value Num) :=
  match readValue format text.length text with
  | some (value, rest) => if skip rest = [] then some value else none
  | none => none

/-! ### Strings are read back -/

theorem hexDigit_hexUnit : ∀ digit < 16, hexDigit (hexUnit digit) = some digit := by decide

theorem readString_raw {unit : ℕ} (hmin : 32 ≤ unit) (hquote : unit ≠ 34) (hbackslash : unit ≠ 92) (rest : List ℕ) :
    readString (unit :: rest) = (readString rest).map fun (s, rest) => (unit :: s, rest) := by
  rw [readString.eq_def]
  split
  · rename_i heq
    cases heq
  · rename_i heq
    exact absurd (List.cons.inj heq).1 hquote
  · rename_i heq
    exact absurd (List.cons.inj heq).1 hbackslash
  · rename_i heq
    exact absurd (List.cons.inj heq).1 hbackslash
  · rename_i heq
    obtain ⟨rfl, rfl⟩ := List.cons.inj heq
    rw [if_neg (by omega)]
    cases readString rest <;> rfl

theorem readString_simple {escape unit : ℕ} (h : simpleEscape escape = some unit) (rest : List ℕ) :
    readString (92 :: escape :: rest) = (readString rest).map fun (s, rest) => (unit :: s, rest) := by
  have hne : escape ≠ 117 := by
    rintro rfl
    simp [simpleEscape] at h
  rw [readString.eq_def]
  split
  · rename_i heq
    cases heq
  · rename_i heq
    exact absurd (List.cons.inj heq).1 (by decide)
  · rename_i heq
    exact absurd (List.cons.inj (List.cons.inj heq).2).1 hne
  · rename_i heq
    obtain ⟨-, hrest⟩ := List.cons.inj heq
    obtain ⟨rfl, rfl⟩ := List.cons.inj hrest
    rw [h]
    cases readString rest <;> rfl
  · rename_i hnot heq
    obtain ⟨rfl, rfl⟩ := List.cons.inj heq
    exact (hnot escape rest rfl rfl).elim

theorem readString_unicodeEscape {unit : ℕ} (h : unit < 65536) (rest : List ℕ) :
    readString (unicodeEscape unit ++ rest) = (readString rest).map fun (s, rest) => (unit :: s, rest) := by
  have hnumber : hexNumber (hexUnit (unit / 4096)) (hexUnit (unit / 256 % 16)) (hexUnit (unit / 16 % 16))
      (hexUnit (unit % 16)) = some unit := by
    rw [hexNumber, hexDigit_hexUnit _ (by omega), hexDigit_hexUnit _ (by omega), hexDigit_hexUnit _ (by omega),
      hexDigit_hexUnit _ (by omega)]
    exact congrArg some (by omega)
  simp only [unicodeEscape, List.cons_append, List.nil_append, readString, hnumber]
  cases readString rest <;> rfl

theorem readString_quoteUnit (unit : ℕ) (rest : List ℕ) :
    readString (quoteUnit unit ++ rest) = (readString rest).map fun (s, rest) => (unit :: s, rest) := by
  unfold quoteUnit
  split_ifs with hb ht hn hf hr hquote hbackslash hescape
  · subst hb
    exact readString_simple rfl rest
  · subst ht
    exact readString_simple rfl rest
  · subst hn
    exact readString_simple rfl rest
  · subst hf
    exact readString_simple rfl rest
  · subst hr
    exact readString_simple rfl rest
  · subst hquote
    exact readString_simple rfl rest
  · subst hbackslash
    exact readString_simple rfl rest
  · refine readString_unicodeEscape ?_ rest
    simp only [isHigh, isLow, Bool.and_eq_true, decide_eq_true_eq] at hescape
    omega
  · exact readString_raw (by omega) hquote hbackslash rest

theorem readString_quoteBody (s rest : List ℕ) : readString (quoteBody s ++ 34 :: rest) = some (s, rest) := by
  induction s using quoteBody.induct with
  | case1 => rfl
  | case2 unit =>
    rw [quoteBody, readString_quoteUnit]
    rfl
  | case3 high low tail hpair ih =>
    obtain ⟨hhigh, hlow⟩ := hpair
    have hrange : 0xD800 ≤ high ∧ 0xDC00 ≤ low := by
      simp only [isHigh, isLow, Bool.and_eq_true, decide_eq_true_eq] at hhigh hlow
      omega
    rw [quoteBody, if_pos ⟨hhigh, hlow⟩, List.cons_append, List.cons_append,
      readString_raw (by omega) (by omega) (by omega), readString_raw (by omega) (by omega) (by omega), ih]
    rfl
  | case4 high low tail hpair ih =>
    rw [quoteBody, if_neg hpair, List.append_assoc, readString_quoteUnit, ih]
    rfl

/-! ### Values are read back -/

/-- What may come after a number. -/
def Ends (rest : List ℕ) : Prop := ∀ unit ∈ rest.head?, isNumberUnit unit = false

theorem ends_cons {unit : ℕ} (h : isNumberUnit unit = false) (rest : List ℕ) : Ends (unit :: rest) := by
  rintro _ ⟨⟩
  exact h

theorem skip_cons {unit : ℕ} (h : isWhiteSpace unit = false) (rest : List ℕ) : skip (unit :: rest) = unit :: rest :=
  List.dropWhile_cons_of_neg (by rw [h]; exact Bool.false_ne_true)

theorem takeWhile_text {text rest : List ℕ} (htext : ∀ unit ∈ text, isNumberUnit unit = true) (hrest : Ends rest) :
    (text ++ rest).takeWhile isNumberUnit = text ∧ (text ++ rest).dropWhile isNumberUnit = rest := by
  induction text with
  | nil =>
    cases rest with
    | nil => exact ⟨rfl, rfl⟩
    | cons unit rest =>
      have hunit := hrest unit rfl
      simp [hunit]
  | cons unit text ih =>
    obtain ⟨hunit, htext⟩ := List.forall_mem_cons.mp htext
    obtain ⟨htake, hdrop⟩ := ih htext
    simp [hunit, htake, hdrop]

theorem not_whiteSpace_of_isNumberUnit {unit : ℕ} (h : isNumberUnit unit = true) : isWhiteSpace unit = false := by
  by_contra hwhite
  simp only [isWhiteSpace, List.mem_cons, List.not_mem_nil, or_false, Bool.not_eq_false, decide_eq_true_eq] at hwhite
  rcases hwhite with rfl | rfl | rfl | rfl <;> exact absurd h (by decide)

theorem readValue_number (n : Num) {fuel : ℕ} {rest : List ℕ} (hrest : Ends rest) :
    readValue format (fuel + 1) (format.text n ++ rest) = some (.number n, rest) := by
  have hread : readNumber format (format.text n ++ rest) = some (.number n, rest) := by
    obtain ⟨htake, hdrop⟩ := takeWhile_text (format.isNumberUnit_text n) hrest
    rw [readNumber, htake, hdrop, format.read_text]
    rfl
  obtain ⟨unit, text, htext⟩ : ∃ unit text, format.text n = unit :: text :=
    List.exists_cons_of_ne_nil (format.text_ne_nil n)
  have hunit : isNumberUnit unit = true := format.isNumberUnit_text n unit (htext ▸ List.mem_cons_self)
  rw [htext, List.cons_append] at hread ⊢
  have hskip := skip_cons (not_whiteSpace_of_isNumberUnit hunit) (text ++ rest)
  rw [readValue, hskip]
  split
  · rename_i heq
    rw [(List.cons.inj heq).1] at hunit
    exact absurd hunit (by decide)
  · rename_i heq
    rw [(List.cons.inj heq).1] at hunit
    exact absurd hunit (by decide)
  · rename_i heq
    rw [(List.cons.inj heq).1] at hunit
    exact absurd hunit (by decide)
  · rename_i heq
    rw [(List.cons.inj heq).1] at hunit
    exact absurd hunit (by decide)
  · rename_i heq
    rw [(List.cons.inj heq).1] at hunit
    exact absurd hunit (by decide)
  · rename_i heq
    rw [(List.cons.inj heq).1] at hunit
    exact absurd hunit (by decide)
  · exact hread

theorem exists_stringify (value : Value Num) : ∃ unit text, stringify format value = unit :: text ∧
    isWhiteSpace unit = false ∧ unit ≠ 93 := by
  cases value with
  | null => exact ⟨_, _, rfl, by decide, by decide⟩
  | bool b => cases b <;> exact ⟨_, _, rfl, by decide, by decide⟩
  | number n =>
    obtain ⟨unit, text, htext⟩ : ∃ unit text, format.text n = unit :: text :=
      List.exists_cons_of_ne_nil (format.text_ne_nil n)
    have hunit : isNumberUnit unit = true := format.isNumberUnit_text n unit (htext ▸ List.mem_cons_self)
    refine ⟨unit, text, htext, not_whiteSpace_of_isNumberUnit hunit, ?_⟩
    rintro rfl
    exact absurd hunit (by decide)
  | string s => exact ⟨_, _, rfl, by decide, by decide⟩
  | array items => cases items <;> exact ⟨_, _, rfl, by decide, by decide⟩
  | object members =>
    cases members with
    | nil => exact ⟨_, _, rfl, by decide, by decide⟩
    | cons member members => exact ⟨_, _, rfl, by decide, by decide⟩

theorem readValue_quotation (fuel : ℕ) (rest : List ℕ) : readValue format (fuel + 1) (34 :: rest) =
    (readString rest).map fun (s, rest) => (.string s, rest) := rfl

theorem readValue_bracket (fuel : ℕ) (rest : List ℕ) : readValue format (fuel + 1) (91 :: rest) =
    match skip rest with
    | 93 :: rest => some (.array [], rest)
    | rest =>
      match readValue format fuel rest with
      | some (item, rest) => (readItems format fuel rest).map fun (items, rest) => (.array (item :: items), rest)
      | none => none := rfl

theorem readValue_brace (fuel : ℕ) (rest : List ℕ) : readValue format (fuel + 1) (123 :: 34 :: rest) =
    match readMember format fuel (34 :: rest) with
    | some (member, rest) =>
      (readMembers format fuel rest).map fun (members, rest) => (.object (member :: members), rest)
    | none => none := rfl

theorem readMember_quotation (fuel : ℕ) (rest : List ℕ) : readMember format (fuel + 1) (34 :: rest) =
    match readString rest with
    | some (key, rest) =>
      match skip rest with
      | 58 :: rest => (readValue format fuel rest).map fun (value, rest) => ((key, value), rest)
      | _ => none
    | none => none := rfl

theorem readItems_comma (fuel : ℕ) (rest : List ℕ) : readItems format (fuel + 1) (44 :: rest) =
    match readValue format fuel rest with
    | some (item, rest) => (readItems format fuel rest).map fun (items, rest) => (item :: items, rest)
    | none => none := rfl

theorem readMembers_comma (fuel : ℕ) (rest : List ℕ) : readMembers format (fuel + 1) (44 :: rest) =
    match readMember format fuel rest with
    | some (member, rest) => (readMembers format fuel rest).map fun (members, rest) => (member :: members, rest)
    | none => none := rfl

theorem readValue_array {fuel : ℕ} {item : Value Num} {items : List (Value Num)} {rest after : List ℕ}
    (hskip : ∃ unit text, rest = unit :: text ∧ isWhiteSpace unit = false ∧ unit ≠ 93)
    (hitem : ∃ middle, readValue format fuel rest = some (item, middle) ∧
      readItems format fuel middle = some (items, after)) :
    readValue format (fuel + 1) (91 :: rest) = some (.array (item :: items), after) := by
  obtain ⟨unit, text, rfl, hwhite, hbracket⟩ := hskip
  obtain ⟨middle, hitem, hitems⟩ := hitem
  rw [readValue_bracket, skip_cons hwhite]
  split
  · rename_i heq
    exact absurd (List.cons.inj heq).1 hbracket
  · rw [hitem]
    dsimp only
    rw [hitems]
    rfl

theorem readValue_object {fuel : ℕ} {member : List ℕ × Value Num} {members : List (List ℕ × Value Num)}
    {rest after : List ℕ} (hmember : ∃ middle, readMember format fuel (34 :: rest) = some (member, middle) ∧
      readMembers format fuel middle = some (members, after)) :
    readValue format (fuel + 1) (123 :: 34 :: rest) = some (.object (member :: members), after) := by
  obtain ⟨middle, hmember, hmembers⟩ := hmember
  rw [readValue_brace, hmember]
  dsimp only
  rw [hmembers]
  rfl

theorem readMember_quote {fuel : ℕ} {key rest after : List ℕ} {value : Value Num}
    (hvalue : readValue format fuel rest = some (value, after)) :
    readMember format (fuel + 1) (quote key ++ 58 :: rest) = some ((key, value), after) := by
  rw [quote, List.cons_append, List.append_assoc, List.singleton_append, readMember_quotation, readString_quoteBody]
  dsimp only
  rw [skip_cons (by decide)]
  simp only [hvalue, Option.map_some]

mutual

theorem readValue_stringify (value : Value Num) {fuel : ℕ} {rest : List ℕ}
    (hfuel : (stringify format value).length ≤ fuel) (hrest : Ends rest) :
    readValue format fuel (stringify format value ++ rest) = some (value, rest) := by
  obtain ⟨unit, text, htext, -, -⟩ := exists_stringify format value
  obtain ⟨fuel, rfl⟩ : ∃ k, fuel = k + 1 := by
    rw [htext, List.length_cons] at hfuel
    exact ⟨fuel - 1, by omega⟩
  match value with
  | .null => rfl
  | .bool true => rfl
  | .bool false => rfl
  | .number n => exact readValue_number format n hrest
  | .string s =>
    simp only [stringify, quote, List.cons_append, List.append_assoc]
    rw [readValue_quotation, readString_quoteBody]
    rfl
  | .array [] => rfl
  | .array (item :: items) =>
    simp only [stringify, List.length_cons, List.length_append] at hfuel
    rw [stringify, List.cons_append, List.append_assoc]
    obtain ⟨unit, text, htext, hwhite, hbracket⟩ := exists_stringify format item
    refine readValue_array format ⟨unit, text ++ (stringifyItems format items ++ rest), ?_, hwhite, hbracket⟩
      ⟨_, readValue_stringify item (by omega) ?_, readItems_stringify items (by omega)⟩
    · rw [htext, List.cons_append]
    · cases items with
      | nil => exact ends_cons (by decide) _
      | cons => exact ends_cons (by decide) _
  | .object [] => rfl
  | .object ((key, value) :: members) =>
    simp only [stringify, List.length_cons, List.length_append] at hfuel
    rw [stringify, List.cons_append, List.append_assoc, List.cons_append, List.append_assoc]
    refine readValue_object format ⟨stringifyMembers format members ++ rest, ?_,
      readMembers_stringify members (by omega)⟩
    obtain ⟨fuel, rfl⟩ : ∃ k, fuel = k + 1 := ⟨fuel - 1, by omega⟩
    refine readMember_quote format (readValue_stringify value (by omega) ?_)
    cases members with
    | nil => exact ends_cons (by decide) _
    | cons => exact ends_cons (by decide) _

theorem readItems_stringify (items : List (Value Num)) {fuel : ℕ} {rest : List ℕ}
    (hfuel : (stringifyItems format items).length ≤ fuel) :
    readItems format fuel (stringifyItems format items ++ rest) = some (items, rest) := by
  match items with
  | [] =>
    simp only [stringifyItems, List.length_cons] at hfuel
    obtain ⟨fuel, rfl⟩ : ∃ k, fuel = k + 1 := ⟨fuel - 1, by omega⟩
    rfl
  | item :: items =>
    simp only [stringifyItems, List.length_cons, List.length_append] at hfuel
    obtain ⟨fuel, rfl⟩ : ∃ k, fuel = k + 1 := ⟨fuel - 1, by omega⟩
    have hitem : readValue format fuel (stringify format item ++ (stringifyItems format items ++ rest)) =
        some (item, stringifyItems format items ++ rest) := by
      refine readValue_stringify item (by omega) ?_
      cases items with
      | nil => exact ends_cons (by decide) _
      | cons => exact ends_cons (by decide) _
    rw [stringifyItems, List.cons_append, List.append_assoc, readItems_comma, hitem]
    dsimp only
    rw [readItems_stringify items (by omega)]
    rfl

theorem readMembers_stringify (members : List (List ℕ × Value Num)) {fuel : ℕ} {rest : List ℕ}
    (hfuel : (stringifyMembers format members).length ≤ fuel) :
    readMembers format fuel (stringifyMembers format members ++ rest) = some (members, rest) := by
  match members with
  | [] =>
    simp only [stringifyMembers, List.length_cons] at hfuel
    obtain ⟨fuel, rfl⟩ : ∃ k, fuel = k + 1 := ⟨fuel - 1, by omega⟩
    rfl
  | (key, value) :: members =>
    simp only [stringifyMembers, List.length_cons, List.length_append] at hfuel
    obtain ⟨fuel, rfl⟩ : ∃ k, fuel = k + 2 := ⟨fuel - 2, by omega⟩
    have hvalue : readValue format fuel (stringify format value ++ (stringifyMembers format members ++ rest)) =
        some (value, stringifyMembers format members ++ rest) := by
      refine readValue_stringify value (by omega) ?_
      cases members with
      | nil => exact ends_cons (by decide) _
      | cons => exact ends_cons (by decide) _
    rw [stringifyMembers, List.cons_append, List.append_assoc, List.cons_append, List.append_assoc, readMembers_comma,
      readMember_quote format hvalue]
    dsimp only
    rw [readMembers_stringify members (by omega)]
    rfl

end

theorem parse_stringify (value : Value Num) : parse format (stringify format value) = some value := by
  have hread : readValue format (stringify format value).length (stringify format value ++ []) = some (value, []) :=
    readValue_stringify format value (Nat.le_refl _) nofun
  rw [List.append_nil] at hread
  rw [parse, hread]
  rfl

end

end SonarJavascript.Json

import Mathlib.Data.Nat.Digits.Lemmas

/-!
# Unicode escapes

`unicodeEscape` writes the code units outside 32 to 127 as `\u` and their number with `%04d`, hence in decimal, with
the digits of a locale that writes 0 to 9. Read as a hexadecimal number of four digits, that is the unit only up to
nine (`unescape_unicodeEscape_iff`).
-/

namespace SonarJavascript.Utils

/-! ### Writing -/

/-- The decimal digits of a number, at least so many, from the most significant one. -/
def decimal : ℕ → ℕ → List ℕ
  | 0, value => (Nat.digits 10 value).reverse
  | width + 1, value => decimal width (value / 10) ++ [value % 10]

def digitChar (digit : ℕ) : UInt16 := UInt16.ofNat (48 + digit)

/-- `String.format("\\u%04d", value)` -/
def format (value : UInt16) : List UInt16 := 92 :: 117 :: (decimal 4 value.toNat).map digitChar

def unicodeEscape (message : List UInt16) : List UInt16 :=
  message.flatMap fun value => if value < 32 ∨ value > 127 then format value else [value]

/-! ### Reading -/

def hexDigit (unit : UInt16) : Option ℕ :=
  if 48 ≤ unit ∧ unit ≤ 57 then some (unit.toNat - 48)
  else if 65 ≤ unit ∧ unit ≤ 70 then some (unit.toNat - 55)
  else if 97 ≤ unit ∧ unit ≤ 102 then some (unit.toNat - 87)
  else none

/-- The unit that an escape denotes, where one starts. -/
def escaped : List UInt16 → Option UInt16
  | 92 :: 117 :: a :: b :: c :: d :: _ => do
    let a ← hexDigit a
    let b ← hexDigit b
    let c ← hexDigit c
    let d ← hexDigit d
    return UInt16.ofNat (((a * 16 + b) * 16 + c) * 16 + d)
  | _ => none

/-- The standard reading: an escape is the unit with its number, any other unit is itself. -/
def unescape : List UInt16 → List UInt16
  | [] => []
  | unit :: rest =>
    match escaped (unit :: rest) with
    | some value => value :: unescape (rest.drop 5)
    | none => unit :: unescape rest
termination_by units => units.length
decreasing_by all_goals simp only [List.length_cons, List.length_drop]; omega

/-! ### One unit -/

theorem digit_bounds {digit : ℕ} (h : digit < 10) : 48 ≤ digitChar digit ∧ digitChar digit ≤ 57 := by
  have hnat : (digitChar digit).toNat = 48 + digit := Nat.mod_eq_of_lt (by omega)
  constructor
  · exact UInt16.le_iff_toNat_le.mpr (by rw [hnat]; exact Nat.le_add_right 48 digit)
  · exact UInt16.le_iff_toNat_le.mpr (by rw [hnat]; exact (by omega : 48 + digit ≤ 57))

theorem hexDigit_digitChar {digit : ℕ} (h : digit < 10) : hexDigit (digitChar digit) = some digit := by
  have hnat : (digitChar digit).toNat = 48 + digit := Nat.mod_eq_of_lt (by omega)
  rw [hexDigit, if_pos (digit_bounds h), hnat, Nat.add_sub_cancel_left]

theorem exists_digits (value : ℕ) : ∃ a b c d : ℕ, a < 10 ∧ b < 10 ∧ c < 10 ∧ d < 10 ∧
    value = value / 10000 * 10000 + a * 1000 + b * 100 + c * 10 + d ∧
      decimal 4 value = (Nat.digits 10 (value / 10000)).reverse ++ [a, b, c, d] := by
  refine ⟨value / 1000 % 10, value / 100 % 10, value / 10 % 10, value % 10, by omega, by omega, by omega, by omega,
    by omega, ?_⟩
  simp only [decimal, List.append_assoc, List.singleton_append, Nat.div_div_eq_div_mul]
  rfl

/-- What the escape of a unit is read as, and the rest of its digits. -/
theorem unescape_format {value : UInt16} {a b c d : ℕ} {digits : List ℕ}
    (h : decimal 4 value.toNat = a :: b :: c :: d :: digits)
    (ha : a < 10) (hb : b < 10) (hc : c < 10) (hd : d < 10) (rest : List UInt16) :
    unescape (format value ++ rest) =
      UInt16.ofNat (((a * 16 + b) * 16 + c) * 16 + d) :: unescape (digits.map digitChar ++ rest) := by
  have hescaped : escaped (format value ++ rest) = some (UInt16.ofNat (((a * 16 + b) * 16 + c) * 16 + d)) := by
    simp only [format, h, List.map_cons, List.cons_append, escaped, hexDigit_digitChar ha, hexDigit_digitChar hb,
      hexDigit_digitChar hc, hexDigit_digitChar hd]
    rfl
  rw [format, h, List.cons_append, unescape]
  rw [format, h, List.cons_append] at hescaped
  rw [hescaped]
  rfl

theorem escaped_cons {unit : UInt16} (h : unit ≠ 92) (rest : List UInt16) : escaped (unit :: rest) = none := by
  unfold escaped
  split
  · rename_i heq
    exact absurd (List.cons.inj heq).1 h
  · rfl

theorem unescape_cons {unit : UInt16} (h : unit ≠ 92) (rest : List UInt16) :
    unescape (unit :: rest) = unit :: unescape rest := by
  rw [unescape, escaped_cons h]

theorem format_of_le_nine {value : UInt16} (h : value ≤ 9) (rest : List UInt16) :
    unescape (format value ++ rest) = value :: unescape rest := by
  have hle : value.toNat ≤ 9 := UInt16.le_iff_toNat_le.mp h
  obtain ⟨a, b, c, d, ha, hb, hc, hd, hvalue, hdigits⟩ := exists_digits value.toNat
  rw [Nat.div_eq_of_lt (by omega)] at hvalue hdigits
  obtain ⟨rfl, rfl, rfl, rfl⟩ : a = 0 ∧ b = 0 ∧ c = 0 ∧ d = value.toNat := by omega
  rw [Nat.digits_zero, List.reverse_nil, List.nil_append] at hdigits
  rw [unescape_format hdigits ha hb hc hd]
  simp

/-- The first unit of the reading exceeds the unit in hexadecimal, or lacks its last digit. -/
theorem format_ne {value : UInt16} (h : 9 < value) (rest tail : List UInt16) :
    unescape (format value ++ rest) ≠ value :: tail := by
  have hlt : 9 < value.toNat := UInt16.lt_iff_toNat_lt.mp h
  have hmax : value.toNat < 65536 := value.toNat_lt
  obtain ⟨a, b, c, d, ha, hb, hc, hd, hvalue, hdigits⟩ := exists_digits value.toNat
  intro hread
  by_cases hfour : value.toNat < 10000
  · rw [Nat.div_eq_of_lt hfour] at hvalue hdigits
    rw [Nat.digits_zero, List.reverse_nil, List.nil_append] at hdigits
    rw [unescape_format hdigits ha hb hc hd] at hread
    have hhead := congrArg UInt16.toNat (List.cons.inj hread).1
    rw [UInt16.toNat_ofNat', Nat.mod_eq_of_lt (by omega)] at hhead
    omega
  · obtain ⟨e, he⟩ : ∃ e, value.toNat / 10000 = e := ⟨_, rfl⟩
    have hpos : 0 < e ∧ e < 7 := by omega
    rw [he] at hvalue hdigits
    rw [Nat.digits_of_lt 10 e (by omega) (by omega)] at hdigits
    rw [unescape_format hdigits (by omega) ha hb hc] at hread
    have hhead := congrArg UInt16.toNat (List.cons.inj hread).1
    rw [UInt16.toNat_ofNat', Nat.mod_eq_of_lt (by omega)] at hhead
    omega

/-! ### A text -/

/-- The units that survive: those that are not escaped, and those with one decimal digit. -/
def Survives (unit : UInt16) : Prop := unit ≤ 9 ∨ 32 ≤ unit ∧ unit ≤ 127

instance (unit : UInt16) : Decidable (Survives unit) := inferInstanceAs (Decidable (_ ∨ _))

theorem unicodeEscape_cons (unit : UInt16) (rest : List UInt16) :
    unicodeEscape (unit :: rest) =
      (if unit < 32 ∨ unit > 127 then format unit else [unit]) ++ unicodeEscape rest :=
  List.flatMap_cons

/-- A text without backslashes is read back from its escapes if and only if each of its units survives. -/
theorem unescape_unicodeEscape_iff (message : List UInt16) (h : 92 ∉ message) :
    unescape (unicodeEscape message) = message ↔ ∀ unit ∈ message, Survives unit := by
  induction message with
  | nil => simp [unicodeEscape, unescape]
  | cons unit rest ih =>
    obtain ⟨hunit, hrest⟩ := List.ne_and_not_mem_of_not_mem_cons h
    have ih := ih hrest
    rw [unicodeEscape_cons, List.forall_mem_cons]
    by_cases hescaped : unit < 32 ∨ unit > 127
    · rw [if_pos hescaped]
      by_cases hnine : unit ≤ 9
      · rw [format_of_le_nine hnine, List.cons.injEq, ih]
        simp [Survives, hnine]
      · have hnot : ¬ Survives unit := by
          rintro (hle | ⟨hge, hle⟩)
          · exact hnine hle
          · rcases hescaped with hlt | hgt
            · exact absurd hge (UInt16.not_le.mpr hlt)
            · exact absurd hle (UInt16.not_le.mpr hgt)
        simp [hnot, format_ne (UInt16.not_le.mp hnine)]
    · obtain ⟨hge, hle⟩ := not_or.mp hescaped
      have hsurvives : Survives unit := .inr ⟨UInt16.not_lt.mp hge, UInt16.not_lt.mp hle⟩
      rw [if_neg hescaped, List.singleton_append, unescape_cons (Ne.symm hunit), List.cons.injEq, ih]
      simp [hsurvives]

/-- A tabulator and a letter. -/
theorem unescape_unicodeEscape_tab :
    unescape (unicodeEscape [9, 97]) = [9, 97] ↔ ∀ unit ∈ [(9 : UInt16), 97], Survives unit :=
  unescape_unicodeEscape_iff [9, 97] (by decide)

/-- A line feed has the number ten, and is written as the escape of 16. -/
theorem lineFeed_not_restored :
    ¬ ∀ message : List UInt16, 92 ∉ message → unescape (unicodeEscape message) = message := by
  intro h
  have hlineFeed := h [10] (by decide)
  rw [show unicodeEscape [10] = format 10 ++ [] from rfl] at hlineFeed
  exact format_ne (by decide) [] [] hlineFeed

end SonarJavascript.Utils

import Mathlib.Data.Nat.Notation
import Mathlib.Tactic.SplitIfs

/-!
# UTF-16

Code points as one or two code units. A surrogate that is not part of a pair is a code point of its own.
-/

namespace SonarJavascript.Utf16

def isHigh (unit : ℕ) : Bool := 0xD800 ≤ unit && unit < 0xDC00

def isLow (unit : ℕ) : Bool := 0xDC00 ≤ unit && unit < 0xE000

def encode (codePoint : ℕ) : List ℕ :=
  if codePoint < 0x10000 then [codePoint]
  else [0xD800 + (codePoint - 0x10000) / 0x400, 0xDC00 + (codePoint - 0x10000) % 0x400]

/-- The first code point of a text. -/
def decode : List ℕ → Option ℕ
  | [] => none
  | [unit] => some unit
  | high :: low :: _ =>
    if isHigh high && isLow low then some (0x10000 + (high - 0xD800) * 0x400 + (low - 0xDC00)) else some high

def width (codePoint : ℕ) : ℕ := if codePoint ≥ 0x10000 then 2 else 1

variable {codePoint : ℕ} {rest : List ℕ}

theorem length_encode : (encode codePoint).length = width codePoint := by
  unfold encode width
  split_ifs <;> first | rfl | omega

theorem encode_of_lt (h : codePoint < 0x10000) : encode codePoint = [codePoint] := if_pos h

theorem encode_ne_nil : encode codePoint ≠ [] := by
  unfold encode
  split_ifs <;> simp

/-- A low surrogate must not follow a high one that stands for itself. -/
def Separate (codePoint : ℕ) (rest : List ℕ) : Prop :=
  isHigh codePoint = true → ∀ unit ∈ rest.head?, isLow unit = false

theorem decode_encode_append (hmax : codePoint ≤ 0x10FFFF) (h : Separate codePoint rest) :
    decode (encode codePoint ++ rest) = some codePoint := by
  unfold encode
  split_ifs with hlt
  · rcases rest with _ | ⟨unit, rest⟩
    · rfl
    · rw [List.singleton_append, decode, if_neg]
      intro hpair
      obtain ⟨hhigh, hlow⟩ := (Bool.and_eq_true _ _).mp hpair
      rw [h hhigh unit rfl] at hlow
      cases hlow
  · have hpair : (isHigh (0xD800 + (codePoint - 0x10000) / 0x400) &&
        isLow (0xDC00 + (codePoint - 0x10000) % 0x400)) = true := by
      simp only [isHigh, isLow, Bool.and_eq_true, decide_eq_true_eq]
      omega
    rw [List.cons_append, List.singleton_append, decode, if_pos hpair, Option.some.injEq]
    omega

theorem decode_cons {unit : ℕ} (h : isHigh unit = false) : decode (unit :: rest) = some unit := by
  cases rest with
  | nil => rfl
  | cons next rest => simp [decode, h]

end SonarJavascript.Utf16

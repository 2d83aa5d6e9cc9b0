import Mathlib.Algebra.BigOperators.Group.List.Basic
import Mathlib.Algebra.GroupWithZero.Nat
import Mathlib.Data.Int.Notation

/-!
# The size of files

`SizeAssessor` excludes a file when it can skip as many bytes as the configured kilobytes make. The product is a
Java long, which the number of kilobytes alone does not keep from wrapping around, and a number that is no long is
replaced by the default. Up to the greatest number whose product is a long, the file is excluded for its size, and
for no greater number (`test_iff_size_iff`).

`Character.digit` is a parameter. A stream is the sequence of what its reads give.
-/

namespace SonarJavascript.Filter

/-! ### The configuration -/

variable (digit : Char → Option ℕ)

/-- The number that a text of digits stands for. -/
def natural (str : List Char) : Option ℕ := do
  let digits ← str.mapM digit
  if digits = [] then none else return digits.foldl (fun number digit => number * 10 + digit) 0

/-- The number that a text stands for, with or without a sign. -/
def integer : List Char → Option ℤ
  | '-' :: str => (natural digit str).map fun number => -number
  | '+' :: str => (natural digit str).map fun number => number
  | str => (natural digit str).map fun number => number

/-- The product and the number of a long, in two's complement. -/
def long (value : ℤ) : ℤ := value.bmod (2 ^ 64)

/-- `Long.parseLong`, with `none` for a `NumberFormatException` -/
def parseLong (str : String) : Option ℤ :=
  (integer digit str.toList).filter fun value => -2 ^ 63 ≤ value ∧ value < 2 ^ 63

def DEFAULT_MAX_FILE_SIZE_KB : ℤ := 1000

structure SizeAssessor where
  maxFileSizeKb : ℤ
  warnings : List String
  deriving DecidableEq

def fallbackToDefaultMaxFileSize (reasonErrorMessage : String) : SizeAssessor :=
  ⟨DEFAULT_MAX_FILE_SIZE_KB, [reasonErrorMessage ++ ", falling back to " ++ toString DEFAULT_MAX_FILE_SIZE_KB ++ "."]⟩

/-- The constructor, on the value of `sonar.javascript.maxFileSize`. -/
def SizeAssessor.new : Option String → SizeAssessor
  | none => ⟨DEFAULT_MAX_FILE_SIZE_KB, []⟩
  | some str =>
    match parseLong digit str with
    | none =>
      fallbackToDefaultMaxFileSize
        ("Maximum file size (sonar.javascript.maxFileSize) is not an integer: \"" ++ str ++ "\"")
    | some maxFileSizeKb =>
      if maxFileSizeKb ≤ 0 then
        fallbackToDefaultMaxFileSize
          ("Maximum file size (sonar.javascript.maxFileSize) is not strictly positive: " ++ toString maxFileSizeKb)
      else ⟨maxFileSizeKb, []⟩

/-! ### Reading -/

def BUFFER_SIZE : ℕ := 2048

def MAX_NO_PROGRESS : ℕ := 10000

structure IOException where
  message : String

inductive Read
  | bytes (count : Fin (BUFFER_SIZE + 1))
  | failure (exception : IOException)

/-- The loop, on the reads that are left. After the last one the stream is at its end. -/
def skipAtLeast : List Read → ℤ → ℕ → Except IOException Bool
  | reads, toSkip, noProgressSince =>
    if toSkip > 0 then
      match reads with
      | [] => .ok false
      | .failure exception :: _ => .error exception
      | .bytes skipped :: reads =>
        if skipped.val = 0 then
          if noProgressSince + 1 > MAX_NO_PROGRESS then
            .error ⟨"Too many iterations without progress; Exit."⟩
          else skipAtLeast reads (toSkip - skipped.val) (noProgressSince + 1)
        else skipAtLeast reads (toSkip - skipped.val) 0
    else .ok true

def canSkipAtLeast (reads : List Read) (numBytes : ℤ) : Except IOException Bool :=
  skipAtLeast reads numBytes 0

/-- A file that cannot be read counts as too large. -/
def hasExcessiveSize (inputStreamSupplier : Except IOException (List Read)) (maxFileSizeBytes : ℤ) : Bool :=
  match inputStreamSupplier.bind fun inputStream => canSkipAtLeast inputStream maxFileSizeBytes with
  | .ok excessive => excessive
  | .error _ => true

def SizeAssessor.test (assessor : SizeAssessor) (inputFile : Except IOException (List Read)) : Bool :=
  hasExcessiveSize inputFile (long (assessor.maxFileSizeKb * 1000))

/-! ### The loop -/

/-- The chunks that the bytes of a file come in. -/
abbrev Chunks := List (Fin (BUFFER_SIZE + 1))

def size (chunks : Chunks) : ℕ := (chunks.map Fin.val).sum

/-- After so many empty reads, the stream goes on within the allowed number of them. A read of a nonempty buffer
gives a byte at least, so that a stream that keeps to the contract has no empty ones. -/
def Progresses : ℕ → Chunks → Prop
  | _, [] => True
  | noProgressSince, count :: chunks =>
    if count.val = 0 then noProgressSince + 1 ≤ MAX_NO_PROGRESS ∧ Progresses (noProgressSince + 1) chunks
    else Progresses 0 chunks

theorem progresses_of_pos {chunks : Chunks} (h : ∀ count ∈ chunks, 0 < count.val) (n : ℕ) : Progresses n chunks := by
  induction chunks generalizing n with
  | nil => trivial
  | cons count chunks ih =>
    obtain ⟨hcount, hchunks⟩ := List.forall_mem_cons.mp h
    rw [Progresses, if_neg (Nat.ne_of_gt hcount)]
    exact ih hchunks 0

/-- The loop finds out whether the rest of the file is as large as what is left to skip. -/
theorem skipAtLeast_bytes {chunks : Chunks} {n : ℕ} (h : Progresses n chunks) (toSkip : ℤ) :
    skipAtLeast (chunks.map .bytes) toSkip n = .ok (decide (toSkip ≤ size chunks)) := by
  induction chunks generalizing n toSkip with
  | nil =>
    rw [List.map_nil, skipAtLeast]
    split_ifs with hpos
    · simp [size, hpos]
    · simp [size, Int.not_lt.mp hpos]
  | cons count chunks ih =>
    have hsize : size (count :: chunks) = count.val + size chunks := List.sum_cons
    rw [List.map_cons, skipAtLeast, hsize]
    rw [Progresses] at h
    by_cases hpos : toSkip > 0
    · rw [if_pos hpos]
      by_cases hcount : count.val = 0
      · rw [if_pos hcount] at h
        rw [if_pos hcount, if_neg (Nat.not_lt.mpr h.1), ih h.2]
        congr 2
        exact propext (by push_cast; omega)
      · rw [if_neg hcount] at h
        rw [if_neg hcount, ih h]
        congr 2
        exact propext (by push_cast; omega)
    · rw [if_neg hpos, decide_eq_true (by push_cast; omega)]

theorem test_bytes {assessor : SizeAssessor} {chunks : Chunks} (h : Progresses 0 chunks) :
    assessor.test (.ok (chunks.map .bytes)) = true ↔ long (assessor.maxFileSizeKb * 1000) ≤ size chunks := by
  rw [SizeAssessor.test, hasExcessiveSize, Except.bind, canSkipAtLeast, skipAtLeast_bytes h]
  exact decide_eq_true_iff

/-! ### The limit -/

theorem long_eq {value : ℤ} (hle : 0 ≤ value) (hlt : value < 2 ^ 63) : long value = value :=
  Int.bmod_eq_of_le_mul_two (by omega) (by omega)

theorem long_lt (value : ℤ) : long value < 2 ^ 63 := by
  have hlt := Int.bmod_lt (x := value) (m := 2 ^ 64) (by decide)
  rw [long]
  omega

variable {digit} {str : String} {kb : ℕ}

theorem maxFileSizeKb_eq (hpos : 0 < kb) (hstr : integer digit str.toList = some (kb : ℤ)) :
    (SizeAssessor.new digit (some str)).maxFileSizeKb = if kb < 2 ^ 63 then (kb : ℤ) else DEFAULT_MAX_FILE_SIZE_KB := by
  rw [SizeAssessor.new, parseLong, hstr, Option.filter_some]
  by_cases hlong : kb < 2 ^ 63
  · rw [if_pos (by simp; omega), if_pos hlong]
    simp only
    rw [if_neg (by omega)]
  · rw [if_neg (by simp; omega), if_neg hlong]
    rfl

variable (digit) (str) in
theorem limit_lt (hkb : 9223372036854775 < kb) :
    long ((SizeAssessor.new digit (some str)).maxFileSizeKb * 1000) < (kb * 1000 : ℕ) := by
  have hmax := long_lt ((SizeAssessor.new digit (some str)).maxFileSizeKb * 1000)
  omega

/-- One byte in each read. -/
def bytewise (count : ℕ) : Chunks := List.replicate count ⟨1, by decide⟩

theorem size_bytewise (count : ℕ) : size (bytewise count) = count := by
  simp [size, bytewise]

theorem progresses_bytewise (count : ℕ) : Progresses 0 (bytewise count) := by
  refine progresses_of_pos (fun chunk hchunk => ?_) 0
  rw [List.eq_of_mem_replicate hchunk]
  exact Nat.one_pos

/-- Files are excluded for their size if and only if the configured number of bytes is a long. -/
theorem test_iff_size_iff (hpos : 0 < kb) (hstr : integer digit str.toList = some (kb : ℤ)) :
    (∀ chunks : Chunks, Progresses 0 chunks →
      ((SizeAssessor.new digit (some str)).test (.ok (chunks.map .bytes)) = true ↔ kb * 1000 ≤ size chunks)) ↔
      kb ≤ 9223372036854775 := by
  constructor
  · intro h
    by_contra hkb
    have hlimit := limit_lt digit str (Nat.lt_of_not_le hkb)
    -- the file of the size that the code compares with, or the empty one
    obtain ⟨count, hle, hlt⟩ : ∃ count : ℕ,
        long ((SizeAssessor.new digit (some str)).maxFileSizeKb * 1000) ≤ count ∧ count < kb * 1000 :=
      ⟨_, Int.self_le_toNat _, by omega⟩
    have hexcluded := (test_bytes (progresses_bytewise count)).mpr (by rw [size_bytewise]; exact hle)
    have hsize := (h _ (progresses_bytewise count)).mp hexcluded
    rw [size_bytewise] at hsize
    exact absurd hsize (Nat.not_le.mpr hlt)
  · intro hkb chunks hchunks
    rw [test_bytes hchunks, maxFileSizeKb_eq hpos hstr, if_pos (by omega), long_eq (by omega) (by omega)]
    exact ⟨fun h => by omega, fun h => by omega⟩

/-- The digits from 0 to 9. -/
def asciiDigit (c : Char) : Option ℕ :=
  if '0' ≤ c ∧ c ≤ '9' then some (c.toNat - '0'.toNat) else none

theorem test_iff_size_iff_one :
    (∀ chunks : Chunks, Progresses 0 chunks →
      ((SizeAssessor.new asciiDigit (some "1")).test (.ok (chunks.map .bytes)) = true ↔ 1 * 1000 ≤ size chunks)) ↔
      1 ≤ 9223372036854775 :=
  test_iff_size_iff (by decide) (by decide)

/-- The empty file is excluded where 9223372036854776 kilobytes are allowed. -/
theorem empty_excluded :
    ¬ ∀ (str : String) (kb : ℕ), 0 < kb → integer asciiDigit str.toList = some (kb : ℤ) →
      ∀ chunks : Chunks, Progresses 0 chunks →
        ((SizeAssessor.new asciiDigit (some str)).test (.ok (chunks.map .bytes)) = true ↔ kb * 1000 ≤ size chunks) := by
  intro h
  have hempty := h "9223372036854776" 9223372036854776 (by decide) (by decide) [] trivial
  exact absurd (hempty.mp (by decide)) (by decide)

end SonarJavascript.Filter

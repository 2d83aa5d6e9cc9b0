import Mathlib.Data.List.Basic
import Mathlib.Data.Nat.Bitwise

/-!
# Variable-length streams

`VarLengthOutputStream` and `VarLengthInputStream`: an int is written in groups of seven bits, the lowest
first, with a bit that announces another group, and a text as the length of its UTF-8 bytes and the bytes.

The limit on arrays is that of the virtual machine, and so is the text that malformed bytes are decoded
to.
-/

namespace SonarJavascript.Cache

abbrev Bytes := List UInt8

/-- A Java int. -/
abbrev JInt := BitVec 32

inductive JavaException
  | io (message : String)
  | uncheckedIOException (message : String)
  | negativeArraySize
  | illegalArgument
  | illegalState
  | indexOutOfBounds
  | nullPointer
  | invalidPath
  | outOfMemory
  deriving DecidableEq, Repr

namespace JavaException

/-- The exceptions that the callers have to handle. -/
def isChecked : JavaException → Bool
  | io _ => true
  | _ => false

end JavaException

/-- The message of the `EOFException` is null. -/
def eof : JavaException := .io ""

structure Jvm where
  /-- The number of elements of the longest array that can be allocated. -/
  arrayLimit : ℕ
  arrayLimit_lt : arrayLimit < 2147483648
  /-- The text for bytes that are not UTF-8. -/
  replaceMalformed : Bytes → String

def getBytes (s : String) : Bytes :=
  s.toUTF8.data.toList

/-- `new String(bytes, UTF_8)` -/
def decodeUtf8 (vm : Jvm) (bytes : Bytes) : String :=
  (String.fromUTF8? ⟨bytes.toArray⟩).getD (vm.replaceMalformed bytes)

/-! ### Writing -/

/-- The loop writes at least one byte, and stops when no bit is left. -/
def writeInt (value : JInt) : Bytes :=
  let bits := value &&& 0x7F
  let rest := value >>> 7
  if h : rest ≠ 0 then UInt8.ofBitVec ((bits + 0x80).setWidth 8) :: writeInt rest
  else [UInt8.ofBitVec (bits.setWidth 8)]
termination_by value.toNat
decreasing_by
  have hne : (value >>> 7).toNat ≠ 0 := fun h0 => h (BitVec.eq_of_toNat_eq h0)
  rw [BitVec.toNat_ushiftRight, Nat.shiftRight_eq_div_pow] at hne ⊢
  omega

def writeUTF (s : String) : Bytes :=
  writeInt (BitVec.ofNat 32 (getBytes s).length) ++ getBytes s

/-! ### Reading -/

/-- The loop of `readInt`. The distance of a shift is taken modulo 32. -/
def readGroups (result : JInt) (shift : ℕ) : Bytes → Except JavaException (JInt × Bytes)
  | [] => .error eof
  | b :: rest =>
    let result := result ||| (((b &&& 0x7F).toBitVec.setWidth 32) <<< (shift % 32))
    if b &&& 0x80 ≠ 0 then readGroups result (shift + 7) rest else .ok (result, rest)

def readInt (s : Bytes) : Except JavaException (JInt × Bytes) :=
  readGroups 0 0 s

def readFully (length : ℕ) (s : Bytes) : Except JavaException (Bytes × Bytes) :=
  if length ≤ s.length then .ok (s.take length, s.drop length) else .error eof

/-- `new byte[length]` -/
def newByteArray (vm : Jvm) (length : JInt) : Except JavaException ℕ :=
  if length.toInt < 0 then .error .negativeArraySize
  else if vm.arrayLimit < length.toNat then .error .outOfMemory
  else .ok length.toNat

/-- `new ArrayList<>(capacity)` -/
def newArrayList (vm : Jvm) (capacity : JInt) : Except JavaException ℕ :=
  if capacity.toInt < 0 then .error .illegalArgument
  else if vm.arrayLimit < capacity.toNat then .error .outOfMemory
  else .ok capacity.toNat

def readUTF (vm : Jvm) (s : Bytes) : Except JavaException (String × Bytes) := do
  let (length, s) ← readInt s
  let length ← newByteArray vm length
  let (bytes, s) ← readFully length s
  return (decodeUtf8 vm bytes, s)

/-! ### Round trips -/

theorem decodeUtf8_getBytes (vm : Jvm) (s : String) : decodeUtf8 vm (getBytes s) = s := by
  have hbytes : (⟨(getBytes s).toArray⟩ : ByteArray) = s.toByteArray := rfl
  rw [decodeUtf8, hbytes, String.fromUTF8?]
  split
  · rfl
  · rename_i h
    exact absurd s.isValidUTF8 (by simpa using h)

/-! ### The groups of an int -/

theorem toNat_and_127 (value : JInt) : (value &&& 0x7F).toNat = value.toNat % 128 := by
  rw [BitVec.toNat_and]
  exact Nat.and_two_pow_sub_one_eq_mod value.toNat 7

theorem toNat_ushiftRight_7 (value : JInt) : (value >>> 7).toNat = value.toNat / 128 := by
  rw [BitVec.toNat_ushiftRight, Nat.shiftRight_eq_div_pow]

theorem group_of_byte (b : UInt8) :
    ((b &&& 0x7F).toBitVec.setWidth 32 : JInt) = BitVec.ofNat 32 (b.toNat % 128) := by
  apply BitVec.eq_of_toNat_eq
  have hand : (b &&& 0x7F).toNat = b.toNat % 128 := by
    rw [UInt8.toNat_and]
    exact Nat.and_two_pow_sub_one_eq_mod b.toNat 7
  have hlt : b.toNat < 256 := b.toNat_lt
  rw [BitVec.toNat_setWidth, UInt8.toNat_toBitVec, hand, BitVec.toNat_ofNat]

set_option maxRecDepth 4000 in
theorem continues_iff (b : UInt8) : b &&& 0x80 ≠ 0 ↔ 128 ≤ b.toNat := by
  have hbits : ∀ n < 256, n &&& 128 ≠ 0 ↔ 128 ≤ n := by decide
  rw [← hbits b.toNat b.toNat_lt, not_iff_not, ← UInt8.toNat_inj, UInt8.toNat_and]
  rfl

theorem groups_or (value : JInt) (shift : ℕ) :
    BitVec.ofNat 32 (value.toNat % 128) <<< shift ||| (value >>> 7) <<< (shift + 7) = value <<< shift := by
  apply BitVec.eq_of_getLsbD_eq
  intro i hi
  have hmod : ∀ j, (value.toNat % 128).testBit j = (decide (j < 7) && value.toNat.testBit j) :=
    fun j => Nat.testBit_mod_two_pow value.toNat 7 j
  simp only [BitVec.getLsbD_or, BitVec.getLsbD_shiftLeft, BitVec.getLsbD_ofNat,
    BitVec.getLsbD_ushiftRight, hmod, hi, decide_true, Bool.true_and]
  by_cases hlow : i < shift
  · simp [hlow, show i < shift + 7 by omega]
  · by_cases hgroup : i < shift + 7
    · have h7 : i - shift < 7 := by omega
      have h32 : i - shift < 32 := by omega
      simp [hlow, hgroup, h7, h32, BitVec.getLsbD]
    · have h7 : ¬ i - shift < 7 := by omega
      have hindex : 7 + (i - (shift + 7)) = i - shift := by omega
      simp [hlow, hgroup, h7, hindex]

theorem toNat_more (value : JInt) :
    (UInt8.ofBitVec (((value &&& 0x7F) + 0x80).setWidth 8)).toNat = value.toNat % 128 + 128 := by
  show (((value &&& 0x7F) + 0x80).setWidth 8).toNat = _
  rw [BitVec.toNat_setWidth, BitVec.toNat_add, toNat_and_127]
  show (value.toNat % 128 + 128) % 2 ^ 32 % 2 ^ 8 = _
  omega

theorem toNat_last (value : JInt) :
    (UInt8.ofBitVec ((value &&& 0x7F).setWidth 8)).toNat = value.toNat % 128 := by
  show ((value &&& 0x7F).setWidth 8).toNat = _
  rw [BitVec.toNat_setWidth, toNat_and_127]
  omega

theorem readGroups_writeInt (value : JInt) :
    ∀ (result : JInt) (shift : ℕ) (rest : Bytes), shift < 32 → value.toNat < 2 ^ (32 - shift) →
      readGroups result shift (writeInt value ++ rest) = .ok (result ||| value <<< shift, rest) := by
  induction value using writeInt.induct with
  | case1 value others hothers ih =>
    intro result shift rest hshift hvalue
    have hne : value.toNat / 128 ≠ 0 := fun h0 =>
      hothers (BitVec.eq_of_toNat_eq ((toNat_ushiftRight_7 value).trans h0))
    have hlt : 2 ^ 7 < 2 ^ (32 - shift) := by omega
    have hgroups : 7 < 32 - shift := (Nat.pow_lt_pow_iff_right (by omega)).mp hlt
    have hnext : (value >>> 7).toNat < 2 ^ (32 - (shift + 7)) := by
      rw [toNat_ushiftRight_7]
      have hpow : 2 ^ (32 - shift) = 2 ^ (32 - (shift + 7)) * 128 := by
        rw [show 32 - shift = 32 - (shift + 7) + 7 by omega, Nat.pow_add]
      omega
    rw [writeInt, dif_pos hothers, List.cons_append, readGroups, if_pos]
    · rw [ih _ _ _ (by omega) hnext, group_of_byte, toNat_more, Nat.mod_eq_of_lt hshift]
      rw [BitVec.or_assoc, Nat.add_mod_right, Nat.mod_mod, groups_or]
    · rw [continues_iff, toNat_more]
      omega
  | case2 value others hothers =>
    intro result shift rest hshift hvalue
    have hzero : value >>> 7 = 0#32 := by simpa using hothers
    have hsmall : value.toNat / 128 = 0 := by
      rw [← toNat_ushiftRight_7, hzero]
      rfl
    rw [writeInt, dif_neg hothers, List.singleton_append, readGroups, if_neg]
    · rw [group_of_byte, toNat_last, Nat.mod_mod, Nat.mod_eq_of_lt hshift]
      have hgroup := groups_or value shift
      rw [hzero, BitVec.zero_shiftLeft, BitVec.or_zero] at hgroup
      rw [hgroup]
    · rw [continues_iff, toNat_last]
      omega

/-- An int is read as it was written, from the start of a stream. -/
theorem readInt_writeInt (value : JInt) (rest : Bytes) :
    readInt (writeInt value ++ rest) = .ok (value, rest) := by
  rw [readInt, readGroups_writeInt value 0 0 rest (by omega) (by simpa using value.isLt)]
  simp

/-! ### Counts and texts -/

theorem length_getBytes_le (s : String) : (getBytes s).length ≤ (writeUTF s).length := by
  simp [writeUTF]

theorem writeInt_ne_nil (value : JInt) : writeInt value ≠ [] := by
  rw [writeInt]
  split <;> simp

theorem length_writeInt_pos (value : JInt) : 0 < (writeInt value).length :=
  List.length_pos_iff.mpr (writeInt_ne_nil value)

section Counts

variable {vm : Jvm} {n : ℕ}

theorem toNat_count (h : n ≤ vm.arrayLimit) : (BitVec.ofNat 32 n).toNat = n := by
  have hlimit := vm.arrayLimit_lt
  rw [BitVec.toNat_ofNat]
  exact Nat.mod_eq_of_lt (by omega)

theorem toInt_count_nonneg (h : n ≤ vm.arrayLimit) : ¬ (BitVec.ofNat 32 n).toInt < 0 := by
  have hlimit := vm.arrayLimit_lt
  rw [BitVec.toInt_eq_toNat_cond, toNat_count h, if_pos (by omega)]
  omega

theorem newByteArray_count (h : n ≤ vm.arrayLimit) : newByteArray vm (BitVec.ofNat 32 n) = .ok n := by
  rw [newByteArray, if_neg (toInt_count_nonneg h), toNat_count h, if_neg (by omega)]

theorem newArrayList_count (h : n ≤ vm.arrayLimit) : newArrayList vm (BitVec.ofNat 32 n) = .ok n := by
  rw [newArrayList, if_neg (toInt_count_nonneg h), toNat_count h, if_neg (by omega)]

end Counts

/-- A text is read as it was written. -/
theorem readUTF_writeUTF {vm : Jvm} {s : String} (h : (getBytes s).length ≤ vm.arrayLimit) (rest : Bytes) :
    readUTF vm (writeUTF s ++ rest) = .ok (s, rest) := by
  have hfully : readFully (getBytes s).length (getBytes s ++ rest) = .ok (getBytes s, rest) := by
    rw [readFully, if_pos (by simp), List.take_left', List.drop_left']
    all_goals rfl
  rw [readUTF, writeUTF, List.append_assoc, readInt_writeInt]
  show (do
    let length ← newByteArray vm (BitVec.ofNat 32 (getBytes s).length)
    let (bytes, s) ← readFully length (getBytes s ++ rest)
    return (decodeUtf8 vm bytes, s)) = _
  rw [newByteArray_count h]
  show (do
    let (bytes, s) ← readFully (getBytes s).length (getBytes s ++ rest)
    return (decodeUtf8 vm bytes, s)) = _
  rw [hfully]
  show Except.ok (decodeUtf8 vm (getBytes s), rest) = _
  rw [decodeUtf8_getBytes]

end SonarJavascript.Cache

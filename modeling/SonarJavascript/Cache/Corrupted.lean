import SonarJavascript.Cache.Cpd

/-!
# Corrupted tokens

The format of the two streams, and the bytes on which `CpdDeserializer` throws something else than an
`IOException`: a size that no array has, or an index outside of the string table, where the bytes before it
are well-formed.
-/

namespace SonarJavascript.Cache

open ListResults

/-! ### The format -/

/-- The seven bits of a byte at their place. -/
def groupAt (shift : ℕ) (b : UInt8) : JInt :=
  BitVec.ofNat 32 (b.toNat % 128) <<< (shift % 32)

/-- Bytes that announce another one, and a byte that does not. -/
inductive GroupsAt : ℕ → Bytes → JInt → Bytes → Prop
  | last {shift : ℕ} {b : UInt8} {rest : Bytes} :
      b.toNat < 128 → GroupsAt shift (b :: rest) (groupAt shift b) rest
  | more {shift : ℕ} {b : UInt8} {s rest : Bytes} {n : JInt} :
      128 ≤ b.toNat → GroupsAt (shift + 7) s n rest → GroupsAt shift (b :: s) (groupAt shift b ||| n) rest

/-- An int is at the front of the stream. -/
def IntAt (s : Bytes) (n : JInt) (rest : Bytes) : Prop :=
  GroupsAt 0 s n rest

/-- No array has this length. -/
def NoSize (vm : Jvm) (n : JInt) : Prop :=
  n.toInt < 0 ∨ vm.arrayLimit < n.toNat

/-- As many texts are at the front of the stream. -/
inductive TextsAt (vm : Jvm) : ℕ → Bytes → List String → Bytes → Prop
  | zero {s : Bytes} : TextsAt vm 0 s [] s
  | succ {k : ℕ} {s s' rest : Bytes} {length : JInt} {texts : List String} :
      IntAt s length s' → ¬ NoSize vm length → length.toNat ≤ s'.length →
      TextsAt vm k (s'.drop length.toNat) texts rest →
      TextsAt vm (k + 1) s (decodeUtf8 vm (s'.take length.toNat) :: texts) rest

/-- The four fields of a location. -/
inductive LocationAt : Bytes → Location → Bytes → Prop
  | intro {s₀ s₁ s₂ s₃ s₄ : Bytes} {l : Location} :
      IntAt s₀ l.startLine s₁ → IntAt s₁ l.startCol s₂ → IntAt s₂ l.endLine s₃ → IntAt s₃ l.endCol s₄ →
      LocationAt s₀ l s₄

/-- As many tokens are at the front of the stream, whose images are in the table. -/
inductive TokensAt (byIndex : List String) : ℕ → Bytes → List CpdToken → Bytes → Prop
  | zero {s : Bytes} : TokensAt byIndex 0 s [] s
  | succ {k : ℕ} {s s' s'' rest : Bytes} {location : Location} {index : JInt} {image : String}
      {tokens : List CpdToken} :
      LocationAt s location s' → IntAt s' index s'' → 0 ≤ index.toInt →
      byIndex[index.toNat]? = some image → TokensAt byIndex k s'' tokens rest →
      TokensAt byIndex (k + 1) s (⟨location, image⟩ :: tokens) rest

/-- The size of the table, its texts and the end marker. -/
inductive TableAt (vm : Jvm) : Bytes → List String → Prop
  | intro {s s' s'' rest : Bytes} {size : JInt} {byIndex : List String} :
      IntAt s size s' → ¬ NoSize vm size → TextsAt vm size.toNat s' byIndex s'' →
      TextsAt vm 1 s'' ["END"] rest → TableAt vm s byIndex

/-- A text is expected, but its length is no size. -/
def BadLength (vm : Jvm) (s : Bytes) : Prop :=
  ∃ length rest, IntAt s length rest ∧ NoSize vm length

/-- Where the deserializer meets a size or an index that it does not check. -/
inductive Crash (vm : Jvm) (data stringTable : Bytes) : Prop
  | tableSize : BadLength vm stringTable → Crash vm data stringTable
  | textLength {size : JInt} {k : ℕ} {s s' : Bytes} {texts : List String} :
      IntAt stringTable size s → ¬ NoSize vm size → k ≤ size.toNat → TextsAt vm k s texts s' →
      BadLength vm s' → Crash vm data stringTable
  | tokenCount {byIndex : List String} :
      TableAt vm stringTable byIndex → BadLength vm data → Crash vm data stringTable
  | index {byIndex : List String} {size index : JInt} {k : ℕ} {s s' s'' rest : Bytes}
      {tokens : List CpdToken} {location : Location} :
      TableAt vm stringTable byIndex → IntAt data size s → ¬ NoSize vm size → k < size.toNat →
      TokensAt byIndex k s tokens s' → LocationAt s' location s'' → IntAt s'' index rest →
      (index.toInt < 0 ∨ byIndex.length ≤ index.toNat) → Crash vm data stringTable
  | endLength {byIndex : List String} {size : JInt} {s s' : Bytes} {tokens : List CpdToken} :
      TableAt vm stringTable byIndex → IntAt data size s → ¬ NoSize vm size →
      TokensAt byIndex size.toNat s tokens s' → BadLength vm s' → Crash vm data stringTable

/-! ### The readers follow the format -/

theorem bind_eq_ok {α β : Type} {x : Except JavaException α} {k : α → Except JavaException β} {b : β} :
    x >>= k = .ok b ↔ ∃ a, x = .ok a ∧ k a = .ok b := by
  cases x with
  | error e => simp
  | ok a => simp

theorem readGroups_eq_ok {n : JInt} {rest s : Bytes} :
    ∀ {result : JInt} {shift : ℕ}, readGroups result shift s = .ok (n, rest) ↔
      ∃ groups, GroupsAt shift s groups rest ∧ n = result ||| groups := by
  induction s with
  | nil =>
    intro result shift
    constructor
    · intro h
      cases h
    · rintro ⟨groups, hgroups, -⟩
      cases hgroups
  | cons b s ih =>
    intro result shift
    rw [readGroups, group_of_byte]
    by_cases hb : 128 ≤ b.toNat
    · rw [if_pos ((continues_iff b).mpr hb), ih]
      constructor
      · rintro ⟨groups, hgroups, rfl⟩
        exact ⟨_, .more hb hgroups, BitVec.or_assoc ..⟩
      · rintro ⟨groups, hgroups, rfl⟩
        cases hgroups with
        | last hlast => omega
        | more _ hmore => exact ⟨_, hmore, (BitVec.or_assoc ..).symm⟩
    · rw [if_neg fun h => hb ((continues_iff b).mp h)]
      constructor
      · intro h
        obtain ⟨rfl, rfl⟩ := Prod.mk.inj (Except.ok.inj h)
        exact ⟨_, .last (by omega), rfl⟩
      · rintro ⟨groups, hgroups, rfl⟩
        cases hgroups with
        | last _ => rfl
        | more hmore _ => exact absurd hmore hb

theorem readInt_eq_ok {n : JInt} {rest s : Bytes} : readInt s = .ok (n, rest) ↔ IntAt s n rest := by
  rw [readInt, readGroups_eq_ok]
  simp [IntAt]

variable {vm : Jvm}

theorem newByteArray_eq_ok {length : JInt} {n : ℕ} :
    newByteArray vm length = .ok n ↔ ¬ NoSize vm length ∧ n = length.toNat := by
  rw [newByteArray, NoSize]
  split
  · simp [*]
  · split
    · simp [*]
    · simp_all [eq_comm]

theorem newArrayList_eq_ok {capacity : JInt} {n : ℕ} :
    newArrayList vm capacity = .ok n ↔ ¬ NoSize vm capacity ∧ n = capacity.toNat := by
  rw [newArrayList, NoSize]
  split
  · simp [*]
  · split
    · simp [*]
    · simp_all [eq_comm]

theorem readFully_eq_ok {length : ℕ} {s bytes rest : Bytes} :
    readFully length s = .ok (bytes, rest) ↔
      length ≤ s.length ∧ bytes = s.take length ∧ rest = s.drop length := by
  rw [readFully]
  split <;> simp [*, eq_comm]

theorem readUTF_eq_ok {s rest : Bytes} {text : String} :
    readUTF vm s = .ok (text, rest) ↔ ∃ length s', IntAt s length s' ∧ ¬ NoSize vm length ∧
      length.toNat ≤ s'.length ∧ text = decodeUtf8 vm (s'.take length.toNat) ∧
      rest = s'.drop length.toNat := by
  simp only [readUTF, bind_eq_ok, Prod.exists, readInt_eq_ok, newByteArray_eq_ok, readFully_eq_ok]
  constructor
  · rintro ⟨length, s', hint, _, ⟨hsize, rfl⟩, _, _, ⟨hlength, rfl, rfl⟩, hpure⟩
    obtain ⟨rfl, rfl⟩ := Prod.mk.inj (Except.ok.inj hpure)
    exact ⟨length, s', hint, hsize, hlength, rfl, rfl⟩
  · rintro ⟨length, s', hint, hsize, hlength, rfl, rfl⟩
    exact ⟨length, s', hint, _, ⟨hsize, rfl⟩, _, _, ⟨hlength, rfl, rfl⟩, rfl⟩

theorem readTexts_eq_ok {k : ℕ} {s rest : Bytes} {texts : List String} :
    readTexts vm k s = .ok (texts, rest) ↔ TextsAt vm k s texts rest := by
  induction k generalizing s texts rest with
  | zero =>
    constructor
    · intro h
      obtain ⟨rfl, rfl⟩ := Prod.mk.inj (Except.ok.inj h)
      exact .zero
    · rintro ⟨⟩
      rfl
  | succ k ih =>
    simp only [readTexts, bind_eq_ok, Prod.exists, readUTF_eq_ok, ih]
    constructor
    · rintro ⟨_, _, ⟨length, s', hint, hsize, hlength, rfl, rfl⟩, _, _, htexts, hpure⟩
      obtain ⟨rfl, rfl⟩ := Prod.mk.inj (Except.ok.inj hpure)
      exact .succ hint hsize hlength htexts
    · rintro (_ | ⟨hint, hsize, hlength, htexts⟩)
      exact ⟨_, _, ⟨_, _, hint, hsize, hlength, rfl, rfl⟩, _, _, htexts, rfl⟩

theorem readEnd_eq_ok {s rest : Bytes} : readEnd vm s = .ok rest ↔ TextsAt vm 1 s ["END"] rest := by
  rw [← readTexts_eq_ok]
  simp only [readEnd, readTexts, bind_eq_ok, Prod.exists]
  constructor
  · rintro ⟨text, s', hread, hend⟩
    split at hend
    · rename_i htext
      obtain rfl := Except.ok.inj hend
      exact ⟨text, s', hread, [], s', rfl, by rw [htext]; rfl⟩
    · cases hend
  · rintro ⟨text, s', hread, _, _, hnil, hpure⟩
    obtain ⟨rfl, rfl⟩ := Prod.mk.inj (Except.ok.inj hnil)
    obtain ⟨htext, rfl⟩ := Prod.mk.inj (Except.ok.inj hpure)
    obtain rfl : text = "END" := by simpa using htext
    exact ⟨_, _, hread, rfl⟩

theorem readLocation_eq_ok {s rest : Bytes} {location : Location} :
    readLocation s = .ok (location, rest) ↔ LocationAt s location rest := by
  simp only [readLocation, bind_eq_ok, Prod.exists, readInt_eq_ok]
  constructor
  · rintro ⟨_, _, hstartLine, _, _, hstartCol, _, _, hendLine, _, _, hendCol, hpure⟩
    obtain ⟨rfl, rfl⟩ := Prod.mk.inj (Except.ok.inj hpure)
    exact ⟨hstartLine, hstartCol, hendLine, hendCol⟩
  · rintro ⟨hstartLine, hstartCol, hendLine, hendCol⟩
    exact ⟨_, _, hstartLine, _, _, hstartCol, _, _, hendLine, _, _, hendCol, rfl⟩

theorem getString_eq_ok {byIndex : List String} {index : JInt} {image : String} :
    getString byIndex index = .ok image ↔ 0 ≤ index.toInt ∧ byIndex[index.toNat]? = some image := by
  rw [getString]
  by_cases hindex : index.toInt < 0
  · rw [if_pos hindex]
    exact ⟨fun h => (by cases h), fun h => absurd hindex (by omega)⟩
  · rw [if_neg hindex]
    split
    · rename_i hget
      simp [hget]
      omega
    · rename_i hget
      simp [hget]

theorem readCpdTokens_eq_ok {byIndex : List String} {k : ℕ} {s rest : Bytes} {tokens : List CpdToken} :
    readCpdTokens byIndex k s = .ok (tokens, rest) ↔ TokensAt byIndex k s tokens rest := by
  induction k generalizing s tokens rest with
  | zero =>
    constructor
    · intro h
      obtain ⟨rfl, rfl⟩ := Prod.mk.inj (Except.ok.inj h)
      exact .zero
    · rintro ⟨⟩
      rfl
  | succ k ih =>
    simp only [readCpdTokens, readCpdToken, bind_eq_ok, Prod.exists, readLocation_eq_ok, readInt_eq_ok,
      getString_eq_ok, ih]
    constructor
    · rintro ⟨_, _, ⟨_, _, hlocation, _, _, hint, _, ⟨hindex, himage⟩, htoken⟩, _, _, htokens, hpure⟩
      obtain ⟨rfl, rfl⟩ := Prod.mk.inj (Except.ok.inj htoken)
      obtain ⟨rfl, rfl⟩ := Prod.mk.inj (Except.ok.inj hpure)
      exact .succ hlocation hint hindex himage htokens
    · rintro (_ | ⟨hlocation, hint, hindex, himage, htokens⟩)
      exact ⟨_, _, ⟨_, _, hlocation, _, _, hint, _, ⟨hindex, himage⟩, rfl⟩, _, _, htokens, rfl⟩

theorem readStringTable_eq_ok {s rest : Bytes} {byIndex : List String} :
    readStringTable vm s = .ok (byIndex, rest) ↔
      ∃ size s' s'', IntAt s size s' ∧ ¬ NoSize vm size ∧ TextsAt vm size.toNat s' byIndex s'' ∧
        TextsAt vm 1 s'' ["END"] rest := by
  simp only [readStringTable, bind_eq_ok, Prod.exists, readInt_eq_ok, newArrayList_eq_ok, readTexts_eq_ok,
    readEnd_eq_ok]
  constructor
  · rintro ⟨size, s', hint, _, ⟨hsize, rfl⟩, _, s'', htexts, _, hend, hpure⟩
    obtain ⟨rfl, rfl⟩ := Prod.mk.inj (Except.ok.inj hpure)
    exact ⟨size, s', s'', hint, hsize, htexts, hend⟩
  · rintro ⟨size, s', s'', hint, hsize, htexts, hend⟩
    exact ⟨size, s', hint, _, ⟨hsize, rfl⟩, _, s'', htexts, _, hend, rfl⟩

/-! ### Exceptions that are not checked -/

def Unchecked {α : Type} (x : Except JavaException α) : Prop :=
  ∃ e, x = .error e ∧ e.isChecked = false

section Unchecked

variable {α β : Type}

theorem unchecked_bind {x : Except JavaException α} {k : α → Except JavaException β} :
    Unchecked (x >>= k) ↔ Unchecked x ∨ ∃ a, x = .ok a ∧ Unchecked (k a) := by
  cases x with
  | error e => simp [Unchecked]
  | ok a => simp [Unchecked]

theorem unchecked_map {x : Except JavaException α} {f : α → β} : Unchecked (x.map f) ↔ Unchecked x := by
  cases x with
  | error e => simp [Unchecked, Except.map]
  | ok a => simp [Unchecked, Except.map]

theorem not_unchecked_ok (a : α) : ¬ Unchecked (.ok a : Except JavaException α) := by
  rintro ⟨e, he, -⟩
  cases he

theorem not_unchecked_pure (a : α) : ¬ Unchecked (pure a : Except JavaException α) :=
  not_unchecked_ok a

theorem not_unchecked_io (message : String) : ¬ Unchecked (.error (.io message) : Except JavaException α) := by
  rintro ⟨e, he, hchecked⟩
  obtain rfl := Except.error.inj he
  cases hchecked

theorem not_unchecked_readInt (s : Bytes) : ¬ Unchecked (readInt s) := by
  have hgroups : ∀ (s : Bytes) (result : JInt) (shift : ℕ), ¬ Unchecked (readGroups result shift s) := by
    intro s
    induction s with
    | nil => exact fun _ _ => not_unchecked_io ""
    | cons b s ih =>
      intro result shift
      rw [readGroups]
      split
      · exact ih _ _
      · exact not_unchecked_ok _
  exact hgroups s 0 0

theorem not_unchecked_readFully (length : ℕ) (s : Bytes) : ¬ Unchecked (readFully length s) := by
  rw [readFully]
  split
  · exact not_unchecked_ok _
  · exact not_unchecked_io ""

theorem unchecked_newByteArray {length : JInt} : Unchecked (newByteArray vm length) ↔ NoSize vm length := by
  rw [newByteArray, NoSize]
  split
  · simp [Unchecked, JavaException.isChecked, *]
  · split
    · simp [Unchecked, JavaException.isChecked, *]
    · simp_all [Unchecked]

theorem unchecked_newArrayList {capacity : JInt} :
    Unchecked (newArrayList vm capacity) ↔ NoSize vm capacity := by
  rw [newArrayList, NoSize]
  split
  · simp [Unchecked, JavaException.isChecked, *]
  · split
    · simp [Unchecked, JavaException.isChecked, *]
    · simp_all [Unchecked]

end Unchecked

theorem unchecked_readUTF {s : Bytes} : Unchecked (readUTF vm s) ↔ BadLength vm s := by
  simp only [readUTF, unchecked_bind, not_unchecked_readInt, false_or, Prod.exists, readInt_eq_ok,
    unchecked_newByteArray, not_unchecked_readFully, not_unchecked_pure, and_false, exists_false, or_false,
    BadLength]

theorem unchecked_readTexts {k : ℕ} {s : Bytes} :
    Unchecked (readTexts vm k s) ↔ ∃ j texts s', j < k ∧ TextsAt vm j s texts s' ∧ BadLength vm s' := by
  induction k generalizing s with
  | zero => simp [readTexts, not_unchecked_ok]
  | succ k ih =>
    simp only [readTexts, unchecked_bind, unchecked_readUTF, Prod.exists, readUTF_eq_ok, ih,
      not_unchecked_pure, and_false, exists_false, or_false]
    constructor
    · rintro (hbad | ⟨_, _, ⟨length, s', hint, hsize, hlength, rfl, rfl⟩, j, texts, rest, hj, htexts, hbad⟩)
      · exact ⟨0, [], s, by omega, .zero, hbad⟩
      · exact ⟨j + 1, _, rest, by omega, .succ hint hsize hlength htexts, hbad⟩
    · rintro ⟨_, texts, rest, hj, _ | ⟨hint, hsize, hlength, htexts⟩, hbad⟩
      · exact .inl hbad
      · exact .inr ⟨_, _, ⟨_, _, hint, hsize, hlength, rfl, rfl⟩, _, _, rest, by omega, htexts, hbad⟩

theorem unchecked_readEnd {s : Bytes} : Unchecked (readEnd vm s) ↔ BadLength vm s := by
  rw [readEnd, unchecked_bind, unchecked_readUTF, or_iff_left]
  rintro ⟨⟨text, rest⟩, -, hend⟩
  dsimp only at hend
  split at hend
  · exact not_unchecked_pure _ hend
  · exact not_unchecked_io _ hend

/-- The end marker is one more text. -/
theorem unchecked_readStringTable {s : Bytes} :
    Unchecked (readStringTable vm s) ↔ BadLength vm s ∨
      ∃ size s' k texts s'', IntAt s size s' ∧ ¬ NoSize vm size ∧ k ≤ size.toNat ∧
        TextsAt vm k s' texts s'' ∧ BadLength vm s'' := by
  simp only [readStringTable, unchecked_bind, not_unchecked_readInt, false_or, Prod.exists, readInt_eq_ok,
    unchecked_newArrayList, newArrayList_eq_ok, unchecked_readTexts, readTexts_eq_ok, unchecked_readEnd,
    not_unchecked_pure, and_false, exists_false, or_false]
  constructor
  · rintro ⟨size, s', hint, hbad | ⟨_, ⟨hsize, rfl⟩, ⟨k, texts, s'', hk, htexts, hbad⟩ |
      ⟨texts, s'', htexts, hbad⟩⟩⟩
    · exact .inl ⟨size, s', hint, hbad⟩
    · exact .inr ⟨size, s', k, texts, s'', hint, hsize, by omega, htexts, hbad⟩
    · exact .inr ⟨size, s', _, texts, s'', hint, hsize, le_refl _, htexts, hbad⟩
  · rintro (⟨size, s', hint, hbad⟩ | ⟨size, s', k, texts, s'', hint, hsize, hk, htexts, hbad⟩)
    · exact ⟨size, s', hint, .inl hbad⟩
    · refine ⟨size, s', hint, .inr ⟨_, ⟨hsize, rfl⟩, ?_⟩⟩
      rcases Nat.lt_or_eq_of_le hk with hlt | rfl
      · exact .inl ⟨k, texts, s'', hlt, htexts, hbad⟩
      · exact .inr ⟨texts, s'', htexts, hbad⟩

theorem unchecked_getString {byIndex : List String} {index : JInt} :
    Unchecked (getString byIndex index) ↔ index.toInt < 0 ∨ byIndex.length ≤ index.toNat := by
  rw [getString]
  split
  · simp [Unchecked, JavaException.isChecked, *]
  · rename_i hindex
    split
    · rename_i hget
      have hlt := (List.getElem?_eq_some_iff.mp hget).1
      simp only [not_unchecked_ok, hindex, false_or, false_iff]
      omega
    · rename_i hget
      simpa [Unchecked, JavaException.isChecked, hindex] using hget

theorem not_unchecked_readLocation (s : Bytes) : ¬ Unchecked (readLocation s) := by
  simp only [readLocation, unchecked_bind, not_unchecked_readInt, false_or, not_unchecked_pure,
    and_false, exists_false, not_false_eq_true]

/-- The tokens before the one whose index is not in the table are there. -/
theorem unchecked_readCpdTokens {byIndex : List String} {k : ℕ} {s : Bytes} :
    Unchecked (readCpdTokens byIndex k s) ↔
      ∃ j tokens s' location s'' index rest, j < k ∧ TokensAt byIndex j s tokens s' ∧
        LocationAt s' location s'' ∧ IntAt s'' index rest ∧
        (index.toInt < 0 ∨ byIndex.length ≤ index.toNat) := by
  induction k generalizing s with
  | zero => simp [readCpdTokens, not_unchecked_ok]
  | succ k ih =>
    simp only [readCpdTokens, readCpdToken, unchecked_bind, bind_eq_ok, not_unchecked_readLocation,
      not_unchecked_readInt, false_or, Prod.exists, readLocation_eq_ok, readInt_eq_ok, unchecked_getString,
      getString_eq_ok, ih, not_unchecked_pure, and_false, exists_false, or_false]
    constructor
    · rintro (⟨location, s', hlocation, index, rest, hint, hbad⟩ |
        ⟨_, _, ⟨location, s', hlocation, index, s'', hint, image, ⟨hindex, himage⟩, htoken⟩,
          j, tokens, s₃, l, s₄, n, rest, hj, htokens, hlast⟩)
      · exact ⟨0, [], s, location, s', index, rest, by omega, .zero, hlocation, hint, hbad⟩
      · obtain ⟨rfl, rfl⟩ := Prod.mk.inj (Except.ok.inj htoken)
        exact ⟨j + 1, _, s₃, l, s₄, n, rest, by omega, .succ hlocation hint hindex himage htokens, hlast⟩
    · rintro ⟨_, tokens, s₃, l, s₄, n, rest, hj, _ | ⟨hlocation, hint, hindex, himage, htokens⟩, hlast⟩
      · exact .inl ⟨l, s₄, hlast.1, n, rest, hlast.2⟩
      · exact .inr ⟨_, _, ⟨_, _, hlocation, _, _, hint, _, ⟨hindex, himage⟩, rfl⟩,
          _, _, s₃, l, s₄, n, rest, by omega, htokens, hlast⟩

theorem unchecked_readData {data stringTable : Bytes} :
    Unchecked (readData vm data stringTable) ↔ Crash vm data stringTable := by
  simp only [readData, unchecked_bind, unchecked_readStringTable, Prod.exists, readStringTable_eq_ok,
    not_unchecked_readInt, false_or, readInt_eq_ok, unchecked_newArrayList, newArrayList_eq_ok,
    unchecked_readCpdTokens, readCpdTokens_eq_ok, unchecked_readEnd, not_unchecked_pure, and_false,
    exists_false, or_false]
  constructor
  · rintro ((hbad | ⟨size, s, k, texts, s', hint, hsize, hk, htexts, hbad⟩) |
      ⟨byIndex, rest, ⟨tableSize, t, t', htable, htableSize, htexts, hend⟩, size, s, hint, hrest⟩)
    · exact .tableSize hbad
    · exact .textLength hint hsize hk htexts hbad
    · have hTable : TableAt vm stringTable byIndex := .intro htable htableSize htexts hend
      rcases hrest with hbad | ⟨_, ⟨hsize, rfl⟩, ⟨k, tokens, s', location, s'', index, rest', hk, htokens,
        hlocation, hindex, hbad⟩ | ⟨tokens, s', htokens, hbad⟩⟩
      · exact .tokenCount hTable ⟨size, s, hint, hbad⟩
      · exact .index hTable hint hsize hk htokens hlocation hindex hbad
      · exact .endLength hTable hint hsize htokens hbad
  · rintro (hbad | ⟨hint, hsize, hk, htexts, hbad⟩ | ⟨htable, size, s, hint, hbad⟩ |
      ⟨htable, hint, hsize, hk, htokens, hlocation, hindex, hbad⟩ | ⟨htable, hint, hsize, htokens, hbad⟩)
    · exact .inl (.inl hbad)
    · exact .inl (.inr ⟨_, _, _, _, _, hint, hsize, hk, htexts, hbad⟩)
    · obtain ⟨htable, htableSize, htexts, hend⟩ := htable
      exact .inr ⟨_, _, ⟨_, _, _, htable, htableSize, htexts, hend⟩, size, s, hint, .inl hbad⟩
    · obtain ⟨htable, htableSize, htexts, hend⟩ := htable
      exact .inr ⟨_, _, ⟨_, _, _, htable, htableSize, htexts, hend⟩, _, _, hint, .inr ⟨_, ⟨hsize, rfl⟩,
        .inl ⟨_, _, _, _, _, _, _, hk, htokens, hlocation, hindex, hbad⟩⟩⟩
    · obtain ⟨htable, htableSize, htexts, hend⟩ := htable
      exact .inr ⟨_, _, ⟨_, _, _, htable, htableSize, htexts, hend⟩, _, _, hint, .inr ⟨_, ⟨hsize, rfl⟩,
        .inr ⟨_, _, htokens, hbad⟩⟩⟩

theorem unchecked_wrap {α : Type} {x : Except JavaException α} : Unchecked (wrap x) ↔ Unchecked x := by
  unfold wrap
  split
  · simp only [not_unchecked_io]
  · rfl

/-- The deserializer throws something else than an `IOException` exactly on the bytes that crash it. -/
theorem unchecked_fromBinary {data stringTable : Bytes} :
    Unchecked (fromBinary vm data stringTable) ↔ Crash vm data stringTable := by
  rw [fromBinary, unchecked_map, convert, unchecked_wrap, unchecked_readData]

end SonarJavascript.Cache

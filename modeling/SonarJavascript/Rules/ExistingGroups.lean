import Mathlib

/-!
# References to existing groups (S6328)

`extractReferences` looks for `$` with digits or with a name in angle brackets, anywhere in the replacement.
JavaScript reads the replacement from left to right: `$$` is a dollar sign, at most two digits belong to a reference,
and `$<` starts one only where the regular expression has named groups. Both find the same references to no group if
and only if they agree at each place that the reading comes to (`reported_eq_missing_iff`).
-/

namespace SonarJavascript.Rules.ExistingGroups

/-! ### The references that are found -/

/-- A match, with the number of characters from its dollar sign to the end of the text. -/
structure GroupReference where
  raw : List Char
  value : List Char
  left : ℕ
  deriving DecidableEq

/-- `\w` -/
def isWord (c : Char) : Bool := c.isAlphanum || c = '_'

/-- `\$(\d+)|\$<([a-zA-Z]\w*)>` at a place of the text: the reference, and the text after it. -/
def matchAt (c : Char) (rest : List Char) : Option (GroupReference × List Char) :=
  if c = '$' then
    if rest.takeWhile Char.isDigit ≠ [] then
      some (⟨c :: rest.takeWhile Char.isDigit, rest.takeWhile Char.isDigit, rest.length + 1⟩, rest.dropWhile Char.isDigit)
    else
      match rest with
      | '<' :: first :: tail =>
        if first.isAlpha then
          match tail.dropWhile isWord with
          | '>' :: after =>
            some (⟨['$', '<', first] ++ tail.takeWhile isWord ++ ['>'], first :: tail.takeWhile isWord, rest.length + 1⟩,
              after)
          | _ => none
        else none
      | _ => none
  else none

/-- A match is a dollar sign and characters that are none. -/
theorem matchAt_eq_some {c : Char} {rest after : List Char} {reference : GroupReference}
    (h : matchAt c rest = some (reference, after)) :
    c = '$' ∧ reference.left = rest.length + 1 ∧
      ∃ text, rest = text ++ after ∧ '$' ∉ text ∧ reference.raw = '$' :: text := by
  unfold matchAt at h
  split_ifs at h with hc hdigits
  · obtain ⟨rfl, rfl⟩ := Prod.mk.inj (Option.some.inj h)
    refine ⟨hc, rfl, _, List.takeWhile_append_dropWhile.symm, fun hmem => ?_, by rw [hc]⟩
    exact absurd (List.mem_takeWhile_imp hmem) (by decide)
  · split at h
    · rename_i first tail
      split_ifs at h with hfirst
      split at h
      · rename_i after' hafter
        obtain ⟨rfl, rfl⟩ := Prod.mk.inj (Option.some.inj h)
        refine ⟨hc, rfl, ['<', first] ++ tail.takeWhile isWord ++ ['>'], ?_, fun hmem => ?_, rfl⟩
        · have htail := List.takeWhile_append_dropWhile (p := isWord) (l := tail)
          rw [hafter] at htail
          simp [htail]
        · simp only [List.append_assoc, List.mem_append, List.mem_cons, List.not_mem_nil, or_false] at hmem
          rcases hmem with (hlt | hmem) | hmem | hgt
          · exact absurd hlt (by decide)
          · rw [← hmem] at hfirst
            exact absurd hfirst (by decide)
          · exact absurd (List.mem_takeWhile_imp hmem) (by decide)
          · exact absurd hgt (by decide)
      · cases h
    · cases h

/-- The loop of `exec`. The text after a match, or after a place without one, is searched next. -/
def extractReferences : List Char → List GroupReference
  | [] => []
  | c :: rest =>
    match _hmatch : matchAt c rest with
    | some (reference, after) => reference :: extractReferences after
    | none => extractReferences rest
termination_by text => text.length
decreasing_by
  · obtain ⟨-, -, text, rfl, -⟩ := matchAt_eq_some _hmatch
    simp only [List.length_cons, List.length_append]
    omega
  · exact Nat.lt_succ_self rest.length

/-! ### Groups -/

/-- The names of the capturing groups, in their order. -/
abbrev CapturingGroups := List (Option (List Char))

/-- `Number(value)`, for the texts that are extracted. -/
inductive JsNumber
  | finite (value : ℕ)
  | infinity
  | nan

def numeral (digits : List Char) : ℕ :=
  digits.foldl (fun value digit => value * 10 + (digit.toNat - '0'.toNat)) 0

def number (value : List Char) : JsNumber :=
  if value.all Char.isDigit then .finite (numeral value)
  else if value = "Infinity".toList then .infinity
  else .nan

namespace CapturingGroups

variable (groups : CapturingGroups)

def has (name : List Char) : Prop := some name ∈ groups

instance (name : List Char) : Decidable (groups.has name) :=
  inferInstanceAs (Decidable (_ ∈ _))

def count : ℕ := groups.length

/-- The regular expression has a named group. -/
def hasNames : Bool := groups.any Option.isSome

end CapturingGroups

variable (groups : CapturingGroups)

def isReferencingExistingGroup (reference : GroupReference) : Bool :=
  match number reference.value with
  | .finite index => index ≥ 1 && index ≤ groups.count
  | .infinity => false
  | .nan => groups.has reference.value

/-- The invalid references of a replacement. -/
def reported (substr : List Char) : List GroupReference :=
  (extractReferences substr).filter fun reference => !isReferencingExistingGroup groups reference

/-- The text of the report, if there is one. -/
def report (substr : List Char) : Option String :=
  match reported groups substr with
  | [] => none
  | invalidReferences =>
    some ("Referencing non-existing group" ++ (if invalidReferences.length > 1 then "s" else "") ++ ": " ++
      ", ".intercalate (invalidReferences.map fun reference => String.ofList reference.raw) ++ ".")

/-! ### How JavaScript reads a replacement -/

/-- What `GetSubstitution` finds at a place. -/
inductive Piece
  /-- A character, or `$<` where it starts no name. -/
  | literal
  /-- `$$`, `$&`, the text before the match or the text after it. -/
  | sign (c : Char)
  | index (digits : List Char)
  | name (groupName : List Char)
  deriving DecidableEq

/-- Two digits belong to a reference, unless their number exceeds that of the groups. -/
def digitCount (digits : List Char) : ℕ :=
  if 2 ≤ digits.length ∧ numeral (digits.take 2) ≤ groups.count then 2 else 1

/-- What is at a place of the text, and the text after it. -/
def piece (c : Char) (rest : List Char) : Piece × List Char :=
  if c = '$' then
    if rest.takeWhile Char.isDigit ≠ [] then
      (.index ((rest.takeWhile Char.isDigit).take (digitCount groups (rest.takeWhile Char.isDigit))),
        rest.drop (digitCount groups (rest.takeWhile Char.isDigit)))
    else
      match rest with
      | '$' :: after => (.sign '$', after)
      | '&' :: after => (.sign '&', after)
      | '`' :: after => (.sign '`', after)
      | '\'' :: after => (.sign '\'', after)
      | '<' :: tail =>
        if groups.hasNames = true ∧ '>' ∈ tail then
          (.name (tail.takeWhile (· ≠ '>')), (tail.dropWhile (· ≠ '>')).drop 1)
        else (.literal, tail)
      | _ => (.literal, rest)
  else (.literal, rest)

theorem length_piece_le (c : Char) (rest : List Char) : (piece groups c rest).2.length ≤ rest.length := by
  unfold piece
  split_ifs with hc hdigits
  · rw [List.length_drop]
    exact Nat.sub_le _ _
  · split
    · exact Nat.le_succ _
    · exact Nat.le_succ _
    · exact Nat.le_succ _
    · exact Nat.le_succ _
    · rename_i tail
      split_ifs
      · rw [List.length_drop]
        exact (Nat.sub_le _ _).trans ((List.dropWhile_suffix _).length_le.trans (Nat.le_succ _))
      · exact Nat.le_succ _
    · exact Nat.le_refl _
  · exact Nat.le_refl _

/-- The places that the reading comes to, each as its character and the text after it. -/
def places : List Char → List (Char × List Char)
  | [] => []
  | c :: rest => (c, rest) :: places (piece groups c rest).2
termination_by text => text.length
decreasing_by exact Nat.lt_succ_of_le (length_piece_le groups c rest)

/-- A reference to no group at a place: the number of characters up to the end, and its text. -/
def missingAt (c : Char) (rest : List Char) : List (ℕ × List Char) :=
  match (piece groups c rest).1 with
  | .index digits =>
    if 1 ≤ numeral digits ∧ numeral digits ≤ groups.count then [] else [(rest.length + 1, '$' :: digits)]
  | .name groupName =>
    if groups.has groupName then [] else [(rest.length + 1, ['$', '<'] ++ groupName ++ ['>'])]
  | _ => []

/-- The references to no group in a replacement. -/
def missing (template : List Char) : List (ℕ × List Char) :=
  (places groups template).flatMap fun place => missingAt groups place.1 place.2

/-! ### Where both agree -/

/-- At a place, the expression finds what JavaScript reads, as far as references to no group are concerned.

- Where no reference starts, the expression finds none either.
- After `$$`, the second dollar sign does not start a reference to no group.
- Of several digits, all belong to the reference, or all and the first two are numbers of groups.
- A name that the expression reads is not the one that counts as a number. In any other name of a group, it finds
  no reference to no group. -/
def ReadAlike (c : Char) (rest : List Char) : Prop :=
  match (piece groups c rest).1 with
  | .literal => matchAt c rest = none
  | .sign s =>
    s = '$' → ∀ found ∈ matchAt '$' (piece groups c rest).2, isReferencingExistingGroup groups found.1 = true
  | .index _ =>
    let digits := rest.takeWhile Char.isDigit
    digits.length = 1 ∨ numeral digits ≤ groups.count ∧ (digits.length = 2 ∨ numeral (digits.take 2) ≠ 0)
  | .name groupName =>
    if (matchAt c rest).isSome then groups.has groupName → groupName ≠ "Infinity".toList
    else
      groups.has groupName ∧ ∀ reference ∈ extractReferences rest, (piece groups c rest).2.length < reference.left →
        isReferencingExistingGroup groups reference = true

/-! ### Searching a text from a place on -/

theorem extractReferences_of_some {c : Char} {rest after : List Char} {reference : GroupReference}
    (h : matchAt c rest = some (reference, after)) :
    extractReferences (c :: rest) = reference :: extractReferences after := by
  rw [extractReferences, h]

theorem extractReferences_of_none {c : Char} {rest : List Char} (h : matchAt c rest = none) :
    extractReferences (c :: rest) = extractReferences rest := by
  rw [extractReferences, h]

theorem matchAt_of_ne {c : Char} (h : c ≠ '$') (rest : List Char) : matchAt c rest = none :=
  if_neg h

theorem extractReferences_append_of_not_mem {x : List Char} (h : '$' ∉ x) (y : List Char) :
    extractReferences (x ++ y) = extractReferences y := by
  induction x with
  | nil => rfl
  | cons c x ih =>
    obtain ⟨hc, hx⟩ := List.ne_and_not_mem_of_not_mem_cons h
    rw [List.cons_append, extractReferences_of_none (matchAt_of_ne (Ne.symm hc) _), ih hx]

theorem left_le (text : List Char) : ∀ reference ∈ extractReferences text, reference.left ≤ text.length := by
  fun_induction extractReferences text with
  | case1 => simp
  | case2 c rest reference after h ih =>
    obtain ⟨-, hleft, text, rfl, -⟩ := matchAt_eq_some h
    refine List.forall_mem_cons.mpr ⟨hleft.le, fun other hother => (ih other hother).trans ?_⟩
    simp only [List.length_cons, List.length_append]
    omega
  | case3 c rest h ih => exact fun other hother => (ih other hother).trans (Nat.le_succ _)

/-- The references that start in the first part of a text, then those of the second part. -/
theorem extractReferences_append (x y : List Char) :
    extractReferences (x ++ y) =
      (extractReferences (x ++ y)).filter (fun reference => y.length < reference.left) ++ extractReferences y := by
  match x with
  | [] =>
    rw [List.nil_append, List.filter_eq_nil_iff.mpr, List.nil_append]
    intro reference hreference
    simpa using left_le y reference hreference
  | c :: x =>
    rw [List.cons_append]
    cases hmatch : matchAt c (x ++ y) with
    | none =>
      rw [extractReferences_of_none hmatch]
      exact extractReferences_append x y
    | some found =>
      obtain ⟨reference, after⟩ := found
      obtain ⟨-, hleft, text, hrest, htext, -⟩ := matchAt_eq_some hmatch
      have hlt : y.length < reference.left := by
        rw [hleft, List.length_append]
        omega
      rw [extractReferences_of_some hmatch, List.filter_cons_of_pos (by simpa using hlt), List.cons_append]
      congr 1
      obtain ⟨x', rfl, rfl⟩ | ⟨y', hx, rfl⟩ := List.append_eq_append_iff.mp hrest
      · -- the match ends in the second part
        rw [extractReferences_append_of_not_mem (fun h => htext (List.mem_append_right _ h)), List.filter_eq_nil_iff.mpr,
          List.nil_append]
        intro other hother
        have hle := left_le after other hother
        simp only [List.length_append, decide_eq_true_eq]
        omega
      · have hle : y'.length ≤ x.length := by
          rw [hx, List.length_append]
          exact Nat.le_add_left _ _
        exact extractReferences_append y' y
termination_by x.length
decreasing_by all_goals simp only [List.length_cons]; omega

/-! ### One place -/

variable {groups} {c : Char} {rest after : List Char} {reference : GroupReference}

/-- The place of a reference and its text. -/
def GroupReference.sequence (reference : GroupReference) : ℕ × List Char := (reference.left, reference.raw)

/-- The references to no group that the expression finds at a place, before the next one. -/
def reportedAt (groups : CapturingGroups) (c : Char) (rest : List Char) : List GroupReference :=
  (reported groups (c :: rest)).filter fun reference => (piece groups c rest).2.length < reference.left

theorem exists_append_piece (groups : CapturingGroups) (c : Char) (rest : List Char) :
    ∃ text, rest = text ++ (piece groups c rest).2 := by
  unfold piece
  split_ifs with hc hdigits
  · exact ⟨_, (List.take_append_drop _ rest).symm⟩
  · split
    · exact ⟨['$'], rfl⟩
    · exact ⟨['&'], rfl⟩
    · exact ⟨['`'], rfl⟩
    · exact ⟨['\''], rfl⟩
    · rename_i tail
      split_ifs
      · obtain ⟨text, htext⟩ :=
          (List.drop_suffix 1 _).trans (List.dropWhile_suffix (fun c => decide (c ≠ '>')) (l := tail))
        exact ⟨'<' :: text, by rw [List.cons_append, htext]⟩
      · exact ⟨['<'], rfl⟩
    · exact ⟨[], rfl⟩
  · exact ⟨[], rfl⟩

theorem reported_cons (groups : CapturingGroups) (c : Char) (rest : List Char) :
    reported groups (c :: rest) = reportedAt groups c rest ++ reported groups (piece groups c rest).2 := by
  obtain ⟨text, htext⟩ := exists_append_piece groups c rest
  have happend := extractReferences_append (c :: text) (piece groups c rest).2
  rw [List.cons_append, ← htext] at happend
  rw [reportedAt, reported, reported, List.filter_comm, ← List.filter_append, ← happend]

theorem missing_cons (groups : CapturingGroups) (c : Char) (rest : List Char) :
    missing groups (c :: rest) = missingAt groups c rest ++ missing groups (piece groups c rest).2 := by
  rw [missing, places, List.flatMap_cons]
  rfl

theorem eq_of_mem_missingAt {sequence : ℕ × List Char} (h : sequence ∈ missingAt groups c rest) :
    sequence.1 = rest.length + 1 := by
  unfold missingAt at h
  split at h
  · split_ifs at h
    · cases h
    · rw [List.mem_singleton.mp h]
  · split_ifs at h
    · cases h
    · rw [List.mem_singleton.mp h]
  · cases h

theorem le_of_mem_missing (template : List Char) :
    ∀ sequence ∈ missing groups template, sequence.1 ≤ template.length := by
  fun_induction places groups template with
  | case1 => simp [missing, places]
  | case2 c rest ih =>
    intro sequence hmem
    rw [missing_cons] at hmem
    rcases List.mem_append.mp hmem with hat | hlater
    · exact (eq_of_mem_missingAt hat).le
    · exact (ih sequence hlater).trans ((length_piece_le groups c rest).trans (Nat.le_succ _))

/-- The places of the text up to the next one, and those from there on, are compared on their own. -/
theorem reported_eq_missing_cons :
    (reported groups (c :: rest)).map GroupReference.sequence = missing groups (c :: rest) ↔
      (reportedAt groups c rest).map GroupReference.sequence = missingAt groups c rest ∧
        (reported groups (piece groups c rest).2).map GroupReference.sequence = missing groups (piece groups c rest).2 := by
  rw [reported_cons, missing_cons, List.map_append]
  constructor
  · intro h
    -- those up to the next place have more characters left than remain there
    have hfilter := congrArg (List.filter fun sequence => (piece groups c rest).2.length < sequence.1) h
    have hat : ∀ sequence ∈ (reportedAt groups c rest).map GroupReference.sequence,
        (piece groups c rest).2.length < sequence.1 := by
      intro sequence hmem
      obtain ⟨reference, hreference, rfl⟩ := List.mem_map.mp hmem
      exact of_decide_eq_true (List.mem_filter.mp hreference).2
    have hlater : ∀ sequence ∈ (reported groups (piece groups c rest).2).map GroupReference.sequence,
        ¬ (piece groups c rest).2.length < sequence.1 := by
      intro sequence hmem
      obtain ⟨reference, hreference, rfl⟩ := List.mem_map.mp hmem
      exact Nat.not_lt.mpr (left_le _ reference (List.mem_filter.mp hreference).1)
    rw [List.filter_append, List.filter_append, List.filter_eq_self.mpr (by simpa using hat),
      List.filter_eq_nil_iff.mpr (by simpa using hlater), List.filter_eq_self.mpr, List.filter_eq_nil_iff.mpr,
      List.append_nil, List.append_nil] at hfilter
    · rw [hfilter] at h
      exact ⟨hfilter, List.append_cancel_left h⟩
    · intro sequence hmem
      simpa using le_of_mem_missing _ sequence hmem
    · intro sequence hmem
      have hle := length_piece_le groups c rest
      rw [eq_of_mem_missingAt hmem]
      simpa using Nat.lt_succ_of_le hle
  · rintro ⟨hat, hlater⟩
    rw [hat, hlater]

/-! ### What is at a place -/

theorem matchAt_name {tail : List Char} (h : matchAt '$' ('<' :: tail) = some (reference, after)) :
    ∃ groupName, tail = groupName ++ '>' :: after ∧ '>' ∉ groupName ∧ groupName.all Char.isDigit = false ∧
      reference = ⟨['$', '<'] ++ groupName ++ ['>'], groupName, tail.length + 2⟩ := by
  unfold matchAt at h
  rw [if_pos rfl, if_neg (by simp)] at h
  split at h
  · rename_i first tail' heq
    obtain rfl := (List.cons.inj heq).2
    split_ifs at h with hfirst
    split at h
    · rename_i after' hafter
      obtain ⟨rfl, rfl⟩ := Prod.mk.inj (Option.some.inj h)
      have htail := List.takeWhile_append_dropWhile (p := isWord) (l := tail')
      rw [hafter] at htail
      refine ⟨first :: tail'.takeWhile isWord, by rw [List.cons_append, htail], ?_, ?_, ?_⟩
      · intro hmem
        rcases List.mem_cons.mp hmem with hgt | hmem
        · rw [← hgt] at hfirst
          exact absurd hfirst (by decide)
        · exact absurd (List.mem_takeWhile_imp hmem) (by decide)
      · rw [List.all_cons, Bool.and_eq_false_imp]
        intro hdigit
        simp only [Char.isAlpha, Char.isUpper, Char.isLower, Char.isDigit, Bool.or_eq_true, Bool.and_eq_true,
          decide_eq_true_eq, UInt32.le_iff_toNat_le] at hfirst hdigit
        simp at hfirst hdigit
        omega
      · simp
    · cases h
  · cases h

theorem matchAt_eq_none (hdigits : rest.takeWhile Char.isDigit = []) (h : ∀ tail, rest ≠ '<' :: tail) :
    matchAt c rest = none := by
  unfold matchAt
  split_ifs with hc hne
  · exact absurd hdigits hne
  · split
    · exact absurd rfl (h _)
    · rfl
  · rfl

theorem matchAt_digits (hdigits : rest.takeWhile Char.isDigit ≠ []) :
    matchAt '$' rest =
      some (⟨'$' :: rest.takeWhile Char.isDigit, rest.takeWhile Char.isDigit, rest.length + 1⟩,
        rest.dropWhile Char.isDigit) := by
  unfold matchAt
  rw [if_pos rfl, if_pos hdigits]

/-- Where no reference starts, at digits, at a sign and at an angle bracket. -/
theorem piece_cases (groups : CapturingGroups) (c : Char) (rest : List Char) :
    piece groups c rest = (.literal, rest) ∧ matchAt c rest = none ∨
      (c = '$' ∧ rest.takeWhile Char.isDigit ≠ [] ∧
        piece groups c rest =
          (.index ((rest.takeWhile Char.isDigit).take (digitCount groups (rest.takeWhile Char.isDigit))),
            rest.drop (digitCount groups (rest.takeWhile Char.isDigit)))) ∨
      (∃ s after, c = '$' ∧ rest = s :: after ∧ s ∈ ['$', '&', '`', '\''] ∧ piece groups c rest = (.sign s, after)) ∨
      ∃ tail, c = '$' ∧ rest = '<' :: tail ∧
        piece groups c rest =
          if groups.hasNames = true ∧ '>' ∈ tail then
            (.name (tail.takeWhile (· ≠ '>')), (tail.dropWhile (· ≠ '>')).drop 1)
          else (.literal, tail) := by
  by_cases hc : c = '$'
  · subst hc
    by_cases hdigits : rest.takeWhile Char.isDigit = []
    · unfold piece
      rw [if_pos rfl, if_neg (by simpa using hdigits)]
      split
      · exact .inr (.inr (.inl ⟨_, _, rfl, rfl, by simp, rfl⟩))
      · exact .inr (.inr (.inl ⟨_, _, rfl, rfl, by simp, rfl⟩))
      · exact .inr (.inr (.inl ⟨_, _, rfl, rfl, by simp, rfl⟩))
      · exact .inr (.inr (.inl ⟨_, _, rfl, rfl, by simp, rfl⟩))
      · exact .inr (.inr (.inr ⟨_, rfl, rfl, rfl⟩))
      · rename_i hbracket
        exact .inl ⟨rfl, matchAt_eq_none hdigits fun tail heq => hbracket tail heq⟩
    · refine .inr (.inl ⟨rfl, hdigits, ?_⟩)
      unfold piece
      rw [if_pos rfl, if_pos hdigits]
  · exact .inl ⟨if_neg hc, matchAt_of_ne hc rest⟩

/-! ### What is reported from a place on -/

variable {n : ℕ}

variable (groups) in
theorem filter_reported_of_le (h : rest.length ≤ n) :
    (reported groups rest).filter (fun reference => n < reference.left) = [] := by
  refine List.filter_eq_nil_iff.mpr fun other hother => ?_
  simpa using (left_le rest other (List.mem_filter.mp hother).1).trans h

theorem filter_reported_of_some (h : matchAt c rest = some (reference, after)) (hlt : n ≤ rest.length)
    (hle : after.length ≤ n) :
    (reported groups (c :: rest)).filter (fun reference => n < reference.left) =
      if isReferencingExistingGroup groups reference = true then [] else [reference] := by
  obtain ⟨-, hleft, -⟩ := matchAt_eq_some h
  have hkept : decide (n < reference.left) = true := decide_eq_true (hleft ▸ Nat.lt_succ_of_le hlt)
  have hafter := filter_reported_of_le groups hle
  rw [reported] at hafter
  rw [reported, extractReferences_of_some h, List.filter_cons]
  cases hexists : isReferencingExistingGroup groups reference <;> simp [hkept, hafter]

theorem filter_reported_of_none (h : matchAt c rest = none) :
    (reported groups (c :: rest)).filter (fun reference => n < reference.left) =
      (reported groups rest).filter fun reference => n < reference.left := by
  rw [reported, extractReferences_of_none h, reported]

/-! ### A sign -/

theorem matchAt_sign {s : Char} (h : s ∈ ['$', '&', '`', '\'']) : matchAt '$' (s :: rest) = none := by
  simp only [List.mem_cons, List.not_mem_nil, or_false] at h
  refine matchAt_eq_none ?_ ?_
  · rcases h with rfl | rfl | rfl | rfl <;> rfl
  · rintro tail heq
    obtain rfl := (List.cons.inj heq).1
    revert h
    decide

theorem reportedAt_sign {s : Char} (hs : s ∈ ['$', '&', '`', '\''])
    (hpiece : (piece groups '$' (s :: after)).2 = after) :
    reportedAt groups '$' (s :: after) = [] ↔
      (s = '$' → ∀ found ∈ matchAt '$' after, isReferencingExistingGroup groups found.1 = true) := by
  rw [reportedAt, hpiece, filter_reported_of_none (matchAt_sign hs)]
  by_cases hdollar : s = '$'
  · subst hdollar
    cases hmatch : matchAt '$' after with
    | none =>
      rw [filter_reported_of_none hmatch, filter_reported_of_le _ le_rfl]
      simp
    | some found =>
      obtain ⟨-, -, text, htext, -⟩ := matchAt_eq_some hmatch
      have hle : found.2.length ≤ after.length := by
        rw [htext, List.length_append]
        exact Nat.le_add_left _ _
      rw [filter_reported_of_some hmatch le_rfl hle]
      simp
  · rw [filter_reported_of_none (matchAt_of_ne hdollar after), filter_reported_of_le _ le_rfl]
    simp [hdollar]

/-! ### Digits -/

theorem le_foldl_digits (digits : List Char) (value : ℕ) :
    value ≤ digits.foldl (fun value digit => value * 10 + (digit.toNat - '0'.toNat)) value := by
  induction digits generalizing value with
  | nil => exact le_rfl
  | cons digit digits ih =>
    have hle : value ≤ value * 10 + (digit.toNat - '0'.toNat) := by omega
    exact hle.trans (ih _)

theorem numeral_take_le (digits : List Char) (n : ℕ) : numeral (digits.take n) ≤ numeral digits := by
  have hle := le_foldl_digits (digits.drop n) (numeral (digits.take n))
  rw [numeral, ← List.foldl_append, List.take_append_drop] at hle
  exact hle

theorem isReferencing_digits {raw digits : List Char} {left : ℕ} (h : digits.all Char.isDigit = true) :
    isReferencingExistingGroup groups ⟨raw, digits, left⟩ = true ↔
      1 ≤ numeral digits ∧ numeral digits ≤ groups.count := by
  rw [isReferencingExistingGroup, number, if_pos h]
  simp

/-- All digits and those that belong to the reference stand for the same group, or are the same and for none. -/
theorem digits_iff {digits : List Char} (h : digits ≠ []) :
    ((1 ≤ numeral digits ∧ numeral digits ≤ groups.count) ∧
        (1 ≤ numeral (digits.take (digitCount groups digits)) ∧
          numeral (digits.take (digitCount groups digits)) ≤ groups.count) ∨
      ¬ (1 ≤ numeral digits ∧ numeral digits ≤ groups.count) ∧ digits.take (digitCount groups digits) = digits) ↔
      digits.length = 1 ∨
        numeral digits ≤ groups.count ∧ (digits.length = 2 ∨ numeral (digits.take 2) ≠ 0) := by
  have hpos : 0 < digits.length := List.length_pos_of_ne_nil h
  have htake := numeral_take_le digits 2
  have hwhole : ∀ n, digits.take n = digits ↔ digits.length ≤ n := fun n => List.take_eq_self_iff digits
  rw [hwhole]
  unfold digitCount
  by_cases htwo : 2 ≤ digits.length ∧ numeral (digits.take 2) ≤ groups.count
  · rw [if_pos htwo]
    by_cases hlength : digits.length = 2
    · rw [(hwhole 2).mpr hlength.le] at htwo ⊢
      omega
    · omega
  · rw [if_neg htwo]
    by_cases hlength : digits.length = 1
    · rw [(hwhole 1).mpr hlength.le]
      omega
    · omega

theorem reportedAt_digits (hdigits : rest.takeWhile Char.isDigit ≠ [])
    (hpiece : piece groups '$' rest =
      (.index ((rest.takeWhile Char.isDigit).take (digitCount groups (rest.takeWhile Char.isDigit))),
        rest.drop (digitCount groups (rest.takeWhile Char.isDigit)))) :
    (reportedAt groups '$' rest).map GroupReference.sequence = missingAt groups '$' rest ↔ ReadAlike groups '$' rest := by
  have hrest := List.takeWhile_append_dropWhile (p := Char.isDigit) (l := rest)
  have hall : (rest.takeWhile Char.isDigit).all Char.isDigit = true := List.all_eq_true.mpr fun c => List.mem_takeWhile_imp
  have hcount : digitCount groups (rest.takeWhile Char.isDigit) ≤ (rest.takeWhile Char.isDigit).length := by
    have hpos := List.length_pos_of_ne_nil hdigits
    unfold digitCount
    split_ifs <;> omega
  have hle : (rest.dropWhile Char.isDigit).length ≤ (piece groups '$' rest).2.length := by
    have hlength := congrArg List.length hrest
    rw [List.length_append] at hlength
    rw [hpiece, List.length_drop]
    omega
  rw [reportedAt, filter_reported_of_some (matchAt_digits hdigits) (length_piece_le groups '$' rest) hle, missingAt,
    ReadAlike, hpiece, ← digits_iff hdigits]
  simp only [isReferencing_digits hall]
  split_ifs with hexists hread hread
  · simp [hexists, hread]
  · simp [hexists, hread]
  · refine iff_of_false (by simp) ?_
    rintro (⟨hboth, -⟩ | ⟨-, hwhole⟩)
    · exact hexists hboth
    · rw [hwhole] at hread
      exact hexists hread
  · simp [hexists, GroupReference.sequence, eq_comm]

/-! ### Names -/

theorem isReferencing_name {raw groupName : List Char} {left : ℕ} (h : groupName.all Char.isDigit = false) :
    isReferencingExistingGroup groups ⟨raw, groupName, left⟩ = true ↔
      groups.has groupName ∧ groupName ≠ "Infinity".toList := by
  rw [isReferencingExistingGroup, number, if_neg (by simp [h])]
  split_ifs with hinfinity
  · exact iff_of_false (by simp) fun hname => hname.2 hinfinity
  · exact decide_eq_true_iff.trans ⟨fun hhas => ⟨hhas, hinfinity⟩, And.left⟩

theorem hasNames_of_has {groupName : List Char} (h : groups.has groupName) : groups.hasNames = true :=
  List.any_eq_true.mpr ⟨_, h, rfl⟩

variable (after) in
theorem takeWhile_name {groupName : List Char} (h : '>' ∉ groupName) :
    (groupName ++ '>' :: after).takeWhile (· ≠ '>') = groupName ∧
      ((groupName ++ '>' :: after).dropWhile (· ≠ '>')).drop 1 = after := by
  have hall : ∀ c ∈ groupName, decide (c ≠ '>') = true := fun c hc => decide_eq_true (fun heq => h (heq ▸ hc))
  constructor
  · rw [List.takeWhile_append_of_pos hall]
    simp
  · rw [List.dropWhile_append_of_pos hall]
    simp

/-- `$<` that starts no reference: what the expression finds is the name of no group. -/
theorem reportedAt_bracket {tail : List Char} (h : ¬ (groups.hasNames = true ∧ '>' ∈ tail))
    (hpiece : piece groups '$' ('<' :: tail) = (.literal, tail)) :
    reportedAt groups '$' ('<' :: tail) = [] ↔ matchAt '$' ('<' :: tail) = none := by
  rw [reportedAt, hpiece]
  cases hmatch : matchAt '$' ('<' :: tail) with
  | none =>
    rw [filter_reported_of_none hmatch, filter_reported_of_none (matchAt_of_ne (by decide) tail),
      filter_reported_of_le _ le_rfl]
    simp
  | some found =>
    obtain ⟨reference, after⟩ := found
    obtain ⟨groupName, rfl, -, hdigit, rfl⟩ := matchAt_name hmatch
    have hmissing : ¬ (groups.has groupName ∧ groupName ≠ "Infinity".toList) := fun hname =>
      h ⟨hasNames_of_has hname.1, by simp⟩
    rw [filter_reported_of_some hmatch (Nat.le_succ _) (by simp; omega),
      if_neg ((isReferencing_name hdigit).not.mpr hmissing)]
    simp

/-- `$<` that starts a reference. -/
theorem reportedAt_name {tail : List Char} (hmem : '>' ∈ tail)
    (hpiece : piece groups '$' ('<' :: tail) = (.name (tail.takeWhile (· ≠ '>')), (tail.dropWhile (· ≠ '>')).drop 1)) :
    (reportedAt groups '$' ('<' :: tail)).map GroupReference.sequence = missingAt groups '$' ('<' :: tail) ↔
      ReadAlike groups '$' ('<' :: tail) := by
  rw [missingAt, ReadAlike, hpiece]
  cases hmatch : matchAt '$' ('<' :: tail) with
  | none =>
    rw [reportedAt, filter_reported_of_none hmatch, hpiece]
    simp only [Option.isSome_none, Bool.false_eq_true, if_false]
    split_ifs with hhas
    · rw [List.map_eq_nil_iff, reported, List.filter_comm, List.filter_eq_nil_iff, and_iff_right hhas]
      simp
    · refine iff_of_false (fun heq => ?_) (fun h => hhas h.1)
      -- the references in the text after the dollar sign start later
      have hfirst := List.mem_map.mp (heq ▸ List.mem_singleton_self _)
      obtain ⟨other, hother, hsequence⟩ := hfirst
      have hle := left_le _ other (List.mem_filter.mp (List.mem_filter.mp hother).1).1
      have hleft := congrArg Prod.fst hsequence
      simp only [GroupReference.sequence] at hleft
      omega
  | some found =>
    obtain ⟨reference, after⟩ := found
    obtain ⟨groupName, rfl, hgt, hdigit, rfl⟩ := matchAt_name hmatch
    obtain ⟨htake, hdrop⟩ := takeWhile_name after hgt
    rw [reportedAt, hpiece, htake, hdrop, filter_reported_of_some hmatch (by simp; omega) le_rfl]
    simp only [Option.isSome_some, if_true, isReferencing_name hdigit]
    by_cases hexists : groups.has groupName ∧ groupName ≠ "Infinity".toList
    · rw [if_pos hexists, if_pos hexists.1]
      exact iff_of_true rfl fun _ => hexists.2
    · rw [if_neg hexists]
      by_cases hhas : groups.has groupName
      · rw [if_pos hhas]
        exact iff_of_false (by simp) fun h => hexists ⟨hhas, h hhas⟩
      · rw [if_neg hhas]
        exact iff_of_true (by simp [GroupReference.sequence]) fun h => absurd h hhas

/-! ### A replacement -/

theorem reportedAt_iff (groups : CapturingGroups) (c : Char) (rest : List Char) :
    (reportedAt groups c rest).map GroupReference.sequence = missingAt groups c rest ↔ ReadAlike groups c rest := by
  obtain ⟨hpiece, hmatch⟩ | ⟨rfl, hdigits, hpiece⟩ | ⟨s, after, rfl, rfl, hs, hpiece⟩ | ⟨tail, rfl, rfl, hpiece⟩ :=
    piece_cases groups c rest
  · rw [reportedAt, filter_reported_of_none hmatch, missingAt, ReadAlike, hpiece, filter_reported_of_le _ le_rfl]
    simp [hmatch]
  · exact reportedAt_digits hdigits hpiece
  · rw [missingAt, ReadAlike, hpiece, List.map_eq_nil_iff]
    exact reportedAt_sign hs (by rw [hpiece])
  · split_ifs at hpiece with hname
    · exact reportedAt_name hname.2 hpiece
    · rw [missingAt, ReadAlike, hpiece, List.map_eq_nil_iff]
      exact reportedAt_bracket hname hpiece

/-- The references that are reported are those that JavaScript reads as references to no group if and only if both
agree at every place that the reading comes to. -/
theorem reported_eq_missing_iff (groups : CapturingGroups) (substr : List Char) :
    (reported groups substr).map GroupReference.sequence = missing groups substr ↔
      ∀ place ∈ places groups substr, ReadAlike groups place.1 place.2 := by
  fun_induction places groups substr with
  | case1 => simp [reported, missing, places, extractReferences]
  | case2 c rest ih => rw [reported_eq_missing_cons, reportedAt_iff, ih, List.forall_mem_cons]

/-- `$$1`, a dollar sign and a digit for JavaScript, is reported where there is no group. -/
theorem escaped_dollar_reported :
    ¬ ∀ (groups : CapturingGroups) (substr : List Char),
      (reported groups substr).map GroupReference.sequence = missing groups substr := by
  intro h
  have hplace : ReadAlike [] '$' ['$', '1'] :=
    (reportedAt_iff [] '$' ['$', '1']).mp (reported_eq_missing_cons.mp (h [] ['$', '$', '1'])).1
  exact absurd (hplace rfl ⟨⟨['$', '1'], ['1'], 2⟩, []⟩ rfl) (by decide)

end SonarJavascript.Rules.ExistingGroups

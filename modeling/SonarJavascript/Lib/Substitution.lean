import Mathlib.Algebra.Order.Group.Nat
import Mathlib.Data.List.Infix
import Mathlib.Tactic.SplitIfs
import Mathlib.Data.List.Nodup

/-!
# Substitution in words

Patterns are replaced by words, one after the other or all at once. This is the same when no replacement can become
part of a pattern that is replaced after it (`foldl_replace_eq_substitute`).
-/

namespace SonarJavascript.Substitution

universe u v

variable {α : Type u} [DecidableEq α]

/-! ### One pattern -/

/-- Each occurrence of the pattern from the left, without overlaps. -/
def replace (pattern replacement : List α) : List α → List α
  | [] => []
  | c :: rest =>
    if pattern <+: c :: rest then replacement ++ replace pattern replacement (rest.drop (pattern.length - 1))
    else c :: replace pattern replacement rest
termination_by word => word.length
decreasing_by all_goals simp only [List.length_cons, List.length_drop]; omega

variable {pattern replacement word : List α}

theorem replace_pattern (hne : pattern ≠ []) (rest : List α) :
    replace pattern replacement (pattern ++ rest) = replacement ++ replace pattern replacement rest := by
  obtain ⟨c, tail, rfl⟩ := List.exists_cons_of_ne_nil hne
  rw [List.cons_append, replace, if_pos (List.cons_append ▸ List.prefix_append (c :: tail) rest), List.length_cons,
    Nat.add_sub_cancel, List.drop_left]

/-- Where no occurrence starts, the word stays as it is. -/
theorem replace_append {before rest : List α}
    (h : ∀ x y, before ++ rest = x ++ pattern ++ y → before.length ≤ x.length) :
    replace pattern replacement (before ++ rest) = before ++ replace pattern replacement rest := by
  induction before with
  | nil => rfl
  | cons c before ih =>
    have hnot : ¬ pattern <+: c :: (before ++ rest) := by
      rintro ⟨y, hy⟩
      exact absurd (h [] y hy.symm) (Nat.not_succ_le_zero _)
    have hlater : ∀ x y, before ++ rest = x ++ pattern ++ y → before.length ≤ x.length := fun x y hxy =>
      Nat.le_of_succ_le_succ (h (c :: x) y (congrArg (c :: ·) hxy))
    rw [List.cons_append, replace, if_neg hnot, ih hlater, List.cons_append]

theorem replace_eq_self (h : ¬ pattern <:+: word) : replace pattern replacement word = word := by
  have hnone : ∀ x y, word ++ [] = x ++ pattern ++ y → word.length ≤ x.length := by
    intro x y hxy
    rw [List.append_nil] at hxy
    exact absurd ⟨x, y, hxy.symm⟩ h
  have heq : replace pattern replacement (word ++ []) = word ++ replace pattern replacement [] := replace_append hnone
  rwa [replace, List.append_nil] at heq

theorem occurrence_induction {P : List α → Prop} (hne : pattern ≠ []) (hnil : P [])
    (hpattern : ∀ rest, P rest → P (pattern ++ rest))
    (hcons : ∀ c rest, ¬ pattern <+: c :: rest → P rest → P (c :: rest)) (word : List α) : P word := by
  induction hlength : word.length using Nat.strong_induction_on generalizing word with
  | _ n ih =>
    cases word with
    | nil => exact hnil
    | cons c rest =>
      by_cases hstarts : pattern <+: c :: rest
      · obtain ⟨after, hafter⟩ := hstarts
        have hpos := List.length_pos_iff.mpr hne
        have hlengths := congrArg List.length hafter
        rw [List.length_append] at hlengths
        rw [← hafter]
        exact hpattern after (ih after.length (by omega) after rfl)
      · exact hcons c rest hstarts (ih rest.length (by simp at hlength; omega) rest rfl)

theorem replace_cons {c : α} {rest : List α} (h : ¬ pattern <+: c :: rest) :
    replace pattern replacement (c :: rest) = c :: replace pattern replacement rest := by
  rw [replace, if_neg h]

theorem replace_self (hne : pattern ≠ []) (word : List α) : replace pattern pattern word = word := by
  induction word using occurrence_induction hne with
  | hnil => rw [replace]
  | hpattern rest ih => rw [replace_pattern hne, ih]
  | hcons c rest hnot ih => rw [replace_cons hnot, ih]

theorem length_le_replace (hne : pattern ≠ []) (h : pattern.length ≤ replacement.length) (word : List α) :
    word.length ≤ (replace pattern replacement word).length := by
  induction word using occurrence_induction hne with
  | hnil => exact Nat.zero_le _
  | hpattern rest ih =>
    rw [replace_pattern hne, List.length_append, List.length_append]
    omega
  | hcons c rest hnot ih =>
    rw [replace_cons hnot, List.length_cons, List.length_cons]
    omega

theorem replace_length_le (hne : pattern ≠ []) (h : replacement.length ≤ pattern.length) (word : List α) :
    (replace pattern replacement word).length ≤ word.length := by
  induction word using occurrence_induction hne with
  | hnil => rw [replace]
  | hpattern rest ih =>
    rw [replace_pattern hne, List.length_append, List.length_append]
    omega
  | hcons c rest hnot ih =>
    rw [replace_cons hnot, List.length_cons, List.length_cons]
    omega

theorem eq_of_replace_eq_self (hne : pattern ≠ []) (hoccurs : pattern <:+: word)
    (h : replace pattern replacement word = word) : replacement = pattern := by
  induction word using occurrence_induction hne with
  | hnil => exact absurd (List.eq_nil_of_infix_nil hoccurs) hne
  | hpattern rest ih =>
    rw [replace_pattern hne] at h
    have hlengths := congrArg List.length h
    rw [List.length_append, List.length_append] at hlengths
    have hlength : replacement.length = pattern.length := by
      rcases Nat.le_total pattern.length replacement.length with hcase | hcase
      · have := length_le_replace hne hcase rest
        omega
      · have := replace_length_le hne hcase rest
        omega
    exact List.append_inj_left h hlength
  | hcons c rest hnot ih =>
    rw [replace_cons hnot] at h
    refine ih ?_ (List.cons.inj h).2
    rcases List.infix_cons_iff.mp hoccurs with hstarts | hrest
    · exact absurd hstarts hnot
    · exact hrest

/-! ### Splitting -/

/-- The pieces between the occurrences of a separator, which is not empty. -/
def split (separator : List α) : List α → List (List α)
  | [] => [[]]
  | c :: rest =>
    if separator <+: c :: rest then [] :: split separator (rest.drop (separator.length - 1))
    else
      match split separator rest with
      | [] => [[c]]
      | piece :: pieces => (c :: piece) :: pieces
termination_by word => word.length
decreasing_by all_goals simp only [List.length_cons, List.length_drop]; omega

omit [DecidableEq α] in
theorem intercalate_cons {piece : List α} {pieces : List (List α)} (h : pieces ≠ []) :
    replacement.intercalate (piece :: pieces) = piece ++ replacement ++ replacement.intercalate pieces := by
  cases pieces with
  | nil => exact absurd rfl h
  | cons second pieces => simp [List.intercalate]

theorem split_ne_nil (separator word : List α) : split separator word ≠ [] := by
  cases word with
  | nil => simp [split]
  | cons c rest =>
    rw [split]
    split_ifs
    · exact List.cons_ne_nil _ _
    · split <;> exact List.cons_ne_nil _ _

theorem intercalate_split (hne : pattern ≠ []) (word : List α) :
    replacement.intercalate (split pattern word) = replace pattern replacement word := by
  induction word using occurrence_induction hne with
  | hnil => simp [split, replace, List.intercalate]
  | hpattern rest ih =>
    obtain ⟨c, tail, rfl⟩ := List.exists_cons_of_ne_nil hne
    rw [replace_pattern hne, List.cons_append, split, if_pos (List.cons_append ▸ List.prefix_append (c :: tail) rest),
      List.length_cons, Nat.add_sub_cancel, List.drop_left, intercalate_cons (split_ne_nil _ rest), ih, List.nil_append]
  | hcons c rest hnot ih =>
    rw [replace_cons hnot, ← ih, split, if_neg hnot]
    rcases hpieces : split pattern rest with _ | ⟨piece, _ | ⟨second, pieces⟩⟩
    · exact absurd hpieces (split_ne_nil _ rest)
    · simp [List.intercalate]
    · simp [List.intercalate]

/-! ### All patterns at once -/

structure Entry (α : Type u) where
  pattern : List α
  value : List α
  deriving DecidableEq

/-- From the left, the pattern that starts is replaced, and the search goes on after it. -/
def substitute (data : List (Entry α)) : List α → List α
  | [] => []
  | c :: rest =>
    match data.find? (·.pattern <+: c :: rest) with
    | some entry => entry.value ++ substitute data (rest.drop (entry.pattern.length - 1))
    | none => c :: substitute data rest
termination_by word => word.length
decreasing_by all_goals simp only [List.length_cons, List.length_drop]; omega

/-- A letter or a place where a pattern has been found. -/
inductive Token (α : Type u)
  | letter (c : α)
  | place (entry : Entry α)

def tokens (data : List (Entry α)) : List α → List (Token α)
  | [] => []
  | c :: rest =>
    match data.find? (·.pattern <+: c :: rest) with
    | some entry => .place entry :: tokens data (rest.drop (entry.pattern.length - 1))
    | none => .letter c :: tokens data rest
termination_by word => word.length
decreasing_by all_goals simp only [List.length_cons, List.length_drop]; omega

/-- The word in which some of the entries have been substituted. -/
def render (done : List (Entry α)) : List (Token α) → List α
  | [] => []
  | .letter c :: rest => c :: render done rest
  | .place entry :: rest => (if entry ∈ done then entry.value else entry.pattern) ++ render done rest

section Tokens

variable {data : List (Entry α)}

/-- An induction along the search. -/
theorem search_induction {P : List α → Prop} (hne : ∀ entry ∈ data, entry.pattern ≠ []) (hnil : P [])
    (hplace : ∀ entry ∈ data, ∀ c rest after, data.find? (·.pattern <+: c :: rest) = some entry →
      entry.pattern ++ after = c :: rest → after = rest.drop (entry.pattern.length - 1) → P after → P (c :: rest))
    (hletter : ∀ c rest, data.find? (·.pattern <+: c :: rest) = none → P rest → P (c :: rest)) (word : List α) :
    P word := by
  induction hlength : word.length using Nat.strong_induction_on generalizing word with
  | _ n ih =>
    cases word with
    | nil => exact hnil
    | cons c rest =>
      rw [List.length_cons] at hlength
      cases hfind : data.find? (·.pattern <+: c :: rest) with
      | none => exact hletter c rest hfind (ih rest.length (by omega) rest rfl)
      | some entry =>
        have hmem := List.mem_of_find?_eq_some hfind
        have hstarts : entry.pattern <+: c :: rest := by
          simpa using List.find?_some hfind
        obtain ⟨after, hafter⟩ := hstarts
        have hdrop : after = rest.drop (entry.pattern.length - 1) := by
          obtain ⟨d, tail, hpattern⟩ := List.exists_cons_of_ne_nil (hne entry hmem)
          rw [hpattern, List.cons_append] at hafter
          rw [hpattern, ← (List.cons.inj hafter).2, List.length_cons, Nat.add_sub_cancel, List.drop_left]
        have hlengths := congrArg List.length hafter
        have hpos := List.length_pos_iff.mpr (hne entry hmem)
        rw [List.length_append, List.length_cons] at hlengths
        exact hplace entry hmem c rest after hfind hafter hdrop (ih after.length (by omega) after rfl)

theorem render_nil (hne : ∀ entry ∈ data, entry.pattern ≠ []) (word : List α) :
    render [] (tokens data word) = word := by
  induction word using search_induction hne with
  | hnil => rw [tokens, render]
  | hplace entry hmem c rest after hfind hafter hdrop ih =>
    rw [tokens, hfind]
    dsimp only
    rw [← hdrop, render, if_neg List.not_mem_nil, ih, hafter]
  | hletter c rest hfind ih =>
    rw [tokens, hfind]
    dsimp only
    rw [render, ih]

theorem render_all {done : List (Entry α)} (hne : ∀ entry ∈ data, entry.pattern ≠ [])
    (hdone : ∀ entry ∈ data, entry ∈ done) (word : List α) : render done (tokens data word) = substitute data word := by
  induction word using search_induction hne with
  | hnil => rw [tokens, render, substitute]
  | hplace entry hmem c rest after hfind hafter hdrop ih =>
    rw [tokens, substitute, hfind]
    dsimp only
    rw [← hdrop, render, if_pos (hdone entry hmem), ih]
  | hletter c rest hfind ih =>
    rw [tokens, substitute, hfind]
    dsimp only
    rw [render, ih]

theorem mem_of_place (hne : ∀ entry ∈ data, entry.pattern ≠ []) {entry : Entry α} {word : List α}
    (h : Token.place entry ∈ tokens data word) : entry ∈ data ∧ entry.pattern <:+: word := by
  induction word using search_induction hne with
  | hnil => rw [tokens] at h; cases h
  | hplace found hmem c rest after hfind hafter hdrop ih =>
    rw [tokens, hfind] at h
    dsimp only at h
    rcases List.mem_cons.mp h with heq | hrest
    · obtain rfl := Token.place.inj heq
      exact ⟨hmem, hafter ▸ (List.prefix_append _ _).isInfix⟩
    · rw [← hdrop] at hrest
      obtain ⟨hentry, hoccurs⟩ := ih hrest
      exact ⟨hentry, hafter ▸ hoccurs.trans (List.suffix_append _ _).isInfix⟩
  | hletter c rest hfind ih =>
    rw [tokens, hfind] at h
    dsimp only at h
    rcases List.mem_cons.mp h with heq | hrest
    · cases heq
    · obtain ⟨hentry, hoccurs⟩ := ih hrest
      exact ⟨hentry, hoccurs.trans (List.suffix_cons c rest).isInfix⟩

/-- The pattern does not start at a letter. -/
def Clear (pattern : List α) (done : List (Entry α)) : List (Token α) → Prop
  | [] => True
  | .letter c :: rest => ¬ pattern <+: c :: render done rest ∧ Clear pattern done rest
  | .place _ :: rest => Clear pattern done rest

theorem clear_tokens (hne : ∀ entry ∈ data, entry.pattern ≠ []) {entry : Entry α} (hmem : entry ∈ data)
    (word : List α) : Clear entry.pattern [] (tokens data word) := by
  induction word using search_induction hne with
  | hnil =>
    rw [tokens]
    trivial
  | hplace found _ c rest after hfind _ hdrop ih =>
    rw [tokens, hfind]
    dsimp only
    rw [← hdrop]
    exact ih
  | hletter c rest hfind ih =>
    rw [tokens, hfind]
    dsimp only
    refine ⟨?_, ih⟩
    rw [render_nil hne]
    simpa using List.find?_eq_none.mp hfind entry hmem

end Tokens

/-! ### One after the other -/

/-- Between any two words, no occurrence of the pattern touches the value. -/
def Apart (pattern value : List α) : Prop :=
  ∀ l r x y, l ++ value ++ r = x ++ pattern ++ y →
    x.length + pattern.length ≤ l.length ∨ l.length + value.length ≤ x.length

theorem replace_append_of_apart {value : List α} (hne : pattern ≠ []) (h : Apart pattern value) (rest : List α) :
    replace pattern replacement (value ++ rest) = value ++ replace pattern replacement rest := by
  refine replace_append fun x y hxy => ?_
  have hpos := List.length_pos_iff.mpr hne
  rcases h [] rest x y hxy with hle | hle
  · rw [List.length_nil] at hle
    omega
  · rwa [List.length_nil, Nat.zero_add] at hle

section Steps

variable {pattern : List α} {entry : Entry α} {done : List (Entry α)}

theorem prefix_of_prefix_render {ts : List (Token α)}
    (hapart : Token.place entry ∈ ts → Apart pattern entry.value) {l : List α} (hl : l ≠ [])
    (h : pattern <+: l ++ render (entry :: done) ts) : pattern <+: l ++ render done ts := by
  induction ts generalizing l with
  | nil => exact h
  | cons token ts ih =>
    cases token with
    | letter c =>
      rw [render, List.append_cons] at h ⊢
      exact ih (fun hmem => hapart (List.mem_cons_of_mem _ hmem)) (by simp) h
    | place found =>
      by_cases heq : found = entry ∧ entry ∉ done
      · obtain ⟨rfl, hnot⟩ := heq
        rw [render, if_pos List.mem_cons_self, ← List.append_assoc] at h
        obtain ⟨y, hy⟩ := h
        have hpos := List.length_pos_iff.mpr hl
        rcases hapart List.mem_cons_self l _ [] y hy.symm with hle | hle
        · rw [List.length_nil, Nat.zero_add] at hle
          rw [List.append_assoc] at hy
          exact (List.prefix_of_prefix_length_le ⟨y, hy⟩ (List.prefix_append l _) hle).trans (List.prefix_append l _)
        · rw [List.length_nil] at hle
          omega
      · have hsame : (found ∈ entry :: done) ↔ found ∈ done := by
          rw [List.mem_cons, or_iff_right_iff_imp]
          rintro rfl
          exact not_not.mp fun hnot => heq ⟨rfl, hnot⟩
        simp only [render, hsame] at h ⊢
        rw [← List.append_assoc] at h ⊢
        exact ih (fun hmem => hapart (List.mem_cons_of_mem _ hmem)) (List.append_ne_nil_of_left_ne_nil hl _) h

theorem Clear.step {ts : List (Token α)} (hapart : Token.place entry ∈ ts → Apart pattern entry.value)
    (h : Clear pattern done ts) : Clear pattern (entry :: done) ts := by
  induction ts with
  | nil => trivial
  | cons token ts ih =>
    have hapart' := fun hmem => hapart (List.mem_cons_of_mem _ hmem)
    cases token with
    | letter c =>
      refine ⟨fun hstarts => h.1 ?_, ih hapart' h.2⟩
      rw [← List.singleton_append] at hstarts ⊢
      exact prefix_of_prefix_render hapart' (List.cons_ne_nil c []) hstarts
    | place found => exact ih hapart' h

/-- Replacing the pattern of an entry substitutes its places, and no others. -/
theorem replace_render (hne : entry.pattern ≠ []) {ts : List (Token α)} (hclear : Clear entry.pattern done ts)
    (hnot : entry ∉ done)
    (hvalues : ∀ found, Token.place found ∈ ts → found ∈ done → Apart entry.pattern found.value)
    (hpatterns : ∀ found, Token.place found ∈ ts → found ≠ entry → Apart entry.pattern found.pattern) :
    replace entry.pattern entry.value (render done ts) = render (entry :: done) ts := by
  induction ts with
  | nil => rw [render, render, replace]
  | cons token ts ih =>
    have hvalues' := fun found hfound => hvalues found (List.mem_cons_of_mem _ hfound)
    have hpatterns' := fun found hfound => hpatterns found (List.mem_cons_of_mem _ hfound)
    cases token with
    | letter c => rw [render, render, replace_cons hclear.1, ih hclear.2 hvalues' hpatterns']
    | place found =>
      rw [render, render]
      by_cases hdone : found ∈ done
      · rw [if_pos hdone, if_pos (List.mem_cons_of_mem _ hdone),
          replace_append_of_apart hne (hvalues found List.mem_cons_self hdone), ih hclear hvalues' hpatterns']
      by_cases heq : found = entry
      · rw [heq, if_neg hnot, if_pos List.mem_cons_self, replace_pattern hne, ih hclear hvalues' hpatterns']
      · rw [if_neg hdone, if_neg (by simp [heq, hdone]),
          replace_append_of_apart hne (hpatterns found List.mem_cons_self heq), ih hclear hvalues' hpatterns']

end Steps

/-- The pattern is replaced by itself. -/
def Inert (entry : Entry α) : Prop := entry.value = entry.pattern

/-- After `a`, replacing `b` finds nothing in the value of `a`, or changes nothing. -/
def After (a b : Entry α) : Prop := Inert b ∨ Apart b.pattern a.value

theorem render_inert {entry : Entry α} (h : Inert entry) (done : List (Entry α)) (ts : List (Token α)) :
    render (entry :: done) ts = render done ts := by
  induction ts with
  | nil => rfl
  | cons token ts ih =>
    cases token with
    | letter c => rw [render, render, ih]
    | place found =>
      rw [render, render, ih]
      by_cases heq : found = entry
      · have hvalue : found.value = found.pattern := heq ▸ h
        rw [heq] at hvalue ⊢
        simp [hvalue]
      · simp [heq]

def replaceEach (order : List (Entry α)) (word : List α) : List α :=
  order.foldl (fun word entry => replace entry.pattern entry.value word) word

/-- A run of replacements substitutes the places of its entries. -/
theorem replaceEach_render {order done : List (Entry α)} {ts : List (Token α)}
    (hne : ∀ entry ∈ order, entry.pattern ≠ []) (hnodup : order.Nodup) (hdisjoint : ∀ entry ∈ order, entry ∉ done)
    (hclear : ∀ entry ∈ order, Inert entry ∨ Clear entry.pattern done ts)
    (hdone : ∀ a ∈ done, Token.place a ∈ ts → ∀ b ∈ order, After a b)
    (horder : order.Pairwise fun a b => Token.place a ∈ ts → After a b)
    (hpatterns : ∀ a, Token.place a ∈ ts → ∀ b ∈ order, a ≠ b → Apart b.pattern a.pattern) :
    replaceEach order (render done ts) = render (order.reverse ++ done) ts := by
  induction order generalizing done with
  | nil => rfl
  | cons entry order ih =>
    obtain ⟨hentryNe, hne⟩ := List.forall_mem_cons.mp hne
    obtain ⟨hentryClear, hclear⟩ := List.forall_mem_cons.mp hclear
    obtain ⟨hentryNot, hdisjoint⟩ := List.forall_mem_cons.mp hdisjoint
    obtain ⟨hentryOrder, horder⟩ := List.pairwise_cons.mp horder
    obtain ⟨hentryNodup, hnodup⟩ := List.nodup_cons.mp hnodup
    have hstep : replace entry.pattern entry.value (render done ts) = render (entry :: done) ts := by
      by_cases hinert : Inert entry
      · rw [render_inert hinert]
        have hvalue : entry.value = entry.pattern := hinert
        rw [hvalue, replace_self hentryNe]
      · refine replace_render hentryNe (hentryClear.resolve_left hinert) hentryNot (fun found hfound hmem => ?_)
          fun found hfound hfoundNe => hpatterns found hfound entry List.mem_cons_self hfoundNe
        exact (hdone found hmem hfound entry List.mem_cons_self).resolve_left hinert
    rw [replaceEach, List.foldl_cons, hstep, List.reverse_cons, List.append_assoc, List.singleton_append]
    refine ih hne hnodup (fun other hother => ?_) (fun other hother => ?_) (fun a ha hplace b hb => ?_) horder
      fun a ha b hb => hpatterns a ha b (List.mem_cons_of_mem _ hb)
    · rw [List.mem_cons, not_or]
      exact ⟨fun heq => hentryNodup (heq ▸ hother), hdisjoint other hother⟩
    · by_cases hinert : Inert other
      · exact .inl hinert
      · exact .inr (.step (fun hplace => (hentryOrder other hother hplace).resolve_left hinert)
          ((hclear other hother).resolve_left hinert))
    · rcases List.mem_cons.mp ha with rfl | ha
      · exact hentryOrder b hb hplace
      · exact hdone a ha hplace b (List.mem_cons_of_mem _ hb)

/-! ### The result -/

/-- Patterns of which no two overlap. -/
structure Separate (data : List (Entry α)) : Prop where
  ne_nil : ∀ entry ∈ data, entry.pattern ≠ []
  apart : ∀ a ∈ data, ∀ b ∈ data, a ≠ b → Apart b.pattern a.pattern
  self : ∀ a ∈ data, ∀ l r x y, l ++ a.pattern ++ r = x ++ a.pattern ++ y →
    x.length + a.pattern.length ≤ l.length ∨ x.length = l.length ∨ l.length + a.pattern.length ≤ x.length

variable {data : List (Entry α)}

/-- One after the other is all at once, when what is in the word is not replaced again. -/
theorem replaceEach_eq_substitute {order : List (Entry α)} (hseparate : Separate data) (hnodup : order.Nodup)
    (hmem : ∀ entry, entry ∈ order ↔ entry ∈ data) (word : List α)
    (horder : order.Pairwise fun a b => a.pattern <:+: word → After a b) :
    replaceEach order word = substitute data word := by
  have hne := hseparate.ne_nil
  have hrun : replaceEach order (render [] (tokens data word)) = render (order.reverse ++ []) (tokens data word) :=
    replaceEach_render
    (fun entry hentry => hne entry ((hmem entry).mp hentry)) hnodup (fun _ _ => List.not_mem_nil)
    (fun entry hentry => .inr (clear_tokens hne ((hmem entry).mp hentry) word)) nofun
    (horder.imp fun hafter hplace => hafter (mem_of_place hne hplace).2)
    fun a ha b hb => hseparate.apart a (mem_of_place hne ha).1 b ((hmem b).mp hb)
  rw [render_nil hne] at hrun
  rw [hrun, render_all hne fun entry hentry => by simpa using (hmem entry).mpr hentry]

omit [DecidableEq α] in
/-- A word around the value in which the pattern meets it, with proper pieces of the pattern on both sides. -/
theorem exists_context {pattern value : List α} (hne : pattern ≠ []) (h : ¬ Apart pattern value) :
    ∃ l r, pattern <:+: l ++ value ++ r ∧ (∃ t, t ≠ [] ∧ pattern = l ++ t) ∧ ∃ t, t ≠ [] ∧ pattern = t ++ r := by
  simp only [Apart, not_forall, not_or, Nat.not_le] at h
  obtain ⟨l, r, x, y, heq, hleft, hright⟩ := h
  -- what is left of the piece `w` of the pattern that reaches into the value or up to it
  obtain ⟨l', before, w, hvalue, hw, hwNe, hl'⟩ : ∃ l' before w, l' ++ value = before ++ w ∧ w ++ r = pattern ++ y ∧
      w ≠ [] ∧ ∃ t, t ≠ [] ∧ pattern = l' ++ t := by
    rw [List.append_assoc, List.append_assoc] at heq
    rcases List.append_eq_append_iff.mp heq with ⟨x', rfl, hrest⟩ | ⟨l', rfl, hrest⟩
    · rw [List.length_append] at hright
      rcases List.append_eq_append_iff.mp hrest with ⟨s, rfl, -⟩ | ⟨v, rfl, hv⟩
      · rw [List.length_append] at hright
        omega
      · refine ⟨[], x', v, rfl, hv.symm, ?_, pattern, hne, rfl⟩
        rintro rfl
        simp at hright
    · rw [List.length_append] at hleft hright
      rcases List.append_eq_append_iff.mp hrest with ⟨s, rfl, -⟩ | ⟨t, rfl, -⟩
      · rw [List.length_append] at hleft
        omega
      · refine ⟨l', [], l' ++ value, rfl, by rw [List.append_assoc]; exact hrest.symm, ?_, t, ?_, rfl⟩
        · intro hnil
          have := congrArg List.length hnil
          rw [List.length_append, List.length_nil] at this
          omega
        · rintro rfl
          simp at hleft
  rcases List.append_eq_append_iff.mp hw with ⟨r', rfl, hr⟩ | ⟨s, rfl, -⟩
  · refine ⟨l', r', ⟨before, [], ?_⟩, hl', w, hwNe, rfl⟩
    rw [List.append_nil, hvalue, List.append_assoc]
  · refine ⟨l', [], ⟨before, s, ?_⟩, hl', pattern, hne, (List.append_nil _).symm⟩
    rw [List.append_nil, hvalue, List.append_assoc]

omit [DecidableEq α] in
theorem Separate.not_infix_piece {b c : Entry α} {l piece r : List α} (h : Separate data) (hb : b ∈ data)
    (hc : c ∈ data) (hpiece : b.pattern = l ++ piece ++ r) (hproper : l ≠ [] ∨ r ≠ []) : ¬ c.pattern <:+: piece := by
  rintro ⟨x, y, rfl⟩
  have hpos := List.length_pos_iff.mpr (h.ne_nil c hc)
  have hlength := congrArg List.length hpiece
  simp only [List.length_append] at hlength
  have hproper' : 0 < l.length + r.length := by
    rcases hproper with hl | hr
    · exact Nat.add_pos_left (List.length_pos_iff.mpr hl) _
    · exact Nat.add_pos_right _ (List.length_pos_iff.mpr hr)
  by_cases heq : b = c
  · subst heq
    omega
  · have happart := h.apart b hb c hc heq [] [] (l ++ x) (y ++ r) (by simp [hpiece])
    simp only [List.length_append, List.length_nil] at happart
    omega

omit [DecidableEq α] in
theorem Separate.start_of_infix {a b c : Entry α} {l r x y : List α} (h : Separate data) (ha : a ∈ data) (hb : b ∈ data)
    (hc : c ∈ data) (hl : ∃ t, t ≠ [] ∧ b.pattern = l ++ t) (hr : ∃ t, t ≠ [] ∧ b.pattern = t ++ r)
    (hxy : l ++ a.pattern ++ r = x ++ c.pattern ++ y) : c = a ∧ x.length = l.length := by
  obtain ⟨t, ht, hleft⟩ := hl
  obtain ⟨s, hs, hright⟩ := hr
  have hnotLeft : ¬ x.length + c.pattern.length ≤ l.length := by
    intro hle
    have hstarts : x ++ c.pattern <+: l := by
      have hwhole : x ++ c.pattern <+: l ++ a.pattern ++ r := ⟨y, hxy.symm⟩
      refine List.prefix_of_prefix_length_le hwhole ?_ (by simpa using hle)
      rw [List.append_assoc]
      exact List.prefix_append l _
    exact h.not_infix_piece (l := []) hb hc (by simpa using hleft) (.inr ht)
      ((List.suffix_append x c.pattern).isInfix.trans hstarts.isInfix)
  have hnotRight : ¬ l.length + a.pattern.length ≤ x.length := by
    intro hle
    have hlengths := congrArg List.length hxy
    simp only [List.length_append] at hlengths
    have hsuffix : c.pattern ++ y <:+ r := by
      have hwhole : c.pattern ++ y <:+ l ++ a.pattern ++ r := ⟨x, by rw [hxy, List.append_assoc]⟩
      refine List.suffix_of_suffix_length_le hwhole (List.suffix_append _ r) ?_
      rw [List.length_append]
      omega
    exact h.not_infix_piece (r := []) hb hc (by simpa using hright) (.inl hs)
      ((List.prefix_append c.pattern y).isInfix.trans hsuffix.isInfix)
  by_cases heq : a = c
  · subst heq
    rcases h.self a ha l r x y hxy with hle | hmiddle | hle
    · exact absurd hle hnotLeft
    · exact ⟨rfl, hmiddle⟩
    · exact absurd hle hnotRight
  · rcases h.apart a ha c hc heq l r x y hxy with hle | hle
    · exact absurd hle hnotLeft
    · exact absurd hle hnotRight

theorem replaceEach_append (first second : List (Entry α)) (word : List α) :
    replaceEach (first ++ second) word = replaceEach second (replaceEach first word) :=
  List.foldl_append

theorem replaceEach_eq_self {order : List (Entry α)} {word : List α} (h : ∀ entry ∈ order, ¬ entry.pattern <:+: word) :
    replaceEach order word = word := by
  induction order with
  | nil => rfl
  | cons entry order ih =>
    obtain ⟨hentry, horder⟩ := List.forall_mem_cons.mp h
    rw [replaceEach, List.foldl_cons, replace_eq_self hentry]
    exact ih horder

/-- Where two entries interfere, a word shows it: their order matters. -/
theorem exists_orders {a b : Entry α} (h : Separate data) (hnodup : data.Nodup) (ha : a ∈ data) (hb : b ∈ data)
    (hne : a ≠ b) (hnot : ¬ After a b) : ∃ word order order', order.Perm data ∧ order'.Perm data ∧
      replaceEach order word ≠ replaceEach order' word := by
  obtain ⟨hinert, hapart⟩ := not_or.mp hnot
  obtain ⟨l, r, hoccurs, hl, hr⟩ := exists_context (h.ne_nil b hb) hapart
  let others := (data.erase a).erase b
  have hperm : (a :: b :: others).Perm data :=
    ((List.perm_cons_erase ((List.mem_erase_of_ne hne.symm).mpr hb)).symm.cons a).trans (List.perm_cons_erase ha).symm
  have hstart : ∀ c ∈ data, ∀ x y, l ++ a.pattern ++ r = x ++ c.pattern ++ y → c = a ∧ x.length = l.length :=
    fun c hc x y hxy => h.start_of_infix ha hb hc hl hr hxy
  have hothers : replaceEach others (l ++ a.pattern ++ r) = l ++ a.pattern ++ r := by
    refine replaceEach_eq_self fun c hc => ?_
    rintro ⟨x, y, hxy⟩
    have hmem : c ∈ data.erase a := List.mem_of_mem_erase hc
    exact ((hnodup.mem_erase_iff.mp hmem).1 (hstart c (List.mem_of_mem_erase hmem) x y hxy.symm).1)
  have hb' : replace b.pattern b.value (l ++ a.pattern ++ r) = l ++ a.pattern ++ r := by
    refine replace_eq_self ?_
    rintro ⟨x, y, hxy⟩
    exact hne (hstart b hb x y hxy.symm).1.symm
  have ha' : replace a.pattern a.value (l ++ a.pattern ++ r) = l ++ a.value ++ r := by
    have hr' : ¬ a.pattern <:+: r := by
      obtain ⟨s, hs, hright⟩ := hr
      exact h.not_infix_piece (r := []) hb ha (by simpa using hright) (.inl hs)
    rw [List.append_assoc, replace_append, replace_pattern (h.ne_nil a ha), replace_eq_self hr', List.append_assoc]
    intro x y hxy
    rw [← List.append_assoc] at hxy
    exact (hstart a ha x y hxy).2.ge
  refine ⟨l ++ a.pattern ++ r, others ++ [b, a], others ++ [a, b], ?_, ?_, ?_⟩
  · exact (List.perm_append_comm.trans (List.Perm.swap a b others)).trans hperm
  · exact List.perm_append_comm.trans hperm
  · rw [replaceEach_append, replaceEach_append, hothers]
    simp only [replaceEach, List.foldl_cons, List.foldl_nil, hb', ha']
    intro heq
    exact hinert (eq_of_replace_eq_self (h.ne_nil b hb) hoccurs heq.symm)

/-- All orders of the entries substitute in all words exactly when no value is met by the pattern of another entry. -/
theorem forall_replaceEach_iff (hseparate : Separate data) (hnodup : data.Nodup) :
    (∀ word order, order.Perm data → replaceEach order word = substitute data word) ↔
      ∀ a ∈ data, ∀ b ∈ data, a ≠ b → After a b := by
  constructor
  · intro h a ha b hb hne
    by_contra hnot
    obtain ⟨word, order, order', hperm, hperm', hdiffer⟩ := exists_orders hseparate hnodup ha hb hne hnot
    exact hdiffer ((h word order hperm).trans (h word order' hperm').symm)
  · intro h word order hperm
    have hnodup' : order.Nodup := hperm.nodup_iff.mpr hnodup
    refine replaceEach_eq_substitute hseparate hnodup' (fun entry => hperm.mem_iff) word ?_
    exact hnodup'.imp_of_mem fun ha hb hne _ => h _ (hperm.mem_iff.mp ha) _ (hperm.mem_iff.mp hb) hne

end SonarJavascript.Substitution

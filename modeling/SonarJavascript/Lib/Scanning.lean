import Mathlib.Data.List.Infix
import Mathlib.Data.List.TakeWhile

/-!
# Scanning a text with comments

White space and comments are skipped in front of a token, and the skipping knows whether there is a line end in it.
The tokens are a parameter, a scanner with states. What is read up to the end of a token is read in the same way in
front of another text, if the last token stops there (`Reads.change`).
-/

namespace SonarJavascript.Scanning

abbrev Text := List Char

def isLineEnd (c : Char) : Bool := c.toNat ∈ [10, 13, 0x2028, 0x2029]

def isBlank (c : Char) : Bool :=
  (0x2000 ≤ c.toNat && c.toNat ≤ 0x200A) || c.toNat ∈ [9, 11, 12, 0x20, 0xA0, 0x1680, 0x202F, 0x205F, 0x3000, 0xFEFF]

/-! ### White space and comments -/

inductive Mode
  | code
  /-- Behind a slash. -/
  | slash
  | lineComment
  | blockComment
  /-- Behind a star in a block comment. -/
  | star
  deriving DecidableEq

/-- Whether there was a line end, and what is left. A block comment has to be closed. -/
def skip : Mode → Bool → Text → Option (Bool × Text)
  | .code, newline, [] => some (newline, [])
  | .code, newline, c :: rest =>
    if c = '/' then skip .slash newline rest
    else if isLineEnd c then skip .code true rest
    else if isBlank c then skip .code newline rest
    else some (newline, c :: rest)
  | .slash, newline, [] => some (newline, ['/'])
  | .slash, newline, c :: rest =>
    if c = '/' then skip .lineComment newline rest
    else if c = '*' then skip .blockComment newline rest
    else some (newline, '/' :: c :: rest)
  | .lineComment, newline, [] => some (newline, [])
  | .lineComment, newline, c :: rest =>
    if isLineEnd c then skip .code true rest else skip .lineComment newline rest
  | .blockComment, _, [] => none
  | .blockComment, newline, c :: rest =>
    if c = '*' then skip .star newline rest else skip .blockComment (newline || isLineEnd c) rest
  | .star, _, [] => none
  | .star, newline, c :: rest =>
    if c = '/' then skip .code newline rest
    else if c = '*' then skip .star newline rest
    else skip .blockComment (newline || isLineEnd c) rest

/-- A slash that was taken can be given back. -/
def Mode.taken : Mode → Text
  | slash => ['/']
  | _ => []

section Skip

variable {mode : Mode} {newline newline' : Bool} {before word rest rest' after after' : Text} {c : Char}

theorem suffix_of_skip (h : skip mode newline rest = some (newline', rest')) : rest' <:+ mode.taken ++ rest := by
  fun_induction skip mode newline rest with
  -- the end of the text or of what is skipped
  | case1 | case5 | case6 | case9 | case10 =>
    cases h
    exact List.suffix_refl _
  | case13 | case16 => cases h
  -- a slash may be given back
  | case2 _ _ ih => exact ih h
  | case7 _ rest ih => exact (ih h).trans ((List.suffix_cons '/' rest).trans (List.suffix_cons '/' _))
  | case8 _ rest _ ih => exact (ih h).trans ((List.suffix_cons '*' rest).trans (List.suffix_cons '/' _))
  | case3 _ c rest _ _ ih | case4 _ c rest _ _ _ ih => exact (ih h).trans (List.suffix_cons c rest)
  | case11 _ c rest _ ih | case12 _ c rest _ ih => exact (ih h).trans (List.suffix_cons c rest)
  | case14 _ rest ih => exact (ih h).trans (List.suffix_cons '*' rest)
  | case15 _ c rest _ ih => exact (ih h).trans (List.suffix_cons c rest)
  | case17 _ rest ih => exact (ih h).trans (List.suffix_cons '/' rest)
  | case18 _ rest _ ih => exact (ih h).trans (List.suffix_cons '*' rest)
  | case19 _ c rest _ _ ih => exact (ih h).trans (List.suffix_cons c rest)

theorem length_skip_le (h : skip mode newline rest = some (newline', rest')) :
    rest'.length ≤ rest.length + mode.taken.length := by
  have hle := (suffix_of_skip h).length_le
  rwa [List.length_append, Nat.add_comm] at hle

theorem skip_newline :
    (skip mode newline rest).map Prod.snd = (skip mode newline' rest).map Prod.snd := by
  induction rest generalizing mode newline newline' with
  | nil => cases mode <;> rfl
  | cons c rest ih =>
    cases mode <;> simp only [skip] <;> split_ifs
    all_goals first
      | exact ih
      | rfl

theorem exists_skip (h : (skip mode newline rest).map Prod.snd = some rest') (newline' : Bool) :
    ∃ newline'', skip mode newline' rest = some (newline'', rest') := by
  rw [@skip_newline mode newline newline' rest] at h
  obtain ⟨⟨newline'', rest''⟩, hskip, rfl⟩ := Option.map_eq_some_iff.mp h
  exact ⟨newline'', hskip⟩

theorem skip_ne_of_lt (hless : rest.length + mode.taken.length < rest'.length) :
    skip mode newline rest ≠ some (newline', rest') :=
  fun h => absurd (length_skip_le h) (by omega)

/-- What is skipped in front of a text that is not a slash is skipped in front of a longer text. -/
theorem skip_change (hne : word ≠ []) (hslash : word ≠ ['/'])
    (h : skip mode newline (before ++ (word ++ after)) = some (newline', word ++ after)) :
    skip mode newline (before ++ (word ++ after')) = some (newline', word ++ after') := by
  induction before generalizing mode newline with
  | nil =>
    obtain ⟨c, others, rfl⟩ := List.exists_cons_of_ne_nil hne
    rw [List.nil_append, List.cons_append] at h ⊢
    -- the first character cannot be skipped
    have hcode : mode = .code := by
      cases mode with
      | code => rfl
      | slash =>
        rw [skip] at h
        split_ifs at h
        · exact absurd h (skip_ne_of_lt (by simp [Mode.taken]))
        · exact absurd h (skip_ne_of_lt (by simp [Mode.taken]))
        · have hlength := congrArg List.length (Prod.mk.inj (Option.some.inj h)).2
          simp only [List.length_cons] at hlength
          omega
      | lineComment =>
        rw [skip] at h
        split_ifs at h <;> exact absurd h (skip_ne_of_lt (by simp [Mode.taken]))
      | blockComment =>
        rw [skip] at h
        split_ifs at h <;> exact absurd h (skip_ne_of_lt (by simp [Mode.taken]))
      | star =>
        rw [skip] at h
        split_ifs at h <;> exact absurd h (skip_ne_of_lt (by simp [Mode.taken]))
    subst hcode
    rw [skip] at h ⊢
    split_ifs at h ⊢ with hc hend hblank
    · subst hc
      cases others with
      | nil => exact absurd rfl hslash
      | cons d others =>
        rw [List.cons_append, skip] at h ⊢
        split_ifs at h ⊢
        · exact absurd h (skip_ne_of_lt (by simp only [Mode.taken, List.length_cons, List.length_nil]; omega))
        · exact absurd h (skip_ne_of_lt (by simp only [Mode.taken, List.length_cons, List.length_nil]; omega))
        · cases h
          rfl
    · exact absurd h (skip_ne_of_lt (by simp [Mode.taken]))
    · exact absurd h (skip_ne_of_lt (by simp [Mode.taken]))
    · cases h
      rfl
  | cons c before ih =>
    rw [List.cons_append] at h ⊢
    cases mode <;> rw [skip] at h ⊢ <;> split_ifs at h ⊢
    all_goals first
      | exact ih h
      | (have hlength := congrArg List.length (Prod.mk.inj (Option.some.inj h)).2
         simp only [List.length_cons, List.length_append] at hlength
         omega)

end Skip

/-! ### Scanners -/

/-- Where every token ends that is not a text with blanks. -/
def Boundary : Text → Prop
  | [] => True
  | c :: rest =>
    isLineEnd c ∨ isBlank c ∨ c ∈ ['}', ')', '|', '&', ','] ∨ c = '/' ∧ ∃ d ∈ rest.head?, d = '/' ∨ d = '*'

theorem boundary_of_skip {newline newline' : Bool} {text rest : Text}
    (h : skip .code newline text = some (newline', rest)) : text = rest ∨ Boundary text := by
  cases text with
  | nil => exact Or.inr trivial
  | cons c text =>
    rw [skip] at h
    split_ifs at h with hc hend hblank
    · cases text with
      | nil =>
        cases h
        exact Or.inl (by rw [hc])
      | cons d text =>
        rw [skip] at h
        split_ifs at h with hd hd'
        · exact Or.inr (Or.inr (Or.inr (Or.inr ⟨hc, d, rfl, Or.inl hd⟩)))
        · exact Or.inr (Or.inr (Or.inr (Or.inr ⟨hc, d, rfl, Or.inr hd'⟩)))
        · cases h
          exact Or.inl (by rw [hc])
    · exact Or.inr (Or.inl hend)
    · exact Or.inr (Or.inr (Or.inl hblank))
    · cases h
      exact Or.inl rfl

/-- In a raw state nothing is skipped. -/
def skipFrom (isRaw : Bool) (input : Text) : Option (Bool × Text) :=
  if isRaw then some (false, input) else skip .code false input

/-- Where white space and comments are skipped depends on the state: not between tags, for example. What a token is
depends on the token behind it and on nothing further. -/
structure Scanner (Token State : Type) where
  text : Token → Text
  isRaw : State → Bool
  scan : State → Text → Option (Token × Text × State)
  /-- Tokens that end at every boundary. -/
  Stops : Token → Prop
  text_ne_nil : ∀ token, text token ≠ []
  text_ne_slash : ∀ {token}, Stops token → text token ≠ ['/']
  scan_boundary : ∀ {s s' token rest rest'}, scan s (text token ++ rest) = some (token, rest, s') → Stops token →
    Boundary rest' → scan s (text token ++ rest') = some (token, rest', s')
  scan_next : ∀ {s s' t t' token next gap rest rest' newline},
    scan s (text token ++ (gap ++ (text next ++ rest))) = some (token, gap ++ (text next ++ rest), s') →
    skipFrom (isRaw s') (gap ++ (text next ++ rest)) = some (newline, text next ++ rest) →
    scan s' (text next ++ rest) = some (next, rest, t) → scan s' (text next ++ rest') = some (next, rest', t') →
    scan s (text token ++ (gap ++ (text next ++ rest'))) = some (token, gap ++ (text next ++ rest'), s')
  scan_state : ∀ {s s' t token rest rest'}, scan s (text token ++ rest) = some (token, rest, s') →
    scan s (text token ++ rest') = some (token, rest', t) → s' = t

namespace Scanner

variable {Token State : Type} (scanner : Scanner Token State)

/-- From one state to another, up to the end of a token. A token knows whether there is a line end in front of it. -/
inductive Reads : State → Text → List (Token × Bool) → State → Text → Prop
  | nil {s : State} {input : Text} : Reads s input [] s input
  | cons {s s' s'' : State} {input gap rest left : Text} {token : Token} {newline : Bool}
      {tokens : List (Token × Bool)} (hinput : input = gap ++ (scanner.text token ++ rest))
      (hskip : skipFrom (scanner.isRaw s) input = some (newline, scanner.text token ++ rest))
      (hscan : scanner.scan s (scanner.text token ++ rest) = some (token, rest, s'))
      (hreads : Reads s' rest tokens s'' left) : Reads s input ((token, newline) :: tokens) s'' left

variable {scanner} {s s' s'' : State} {input gap word rest rest' left before after after' : Text} {token : Token}
  {newline isRaw : Bool} {tokens tokens' : List (Token × Bool)}

theorem Reads.of_scan (hskip : skipFrom (scanner.isRaw s) input = some (newline, scanner.text token ++ rest))
    (hscan : scanner.scan s (scanner.text token ++ rest) = some (token, rest, s'))
    (hreads : scanner.Reads s' rest tokens s'' left) : scanner.Reads s input ((token, newline) :: tokens) s'' left := by
  have hsuffix : scanner.text token ++ rest <:+ input := by
    rw [skipFrom] at hskip
    split_ifs at hskip
    · exact (Prod.mk.inj (Option.some.inj hskip)).2 ▸ List.suffix_refl input
    · exact suffix_of_skip hskip
  obtain ⟨gap, hinput⟩ := hsuffix
  exact .cons hinput.symm hskip hscan hreads

theorem Reads.append (h : scanner.Reads s input tokens s' rest) (h' : scanner.Reads s' rest tokens' s'' left) :
    scanner.Reads s input (tokens ++ tokens') s'' left := by
  induction h with
  | nil => exact h'
  | cons hinput hskip hscan hreads ih => exact .cons hinput hskip hscan (ih h')

theorem Reads.split (h : scanner.Reads s input (tokens ++ tokens') s'' left) :
    ∃ s' rest, scanner.Reads s input tokens s' rest ∧ scanner.Reads s' rest tokens' s'' left := by
  induction tokens generalizing s input with
  | nil => exact ⟨s, input, .nil, h⟩
  | cons first tokens ih =>
    cases h with
    | cons hinput hskip hscan hreads =>
      obtain ⟨s', rest, hfirst, hsecond⟩ := ih hreads
      exact ⟨s', rest, .cons hinput hskip hscan hfirst, hsecond⟩

theorem Reads.unique {t : State} (h : scanner.Reads s input tokens s' rest)
    (h' : scanner.Reads s input tokens' t rest') (hlength : tokens.length = tokens'.length) :
    tokens = tokens' ∧ s' = t ∧ rest = rest' := by
  induction h generalizing tokens' with
  | nil =>
    obtain rfl : tokens' = [] := List.eq_nil_of_length_eq_zero hlength.symm
    cases h'
    exact ⟨rfl, rfl, rfl⟩
  | cons hinput hskip hscan hreads ih =>
    cases h' with
    | nil => cases hlength
    | cons hinput' hskip' hscan' hreads' =>
      obtain ⟨rfl, htext⟩ := Prod.mk.inj (Option.some.inj (hskip.symm.trans hskip'))
      rw [htext] at hscan
      obtain ⟨rfl, htail⟩ := Prod.mk.inj (Option.some.inj (hscan.symm.trans hscan'))
      obtain ⟨rfl, rfl⟩ := Prod.mk.inj htail
      obtain ⟨rfl, rfl, rfl⟩ := ih hreads' (Nat.succ.inj hlength)
      exact ⟨rfl, rfl, rfl⟩

theorem Reads.exists_before (h : scanner.Reads s input tokens s' rest) :
    ∃ before, input = before ++ rest ∧ (tokens ≠ [] → before ≠ []) := by
  induction h with
  | nil => exact ⟨[], rfl, fun hne => absurd rfl hne⟩
  | @cons _ _ _ _ gap _ _ token _ _ hinput hskip hscan hreads ih =>
    obtain ⟨before, hbefore, -⟩ := ih
    refine ⟨gap ++ (scanner.text token ++ before), ?_, fun _ hnil => ?_⟩
    · rw [hinput, hbefore, List.append_assoc, List.append_assoc]
    · exact scanner.text_ne_nil token (List.append_eq_nil_iff.mp (List.append_eq_nil_iff.mp hnil).2).1

theorem Reads.unique_of_rest {t : State} (h : scanner.Reads s input tokens s' rest)
    (h' : scanner.Reads s input tokens' t rest) : tokens = tokens' ∧ s' = t := by
  have hnil {s s' : State} {rest : Text} {tokens : List (Token × Bool)} (h : scanner.Reads s rest tokens s' rest) :
      tokens = [] := by
    by_contra hne
    obtain ⟨before, hbefore, hnil⟩ := h.exists_before
    exact hnil hne (List.append_left_eq_self.mp hbefore.symm)
  induction h generalizing tokens' with
  | nil =>
    obtain rfl := hnil h'
    cases h'
    exact ⟨rfl, rfl⟩
  | @cons s _ _ input _ _ _ _ newline tokens hinput hskip hscan hreads ih =>
    cases h' with
    | nil => cases hnil (.cons hinput hskip hscan hreads)
    | cons hinput' hskip' hscan' hreads' =>
      obtain ⟨rfl, htext⟩ := Prod.mk.inj (Option.some.inj (hskip.symm.trans hskip'))
      rw [htext] at hscan
      obtain ⟨rfl, htail⟩ := Prod.mk.inj (Option.some.inj (hscan.symm.trans hscan'))
      obtain ⟨rfl, rfl⟩ := Prod.mk.inj htail
      obtain ⟨rfl, rfl⟩ := ih hreads'
      exact ⟨rfl, rfl⟩

theorem skipFrom_change (hne : word ≠ []) (hslash : word ≠ ['/'])
    (h : skipFrom isRaw (gap ++ (word ++ after)) = some (newline, word ++ after)) :
    skipFrom isRaw (gap ++ (word ++ after')) = some (newline, word ++ after') := by
  cases isRaw with
  | true =>
    rw [skipFrom, if_pos rfl] at h ⊢
    obtain ⟨rfl, hinput⟩ := Prod.mk.inj (Option.some.inj h)
    obtain rfl : gap = [] := List.append_left_eq_self.mp hinput
    rfl
  | false => exact skip_change hne hslash h

theorem Reads.cons_inv (h : scanner.Reads s (before ++ after) ((token, newline) :: tokens) s'' after) :
    ∃ gap between s', before = gap ++ (scanner.text token ++ between) ∧
      skipFrom (scanner.isRaw s) (before ++ after) = some (newline, scanner.text token ++ (between ++ after)) ∧
      scanner.scan s (scanner.text token ++ (between ++ after)) = some (token, between ++ after, s') ∧
      scanner.Reads s' (between ++ after) tokens s'' after := by
  generalize hbefore : before ++ after = input at h
  cases h with
  | @cons _ s' _ _ gap rest _ _ _ _ hinput hskip hscan hreads =>
    obtain ⟨between, rfl, -⟩ := hreads.exists_before
    refine ⟨gap, between, s', ?_, hskip, hscan, hreads⟩
    apply List.append_cancel_right
    rw [hbefore, hinput, List.append_assoc, List.append_assoc]

theorem Reads.before_eq_nil_iff (h : scanner.Reads s (before ++ after) tokens s' after) :
    before = [] ↔ tokens = [] := by
  constructor
  · rintro rfl
    by_contra hne
    obtain ⟨before, hbefore, hnil⟩ := h.exists_before
    exact hnil hne (List.append_left_eq_self.mp hbefore.symm)
  · rintro rfl
    generalize hinput : before ++ after = input at h
    cases h
    exact List.append_left_eq_self.mp hinput

theorem Reads.ne_slash {between : Text} (h : scanner.Reads s (between ++ after) tokens s' after)
    (hlast : ∀ last ∈ ((token, newline) :: tokens).getLast?, scanner.text last.1 ≠ ['/']) :
    scanner.text token ++ between ≠ ['/'] := by
  cases tokens with
  | nil =>
    rw [h.before_eq_nil_iff.mpr rfl, List.append_nil]
    exact hlast _ rfl
  | cons next tokens =>
    intro hslash
    have hbetween : between ≠ [] := fun hnil => List.cons_ne_nil next tokens (h.before_eq_nil_iff.mp hnil)
    have htext := List.length_pos_of_ne_nil (scanner.text_ne_nil token)
    have hlength := congrArg List.length hslash
    rw [List.length_append, List.length_singleton] at hlength
    have hpos := List.length_pos_of_ne_nil hbetween
    omega

theorem skipFrom_token {between : Text} (hslash : scanner.text token ++ between ≠ ['/'])
    (h : skipFrom isRaw (gap ++ (scanner.text token ++ between) ++ after) =
      some (newline, scanner.text token ++ (between ++ after))) :
    skipFrom isRaw (gap ++ (scanner.text token ++ between) ++ after') =
      some (newline, scanner.text token ++ (between ++ after')) := by
  rw [← List.append_assoc (scanner.text token), List.append_assoc gap] at h ⊢
  refine skipFrom_change (fun hnil => ?_) hslash h
  exact scanner.text_ne_nil token (List.append_eq_nil_iff.mp hnil).1

/-- A token is read in the same way if that holds for the one behind it. -/
theorem Reads.change (h : scanner.Reads s (before ++ after) tokens s' after)
    (hslash : ∀ last ∈ tokens.getLast?, scanner.text last.1 ≠ ['/'])
    (hlast : ∀ last ∈ tokens.getLast?, ∀ t,
      scanner.scan t (scanner.text last.1 ++ after) = some (last.1, after, s') →
        scanner.scan t (scanner.text last.1 ++ after') = some (last.1, after', s')) :
    scanner.Reads s (before ++ after') tokens s' after' := by
  induction tokens generalizing s before with
  | nil =>
    obtain rfl := h.before_eq_nil_iff.mpr rfl
    cases h
    exact .nil
  | cons first tokens ih =>
    obtain ⟨token, newline⟩ := first
    obtain ⟨gap, between, s₁, rfl, hskip, hscan, hreads⟩ := h.cons_inv
    have hskip' := @skipFrom_token _ _ scanner gap after after' token newline _ between (hreads.ne_slash hslash) hskip
    have hassoc {gap between : Text} {token : Token} (after : Text) : gap ++ (scanner.text token ++ between) ++ after =
        gap ++ (scanner.text token ++ (between ++ after)) := by
      rw [List.append_assoc, List.append_assoc]
    cases tokens with
    | nil =>
      obtain rfl := hreads.before_eq_nil_iff.mpr rfl
      cases hreads
      exact .cons (hassoc after') hskip' (hlast _ rfl s hscan) .nil
    | cons next tokens =>
      obtain ⟨next, newlineNext⟩ := next
      rw [List.getLast?_cons_cons] at hslash hlast
      have hreads' := ih hreads hslash hlast
      refine .cons (hassoc after') hskip' ?_ hreads'
      -- the next token stands at the same place
      obtain ⟨gapNext, betweenNext, s₂, rfl, hskipNext, hscanNext, hreadsNext⟩ := hreads.cons_inv
      obtain ⟨_, betweenNext', _, -, hskipNext', hscanNext', -⟩ := hreads'.cons_inv
      have hsame := @skipFrom_token _ _ scanner _ _ after' _ _ _ _ (hreadsNext.ne_slash hslash) hskipNext
      rw [hskipNext'] at hsame
      obtain rfl : betweenNext' = betweenNext :=
        List.append_cancel_right (List.append_cancel_left (Prod.mk.inj (Option.some.inj hsame)).2)
      rw [hassoc] at hscan hskipNext ⊢
      exact scanner.scan_next hscan hskipNext hscanNext hscanNext'

theorem Reads.change_boundary (h : scanner.Reads s (before ++ after) tokens s' after)
    (hstops : ∀ last ∈ tokens.getLast?, scanner.Stops last.1) (hboundary : Boundary after') :
    scanner.Reads s (before ++ after') tokens s' after' :=
  h.change (fun last hmem => scanner.text_ne_slash (hstops last hmem)) fun last hmem _ hscan =>
    scanner.scan_boundary hscan (hstops last hmem) hboundary

theorem Reads.align {t : State} (h : scanner.Reads s (before ++ after) tokens s' after)
    (hslash : ∀ last ∈ tokens.getLast?, scanner.text last.1 ≠ ['/'])
    (h' : scanner.Reads s (before ++ after') tokens t rest) : t = s' ∧ rest = after' := by
  induction tokens generalizing s before with
  | nil =>
    obtain rfl := h.before_eq_nil_iff.mpr rfl
    cases h
    cases h'
    exact ⟨rfl, rfl⟩
  | cons first tokens ih =>
    obtain ⟨token, newline⟩ := first
    obtain ⟨gap, between, s₁, rfl, hskip, hscan, hreads⟩ := h.cons_inv
    have hskip' := @skipFrom_token _ _ scanner gap after after' token newline _ between (hreads.ne_slash hslash) hskip
    cases h' with
    | cons hinput' hskip'' hscan' hreads' =>
      rw [hskip''] at hskip'
      obtain rfl := List.append_cancel_left (Prod.mk.inj (Option.some.inj hskip')).2
      obtain rfl := scanner.scan_state hscan hscan'
      refine ih hreads (fun last hlast => hslash last ?_) hreads'
      cases tokens with
      | nil => cases hlast
      | cons next tokens => rwa [List.getLast?_cons_cons]

/-- What is in front of a token depends on it and not on the text behind it. -/
theorem Reads.change_next {t t' : State} (h : scanner.Reads s (before ++ (word ++ after)) tokens s' (word ++ after))
    (hslash : ∀ last ∈ tokens.getLast?, scanner.text last.1 ≠ ['/']) (hne : tokens' ≠ [])
    (hslash' : ∀ last ∈ tokens'.getLast?, scanner.text last.1 ≠ ['/'])
    (hnext : scanner.Reads s' (word ++ after) tokens' t after)
    (hnext' : scanner.Reads s' (word ++ after') tokens' t' after') :
    scanner.Reads s (before ++ (word ++ after')) tokens s' (word ++ after') := by
  refine h.change hslash fun last _ t₀ hscan => ?_
  obtain ⟨⟨next, newlineNext⟩, others, rfl⟩ := List.exists_cons_of_ne_nil hne
  obtain ⟨gap, between, s₁, rfl, hskip, hscanNext, hreads⟩ := hnext.cons_inv
  obtain ⟨_, between', s₁', -, hskip', hscanNext', -⟩ := hnext'.cons_inv
  have hsame := @skipFrom_token _ _ scanner _ _ after' _ _ _ _ (hreads.ne_slash hslash') hskip
  rw [hskip'] at hsame
  obtain rfl : between' = between :=
    List.append_cancel_right (List.append_cancel_left (Prod.mk.inj (Option.some.inj hsame)).2)
  simp only [List.append_assoc] at hscan hskip ⊢
  exact scanner.scan_next hscan hskip hscanNext hscanNext'

end Scanner

/-! ### Pieces of white space and comments -/

inductive Piece
  | blank (c : Char)
  | lineEnd (c : Char)
  | lineComment (value : Text)
  | blockComment (value : Text)

namespace Piece

def text : Piece → Text
  | blank c | lineEnd c => [c]
  | lineComment value => '/' :: '/' :: value
  | blockComment value => '/' :: '*' :: (value ++ ['*', '/'])

def WellFormed : Piece → Prop
  | blank c => isBlank c = true
  | lineEnd c => isLineEnd c = true
  | lineComment value => ∀ c ∈ value, isLineEnd c = false
  | blockComment value => ∀ before after, value ++ ['*'] ≠ before ++ '*' :: '/' :: after

def isComment : Piece → Bool
  | blank _ | lineEnd _ => false
  | lineComment _ | blockComment _ => true

def isLineComment : Piece → Bool
  | lineComment _ => true
  | _ => false

def isLineEnd : Piece → Bool
  | lineEnd _ => true
  | _ => false

/-- How the text behind the piece is read. -/
def mode (piece : Piece) : Mode := if piece.isLineComment then .lineComment else .code

end Piece

def textOf (pieces : List Piece) : Text := pieces.flatMap Piece.text

/-- A line comment goes up to a line end. -/
def WellFormed : List Piece → Prop
  | [] => True
  | piece :: pieces =>
    piece.WellFormed ∧ (piece.isLineComment → ∀ next ∈ pieces.head?, next.isLineEnd) ∧ WellFormed pieces

/-- How the text behind the pieces is read. -/
def modeAfter (pieces : List Piece) : Mode := (pieces.getLast?.map Piece.mode).getD .code

section Pieces

variable {newline : Bool} {rest value : Text} {piece : Piece} {pieces : List Piece}

theorem skip_lineComment (h : ∀ c ∈ value, isLineEnd c = false) :
    skip .lineComment newline (value ++ rest) = skip .lineComment newline rest := by
  induction value with
  | nil => rfl
  | cons c value ih =>
    rw [List.forall_mem_cons] at h
    rw [List.cons_append, skip, h.1, if_neg Bool.false_ne_true, ih h.2]

/-- The comment ends where it is closed for the first time. -/
theorem skip_blockComment (h : ∀ before after, value ++ ['*'] ≠ before ++ '*' :: '/' :: after) :
    (∃ newline', skip .blockComment newline (value ++ ['*', '/'] ++ rest) = skip .code newline' rest) ∧
      (value.head? ≠ some '/' →
        ∃ newline', skip .star newline (value ++ ['*', '/'] ++ rest) = skip .code newline' rest) := by
  induction value generalizing newline with
  | nil => exact ⟨⟨newline, rfl⟩, fun _ => ⟨newline, rfl⟩⟩
  | cons c value ih =>
    have hrest : ∀ before after, value ++ ['*'] ≠ before ++ '*' :: '/' :: after := fun before after heq =>
      h (c :: before) after (by rw [List.cons_append, heq, List.cons_append])
    have hstar : c = '*' → value.head? ≠ some '/' := by
      rintro rfl hhead
      cases value with
      | nil => cases hhead
      | cons d value =>
        cases hhead
        exact h [] (value ++ ['*']) rfl
    constructor
    · rw [List.cons_append, List.cons_append, skip]
      split_ifs with hc
      · exact (ih hrest).2 (hstar hc)
      · exact (ih hrest).1
    · intro hslash
      rw [List.cons_append, List.cons_append, skip, if_neg fun hc => hslash (by rw [hc]; rfl)]
      split_ifs with hc
      · exact (ih hrest).2 (hstar hc)
      · exact (ih hrest).1

theorem skip_lineEnd {c : Char} (h : isLineEnd c = true) : skip .code newline (c :: rest) = skip .code true rest := by
  have hslash : c ≠ '/' := by
    rintro rfl
    cases h
  rw [skip, if_neg hslash, if_pos h]

theorem skip_blank {c : Char} (h : isBlank c = true) :
    ∃ newline', skip .code newline (c :: rest) = skip .code newline' rest := by
  have hslash : c ≠ '/' := by
    rintro rfl
    cases h
  rw [skip, if_neg hslash]
  split_ifs
  · exact ⟨true, rfl⟩
  · exact ⟨newline, rfl⟩

theorem skip_piece (h : piece.WellFormed) :
    ∃ newline', skip .code newline (piece.text ++ rest) = skip piece.mode newline' rest := by
  cases piece with
  | blank c => exact skip_blank h
  | lineEnd c => exact ⟨true, skip_lineEnd h⟩
  | lineComment value => exact ⟨newline, skip_lineComment h⟩
  | blockComment value => exact (skip_blockComment h).1

theorem modeAfter_cons (hne : pieces ≠ []) : modeAfter (piece :: pieces) = modeAfter pieces := by
  obtain ⟨next, others, rfl⟩ := List.exists_cons_of_ne_nil hne
  rw [modeAfter, modeAfter, List.getLast?_cons_cons]

theorem skip_textOf (h : WellFormed pieces) :
    ∃ newline', skip .code newline (textOf pieces ++ rest) = skip (modeAfter pieces) newline' rest := by
  induction pieces generalizing newline with
  | nil => exact ⟨newline, rfl⟩
  | cons piece pieces ih =>
    obtain ⟨hpiece, hnext, hpieces⟩ := h
    have htext : textOf (piece :: pieces) ++ rest = piece.text ++ (textOf pieces ++ rest) := by
      rw [textOf, List.flatMap_cons, List.append_assoc]
      rfl
    obtain ⟨newline', hskip⟩ := @skip_piece newline (textOf pieces ++ rest) piece hpiece
    rw [htext, hskip]
    by_cases hne : pieces = []
    · subst hne
      exact ⟨newline', rfl⟩
    · rw [modeAfter_cons hne]
      cases hline : piece.isLineComment with
      | false =>
        rw [Piece.mode, hline, if_neg Bool.false_ne_true]
        exact ih hpieces
      | true =>
        -- the next piece is the end of the line, where code goes on
        obtain ⟨next, others, rfl⟩ := List.exists_cons_of_ne_nil hne
        have hlineEnd := hnext hline next rfl
        cases next with
        | lineEnd c =>
          obtain ⟨newline'', hcode⟩ := @ih newline' hpieces
          refine ⟨newline'', ?_⟩
          have hc : isLineEnd c = true := hpieces.1
          rw [← hcode, Piece.mode, hline, if_pos rfl]
          change skip .lineComment newline' (c :: (textOf others ++ rest)) =
            skip .code newline' (c :: (textOf others ++ rest))
          rw [skip_lineEnd hc, skip, if_pos hc]
        | blank c => cases hlineEnd
        | lineComment value => cases hlineEnd
        | blockComment value => cases hlineEnd

end Pieces

theorem boundary_of_piece {piece : Piece} (h : piece.WellFormed) (rest : Text) : Boundary (piece.text ++ rest) := by
  cases piece with
  | blank c => exact Or.inr (Or.inl h)
  | lineEnd c => exact Or.inl h
  | lineComment value => exact Or.inr (Or.inr (Or.inr ⟨rfl, '/', rfl, Or.inl rfl⟩))
  | blockComment value => exact Or.inr (Or.inr (Or.inr ⟨rfl, '*', rfl, Or.inr rfl⟩))

/-- Pieces in front of a token. -/
def IsGap (pieces : List Piece) : Prop := WellFormed pieces ∧ modeAfter pieces = .code

theorem IsGap.nil : IsGap [] := ⟨trivial, rfl⟩

theorem modeAfter_append {pieces others : List Piece} (hne : others ≠ []) :
    modeAfter (pieces ++ others) = modeAfter others := by
  rw [modeAfter, modeAfter, List.getLast?_append, List.getLast?_eq_some_getLast hne]
  rfl

theorem IsGap.append {pieces others : List Piece} (h : IsGap pieces) (h' : IsGap others) : IsGap (pieces ++ others) := by
  obtain ⟨hwellFormed, hmode⟩ := h
  induction pieces with
  | nil => exact h'
  | cons piece pieces ih =>
    obtain ⟨hpiece, hnext, hpieces⟩ := hwellFormed
    by_cases hne : pieces = []
    · subst hne
      have hline : piece.isLineComment ≠ true := by
        intro hline
        rw [modeAfter, List.getLast?_singleton, Option.map_some, Option.getD_some, Piece.mode, if_pos hline] at hmode
        cases hmode
      refine ⟨⟨hpiece, fun h => absurd h hline, h'.1⟩, ?_⟩
      by_cases hothers : others = []
      · subst hothers
        exact hmode
      · rw [modeAfter_append hothers]
        exact h'.2
    · rw [modeAfter_cons hne] at hmode
      obtain ⟨hrest, hmode'⟩ := ih hpieces hmode
      obtain ⟨next, pieces, rfl⟩ := List.exists_cons_of_ne_nil hne
      refine ⟨⟨hpiece, fun hline other hother => hnext hline other hother, hrest⟩, ?_⟩
      rw [List.cons_append, modeAfter_cons (by simp)]
      exact hmode'

theorem skip_gap {pieces : List Piece} (h : IsGap pieces) (newline newline' : Bool) (rest : Text) :
    (skip .code newline (textOf pieces ++ rest)).map Prod.snd = (skip .code newline' rest).map Prod.snd := by
  obtain ⟨newline'', hskip⟩ := @skip_textOf newline rest pieces h.1
  rw [hskip, h.2]
  exact skip_newline

/-- A token behind other white space and comments. -/
theorem Scanner.Reads.change_gap {Token State : Type} {scanner : Scanner Token State} {s s' : State}
    {gap gap' : List Piece} {rest left : Text} {token : Token} {newline : Bool} {tokens : List (Token × Bool)}
    (hraw : scanner.isRaw s = false) (hgap : IsGap gap) (hgap' : IsGap gap')
    (h : scanner.Reads s (textOf gap ++ rest) ((token, newline) :: tokens) s' left) :
    ∃ newline', scanner.Reads s (textOf gap' ++ rest) ((token, newline') :: tokens) s' left := by
  cases h with
  | cons hinput hskip hscan hreads =>
    rw [hraw, skipFrom, if_neg Bool.false_ne_true] at hskip
    have hsame := (skip_gap hgap' false false rest).trans (skip_gap hgap false false rest).symm
    rw [hskip] at hsame
    obtain ⟨newline', hskip'⟩ := exists_skip hsame false
    refine ⟨newline', .of_scan ?_ hscan hreads⟩
    rw [hraw, skipFrom, if_neg Bool.false_ne_true]
    exact hskip'

/-! ### A scanner of words -/

def isWord (c : Char) : Bool :=
  (48 ≤ c.toNat && c.toNat ≤ 57) || (65 ≤ c.toNat && c.toNat ≤ 90) || (97 ≤ c.toNat && c.toNat ≤ 122)

theorem not_isWord_of_boundary {c : Char} {rest : Text} (h : Boundary (c :: rest)) : isWord c = false := by
  rcases h with h | h | h | ⟨rfl, -⟩
  · simp only [isLineEnd, List.mem_cons, List.not_mem_nil, or_false, decide_eq_true_eq] at h
    simp only [isWord, Bool.or_eq_false_iff, Bool.and_eq_false_iff, decide_eq_false_iff_not]
    omega
  · simp only [isBlank, List.mem_cons, List.not_mem_nil, or_false, Bool.or_eq_true, Bool.and_eq_true,
      decide_eq_true_eq] at h
    simp only [isWord, Bool.or_eq_false_iff, Bool.and_eq_false_iff, decide_eq_false_iff_not]
    omega
  · simp only [List.mem_cons, List.not_mem_nil, or_false] at h
    rcases h with rfl | rfl | rfl | rfl | rfl <;> rfl
  · rfl

/-- Letters and digits after each other, or another character. -/
def scanWord : Text → Option (Char × Text × Text)
  | [] => none
  | c :: rest => if isWord c then some (c, rest.takeWhile isWord, rest.dropWhile isWord) else some (c, [], rest)

theorem scanWord_eq {c : Char} {others rest : Text} (h : scanWord (c :: others ++ rest) = some (c, others, rest)) :
    (isWord c = true ∧ (∀ d ∈ others, isWord d = true) ∧ ∀ d ∈ rest.head?, isWord d = false) ∨
      isWord c = false ∧ others = [] := by
  rw [List.cons_append, scanWord] at h
  split_ifs at h with hc
  · obtain ⟨-, htail⟩ := Prod.mk.inj (Option.some.inj h)
    obtain ⟨htake, hdrop⟩ := Prod.mk.inj htail
    refine Or.inl ⟨hc, fun d hd => List.mem_takeWhile_imp (htake ▸ hd), fun d hd => ?_⟩
    have hnot := List.head?_dropWhile_not isWord (others ++ rest)
    rw [hdrop] at hnot
    cases rest with
    | nil => cases hd
    | cons e rest =>
      cases hd
      simpa using hnot
  · obtain ⟨-, htail⟩ := Prod.mk.inj (Option.some.inj h)
    exact Or.inr ⟨by simpa using hc, (Prod.mk.inj htail).1.symm⟩

theorem scanWord_of_head {c : Char} {others rest : Text} (h :
    (isWord c = true ∧ (∀ d ∈ others, isWord d = true) ∧ ∀ d ∈ rest.head?, isWord d = false) ∨
      isWord c = false ∧ others = []) : scanWord (c :: others ++ rest) = some (c, others, rest) := by
  rw [List.cons_append, scanWord]
  rcases h with ⟨hc, hall, hhead⟩ | ⟨hc, rfl⟩
  · have hstop : rest.takeWhile isWord = [] ∧ rest.dropWhile isWord = rest := by
      cases rest with
      | nil => exact ⟨rfl, rfl⟩
      | cons d rest =>
        have hd : ¬ isWord d = true := by simp [hhead d rfl]
        exact ⟨List.takeWhile_cons_of_neg hd, List.dropWhile_cons_of_neg hd⟩
    rw [if_pos hc, List.takeWhile_append_of_pos hall, List.dropWhile_append_of_pos hall, hstop.1, hstop.2,
      List.append_nil]
  · rw [if_neg (by simp [hc])]
    rfl

def words : Scanner (Char × Text) Unit where
  text token := token.1 :: token.2
  isRaw _ := false
  scan _ input := (scanWord input).map fun (c, others, rest) => ((c, others), rest, ())
  Stops token := token ≠ ('/', [])
  text_ne_nil token := List.cons_ne_nil token.1 token.2
  text_ne_slash := by
    rintro ⟨c, others⟩ hstops heq
    cases heq
    exact hstops rfl
  scan_boundary := by
    rintro _ _ ⟨c, others⟩ rest rest' h - hboundary
    obtain ⟨⟨c', others', left⟩, hscan, heq⟩ := Option.map_eq_some_iff.mp h
    cases heq
    rw [scanWord_of_head]
    · rfl
    · refine (scanWord_eq hscan).imp_left fun ⟨hc, hall, _⟩ => ⟨hc, hall, fun d hd => ?_⟩
      cases rest' with
      | nil => cases hd
      | cons e rest' =>
        cases hd
        exact not_isWord_of_boundary hboundary
  scan_next := by
    rintro _ _ _ _ ⟨c, others⟩ ⟨d, more⟩ gap rest rest' _ h - - -
    obtain ⟨⟨c', others', left⟩, hscan, heq⟩ := Option.map_eq_some_iff.mp h
    cases heq
    rw [scanWord_of_head]
    · rfl
    · refine (scanWord_eq hscan).imp_left fun ⟨hc, hall, hhead⟩ => ⟨hc, hall, fun e he => hhead e ?_⟩
      cases gap with
      | nil => exact he
      | cons _ _ => exact he
  scan_state _ _ := rfl

theorem isRaw_words (s : Unit) : words.isRaw s = false := rfl

end SonarJavascript.Scanning

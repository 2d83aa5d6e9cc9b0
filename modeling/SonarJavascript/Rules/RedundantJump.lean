import SonarJavascript.Lib.Scanning

/-!
# Redundant jumps

S3626 suggests to remove the `return` or `continue` at the end of a block, together with the text up to the token or
comment in front. What follows the jump is then read behind that token or comment, and a line comment swallows what is
on its line. `block_preserved_iff`: otherwise the block is the same without the jump.
-/

namespace SonarJavascript.Rules.RedundantJump

open Scanning

/-! ### The rule -/

/-- The ranges of the comments, for pieces from a position on. -/
def getCommentsBefore (position : ℕ) : List Piece → List (ℕ × ℕ)
  | [] => []
  | piece :: pieces =>
    let stop := position + piece.text.length
    if piece.isComment then (position, stop) :: getCommentsBefore stop pieces else getCommentsBefore stop pieces

/-- `previousToken.range[1]`, behind the token or the last comment. -/
def previousEnd (tokenEnd : ℕ) (gap : List Piece) : ℕ :=
  match (getCommentsBefore tokenEnd gap).getLast? with
  | none => tokenEnd
  | some comment => comment.2

def removeRange (text : Text) (start stop : ℕ) : Text := text.take start ++ text.drop stop

/-! ### Statements -/

/-- A semicolon can be inserted in front of a closing brace or behind a line end. -/
inductive Ending (Token : Type)
  | complete
  | semicolon (token : Token × Bool)
  | automatic

/-- The tokens without the semicolon, each with whether there is a line end in front. -/
structure Statement (Token : Type) where
  tokens : List (Token × Bool)
  ending : Ending Token
  tokens_ne_nil : tokens ≠ []

variable {Token State : Type} (scanner : Scanner Token State)

def Statement.all (statement : Statement Token) : List (Token × Bool) :=
  match statement.ending with
  | .semicolon token => statement.tokens ++ [token]
  | _ => statement.tokens

/-- In front of the next token. -/
def Statement.Ends (statement : Statement Token) (next : Token × Bool) : Prop :=
  match statement.ending with
  | .complete => True
  | .semicolon token => scanner.text token.1 = [';']
  | .automatic => scanner.text next.1 = ['}'] ∨ next.2 = true

/-- The tokens of the statements of a block. -/
def tokensOf (statements : List (Statement Token)) : List (Token × Bool) := statements.flatMap Statement.all

/-- The statements of a block with the closing brace. -/
def Body : List (Statement Token) → Token × Bool → Prop
  | [], close => scanner.text close.1 = ['}']
  | statement :: statements, close =>
    statement.Ends scanner ((tokensOf statements).head?.getD close) ∧ Body statements close

/-- A block with a jump at its end, after other statements. -/
structure Layout where
  before : Text
  gap : List Piece
  jump : Text
  after : Text
  rest : Text
  /-- The tokens in front of the first statement. -/
  outer : List (Token × Bool)
  statements : List (Statement Token)
  jumpStatement : Statement Token
  close : Token × Bool
  start : State
  beforeGap : State
  afterJump : State
  afterClose : State
  wellFormed : WellFormed gap
  statements_ne_nil : statements ≠ []
  /-- Without an argument or a label. -/
  jump_tokens : ∃ keyword, jumpStatement.tokens = [keyword] ∧
    (scanner.text keyword.1 = "return".toList ∨ scanner.text keyword.1 = "continue".toList)
  reads_before : scanner.Reads start (before ++ (textOf gap ++ (jump ++ after))) (outer ++ tokensOf statements)
    beforeGap (textOf gap ++ (jump ++ after))
  reads_jump : scanner.Reads beforeGap (textOf gap ++ (jump ++ after)) jumpStatement.all afterJump after
  reads_close : scanner.Reads afterJump after [close] afterClose rest
  body : Body scanner (statements ++ [jumpStatement]) close
  /-- Statements do not end within a text between tags. -/
  stops : ∀ last ∈ (outer ++ tokensOf statements).getLast?, scanner.Stops last.1
  isRaw_beforeGap : scanner.isRaw beforeGap = false
  isRaw_afterJump : scanner.isRaw afterJump = false
  /-- A closing brace is the same token behind either statement. -/
  scan_close : ∀ rest, scanner.scan beforeGap ('}' :: rest) = scanner.scan afterJump ('}' :: rest)

namespace Layout

variable {scanner} (layout : Layout scanner)

def source : Text := layout.before ++ (textOf layout.gap ++ (layout.jump ++ layout.after))

/-- The text with the suggestion applied. -/
def suggestion : Text :=
  removeRange layout.source (previousEnd layout.before.length layout.gap)
    (layout.before.length + (textOf layout.gap).length + layout.jump.length)

/-- The block has the other statements and its closing brace, and what follows is read as before. -/
def Preserved : Prop :=
  ∃ newline, scanner.Reads layout.start layout.suggestion
      (layout.outer ++ tokensOf layout.statements ++ [(layout.close.1, newline)]) layout.afterClose layout.rest ∧
    Body scanner layout.statements (layout.close.1, newline)

end Layout

/-- The last comment goes up to the end of its line. -/
def endsWithLineComment (gap : List Piece) : Bool := (gap.filter Piece.isComment).getLast?.any Piece.isLineComment

/-! ### What is removed -/

section Gap

/-- The pieces up to the last comment. -/
def upToComment : List Piece → List Piece
  | [] => []
  | piece :: pieces => if piece.isComment ∨ upToComment pieces ≠ [] then piece :: upToComment pieces else []

variable {gap : List Piece} {position : ℕ}

theorem textOf_cons {piece : Piece} {pieces : List Piece} : textOf (piece :: pieces) = piece.text ++ textOf pieces :=
  List.flatMap_cons

theorem upToComment_isPrefix : upToComment gap <+: gap := by
  induction gap with
  | nil => exact List.prefix_refl _
  | cons piece pieces ih =>
    rw [upToComment]
    split_ifs
    · exact (List.prefix_cons_inj piece).mpr ih
    · exact List.nil_prefix

theorem getLast_getCommentsBefore : (getCommentsBefore position gap).getLast?.map Prod.snd =
    if upToComment gap = [] then none else some (position + (textOf (upToComment gap)).length) := by
  induction gap generalizing position with
  | nil => rfl
  | cons piece pieces ih =>
    have hih := @ih (position + piece.text.length)
    rw [getCommentsBefore, upToComment]
    by_cases hrest : upToComment pieces = []
    · rw [if_pos hrest] at hih
      have hnone : getCommentsBefore (position + piece.text.length) pieces = [] :=
        List.getLast?_eq_none_iff.mp (Option.map_eq_none_iff.mp hih)
      rw [hnone, hrest]
      by_cases hcomment : piece.isComment = true
      · simp [hcomment, textOf]
      · simp [hcomment]
    · rw [if_neg hrest] at hih
      rw [if_pos (Or.inr hrest), if_neg (List.cons_ne_nil _ _), textOf_cons, List.length_append, ← Nat.add_assoc]
      split_ifs with hcomment
      · cases hcomments : getCommentsBefore (position + piece.text.length) pieces with
        | nil =>
          rw [hcomments] at hih
          cases hih
        | cons first others =>
          rw [hcomments] at hih
          rw [List.getLast?_cons_cons]
          exact hih
      · exact hih

theorem previousEnd_eq : previousEnd position gap = position + (textOf (upToComment gap)).length := by
  have hlast := @getLast_getCommentsBefore gap position
  rw [previousEnd]
  split
  · rename_i hnone
    rw [hnone] at hlast
    split_ifs at hlast with hnil
    · rw [hnil]
      rfl
    · cases hlast
  · rename_i comment hsome
    rw [hsome] at hlast
    split_ifs at hlast
    · cases hlast
    · exact Option.some.inj hlast

theorem wellFormed_of_isPrefix {pieces : List Piece} (h : WellFormed gap) (hpieces : pieces <+: gap) : WellFormed pieces := by
  induction pieces generalizing gap with
  | nil => trivial
  | cons piece pieces ih =>
    obtain ⟨others, rfl⟩ := hpieces
    obtain ⟨hpiece, hnext, hpieces⟩ := h
    refine ⟨hpiece, fun hline next hmem => hnext hline next ?_, ih hpieces ⟨others, rfl⟩⟩
    cases pieces with
    | nil => cases hmem
    | cons _ _ => exact hmem

theorem upToComment_eq_nil_iff : upToComment gap = [] ↔ gap.filter Piece.isComment = [] := by
  induction gap with
  | nil => exact Iff.rfl
  | cons piece pieces ih =>
    rw [upToComment, List.filter_cons]
    by_cases hcomment : piece.isComment = true
    · simp [hcomment]
    · by_cases hrest : upToComment pieces = []
      · simp [hcomment, hrest, ih.mp hrest]
      · simp [hcomment, hrest, mt ih.mpr hrest]

/-- The text behind the comments is read as code, or as the rest of a line comment. -/
theorem modeAfter_upToComment : modeAfter (upToComment gap) =
    if endsWithLineComment gap then .lineComment else .code := by
  induction gap with
  | nil => rfl
  | cons piece pieces ih =>
    rw [upToComment]
    by_cases hrest : upToComment pieces = []
    · have hnone := upToComment_eq_nil_iff.mp hrest
      rw [hrest, endsWithLineComment, List.filter_cons, hnone]
      by_cases hcomment : piece.isComment = true
      · simp [hcomment, modeAfter, Piece.mode]
      · simp [hcomment, modeAfter]
    · have hsome := mt upToComment_eq_nil_iff.mpr hrest
      have hends : endsWithLineComment (piece :: pieces) = endsWithLineComment pieces := by
        rw [endsWithLineComment, endsWithLineComment, List.filter_cons]
        split_ifs
        · obtain ⟨first, others, hcons⟩ := List.exists_cons_of_ne_nil hsome
          rw [hcons, List.getLast?_cons_cons]
        · rfl
      rw [if_pos (Or.inr hrest), modeAfter_cons hrest, ih, hends]

end Gap

/-! ### The block without the jump -/

section Removal

variable {scanner} {layout : Layout scanner} {statements : List (Statement Token)} {statement : Statement Token}
  {close : Token × Bool}

theorem Statement.all_ne_nil (statement : Statement Token) : statement.all ≠ [] := by
  rw [Statement.all]
  split
  · exact fun hnil => statement.tokens_ne_nil (List.append_eq_nil_iff.mp hnil).1
  · exact statement.tokens_ne_nil

theorem Statement.ends_close (h : scanner.text close.1 = ['}']) {next : Token × Bool} (hends : statement.Ends scanner next) :
    statement.Ends scanner close := by
  rw [Statement.Ends] at hends ⊢
  split at hends
  · trivial
  · exact hends
  · exact Or.inl h

theorem close_of_body (h : Body scanner statements close) : scanner.text close.1 = ['}'] := by
  induction statements with
  | nil => exact h
  | cons statement statements ih => exact ih h.2

theorem body_of_append (h : Body scanner (statements ++ [statement]) close) (newline : Bool) :
    Body scanner statements (close.1, newline) := by
  have hclose : scanner.text close.1 = ['}'] := close_of_body h
  induction statements with
  | nil => exact hclose
  | cons first statements ih =>
    refine ⟨?_, ih h.2⟩
    cases statements with
    | nil => exact Statement.ends_close hclose h.1
    | cons second statements =>
      obtain ⟨token, tokens, htokens⟩ := List.exists_cons_of_ne_nil second.all_ne_nil
      have hhead (others : List (Statement Token)) : (tokensOf (second :: others)).head? = some token := by
        rw [tokensOf, List.flatMap_cons, htokens]
        rfl
      have hnext : first.Ends scanner ((tokensOf (second :: (statements ++ [statement]))).head?.getD close) := h.1
      rw [hhead] at hnext ⊢
      exact hnext

theorem Layout.suggestion_eq :
    layout.suggestion = layout.before ++ (textOf (upToComment layout.gap) ++ layout.after) := by
  obtain ⟨others, hothers⟩ := @upToComment_isPrefix layout.gap
  have htext : textOf layout.gap = textOf (upToComment layout.gap) ++ textOf others := by
    rw [textOf, textOf, textOf, ← List.flatMap_append, hothers]
  have hstart : layout.source.take (previousEnd layout.before.length layout.gap) =
      layout.before ++ textOf (upToComment layout.gap) := by
    have hsource : layout.source =
        (layout.before ++ textOf (upToComment layout.gap)) ++ (textOf others ++ (layout.jump ++ layout.after)) := by
      rw [Layout.source, htext, List.append_assoc, List.append_assoc]
    rw [hsource, previousEnd_eq, ← List.length_append, List.take_left]
  have hstop : layout.source.drop (layout.before.length + (textOf layout.gap).length + layout.jump.length) =
      layout.after := by
    have hsource : layout.source = (layout.before ++ textOf layout.gap ++ layout.jump) ++ layout.after := by
      simp [Layout.source]
    rw [hsource, ← List.length_append, ← List.length_append, List.drop_left]
  rw [Layout.suggestion, removeRange, hstart, hstop, List.append_assoc]

theorem Layout.text_close (layout : Layout scanner) : scanner.text layout.close.1 = ['}'] := close_of_body layout.body

/-- The closing brace is read where the white space and the comments end. -/
theorem reads_close_iff {s s' : State} {input left : Text} {token : Token} (hraw : scanner.isRaw s = false)
    (hclose : scanner.text token = ['}']) : (∃ newline, scanner.Reads s input [(token, newline)] s' left) ↔
      (∃ gap, input = gap ++ '}' :: left) ∧ (skip .code false input).map Prod.snd = some ('}' :: left) ∧
        scanner.scan s ('}' :: left) = some (token, left, s') := by
  constructor
  · rintro ⟨newline, h⟩
    cases h with
    | cons hinput hskip hscan hreads =>
      cases hreads
      rw [hclose] at hinput hscan hskip
      rw [hraw, skipFrom, if_neg Bool.false_ne_true] at hskip
      exact ⟨⟨_, hinput⟩, by rw [hskip]; rfl, hscan⟩
  · rintro ⟨⟨gap, hinput⟩, hskip, hscan⟩
    obtain ⟨newline, hskip⟩ := exists_skip hskip false
    have hinput' : input = gap ++ (scanner.text token ++ left) := by
      rw [hclose]
      exact hinput
    refine ⟨newline, .cons hinput' ?_ ?_ .nil⟩
    · rw [hraw, skipFrom, if_neg Bool.false_ne_true, hclose]
      exact hskip
    · rw [hclose]
      exact hscan

theorem Layout.boundary : Boundary (textOf (upToComment layout.gap) ++ layout.after) := by
  have hwellFormed := wellFormed_of_isPrefix layout.wellFormed upToComment_isPrefix
  cases hkept : upToComment layout.gap with
  | cons piece pieces =>
    rw [hkept] at hwellFormed
    rw [textOf_cons, List.append_assoc]
    exact boundary_of_piece hwellFormed.1 _
  | nil =>
    obtain ⟨-, hskip, -⟩ := (reads_close_iff layout.isRaw_afterJump layout.text_close).mp ⟨_, layout.reads_close⟩
    obtain ⟨newline, hskip⟩ := exists_skip hskip false
    rcases boundary_of_skip hskip with heq | hboundary
    · change Boundary layout.after
      rw [heq]
      exact Or.inr (Or.inr (Or.inl List.mem_cons_self))
    · exact hboundary

theorem Layout.preserved_iff_skip (layout : Layout scanner) : layout.Preserved ↔
    (skip (if endsWithLineComment layout.gap then .lineComment else .code) false layout.after).map Prod.snd =
      some ('}' :: layout.rest) := by
  obtain ⟨⟨gap, hafter⟩, -, hscan⟩ :=
    (reads_close_iff layout.isRaw_afterJump layout.text_close).mp ⟨_, layout.reads_close⟩
  have hbefore := layout.reads_before.change_boundary layout.stops layout.boundary
  rw [← layout.suggestion_eq] at hbefore
  have hread : (skip .code false (textOf (upToComment layout.gap) ++ layout.after)).map Prod.snd =
      (skip (if endsWithLineComment layout.gap then .lineComment else .code) false layout.after).map Prod.snd := by
    obtain ⟨newline, htext⟩ := @skip_textOf false layout.after _
      (wellFormed_of_isPrefix layout.wellFormed upToComment_isPrefix)
    rw [htext, modeAfter_upToComment]
    exact skip_newline
  have hclose : (∃ newline, scanner.Reads layout.beforeGap (textOf (upToComment layout.gap) ++ layout.after)
        [(layout.close.1, newline)] layout.afterClose layout.rest) ↔
      (skip .code false (textOf (upToComment layout.gap) ++ layout.after)).map Prod.snd =
        some ('}' :: layout.rest) := by
    rw [reads_close_iff layout.isRaw_beforeGap layout.text_close, layout.scan_close]
    refine ⟨fun h => h.2.1, fun h => ⟨⟨textOf (upToComment layout.gap) ++ gap, ?_⟩, h, hscan⟩⟩
    rw [hafter, List.append_assoc]
  rw [← hread, ← hclose]
  constructor
  · rintro ⟨newline, hreads, -⟩
    obtain ⟨s', left, hfirst, hsecond⟩ := hreads.split
    obtain ⟨-, rfl, rfl⟩ := hbefore.unique hfirst rfl
    exact ⟨newline, hsecond⟩
  · rintro ⟨newline, hreads⟩
    exact ⟨newline, hbefore.append hreads, body_of_append layout.body newline⟩

/-- The block loses the jump and nothing else if and only if it is not behind a line comment, or only white space and
comments are lost when the rest of its line becomes a comment. -/
theorem Layout.block_preserved_iff (layout : Layout scanner) : layout.Preserved ↔ (endsWithLineComment layout.gap →
    (skip .lineComment false layout.after).map Prod.snd = (skip .code false layout.after).map Prod.snd) := by
  obtain ⟨-, hskip, -⟩ := (reads_close_iff layout.isRaw_afterJump layout.text_close).mp ⟨_, layout.reads_close⟩
  rw [layout.preserved_iff_skip, hskip]
  split_ifs with hline
  · exact ⟨fun h _ => h, fun h => h hline⟩
  · exact ⟨fun _ h => absurd h hline, fun _ => hskip⟩

end Removal

/-! ### A jump behind a line comment -/

/-- The braces of `{a;// b⏎return;}`, with the jump on the line of the closing brace. -/
def lineCommentLayout : Layout words where
  before := "\x7ba;".toList
  gap := [.lineComment " b".toList, .lineEnd '\n']
  jump := "return;".toList
  after := "\x7d".toList
  rest := []
  outer := [(('{', []), false)]
  statements := [⟨[(('a', []), false)], .semicolon ((';', []), false), List.cons_ne_nil _ _⟩]
  jumpStatement := ⟨[(('r', "eturn".toList), true)], .semicolon ((';', []), false), List.cons_ne_nil _ _⟩
  close := (('}', []), false)
  start := ()
  beforeGap := ()
  afterJump := ()
  afterClose := ()
  wellFormed := ⟨List.forall_mem_cons.mpr ⟨rfl, List.forall_mem_cons.mpr ⟨rfl, nofun⟩⟩, fun _ _ h => by cases h; rfl, rfl, nofun, trivial⟩
  statements_ne_nil := List.cons_ne_nil _ _
  jump_tokens := ⟨_, rfl, Or.inl rfl⟩
  reads_before := .of_scan rfl rfl (.of_scan rfl rfl (.of_scan rfl rfl .nil))
  reads_jump := .of_scan rfl rfl (.of_scan rfl rfl .nil)
  reads_close := .of_scan rfl rfl .nil
  body := ⟨rfl, rfl, rfl⟩
  stops last h := by
    cases h
    exact fun heq => by cases heq
  isRaw_beforeGap := isRaw_words ()
  isRaw_afterJump := isRaw_words ()
  scan_close _ := rfl

/-- `{a; return;}` -/
def blankLayout : Layout words where
  before := "\x7ba;".toList
  gap := [.blank ' ']
  jump := "return;".toList
  after := "\x7d".toList
  rest := []
  outer := [(('{', []), false)]
  statements := [⟨[(('a', []), false)], .semicolon ((';', []), false), List.cons_ne_nil _ _⟩]
  jumpStatement := ⟨[(('r', "eturn".toList), false)], .semicolon ((';', []), false), List.cons_ne_nil _ _⟩
  close := (('}', []), false)
  start := ()
  beforeGap := ()
  afterJump := ()
  afterClose := ()
  wellFormed := ⟨rfl, fun hline => (by cases hline), trivial⟩
  statements_ne_nil := List.cons_ne_nil _ _
  jump_tokens := ⟨_, rfl, Or.inl rfl⟩
  reads_before := .of_scan rfl rfl (.of_scan rfl rfl (.of_scan rfl rfl .nil))
  reads_jump := .of_scan rfl rfl (.of_scan rfl rfl .nil)
  reads_close := .of_scan rfl rfl .nil
  body := ⟨rfl, rfl, rfl⟩
  stops last h := by
    cases h
    exact fun heq => by cases heq
  isRaw_beforeGap := isRaw_words ()
  isRaw_afterJump := isRaw_words ()
  scan_close _ := rfl

theorem blankLayout_preserved : blankLayout.Preserved :=
  blankLayout.block_preserved_iff.mpr (by decide)

theorem line_comment_swallows_brace : ¬ ∀ (Token State : Type) (scanner : Scanner Token State)
    (layout : Layout scanner), layout.Preserved := by
  intro h
  have hskip := (lineCommentLayout.preserved_iff_skip).mp (h _ _ words lineCommentLayout)
  exact absurd hskip (by decide)

end SonarJavascript.Rules.RedundantJump

import Mathlib.Data.List.InsertIdx
import SonarJavascript.Rules.RedundantJump

/-!
# Unused imports

S1128 suggests to remove an unused binding from its import declaration, or the whole declaration if it has no other one.
The ranges are those of neighbouring tokens and specifiers. The suggestion is right (`import_preserved_iff`), with two
exceptions: the only specifier in braces behind a default one has a comma behind it or nothing stands between the braces
and `from`; a line comment or the statement in front of a removed declaration takes in what follows.
-/

namespace SonarJavascript.Rules.UnusedImport

open Scanning RedundantJump

/-! ### Import declarations -/

/-- A token or a specifier with the white space and the comments in front of it. -/
structure Chunk (Token : Type) where
  gap : List Piece
  word : Text
  tokens : List (Token × Bool)

namespace Chunk

variable {Token : Type} (chunk : Chunk Token)

def text : Text := textOf chunk.gap ++ chunk.word

/-- `local` is the last token of every specifier. -/
def localName : Option Token := chunk.tokens.getLast?.map Prod.fst

/-- In a text where the chunk begins at a position. -/
def range (position : ℕ) : ℕ × ℕ := (position + (textOf chunk.gap).length, position + chunk.text.length)

end Chunk

def chunksText {Token : Type} (chunks : List (Chunk Token)) : Text := chunks.flatMap Chunk.text

def chunksTokens {Token : Type} (chunks : List (Chunk Token)) : List (Token × Bool) := chunks.flatMap Chunk.tokens

/-- What can stand behind a default specifier. -/
inductive Bindings (Token : Type)
  | namespaceSpecifier (specifier : Chunk Token)
  | empty (opening closing : Chunk Token)
  /-- All specifiers but the last one have a comma behind them, the last one may have one. -/
  | named (opening : Chunk Token) (specifiers : List (Chunk Token × Chunk Token)) (last : Chunk Token)
      (trailing : Option (Chunk Token)) (closing : Chunk Token)

inductive Clause (Token : Type)
  | defaultOnly (specifier : Chunk Token)
  | bindingsOnly (bindings : Bindings Token)
  | both (specifier comma : Chunk Token) (bindings : Bindings Token)

variable {Token State Stmt : Type}

namespace Bindings

def chunks : Bindings Token → List (Chunk Token)
  | namespaceSpecifier specifier => [specifier]
  | empty opening closing => [opening, closing]
  | named opening specifiers last trailing closing =>
    opening :: ((specifiers.flatMap fun (specifier, comma) => [specifier, comma]) ++
      (last :: (trailing.toList ++ [closing])))

def specifiers : Bindings Token → List (Chunk Token)
  | namespaceSpecifier specifier => [specifier]
  | empty _ _ => []
  | named _ specifiers last _ _ => specifiers.map Prod.fst ++ [last]

end Bindings

namespace Clause

def chunks : Clause Token → List (Chunk Token)
  | defaultOnly specifier => [specifier]
  | bindingsOnly bindings => bindings.chunks
  | both specifier comma bindings => specifier :: comma :: bindings.chunks

def specifiers : Clause Token → List (Chunk Token)
  | defaultOnly specifier => [specifier]
  | bindingsOnly bindings => bindings.specifiers
  | both specifier _ bindings => specifier :: bindings.specifiers

def locals (clause : Clause Token) : List (Option Token) := clause.specifiers.map Chunk.localName

end Clause

/-! ### The rule -/

/-- The ranges of specifiers with commas between them. -/
def specifierRanges (position : ℕ) : List (Chunk Token × Chunk Token) → Chunk Token → List (ℕ × ℕ)
  | [], last => [last.range position]
  | (specifier, comma) :: specifiers, last =>
    specifier.range position ::
      specifierRanges (position + specifier.text.length + comma.text.length) specifiers last

/-- With the end of the default specifier and the start of the comma behind it. -/
def Bindings.getRange (outside : Option (ℕ × ℕ)) (position : ℕ) (index : ℕ) : Bindings Token → Option (ℕ × ℕ)
  | namespaceSpecifier specifier => outside.map fun (_, tokenBefore) => (tokenBefore, (specifier.range position).2)
  | empty _ _ => none
  | named opening specifiers last trailing closing =>
    let start := position + opening.text.length
    let simpleSpecifiers := specifierRanges start specifiers last
    if simpleSpecifiers.length = 1 then
      let tokenAfter := (trailing.getD closing).range (start + last.text.length)
      outside.map fun (stop, _) => (stop, tokenAfter.2)
    else if index = 0 then do
      let first ← simpleSpecifiers[0]?
      let second ← simpleSpecifiers[1]?
      return (first.1, second.1)
    else do
      let previous ← simpleSpecifiers[index - 1]?
      let unused ← simpleSpecifiers[index]?
      return (previous.2, unused.2)

/-- The range to remove for one of several specifiers of a clause at a position. -/
def getRange (position : ℕ) (unused : ℕ) : Clause Token → Option (ℕ × ℕ)
  | .defaultOnly _ => none
  | .bindingsOnly bindings => bindings.getRange none position unused
  | .both specifier comma bindings =>
    let behind := position + specifier.text.length
    match unused with
    | 0 => bindings.chunks.head?.map fun next =>
      ((specifier.range position).1, (next.range (behind + comma.text.length)).1)
    | index + 1 =>
      bindings.getRange (some ((specifier.range position).2, (comma.range behind).1)) (behind + comma.text.length) index

/-! ### Programs -/

/-- A parser of statements, which gives the tokens behind the statement. The end of a statement depends on the first of
them, and on whether there is a line end in front of it. -/
structure Grammar (Token Stmt : Type) where
  statement : List (Token × Bool) → Option (Stmt × List (Token × Bool))
  statement_next : ∀ {tokens rest rest' : List (Token × Bool)} {next : Token × Bool} {stmt : Stmt},
    statement (tokens ++ next :: rest) = some (stmt, next :: rest) →
    statement (tokens ++ next :: rest') = some (stmt, next :: rest')
  statement_newline : ∀ {token : Token} {newline newline' : Bool} {tokens : List (Token × Bool)},
    statement ((token, newline) :: tokens) = statement ((token, newline') :: tokens)

/-- A statement with what is in front of it. -/
structure Statement (Token Stmt : Type) where
  text : Text
  tokens : List (Token × Bool)
  stmt : Stmt

def statementsText (statements : List (Statement Token Stmt)) : Text := statements.flatMap Statement.text

def statementsTokens (statements : List (Statement Token Stmt)) : List (Token × Bool) :=
  statements.flatMap Statement.tokens

/-- Each statement is read in front of the other ones. -/
def ReadsStatements (scanner : Scanner Token State) (between : State) (after : Text) :
    List (Statement Token Stmt) → Prop
  | [] => True
  | statement :: statements =>
    scanner.Reads between (statement.text ++ (statementsText statements ++ after)) statement.tokens between
      (statementsText statements ++ after) ∧ ReadsStatements scanner between after statements

/-- Each statement is parsed in front of the other ones. -/
def ParsesStatements (grammar : Grammar Token Stmt) (afterTokens : List (Token × Bool)) :
    List (Statement Token Stmt) → Prop
  | [] => True
  | statement :: statements =>
    grammar.statement (statement.tokens ++ (statementsTokens statements ++ afterTokens)) =
      some (statement.stmt, statementsTokens statements ++ afterTokens) ∧
        ParsesStatements grammar afterTokens statements

inductive Parses (grammar : Grammar Token Stmt) : List (Token × Bool) → List Stmt → Prop
  | nil : Parses grammar [] []
  | cons {tokens rest : List (Token × Bool)} {stmt : Stmt} {stmts : List Stmt}
      (h : grammar.statement tokens = some (stmt, rest)) (hrest : Parses grammar rest stmts) :
      Parses grammar tokens (stmt :: stmts)

/-- Each chunk is read in front of the other ones. -/
def ReadsChunks (scanner : Scanner Token State) (inside : State) (after : Text) : List (Chunk Token) → Prop
  | [] => True
  | chunk :: chunks =>
    scanner.Reads inside (chunk.text ++ (chunksText chunks ++ after)) chunk.tokens inside (chunksText chunks ++ after) ∧
      ReadsChunks scanner inside after chunks

section WellFormed

variable (scanner : Scanner Token State)

/-- An identifier or a string. -/
def IsName (token : Token) : Prop := ∀ c ∈ (scanner.text token).head?, c ∉ ['\x7b', '\x7d', ',', '*']

/-- A token with one character. -/
def Chunk.IsPunctuator (c : Char) (chunk : Chunk Token) : Prop :=
  IsGap chunk.gap ∧ ∃ token newline, chunk.tokens = [(token, newline)] ∧ scanner.text token = [c]

def Chunk.IsDefault (chunk : Chunk Token) : Prop :=
  IsGap chunk.gap ∧ ∃ token newline, chunk.tokens = [(token, newline)] ∧ IsName scanner token ∧
    chunk.word = scanner.text token

def Chunk.IsSpecifier (chunk : Chunk Token) : Prop :=
  IsGap chunk.gap ∧ chunk.tokens ≠ [] ∧ ∀ token ∈ chunk.tokens, IsName scanner token.1

/-- `* as` and a name. -/
def Chunk.IsNamespace (chunk : Chunk Token) : Prop :=
  IsGap chunk.gap ∧ ∃ star rest, chunk.tokens = star :: rest ∧ scanner.text star.1 = ['*'] ∧ rest ≠ []

def Bindings.WellFormed : Bindings Token → Prop
  | .namespaceSpecifier specifier => specifier.IsNamespace scanner
  | .empty opening closing => opening.IsPunctuator scanner '\x7b' ∧ closing.IsPunctuator scanner '\x7d'
  | .named opening specifiers last trailing closing =>
    opening.IsPunctuator scanner '\x7b' ∧
      (∀ specifier ∈ specifiers, specifier.1.IsSpecifier scanner ∧ specifier.2.IsPunctuator scanner ',') ∧
      last.IsSpecifier scanner ∧ (∀ comma ∈ trailing, comma.IsPunctuator scanner ',') ∧
      closing.IsPunctuator scanner '\x7d'

def Clause.WellFormed : Clause Token → Prop
  | .defaultOnly specifier => specifier.IsDefault scanner
  | .bindingsOnly bindings => bindings.WellFormed scanner
  | .both specifier comma bindings =>
    specifier.IsDefault scanner ∧ comma.IsPunctuator scanner ',' ∧ bindings.WellFormed scanner

end WellFormed

/-- A program with an import declaration and an unused specifier of it. -/
structure Layout (scanner : Scanner Token State) (grammar : Grammar Token Stmt) where
  statements : List (Statement Token Stmt)
  keyword : Chunk Token
  clause : Clause Token
  fromKeyword : Chunk Token
  /-- The module with attributes and a semicolon. -/
  source : Chunk Token
  after : Text
  /-- From the first token behind the declaration on. -/
  body : Text
  /-- White space and comments at the end. -/
  left : Text
  unused : ℕ
  newline : Bool
  rest : List (Token × Bool)
  following : List Stmt
  between : State
  inside : State
  stop : State
  wellFormed_gap : WellFormed keyword.gap
  wellFormed : clause.WellFormed scanner
  unused_lt : unused < clause.specifiers.length
  /-- `import`, perhaps with a `type` behind it. -/
  keyword_tokens : ∃ first types, keyword.tokens = first :: types ∧ types.length ≤ 1
  from_token : ∃ token newline, fromKeyword.tokens = [(token, newline)] ∧ fromKeyword.word = scanner.text token
  gap_from : IsGap fromKeyword.gap
  /-- Something is between two words. -/
  gap_keyword_ne_nil : ∀ specifier comma bindings, clause = .both specifier comma bindings → specifier.gap ≠ []
  gap_from_ne_nil : ∀ specifier comma other, clause = .both specifier comma (.namespaceSpecifier other) →
    fromKeyword.gap ≠ []
  reads_statements : ReadsStatements scanner between (keyword.text ++ (chunksText clause.chunks ++
    (fromKeyword.text ++ (source.text ++ after)))) statements
  reads_keyword : scanner.Reads between (keyword.text ++ (chunksText clause.chunks ++
      (fromKeyword.text ++ (source.text ++ after)))) keyword.tokens inside
    (chunksText clause.chunks ++ (fromKeyword.text ++ (source.text ++ after)))
  reads_clause : ReadsChunks scanner inside (fromKeyword.text ++ (source.text ++ after)) clause.chunks
  reads_from : scanner.Reads inside (fromKeyword.text ++ (source.text ++ after)) fromKeyword.tokens inside
    (source.text ++ after)
  reads_source : scanner.Reads inside (source.text ++ after) source.tokens between after
  skip_after : skip .code false after = some (newline, body)
  reads_body : scanner.Reads between body rest stop left
  left_end : (skip .code false left).map Prod.snd = some []
  parses_statements : ParsesStatements grammar (keyword.tokens ++ (chunksTokens clause.chunks ++
    (fromKeyword.tokens ++ (source.tokens ++ rest)))) statements
  parses_rest : Parses grammar rest following
  isRaw_between : scanner.isRaw between = false
  isRaw_inside : scanner.isRaw inside = false
  stops : ∀ chunk ∈ keyword :: clause.specifiers, ∀ last ∈ chunk.tokens.getLast?, scanner.Stops last.1
  stops_statements : ∀ statement ∈ statements, statement.tokens ≠ [] ∧
    ∀ last ∈ statement.tokens.getLast?, scanner.Stops last.1
  /-- An opening brace is the same token in front of everything. -/
  scan_opening : ∀ {token rest rest' state}, scanner.text token = ['\x7b'] →
    scanner.scan inside (scanner.text token ++ rest) = some (token, rest, state) →
    scanner.scan inside (scanner.text token ++ rest') = some (token, rest', state)
  /-- Two words with nothing between them are one. -/
  scan_words : ∀ specifier comma bindings, clause = .both specifier comma bindings → ∀ token ∈ specifier.tokens,
    ∀ rest state, scanner.scan inside (scanner.text token.1 ++ (fromKeyword.word ++ rest)) ≠
      some (token.1, fromKeyword.word ++ rest, state)

namespace Layout

variable {scanner : Scanner Token State} {grammar : Grammar Token Stmt} (layout : Layout scanner grammar)

def declaration : Text :=
  layout.keyword.text ++ (chunksText layout.clause.chunks ++ (layout.fromKeyword.text ++ layout.source.text))

/-- Where the clause begins. -/
def position : ℕ := (statementsText layout.statements).length + layout.keyword.text.length

def sourceText : Text := statementsText layout.statements ++ (layout.declaration ++ layout.after)

/-- The program with the suggestion applied, for one of several specifiers or for the whole declaration. -/
def suggestion : Option Text :=
  if layout.clause.specifiers.length = 1 then
    let start := (statementsText layout.statements).length
    some (removeRange layout.sourceText (previousEnd start layout.keyword.gap) (start + layout.declaration.length))
  else
    (getRange layout.position layout.unused layout.clause).map fun (start, stop) =>
      removeRange layout.sourceText start stop

end Layout

def setNewline (newline : Bool) : List (Token × Bool) → List (Token × Bool)
  | [] => []
  | (token, _) :: tokens => (token, newline) :: tokens

namespace Layout

variable {scanner : Scanner Token State} {grammar : Grammar Token Stmt} (layout : Layout scanner grammar)

/-- The import declares the other names, and all other statements are what and where they were. -/
def PreservedClause : Prop :=
  ∃ (text : Text) (clause : Clause Token) (tokens : List (Token × Bool)), layout.suggestion = some text ∧
    clause.WellFormed scanner ∧
    clause.locals = layout.clause.locals.eraseIdx layout.unused ∧
    scanner.Reads layout.between text (statementsTokens layout.statements ++ (layout.keyword.tokens ++ tokens))
      layout.between layout.after ∧
    tokens.map Prod.fst =
      (chunksTokens clause.chunks ++ (layout.fromKeyword.tokens ++ layout.source.tokens)).map Prod.fst ∧
    ParsesStatements grammar (layout.keyword.tokens ++ (tokens ++ layout.rest)) layout.statements

/-- The statements in front are followed by those behind the declaration. -/
def PreservedStatements : Prop :=
  ∃ (text input : Text) (newline : Bool), layout.suggestion = some text ∧
    scanner.Reads layout.between text (statementsTokens layout.statements) layout.between input ∧
    skip .code false input = some (newline, layout.body) ∧
    ParsesStatements grammar (setNewline newline layout.rest) layout.statements ∧
    Parses grammar (setNewline newline layout.rest) layout.following

def Preserved : Prop :=
  if layout.clause.specifiers.length = 1 then layout.PreservedStatements else layout.PreservedClause

/-- What is left in front of the text behind the declaration. -/
def kept : Text := textOf (upToComment layout.keyword.gap)

/-- The statement in front is read and parsed as before when it is followed by the text behind the declaration. -/
def Joins (statement : Statement Token Stmt) : Prop :=
  scanner.Reads layout.between (statement.text ++ (layout.kept ++ layout.after)) statement.tokens layout.between
      (layout.kept ++ layout.after) ∧
    ∀ newline ∈ (skip .code false (layout.kept ++ layout.after)).map Prod.fst,
      grammar.statement (statement.tokens ++ setNewline newline layout.rest) =
        some (statement.stmt, setNewline newline layout.rest)

/-- When the whole declaration is removed. -/
def StatementsJoin : Prop :=
  (endsWithLineComment layout.keyword.gap →
    (skip .lineComment false layout.after).map Prod.snd = (skip .code false layout.after).map Prod.snd) ∧
  ∀ last ∈ layout.statements.getLast?, layout.Joins last

/-- When one of several specifiers is removed. -/
def ClauseCloses : Prop :=
  match layout.clause, layout.unused with
  | .both _ _ (.named _ [] _ trailing _), 1 => trailing = none ∧ layout.fromKeyword.gap ≠ []
  | _, _ => True

end Layout

/-! ### Chunks -/

section Chunks

variable {scanner : Scanner Token State} {inside : State} {after : Text} {chunk : Chunk Token}
  {chunks others : List (Chunk Token)}

theorem chunksText_append : chunksText (chunks ++ others) = chunksText chunks ++ chunksText others :=
  List.flatMap_append

theorem chunksText_cons : chunksText (chunk :: chunks) = chunk.text ++ chunksText chunks :=
  List.flatMap_cons

theorem chunksTokens_append : chunksTokens (chunks ++ others) = chunksTokens chunks ++ chunksTokens others :=
  List.flatMap_append

theorem chunksTokens_cons : chunksTokens (chunk :: chunks) = chunk.tokens ++ chunksTokens chunks :=
  List.flatMap_cons

theorem readsChunks_append : ReadsChunks scanner inside after (chunks ++ others) ↔
    ReadsChunks scanner inside (chunksText others ++ after) chunks ∧ ReadsChunks scanner inside after others := by
  induction chunks with
  | nil => exact ⟨fun h => ⟨trivial, h⟩, fun h => h.2⟩
  | cons chunk chunks ih =>
    rw [List.cons_append, ReadsChunks, ReadsChunks, ih, chunksText_append, List.append_assoc]
    exact and_assoc.symm

theorem ReadsChunks.reads (h : ReadsChunks scanner inside after chunks) :
    scanner.Reads inside (chunksText chunks ++ after) (chunksTokens chunks) inside after := by
  induction chunks with
  | nil => exact .nil
  | cons chunk chunks ih =>
    rw [chunksText_cons, chunksTokens_cons, List.append_assoc]
    exact h.1.append (ih h.2)

end Chunks

/-! ### Statements in front -/

section Statements

variable {scanner : Scanner Token State} {grammar : Grammar Token Stmt} {between : State} {after after' : Text}
  {statements : List (Statement Token Stmt)} {tokens rest rest' : List (Token × Bool)} {stmts : List Stmt}
  {newline : Bool}

theorem statementsText_cons {statement : Statement Token Stmt} :
    statementsText (statement :: statements) = statement.text ++ statementsText statements :=
  List.flatMap_cons

theorem statementsTokens_cons {statement : Statement Token Stmt} :
    statementsTokens (statement :: statements) = statement.tokens ++ statementsTokens statements :=
  List.flatMap_cons

theorem ReadsStatements.reads (h : ReadsStatements scanner between after statements) :
    scanner.Reads between (statementsText statements ++ after) (statementsTokens statements) between after := by
  induction statements with
  | nil => exact .nil
  | cons statement statements ih =>
    rw [statementsText_cons, statementsTokens_cons, List.append_assoc]
    exact h.1.append (ih h.2)

theorem parsesStatements_next {next : Token × Bool} (h : ParsesStatements grammar (next :: rest) statements) :
    ParsesStatements grammar (next :: rest') statements := by
  induction statements with
  | nil => trivial
  | cons statement statements ih =>
    refine ⟨?_, ih h.2⟩
    have hstatement := h.1
    cases htokens : statementsTokens statements with
    | nil =>
      rw [htokens] at hstatement
      exact grammar.statement_next hstatement
    | cons first tokens =>
      rw [htokens] at hstatement
      exact grammar.statement_next hstatement

theorem parses_setNewline (h : Parses grammar tokens stmts) : Parses grammar (setNewline newline tokens) stmts := by
  cases h with
  | nil => exact .nil
  | @cons _ rest stmt stmts h hrest =>
    refine .cons ?_ hrest
    cases tokens with
    | nil => exact h
    | cons first tokens => exact grammar.statement_newline.trans h

end Statements

/-! ### One of several specifiers -/

section Removal

variable {scanner : Scanner Token State} {grammar : Grammar Token Stmt} (layout : Layout scanner grammar)

theorem removeRange_eq {a cut b text : Text} {start stop : ℕ} (htext : text = a ++ (cut ++ b))
    (hstart : start = a.length) (hstop : stop = start + cut.length) : removeRange text start stop = a ++ b := by
  rw [removeRange, htext, hstop, hstart, List.take_left, ← List.append_assoc, ← List.length_append, List.drop_left]

namespace Layout

theorem reads_chunks : ReadsChunks scanner layout.inside (layout.source.text ++ layout.after)
    (layout.clause.chunks ++ [layout.fromKeyword]) := by
  refine readsChunks_append.mpr ⟨?_, layout.reads_from, trivial⟩
  rw [chunksText_cons, List.append_assoc]
  exact layout.reads_clause

theorem sourceText_eq {behind : List (Chunk Token)} {before : List (Chunk Token)}
    (hchunks : layout.clause.chunks ++ [layout.fromKeyword] = before ++ behind) : layout.sourceText =
      (statementsText layout.statements ++ (layout.keyword.text ++ chunksText before)) ++
        (chunksText behind ++ (layout.source.text ++ layout.after)) := by
  have htext : chunksText layout.clause.chunks ++ layout.fromKeyword.text = chunksText before ++ chunksText behind := by
    rw [← chunksText_append, ← hchunks, chunksText_append, chunksText_cons]
    exact congrArg _ (List.append_nil _).symm
  have hassoc : layout.sourceText = (statementsText layout.statements ++ layout.keyword.text) ++
      ((chunksText layout.clause.chunks ++ layout.fromKeyword.text) ++ (layout.source.text ++ layout.after)) := by
    simp [Layout.sourceText, Layout.declaration]
  rw [hassoc, htext]
  simp only [List.append_assoc]

/-- What is in front of a chunk of the clause. -/
theorem reads_before {before behind : List (Chunk Token)}
    (hchunks : layout.clause.chunks ++ [layout.fromKeyword] = before ++ behind) :
    scanner.Reads layout.between ((statementsText layout.statements ++ (layout.keyword.text ++ chunksText before)) ++
        (chunksText behind ++ (layout.source.text ++ layout.after)))
      (statementsTokens layout.statements ++ (layout.keyword.tokens ++ chunksTokens before)) layout.inside
      (chunksText behind ++ (layout.source.text ++ layout.after)) := by
  have hbefore := layout.reads_chunks
  rw [hchunks, readsChunks_append] at hbefore
  have hstatements := layout.reads_statements.reads
  have hkeyword := layout.reads_keyword
  have htext : chunksText layout.clause.chunks ++ (layout.fromKeyword.text ++ (layout.source.text ++ layout.after)) =
      chunksText before ++ (chunksText behind ++ (layout.source.text ++ layout.after)) := by
    rw [← List.append_assoc, ← List.append_assoc (chunksText before), ← chunksText_append, ← hchunks,
      chunksText_append, chunksText_cons]
    exact congrArg (· ++ _) (congrArg _ (List.append_nil _).symm)
  rw [htext] at hstatements hkeyword
  have hall := hstatements.append (hkeyword.append hbefore.1.reads)
  simp only [List.append_assoc] at hall ⊢
  exact hall

/-- A part of the clause is removed, and the next chunk stays with other white space and comments in front of it. -/
theorem preservedClause_of_removed {before removed behind : List (Chunk Token)} {chunk : Chunk Token}
    (gap : List Piece) (clause : Clause Token)
    (hchunks : layout.clause.chunks ++ [layout.fromKeyword] = before ++ (removed ++ chunk :: behind))
    (hsuggestion : layout.suggestion = some ((statementsText layout.statements ++
      (layout.keyword.text ++ chunksText before)) ++ (textOf gap ++ (chunk.word ++ (chunksText behind ++
        (layout.source.text ++ layout.after))))))
    (hbefore : scanner.Reads layout.between ((statementsText layout.statements ++ (layout.keyword.text ++
        chunksText before)) ++ (textOf gap ++ (chunk.word ++ (chunksText behind ++ (layout.source.text ++ layout.after)))))
      (statementsTokens layout.statements ++ (layout.keyword.tokens ++ chunksTokens before)) layout.inside
      (textOf gap ++ (chunk.word ++ (chunksText behind ++ (layout.source.text ++ layout.after)))))
    (hgap : IsGap gap) (hchunk : IsGap chunk.gap) (hne : chunk.tokens ≠ []) (hwellFormed : clause.WellFormed scanner)
    (hlocals : clause.locals = layout.clause.locals.eraseIdx layout.unused)
    (htokens : chunksTokens clause.chunks ++ layout.fromKeyword.tokens =
      chunksTokens before ++ chunksTokens (chunk :: behind)) : layout.PreservedClause := by
  have hreads := layout.reads_chunks
  rw [hchunks, readsChunks_append, readsChunks_append] at hreads
  obtain ⟨-, -, hfirst, hothers⟩ := hreads
  obtain ⟨⟨token, newline⟩, tokens, hcons⟩ := List.exists_cons_of_ne_nil hne
  rw [hcons, Chunk.text, List.append_assoc] at hfirst
  obtain ⟨newline', hchanged⟩ := hfirst.change_gap layout.isRaw_inside hchunk hgap
  obtain ⟨first, types, hkeyword, -⟩ := layout.keyword_tokens
  refine ⟨_, clause, chunksTokens before ++ ((token, newline') :: tokens ++ (chunksTokens behind ++
    layout.source.tokens)), hsuggestion, hwellFormed, hlocals, ?_, ?_, ?_⟩
  · have hall := hbefore.append (hchanged.append (hothers.reads.append layout.reads_source))
    simp only [List.append_assoc] at hall ⊢
    exact hall
  · rw [← List.append_assoc (chunksTokens clause.chunks), htokens, chunksTokens_cons, hcons]
    simp
  · have hparses := layout.parses_statements
    rw [hkeyword] at hparses ⊢
    exact parsesStatements_next hparses

theorem suggestion_of_range {before removed behind : List (Chunk Token)} {chunk : Chunk Token} {gap : List Piece}
    {start stop : ℕ} (first cut second : Text)
    (hchunks : layout.clause.chunks ++ [layout.fromKeyword] = before ++ (removed ++ chunk :: behind))
    (hsize : layout.clause.specifiers.length ≠ 1)
    (hrange : getRange layout.position layout.unused layout.clause = some (start, stop))
    (hcut : chunksText removed ++ chunk.text = first ++ (cut ++ (second ++ chunk.word)))
    (hgap : textOf gap = first ++ second)
    (hstart : start = layout.position + (chunksText before).length + first.length)
    (hstop : stop = start + cut.length) :
    layout.suggestion = some ((statementsText layout.statements ++
      (layout.keyword.text ++ chunksText before)) ++ (textOf gap ++ (chunk.word ++ (chunksText behind ++
        (layout.source.text ++ layout.after))))) := by
  have hbehind : chunksText (removed ++ chunk :: behind) = (chunksText removed ++ chunk.text) ++ chunksText behind := by
    rw [chunksText_append, chunksText_cons, List.append_assoc]
  have htext : layout.sourceText = ((statementsText layout.statements ++ (layout.keyword.text ++ chunksText before)) ++
      first) ++ (cut ++ (second ++ (chunk.word ++ (chunksText behind ++ (layout.source.text ++ layout.after))))) := by
    rw [layout.sourceText_eq hchunks, hbehind, hcut]
    simp only [List.append_assoc]
  have hlength : start = ((statementsText layout.statements ++ (layout.keyword.text ++ chunksText before)) ++
      first).length := by
    rw [hstart, position]
    simp only [List.length_append]
    omega
  rw [suggestion, if_neg hsize, hrange, Option.map_some]
  dsimp only
  rw [removeRange_eq htext hlength hstop, hgap]
  simp only [List.append_assoc]

theorem getLast?_tokens {tokens : List (Token × Bool)} : (statementsTokens layout.statements ++
    (layout.keyword.tokens ++ tokens)).getLast? = (layout.keyword.tokens ++ tokens).getLast? := by
  obtain ⟨first, types, hkeyword, -⟩ := layout.keyword_tokens
  rw [List.getLast?_append, hkeyword, List.cons_append, List.getLast?_eq_some_getLast (List.cons_ne_nil _ _)]
  rfl

theorem reads_before_boundary {before behind : List (Chunk Token)} {text : Text}
    (hchunks : layout.clause.chunks ++ [layout.fromKeyword] = before ++ behind)
    (hstops : ∀ last ∈ (layout.keyword.tokens ++ chunksTokens before).getLast?, scanner.Stops last.1)
    (hboundary : Boundary text) :
    scanner.Reads layout.between ((statementsText layout.statements ++ (layout.keyword.text ++ chunksText before)) ++
        text) (statementsTokens layout.statements ++ (layout.keyword.tokens ++ chunksTokens before)) layout.inside text := by
  refine (layout.reads_before hchunks).change_boundary (fun last hlast => hstops last ?_) hboundary
  rw [getLast?_tokens] at hlast
  exact hlast

theorem boundary_gap {gap : List Piece} (hgap : IsGap gap) (hne : gap ≠ []) (rest : Text) :
    Boundary (textOf gap ++ rest) := by
  obtain ⟨piece, pieces, rfl⟩ := List.exists_cons_of_ne_nil hne
  rw [textOf_cons, List.append_assoc]
  exact boundary_of_piece hgap.1.1 _

theorem tokens_ne_nil_of_isPunctuator {c : Char} {chunk : Chunk Token} (h : chunk.IsPunctuator scanner c) :
    chunk.tokens ≠ [] := by
  obtain ⟨-, token, newline, htokens, -⟩ := h
  rw [htokens]
  exact List.cons_ne_nil _ _

theorem exists_chunks {bindings : Bindings Token} (h : bindings.WellFormed scanner) : ∃ chunk chunks,
    bindings.chunks = chunk :: chunks ∧ IsGap chunk.gap ∧ chunk.tokens ≠ [] := by
  cases bindings with
  | namespaceSpecifier specifier =>
    obtain ⟨hgap, star, rest, htokens, -⟩ := h
    exact ⟨_, _, rfl, hgap, by rw [htokens]; exact List.cons_ne_nil _ _⟩
  | empty opening closing => exact ⟨_, _, rfl, h.1.1, tokens_ne_nil_of_isPunctuator h.1⟩
  | named opening specifiers last trailing closing =>
    exact ⟨_, _, rfl, h.1.1, tokens_ne_nil_of_isPunctuator h.1⟩

theorem preservedClause_default {specifier comma : Chunk Token} {bindings : Bindings Token}
    (hclause : layout.clause = .both specifier comma bindings) (hunused : layout.unused = 0)
    (hsize : layout.clause.specifiers.length ≠ 1) : layout.PreservedClause := by
  have hwellFormed := layout.wellFormed
  rw [hclause] at hwellFormed
  obtain ⟨hdefault, hcomma, hbindings⟩ := hwellFormed
  obtain ⟨chunk, chunks, hall, hgap, hne⟩ := exists_chunks hbindings
  have hnil := layout.gap_keyword_ne_nil specifier comma bindings hclause
  have hchunks : layout.clause.chunks ++ [layout.fromKeyword] =
      [] ++ ([specifier, comma] ++ chunk :: (chunks ++ [layout.fromKeyword])) := by
    rw [hclause, Clause.chunks, hall]
    rfl
  have hkeyword : ∀ last ∈ (layout.keyword.tokens ++ chunksTokens []).getLast?, scanner.Stops last.1 := by
    change ∀ last ∈ (layout.keyword.tokens ++ []).getLast?, _
    rw [List.append_nil]
    exact layout.stops layout.keyword List.mem_cons_self
  have hrange : getRange layout.position layout.unused layout.clause = some ((specifier.range layout.position).1,
      (chunk.range (layout.position + specifier.text.length + comma.text.length)).1) := by
    rw [hclause, hunused, getRange, hall]
    rfl
  refine layout.preservedClause_of_removed specifier.gap (.bindingsOnly bindings) hchunks
    (layout.suggestion_of_range (textOf specifier.gap) (specifier.word ++ (comma.text ++ textOf chunk.gap)) [] hchunks
      hsize hrange ?_ (List.append_nil _).symm rfl ?_)
    (layout.reads_before_boundary hchunks hkeyword (boundary_gap hdefault.1 hnil _)) hdefault.1 hgap hne hbindings ?_ ?_
  · simp [chunksText, Chunk.text]
  · simp only [Chunk.range, Chunk.text, List.length_append]
    omega
  · rw [hclause, hunused]
    rfl
  · rw [Clause.chunks, hall]
    simp [chunksTokens]

theorem stops_of_specifier {before : List (Chunk Token)} {specifier : Chunk Token}
    (hspecifier : specifier ∈ layout.clause.specifiers) (hne : specifier.tokens ≠ []) :
    ∀ last ∈ (layout.keyword.tokens ++ chunksTokens (before ++ [specifier])).getLast?, scanner.Stops last.1 := by
  have hlast : (layout.keyword.tokens ++ chunksTokens (before ++ [specifier])).getLast? = specifier.tokens.getLast? := by
    have htokens : layout.keyword.tokens ++ chunksTokens (before ++ [specifier]) =
        (layout.keyword.tokens ++ chunksTokens before) ++ specifier.tokens := by
      simp [chunksTokens]
    rw [htokens, List.getLast?_append, List.getLast?_eq_some_getLast hne]
    rfl
  rw [hlast]
  exact layout.stops specifier (List.mem_cons_of_mem _ hspecifier)

theorem textOf_append {pieces others : List Piece} : textOf (pieces ++ others) = textOf pieces ++ textOf others :=
  List.flatMap_append

theorem tokens_ne_nil_of_isDefault {chunk : Chunk Token} (h : chunk.IsDefault scanner) : chunk.tokens ≠ [] := by
  obtain ⟨-, token, newline, htokens, -⟩ := h
  rw [htokens]
  exact List.cons_ne_nil _ _

theorem from_ne_nil : layout.fromKeyword.tokens ≠ [] := by
  obtain ⟨token, newline, htokens, -⟩ := layout.from_token
  rw [htokens]
  exact List.cons_ne_nil _ _

theorem preservedClause_namespace {specifier comma other : Chunk Token}
    (hclause : layout.clause = .both specifier comma (.namespaceSpecifier other)) (hunused : layout.unused = 1) :
    layout.PreservedClause := by
  have hwellFormed := layout.wellFormed
  rw [hclause] at hwellFormed
  obtain ⟨hdefault, hcomma, -⟩ := hwellFormed
  have hfrom := layout.gap_from_ne_nil specifier comma other hclause
  have hgap := hcomma.1.append layout.gap_from
  have hsize : layout.clause.specifiers.length ≠ 1 := by
    rw [hclause]
    nofun
  have hchunks : layout.clause.chunks ++ [layout.fromKeyword] =
      [specifier] ++ ([comma, other] ++ layout.fromKeyword :: []) := by
    rw [hclause]
    rfl
  have hrange : getRange layout.position layout.unused layout.clause =
      some ((comma.range (layout.position + specifier.text.length)).1,
        (other.range (layout.position + specifier.text.length + comma.text.length)).2) := by
    rw [hclause, hunused]
    rfl
  have hstops : ∀ last ∈ (layout.keyword.tokens ++ chunksTokens [specifier]).getLast?, scanner.Stops last.1 := by
    refine @stops_of_specifier _ _ _ _ _ layout [] specifier ?_ (tokens_ne_nil_of_isDefault hdefault)
    rw [hclause]
    exact List.mem_cons_self
  refine layout.preservedClause_of_removed (comma.gap ++ layout.fromKeyword.gap) (.defaultOnly specifier) hchunks
    (layout.suggestion_of_range (textOf comma.gap) (comma.word ++ other.text) (textOf layout.fromKeyword.gap) hchunks
      hsize hrange ?_ textOf_append ?_ ?_)
    (layout.reads_before_boundary hchunks hstops (boundary_gap hgap (by simp [hfrom]) _)) hgap layout.gap_from
    layout.from_ne_nil hdefault ?_ ?_
  · simp [chunksText, Chunk.text]
  · simp only [Chunk.range, chunksText, List.flatMap_cons, List.flatMap_nil, List.append_nil]
  · simp only [Chunk.range, Chunk.text, List.length_append]
    omega
  · rw [hclause, hunused]
    rfl
  · rw [Clause.chunks]
    simp [chunksTokens]

theorem preservedClause_single {specifier comma opening last closing : Chunk Token}
    (hclause : layout.clause = .both specifier comma (.named opening [] last none closing)) (hunused : layout.unused = 1)
    (hfrom : layout.fromKeyword.gap ≠ []) : layout.PreservedClause := by
  have hwellFormed := layout.wellFormed
  rw [hclause] at hwellFormed
  obtain ⟨hdefault, -⟩ := hwellFormed
  have hsize : layout.clause.specifiers.length ≠ 1 := by
    rw [hclause]
    nofun
  have hchunks : layout.clause.chunks ++ [layout.fromKeyword] =
      [specifier] ++ ([comma, opening, last, closing] ++ layout.fromKeyword :: []) := by
    rw [hclause]
    rfl
  have hrange : getRange layout.position layout.unused layout.clause =
      some ((specifier.range layout.position).2, (closing.range (layout.position + specifier.text.length +
        comma.text.length + opening.text.length + last.text.length)).2) := by
    rw [hclause, hunused]
    rfl
  have hstops : ∀ last ∈ (layout.keyword.tokens ++ chunksTokens [specifier]).getLast?, scanner.Stops last.1 := by
    refine @stops_of_specifier _ _ _ _ _ layout [] specifier ?_ (tokens_ne_nil_of_isDefault hdefault)
    rw [hclause]
    exact List.mem_cons_self
  refine layout.preservedClause_of_removed layout.fromKeyword.gap (.defaultOnly specifier) hchunks
    (layout.suggestion_of_range [] (chunksText [comma, opening, last, closing]) (textOf layout.fromKeyword.gap) hchunks
      hsize hrange rfl rfl ?_ ?_)
    (layout.reads_before_boundary hchunks hstops (boundary_gap layout.gap_from hfrom _)) layout.gap_from layout.gap_from
    layout.from_ne_nil hdefault ?_ ?_
  · simp only [Chunk.range, chunksText, List.flatMap_cons, List.flatMap_nil, List.append_nil]
    rfl
  · simp only [Chunk.range, chunksText, List.flatMap_cons, List.flatMap_nil, List.append_nil, List.length_append]
    omega
  · rw [hclause, hunused]
    rfl
  · rw [Clause.chunks]
    simp [chunksTokens]

end Layout

end Removal

/-! ### One of several specifiers in braces -/

section Named

variable {scanner : Scanner Token State} {grammar : Grammar Token Stmt} {outer : Option (Chunk Token × Chunk Token)}
  {bindings : Bindings Token} {opening first second comma last closing chunk : Chunk Token}
  {specifiers others : List (Chunk Token × Chunk Token)} {trailing : Option (Chunk Token)} {position index : ℕ}

/-- With or without a default specifier. -/
def Clause.of (outer : Option (Chunk Token × Chunk Token)) (bindings : Bindings Token) : Clause Token :=
  match outer with
  | none => .bindingsOnly bindings
  | some (specifier, comma) => .both specifier comma bindings

def outerChunks : Option (Chunk Token × Chunk Token) → List (Chunk Token)
  | none => []
  | some (specifier, comma) => [specifier, comma]

def outerSpecifiers : Option (Chunk Token × Chunk Token) → List (Chunk Token)
  | none => []
  | some (specifier, _) => [specifier]

theorem chunks_of : (Clause.of outer bindings).chunks = outerChunks outer ++ bindings.chunks := by
  cases outer <;> rfl

theorem specifiers_of : (Clause.of outer bindings).specifiers = outerSpecifiers outer ++ bindings.specifiers := by
  cases outer <;> rfl

theorem wellFormed_bindings (h : (Clause.of outer bindings).WellFormed scanner) : bindings.WellFormed scanner := by
  cases outer with
  | none => exact h
  | some pair => exact h.2.2

theorem wellFormed_of {bindings' : Bindings Token} (h : (Clause.of outer bindings).WellFormed scanner)
    (h' : bindings'.WellFormed scanner) : (Clause.of outer bindings').WellFormed scanner := by
  cases outer with
  | none => exact h'
  | some pair => exact ⟨h.1, h.2.1, h'⟩

/-- All specifiers but the last one, with their commas. -/
def withCommas (specifiers : List (Chunk Token × Chunk Token)) : List (Chunk Token) :=
  specifiers.flatMap fun (specifier, comma) => [specifier, comma]

theorem withCommas_cons : withCommas ((first, comma) :: specifiers) = first :: comma :: withCommas specifiers :=
  rfl

theorem withCommas_append : withCommas (specifiers ++ others) = withCommas specifiers ++ withCommas others :=
  List.flatMap_append

theorem length_specifierRanges : (specifierRanges position specifiers last).length = specifiers.length + 1 := by
  induction specifiers generalizing position with
  | nil => rfl
  | cons pair specifiers ih => rw [specifierRanges, List.length_cons, ih, List.length_cons]

theorem specifierRanges_append : (specifierRanges position (specifiers ++ others) last)[specifiers.length + index]? =
    (specifierRanges (position + (chunksText (withCommas specifiers)).length) others last)[index]? := by
  induction specifiers generalizing position with
  | nil =>
    rw [List.nil_append, List.length_nil, Nat.zero_add]
    rfl
  | cons pair specifiers ih =>
    obtain ⟨specifier, comma⟩ := pair
    have hindex : (((specifier, comma) :: specifiers).length + index) = (specifiers.length + index) + 1 := by
      rw [List.length_cons]
      omega
    rw [List.cons_append, specifierRanges, hindex, List.getElem?_cons_succ, ih, withCommas_cons, chunksText_cons,
      chunksText_cons, List.length_append, List.length_append]
    congr 2
    omega

/-- For one of several specifiers in braces, the range depends on the neighbours only. -/
theorem getRange_named (hne : specifiers ≠ []) :
    getRange position ((outerSpecifiers outer).length + index)
        (.of outer (.named opening specifiers last trailing closing)) =
      (Bindings.named opening specifiers last trailing closing).getRange none
        (position + (chunksText (outerChunks outer)).length) index := by
  have hlength (start : ℕ) : (specifierRanges start specifiers last).length ≠ 1 := by
    have hpos := List.length_pos_of_ne_nil hne
    rw [length_specifierRanges]
    omega
  cases outer with
  | none =>
    change getRange position (0 + index) (.bindingsOnly _) = _
    rw [Nat.zero_add]
    rfl
  | some pair =>
    obtain ⟨specifier, comma⟩ := pair
    have hposition : position + (chunksText (outerChunks (some (specifier, comma)))).length =
        position + specifier.text.length + comma.text.length := by
      rw [outerChunks, chunksText_cons, chunksText_cons, List.length_append, List.length_append]
      exact (Nat.add_assoc _ _ _).symm
    have hindex : (outerSpecifiers (some (specifier, comma))).length + index = index + 1 := Nat.add_comm _ _
    rw [hindex, hposition, Clause.of, getRange, Bindings.getRange, Bindings.getRange, if_neg (hlength _),
      if_neg (hlength _)]

theorem boundary_of_reads {s s' : State} {input left : Text} {token : Token} {newline : Bool}
    {tokens : List (Token × Bool)} {c : Char} (hraw : scanner.isRaw s = false)
    (h : scanner.Reads s input ((token, newline) :: tokens) s' left) (htext : scanner.text token = [c])
    (hc : c ∈ ['\x7d', ')', '|', '&', ',']) : Boundary input := by
  cases h with
  | cons hinput hskip hscan hreads =>
    rw [hraw, skipFrom, if_neg Bool.false_ne_true, htext] at hskip
    rcases boundary_of_skip hskip with heq | hboundary
    · rw [heq]
      exact Or.inr (Or.inr (Or.inl hc))
    · exact hboundary

namespace Layout

variable (layout : Layout scanner grammar)

theorem reads_opening {text text' : Text} (hopening : opening.IsPunctuator scanner '\x7b')
    (h : scanner.Reads layout.inside (opening.text ++ text) opening.tokens layout.inside text) :
    scanner.Reads layout.inside (opening.text ++ text') opening.tokens layout.inside text' := by
  obtain ⟨-, token, newline, htokens, htext⟩ := hopening
  rw [htokens] at h ⊢
  obtain ⟨gap, between, state, hinput, hskip, hscan, hreads⟩ := h.cons_inv
  obtain rfl := hreads.before_eq_nil_iff.mpr rfl
  cases hreads
  rw [List.append_nil] at hinput
  have hslash : scanner.text token ++ [] ≠ ['/'] := by
    rw [htext]
    decide
  have hskip' := @Scanner.skipFrom_token _ _ scanner gap text text' token newline (scanner.isRaw layout.inside) [] hslash
  rw [List.append_nil, ← hinput] at hskip'
  exact .of_scan (hskip' hskip) (layout.scan_opening htext hscan) .nil

theorem outer_ne_slash (hclause : layout.clause = .of outer bindings) : ∀ last ∈ (statementsTokens layout.statements ++
    (layout.keyword.tokens ++ chunksTokens (outerChunks outer))).getLast?, scanner.text last.1 ≠ ['/'] := by
  intro last hlast
  rw [getLast?_tokens] at hlast
  cases outer with
  | none =>
    change last ∈ (layout.keyword.tokens ++ []).getLast? at hlast
    rw [List.append_nil] at hlast
    exact scanner.text_ne_slash (layout.stops layout.keyword List.mem_cons_self last hlast)
  | some pair =>
    obtain ⟨specifier, comma⟩ := pair
    have hwellFormed := layout.wellFormed
    rw [hclause] at hwellFormed
    obtain ⟨-, ⟨-, token, newline, htokens, htext⟩, -⟩ := hwellFormed
    have hconcat : layout.keyword.tokens ++ chunksTokens (outerChunks (some (specifier, comma))) =
        (layout.keyword.tokens ++ specifier.tokens) ++ [(token, newline)] := by
      rw [outerChunks, chunksTokens_cons, chunksTokens_cons, htokens]
      simp [chunksTokens]
    rw [hconcat, List.getLast?_concat] at hlast
    cases hlast
    rw [htext]
    decide

theorem reads_before_opening {behind : List (Chunk Token)} (hclause : layout.clause = .of outer bindings)
    (hchunks : layout.clause.chunks ++ [layout.fromKeyword] = (outerChunks outer ++ [opening]) ++ behind)
    (hopening : opening.IsPunctuator scanner '\x7b') (text : Text) :
    scanner.Reads layout.between ((statementsText layout.statements ++ (layout.keyword.text ++
        chunksText (outerChunks outer ++ [opening]))) ++ text)
      (statementsTokens layout.statements ++ (layout.keyword.tokens ++ chunksTokens (outerChunks outer ++ [opening])))
      layout.inside text := by
  have hreads := layout.reads_chunks
  have hchunks' : layout.clause.chunks ++ [layout.fromKeyword] = outerChunks outer ++ ([opening] ++ behind) := by
    rw [hchunks, List.append_assoc]
  rw [hchunks', readsChunks_append] at hreads
  have hopeningReads : scanner.Reads layout.inside (opening.text ++ (chunksText behind ++ (layout.source.text ++
      layout.after))) opening.tokens layout.inside (chunksText behind ++ (layout.source.text ++ layout.after)) := hreads.2.1
  have hchanged := @reads_opening _ _ _ _ _ _ layout _ text hopening hopeningReads
  have hbefore := layout.reads_before hchunks'
  have htext : chunksText ([opening] ++ behind) ++ (layout.source.text ++ layout.after) =
      opening.text ++ (chunksText behind ++ (layout.source.text ++ layout.after)) := by
    rw [List.singleton_append, chunksText_cons, List.append_assoc]
  rw [htext] at hbefore
  have hslash : ∀ last ∈ opening.tokens.getLast?, scanner.text last.1 ≠ ['/'] := by
    obtain ⟨-, token, newline, htokens, htoken⟩ := hopening
    intro last hlast
    rw [htokens] at hlast
    cases hlast
    change scanner.text token ≠ ['/']
    rw [htoken]
    decide
  have hnext := hbefore.change_next (layout.outer_ne_slash hclause) (tokens_ne_nil_of_isPunctuator hopening) hslash
    hopeningReads hchanged
  have hall := hnext.append hchanged
  rw [chunksText_append, chunksTokens_append, chunksText_cons, chunksTokens_cons]
  simpa [chunksText, chunksTokens] using hall

theorem preservedClause_first
    (hclause : layout.clause = .of outer (.named opening ((first, comma) :: specifiers) last trailing closing))
    (hunused : layout.unused = (outerSpecifiers outer).length) : layout.PreservedClause := by
  have hwellFormed := layout.wellFormed
  rw [hclause] at hwellFormed
  obtain ⟨hopening, hspecifiers, hlast, htrailing, hclosing⟩ := wellFormed_bindings hwellFormed
  rw [List.forall_mem_cons] at hspecifiers
  obtain ⟨next, rest, hnext, hrange, hgap, hne⟩ : ∃ next rest, withCommas specifiers ++ (last :: (trailing.toList ++
      [closing])) = next :: rest ∧ (∀ start, (specifierRanges start specifiers last)[0]? = some (next.range start)) ∧
        IsGap next.gap ∧ next.tokens ≠ [] := by
    cases specifiers with
    | nil => exact ⟨_, _, rfl, fun _ => rfl, hlast.1, hlast.2.1⟩
    | cons pair specifiers =>
      obtain ⟨specifier, comma'⟩ := pair
      have hpair := (hspecifiers.2 _ List.mem_cons_self).1
      exact ⟨_, _, rfl, fun _ => rfl, hpair.1, hpair.2.1⟩
  have hchunks : layout.clause.chunks ++ [layout.fromKeyword] =
      (outerChunks outer ++ [opening]) ++ ([first, comma] ++ next :: (rest ++ [layout.fromKeyword])) := by
    have hbindings : (Bindings.named opening ((first, comma) :: specifiers) last trailing closing).chunks =
        opening :: first :: comma :: next :: rest := congrArg (fun chunks => opening :: first :: comma :: chunks) hnext
    rw [hclause, chunks_of, hbindings]
    simp
  have hsize : layout.clause.specifiers.length ≠ 1 := by
    rw [hclause, specifiers_of, Bindings.specifiers]
    simp only [List.length_append, List.length_map, List.length_cons]
    omega
  have hrange : getRange layout.position layout.unused layout.clause =
      some ((first.range (layout.position + (chunksText (outerChunks outer)).length + opening.text.length)).1,
        (next.range (layout.position + (chunksText (outerChunks outer)).length + opening.text.length +
          first.text.length + comma.text.length)).1) := by
    have hindex : layout.unused = (outerSpecifiers outer).length + 0 := hunused
    rw [hclause, hindex, getRange_named (List.cons_ne_nil _ _), Bindings.getRange, if_neg (by simp [length_specifierRanges]),
      if_pos rfl, specifierRanges]
    simp [hrange]
  refine layout.preservedClause_of_removed first.gap (.of outer (.named opening specifiers last trailing closing)) hchunks
    (layout.suggestion_of_range (textOf first.gap) (first.word ++ (comma.text ++ textOf next.gap)) [] hchunks hsize
      hrange ?_ (List.append_nil _).symm ?_ ?_)
    (layout.reads_before_opening hclause hchunks hopening _) hspecifiers.1.1.1 hgap hne
    (wellFormed_of hwellFormed ⟨hopening, hspecifiers.2, hlast, htrailing, hclosing⟩) ?_ ?_
  · simp [chunksText, Chunk.text]
  · rw [chunksText_append, chunksText_cons, List.length_append, List.length_append, Chunk.range]
    simp only [chunksText, List.flatMap_nil, List.length_nil]
    omega
  · simp only [Chunk.range, Chunk.text, List.length_append]
    omega
  · rw [hclause, hunused]
    simp [Clause.locals, specifiers_of, Bindings.specifiers, List.eraseIdx_append]
  · have hbindings : (Bindings.named opening specifiers last trailing closing).chunks = opening :: next :: rest :=
      congrArg (fun chunks => opening :: chunks) hnext
    rw [chunks_of, hbindings]
    simp [chunksTokens]

/-- The chunk behind a later specifier, and the bindings without it. -/
theorem exists_without (hwellFormed :
    (Bindings.named opening (specifiers ++ (first, comma) :: others) last trailing closing).WellFormed scanner) :
    ∃ (unused chunk : Chunk Token) (chunks : List (Chunk Token)) (bindings' : Bindings Token),
      (Bindings.named opening (specifiers ++ (first, comma) :: others) last trailing closing).chunks =
        opening :: (withCommas specifiers ++ (first :: comma :: unused :: chunk :: chunks)) ∧
      bindings'.chunks = opening :: (withCommas specifiers ++ (first :: chunk :: chunks)) ∧
      (∀ start, (specifierRanges start ((first, comma) :: others) last)[1]? =
        some (unused.range (start + first.text.length + comma.text.length))) ∧
      (chunk.IsPunctuator scanner ',' ∨ chunk.IsPunctuator scanner '\x7d') ∧ bindings'.WellFormed scanner ∧
      bindings'.specifiers = (Bindings.named opening (specifiers ++ (first, comma) :: others) last trailing
        closing).specifiers.eraseIdx (specifiers.length + 1) := by
  obtain ⟨hopening, hspecifiers, hlast, htrailing, hclosing⟩ := hwellFormed
  have hchunks (specifiers : List (Chunk Token × Chunk Token)) (last : Chunk Token) :
      (Bindings.named opening specifiers last trailing closing).chunks =
        opening :: (withCommas specifiers ++ (last :: (trailing.toList ++ [closing]))) := rfl
  cases others with
  | nil =>
    obtain ⟨chunk, chunks, hbehind, hpunctuator⟩ : ∃ chunk chunks, trailing.toList ++ [closing] = chunk :: chunks ∧
        (chunk.IsPunctuator scanner ',' ∨ chunk.IsPunctuator scanner '\x7d') := by
      cases trailing with
      | none => exact ⟨_, _, rfl, Or.inr hclosing⟩
      | some trailing => exact ⟨_, _, rfl, Or.inl (htrailing trailing rfl)⟩
    have hfirst := hspecifiers (first, comma) (List.mem_append_right _ List.mem_cons_self)
    refine ⟨last, chunk, chunks, .named opening specifiers first trailing closing, ?_, ?_, fun _ => rfl, hpunctuator,
      ⟨hopening, fun pair hpair => hspecifiers pair (List.mem_append_left _ hpair), hfirst.1, htrailing, hclosing⟩, ?_⟩
    · rw [hchunks, hbehind, withCommas_append]
      simp [withCommas]
    · rw [hchunks, hbehind]
    · simp only [Bindings.specifiers, List.map_append, List.map_cons, List.map_nil, List.append_assoc]
      rw [List.eraseIdx_append_of_length_le (by simp)]
      simp
  | cons pair others =>
    obtain ⟨second, comma'⟩ := pair
    have hsecond := hspecifiers (second, comma')
      (List.mem_append_right _ (List.mem_cons_of_mem _ List.mem_cons_self))
    have hfirst := hspecifiers (first, comma) (List.mem_append_right _ List.mem_cons_self)
    refine ⟨second, comma', withCommas others ++ (last :: (trailing.toList ++ [closing])),
      .named opening (specifiers ++ (first, comma') :: others) last trailing closing, ?_, ?_, fun _ => rfl,
      Or.inl hsecond.2, ⟨hopening, fun pair hpair => ?_, hlast, htrailing, hclosing⟩, ?_⟩
    · rw [hchunks, withCommas_append]
      simp [withCommas]
    · rw [hchunks, withCommas_append]
      simp [withCommas]
    · rcases List.mem_append.mp hpair with hpair | hpair
      · exact hspecifiers pair (List.mem_append_left _ hpair)
      · rcases List.mem_cons.mp hpair with rfl | hpair
        · exact ⟨hfirst.1, hsecond.2⟩
        · exact hspecifiers pair (List.mem_append_right _ (List.mem_cons_of_mem _ (List.mem_cons_of_mem _ hpair)))
    · simp only [Bindings.specifiers, List.map_append, List.map_cons, List.append_assoc]
      rw [List.eraseIdx_append_of_length_le (by simp)]
      simp

theorem preservedClause_later
    (hclause : layout.clause = .of outer (.named opening (specifiers ++ (first, comma) :: others) last trailing closing))
    (hunused : layout.unused = (outerSpecifiers outer).length + (specifiers.length + 1)) : layout.PreservedClause := by
  have hwellFormed := layout.wellFormed
  rw [hclause] at hwellFormed
  obtain ⟨unused, chunk, chunks, bindings', hchunks, hchunks', hunusedRange, hpunctuator, hbindings', hspecifiers⟩ :=
    exists_without (wellFormed_bindings hwellFormed)
  have hfirst : first.tokens ≠ [] := by
    obtain ⟨-, hall, -⟩ := wellFormed_bindings hwellFormed
    exact (hall (first, comma) (List.mem_append_right _ List.mem_cons_self)).1.2.1
  have hmem : first ∈ layout.clause.specifiers := by
    rw [hclause, specifiers_of, Bindings.specifiers]
    simp
  have hall : layout.clause.chunks ++ [layout.fromKeyword] = ((outerChunks outer ++ opening :: withCommas specifiers) ++
      [first]) ++ ([comma, unused] ++ chunk :: (chunks ++ [layout.fromKeyword])) := by
    rw [hclause, chunks_of, hchunks]
    simp
  have hsize : layout.clause.specifiers.length ≠ 1 := by
    rw [hclause, specifiers_of, Bindings.specifiers]
    simp only [List.length_append, List.length_map, List.length_cons, List.length_nil]
    omega
  have hrange : getRange layout.position layout.unused layout.clause =
      some ((first.range (layout.position + (chunksText (outerChunks outer)).length + opening.text.length +
          (chunksText (withCommas specifiers)).length)).2,
        (unused.range (layout.position + (chunksText (outerChunks outer)).length + opening.text.length +
          (chunksText (withCommas specifiers)).length + first.text.length + comma.text.length)).2) := by
    have hprevious (start : ℕ) : (specifierRanges start (specifiers ++ (first, comma) :: others) last)[specifiers.length]? =
        some (first.range (start + (chunksText (withCommas specifiers)).length)) :=
      @specifierRanges_append _ last specifiers ((first, comma) :: others) start 0
    rw [hclause, hunused, getRange_named (by simp), Bindings.getRange]
    dsimp only
    rw [if_neg (by simp [length_specifierRanges]), if_neg (by omega), Nat.add_sub_cancel, specifierRanges_append,
      hprevious, hunusedRange]
    rfl
  have hpunctuation : Boundary (textOf chunk.gap ++ (chunk.word ++ (chunksText (chunks ++ [layout.fromKeyword]) ++
      (layout.source.text ++ layout.after)))) := by
    have hreads := layout.reads_chunks
    rw [hall, readsChunks_append] at hreads
    have hchunk := hreads.2.2.2.1
    rw [Chunk.text, List.append_assoc] at hchunk
    rcases hpunctuator with ⟨-, token, newline, htokens, htext⟩ | ⟨-, token, newline, htokens, htext⟩
    · rw [htokens] at hchunk
      exact boundary_of_reads layout.isRaw_inside hchunk htext (by decide)
    · rw [htokens] at hchunk
      exact boundary_of_reads layout.isRaw_inside hchunk htext (by decide)
  have hgap : IsGap chunk.gap ∧ chunk.tokens ≠ [] := by
    rcases hpunctuator with hpunctuator | hpunctuator
    · exact ⟨hpunctuator.1, tokens_ne_nil_of_isPunctuator hpunctuator⟩
    · exact ⟨hpunctuator.1, tokens_ne_nil_of_isPunctuator hpunctuator⟩
  refine layout.preservedClause_of_removed chunk.gap (.of outer bindings') hall
    (layout.suggestion_of_range [] (chunksText [comma, unused]) (textOf chunk.gap) hall hsize hrange ?_ rfl ?_ ?_)
    (layout.reads_before_boundary hall (layout.stops_of_specifier hmem hfirst) hpunctuation) hgap.1 hgap.1 hgap.2
    (wellFormed_of hwellFormed hbindings') ?_ ?_
  · simp [chunksText, Chunk.text]
  · simp only [Chunk.range, chunksText, List.flatMap_append, List.flatMap_cons, List.flatMap_nil, List.length_append,
      List.length_nil]
    omega
  · simp only [Chunk.range, chunksText, List.flatMap_cons, List.flatMap_nil, List.length_append, List.length_nil]
    omega
  · rw [hclause, hunused, Clause.locals, Clause.locals, specifiers_of, specifiers_of, hspecifiers, List.eraseIdx_map,
      List.eraseIdx_append_of_length_le (Nat.le_add_right _ _), Nat.add_sub_cancel_left]
  · rw [chunks_of, hchunks']
    simp [chunksTokens]

end Layout

end Named

/-! ### The only specifier in braces -/

section Single

variable {scanner : Scanner Token State} {grammar : Grammar Token Stmt} {clause : Clause Token}
  {specifier comma opening last closing : Chunk Token} {trailing : Option (Chunk Token)} {name : Token}
  {tokens : List Token}

/-- A clause begins with a default specifier, a brace or a star. -/
theorem exists_first_token (h : clause.WellFormed scanner) :
    (∃ name rest, (chunksTokens clause.chunks).map Prod.fst = name :: rest ∧ clause.locals.head? = some (some name) ∧
      (rest = [] ∨ ∃ comma rest', rest = comma :: rest' ∧ scanner.text comma = [','])) ∨
    ∃ token rest, (chunksTokens clause.chunks).map Prod.fst = token :: rest ∧
      (scanner.text token = ['\x7b'] ∨ scanner.text token = ['*']) := by
  cases clause with
  | defaultOnly specifier =>
    obtain ⟨-, token, newline, htokens, -⟩ := h
    refine Or.inl ⟨token, [], ?_, ?_, Or.inl rfl⟩
    · simp [Clause.chunks, chunksTokens, htokens]
    · simp [Clause.locals, Clause.specifiers, Chunk.localName, htokens]
  | bindingsOnly bindings =>
    cases bindings with
    | namespaceSpecifier specifier =>
      obtain ⟨-, star, rest, htokens, htext, -⟩ := h
      refine Or.inr ⟨star.1, rest.map Prod.fst, ?_, Or.inr htext⟩
      simp [Clause.chunks, Bindings.chunks, chunksTokens, htokens]
    | empty opening closing =>
      obtain ⟨⟨-, token, newline, htokens, htext⟩, -⟩ := h
      refine Or.inr ⟨token, closing.tokens.map Prod.fst, ?_, Or.inl htext⟩
      simp [Clause.chunks, Bindings.chunks, chunksTokens, htokens]
    | named opening specifiers last trailing closing =>
      obtain ⟨⟨-, token, newline, htokens, htext⟩, -⟩ := h
      refine Or.inr ⟨token, (chunksTokens (Bindings.named opening specifiers last trailing closing).chunks.tail).map
        Prod.fst, ?_, Or.inl htext⟩
      rw [Clause.chunks, Bindings.chunks, chunksTokens_cons, htokens, List.tail_cons]
      rfl
  | both specifier comma bindings =>
    obtain ⟨⟨-, token, newline, htokens, -⟩, ⟨-, token', newline', htokens', htext'⟩, -⟩ := h
    refine Or.inl ⟨token, token' :: (chunksTokens bindings.chunks).map Prod.fst, ?_, ?_, Or.inr ⟨_, _, rfl, htext'⟩⟩
    · simp [Clause.chunks, chunksTokens, htokens, htokens']
    · simp [Clause.locals, Clause.specifiers, Chunk.localName, htokens]

theorem not_isName {c : Char} {behind rest : Text} (h : scanner.text name ++ behind = [c] ++ rest)
    (hc : c ∈ ['\x7b', '\x7d', ',', '*']) : ¬ IsName scanner name := by
  intro hname
  obtain ⟨d, others, htext⟩ := List.exists_cons_of_ne_nil (scanner.text_ne_nil name)
  rw [htext] at h
  obtain ⟨rfl, -⟩ := List.cons.inj h
  rw [IsName, htext] at hname
  exact hname d rfl hc

theorem skip_of_reads {s s' : State} {gap text text' : Text} {newline : Bool} (hslash : scanner.text name ≠ ['/'])
    (h : scanner.Reads s ((gap ++ scanner.text name) ++ text) [(name, newline)] s' text) :
    skipFrom (scanner.isRaw s) ((gap ++ scanner.text name) ++ text') = some (newline, scanner.text name ++ text') := by
  obtain ⟨gap', between, state, hinput, hskip, -, hnothing⟩ := h.cons_inv
  obtain rfl := hnothing.before_eq_nil_iff.mpr rfl
  rw [List.append_nil] at hinput
  obtain rfl := List.append_cancel_right hinput
  have hskip' := @Scanner.skipFrom_token Token State scanner gap text text' name newline (scanner.isRaw s) []
  rw [List.append_nil] at hskip'
  exact hskip' hslash hskip

namespace Layout

variable (layout : Layout scanner grammar)

/-- What is read behind the default specifier. -/
theorem reads_behind {text : Text} {tokens : List (Token × Bool)}
    (hclause : layout.clause = .both specifier comma (.named opening [] last trailing closing))
    (h : scanner.Reads layout.between ((statementsText layout.statements ++ (layout.keyword.text ++
        chunksText [specifier])) ++ text) (statementsTokens layout.statements ++ (layout.keyword.tokens ++ tokens))
      layout.between layout.after) :
    scanner.Reads layout.inside (specifier.text ++ text) tokens layout.between layout.after := by
  have hchunks : layout.clause.chunks ++ [layout.fromKeyword] =
      [] ++ (specifier :: comma :: opening :: last :: (trailing.toList ++ [closing, layout.fromKeyword])) := by
    rw [hclause]
    simp [Clause.chunks, Bindings.chunks]
  have hbefore := layout.reads_before hchunks
  have hslash : ∀ last ∈ (statementsTokens layout.statements ++ (layout.keyword.tokens ++ chunksTokens [])).getLast?,
      scanner.text last.1 ≠ ['/'] := by
    intro last hlast
    rw [getLast?_tokens] at hlast
    change last ∈ (layout.keyword.tokens ++ []).getLast? at hlast
    rw [List.append_nil] at hlast
    exact scanner.text_ne_slash (layout.stops layout.keyword List.mem_cons_self last hlast)
  have hassoc : (statementsText layout.statements ++ (layout.keyword.text ++ chunksText [specifier])) ++ text =
      (statementsText layout.statements ++ (layout.keyword.text ++ chunksText ([] : List (Chunk Token)))) ++
        (specifier.text ++ text) := by
    simp [chunksText]
  have htokens : statementsTokens layout.statements ++ (layout.keyword.tokens ++ tokens) =
      (statementsTokens layout.statements ++ (layout.keyword.tokens ++ chunksTokens ([] : List (Chunk Token)))) ++
        tokens := by
    simp [chunksTokens]
  rw [hassoc, htokens] at h
  obtain ⟨state, rest, hfirst, hsecond⟩ := h.split
  obtain ⟨rfl, rfl⟩ := hbefore.align hslash hfirst
  exact hsecond

theorem trailing_eq_none
    (hclause : layout.clause = .both specifier comma (.named opening [] last trailing closing))
    (hunused : layout.unused = 1) (h : layout.PreservedClause) : trailing = none := by
  cases trailing with
  | none => rfl
  | some trailing =>
    have hwellFormed := layout.wellFormed
    rw [hclause] at hwellFormed
    obtain ⟨hdefault, -, -, -, -, -, hclosing⟩ := hwellFormed
    have hsize : layout.clause.specifiers.length ≠ 1 := by
      rw [hclause]
      nofun
    have hchunks : layout.clause.chunks ++ [layout.fromKeyword] =
        [specifier] ++ ([comma, opening, last, trailing] ++ closing :: [layout.fromKeyword]) := by
      rw [hclause]
      rfl
    have hrange : getRange layout.position layout.unused layout.clause =
        some ((specifier.range layout.position).2, (trailing.range (layout.position + specifier.text.length +
          comma.text.length + opening.text.length + last.text.length)).2) := by
      rw [hclause, hunused]
      rfl
    have hgap : textOf closing.gap = [] ++ textOf closing.gap := rfl
    have hsuggestion := layout.suggestion_of_range [] (chunksText [comma, opening, last, trailing])
      (textOf closing.gap) hchunks hsize hrange rfl hgap (by simp [Chunk.range, chunksText])
      (by simp only [Chunk.range, chunksText, List.flatMap_cons, List.flatMap_nil, List.append_nil, List.length_append]; omega)
    obtain ⟨text, clause, tokens, htext, hclauseWellFormed, -, hreads, htokens, -⟩ := h
    rw [hsuggestion] at htext
    cases htext
    have hbehind := layout.reads_behind hclause hreads
    -- the brace is read behind the specifier
    have hall := layout.reads_chunks
    rw [hchunks, readsChunks_append] at hall
    obtain ⟨⟨hspecifier, -⟩, -, -, -, -, hbrace, hfrom, -⟩ := hall
    obtain ⟨-, brace, newline, hbraceTokens, hbraceText⟩ := hclosing
    rw [Chunk.text, List.append_assoc] at hbrace
    have hboundary : Boundary (textOf closing.gap ++ (closing.word ++ (chunksText [layout.fromKeyword] ++
        (layout.source.text ++ layout.after)))) := by
      rw [hbraceTokens] at hbrace
      exact boundary_of_reads layout.isRaw_inside hbrace hbraceText (by decide)
    have hstops : ∀ last ∈ specifier.tokens.getLast?, scanner.Stops last.1 :=
      layout.stops specifier (List.mem_cons_of_mem _ (by rw [hclause]; exact List.mem_cons_self))
    have hfromText : chunksText [layout.fromKeyword] = layout.fromKeyword.text := List.append_nil _
    rw [hfromText] at hbrace hboundary hbehind
    have hactual := (hspecifier.change_boundary hstops hboundary).append
      (hbrace.append (layout.reads_from.append layout.reads_source))
    obtain ⟨rfl, -⟩ := hbehind.unique_of_rest hactual
    obtain ⟨-, name, newlineName, hname, hisName, -⟩ := hdefault
    simp only [hname, hbraceTokens, List.map_append] at htokens
    have hclause' : [name, brace] = (chunksTokens clause.chunks).map Prod.fst :=
      List.append_cancel_right ((List.append_assoc _ _ _).trans htokens)
    rcases exists_first_token hclauseWellFormed with ⟨name', rest, hfirst, -, hrest⟩ | ⟨token, rest, hfirst, htoken⟩
    · rw [hfirst] at hclause'
      obtain ⟨-, rfl⟩ := List.cons.inj hclause'
      rcases hrest with hrest | ⟨comma, rest', hrest, hcomma⟩
      · cases hrest
      · cases hrest
        rw [hbraceText] at hcomma
        exact absurd hcomma (by decide)
    · rw [hfirst] at hclause'
      obtain ⟨rfl, -⟩ := List.cons.inj hclause'
      rcases htoken with htoken | htoken
      · exact absurd hisName (not_isName (congrArg (· ++ []) htoken) (by decide))
      · exact absurd hisName (not_isName (congrArg (· ++ []) htoken) (by decide))

theorem gap_from_ne_nil_of_preservedClause
    (hclause : layout.clause = .both specifier comma (.named opening [] last none closing))
    (hunused : layout.unused = 1) (h : layout.PreservedClause) : layout.fromKeyword.gap ≠ [] := by
  intro hnil
  have hwellFormed := layout.wellFormed
  rw [hclause] at hwellFormed
  obtain ⟨⟨hgap, name, newline, hname, hisName, hword⟩, -⟩ := hwellFormed
  have hsize : layout.clause.specifiers.length ≠ 1 := by
    rw [hclause]
    nofun
  have hchunks : layout.clause.chunks ++ [layout.fromKeyword] =
      [specifier] ++ ([comma, opening, last, closing] ++ layout.fromKeyword :: []) := by
    rw [hclause]
    rfl
  have hrange : getRange layout.position layout.unused layout.clause =
      some ((specifier.range layout.position).2, (closing.range (layout.position + specifier.text.length +
        comma.text.length + opening.text.length + last.text.length)).2) := by
    rw [hclause, hunused]
    rfl
  have hfromGap : textOf layout.fromKeyword.gap = [] ++ textOf layout.fromKeyword.gap := rfl
  have hsuggestion := layout.suggestion_of_range [] (chunksText [comma, opening, last, closing])
    (textOf layout.fromKeyword.gap) hchunks hsize hrange rfl hfromGap (by simp [Chunk.range, chunksText])
    (by simp only [Chunk.range, chunksText, List.flatMap_cons, List.flatMap_nil, List.append_nil, List.length_append]; omega)
  obtain ⟨text, clause, tokens, htext, hclauseWellFormed, hlocals, hreads, htokens, -⟩ := h
  rw [hsuggestion] at htext
  cases htext
  have hbehind := layout.reads_behind hclause hreads
  -- the specifier was read in front of the comma
  have hall := layout.reads_chunks
  rw [hchunks, readsChunks_append] at hall
  obtain ⟨⟨hspecifier, -⟩, -⟩ := hall
  rw [hname, Chunk.text, hword] at hspecifier
  have hslash : scanner.text name ≠ ['/'] := by
    refine scanner.text_ne_slash (layout.stops specifier (List.mem_cons_of_mem _ ?_) (name, newline) ?_)
    · rw [hclause]
      exact List.mem_cons_self
    · rw [hname]
      rfl
  have hskip := @skip_of_reads _ _ _ _ _ _ _ _ (layout.fromKeyword.word ++ (layout.source.text ++ layout.after)) _ hslash
    hspecifier
  have hfromText : textOf layout.fromKeyword.gap ++ (layout.fromKeyword.word ++ (chunksText ([] : List (Chunk Token)) ++
      (layout.source.text ++ layout.after))) = layout.fromKeyword.word ++ (layout.source.text ++ layout.after) := by
    rw [hnil]
    rfl
  rw [hfromText] at hbehind
  have hlocal : clause.locals.head? = some (some name) := by
    rw [hlocals, hclause, hunused]
    simp [Clause.locals, Clause.specifiers, Chunk.localName, hname]
  have hfirst : ∃ token rest, tokens.map Prod.fst = token :: rest ∧
      (token = name ∨ scanner.text token = ['\x7b'] ∨ scanner.text token = ['*']) := by
    rw [htokens, List.map_append]
    rcases exists_first_token hclauseWellFormed with ⟨name', rest, hfirst, hhead, -⟩ | ⟨token, rest, hfirst, htoken⟩
    · rw [hlocal] at hhead
      rw [hfirst]
      exact ⟨name', _, rfl, Or.inl (Option.some.inj (Option.some.inj hhead)).symm⟩
    · rw [hfirst]
      exact ⟨token, _, rfl, Or.inr htoken⟩
  obtain ⟨token, rest, hfirst, htoken⟩ := hfirst
  obtain ⟨⟨token', newline'⟩, tokens', rfl, hcons, -⟩ := List.map_eq_cons_iff.mp hfirst
  obtain rfl : token' = token := hcons
  rw [Chunk.text, hword] at hbehind
  cases hbehind with
  | cons hinput' hskipBehind hscanBehind hreadsBehind =>
    rw [hskip] at hskipBehind
    have hsame := (Prod.mk.inj (Option.some.inj hskipBehind)).2
    rcases htoken with rfl | htoken | htoken
    · obtain rfl := List.append_cancel_left hsame
      exact layout.scan_words _ _ _ hclause (token', newline) (by rw [hname]; exact List.mem_cons_self) _ _ hscanBehind
    · rw [htoken] at hsame
      exact not_isName hsame (by decide) hisName
    · rw [htoken] at hsame
      exact not_isName hsame (by decide) hisName

/-- There are several specifiers in braces. -/
theorem preservedClause_named {outer : Option (Chunk Token × Chunk Token)}
    {specifiers : List (Chunk Token × Chunk Token)} {index : ℕ}
    (hclause : layout.clause = .of outer (.named opening specifiers last trailing closing)) (hne : specifiers ≠ [])
    (hunused : layout.unused = (outerSpecifiers outer).length + index) : layout.PreservedClause := by
  have hlt := layout.unused_lt
  rw [hclause, hunused, specifiers_of, Bindings.specifiers] at hlt
  simp only [List.length_append, List.length_map, List.length_cons, List.length_nil] at hlt
  cases index with
  | zero =>
    obtain ⟨⟨first, comma⟩, others, rfl⟩ := List.exists_cons_of_ne_nil hne
    exact layout.preservedClause_first hclause hunused
  | succ index =>
    have hindex : index < specifiers.length := by omega
    have hsplit : specifiers = specifiers.take index ++ specifiers[index] :: specifiers.drop (index + 1) := by
      rw [List.getElem_cons_drop, List.take_append_drop]
    have hlength : (specifiers.take index).length = index := List.length_take_of_le hindex.le
    obtain ⟨first, comma⟩ := specifiers[index]
    rw [hsplit] at hclause
    refine layout.preservedClause_later hclause ?_
    rw [hunused, hlength]

/-- One specifier is removed and nothing else, unless it is the only one in braces behind a default specifier. -/
theorem preservedClause_iff (hsize : layout.clause.specifiers.length ≠ 1) :
    layout.PreservedClause ↔ layout.ClauseCloses := by
  have hlt := layout.unused_lt
  rw [ClauseCloses]
  cases hclause : layout.clause with
  | defaultOnly specifier =>
    rw [hclause] at hsize
    exact absurd rfl hsize
  | bindingsOnly bindings =>
    cases bindings with
    | namespaceSpecifier specifier =>
      rw [hclause] at hsize
      exact absurd rfl hsize
    | empty opening closing =>
      rw [hclause] at hlt
      cases hlt
    | named opening specifiers last trailing closing =>
      have hne : specifiers ≠ [] := by
        rintro rfl
        rw [hclause] at hsize
        exact hsize rfl
      have hof : layout.clause = .of none (.named opening specifiers last trailing closing) := hclause
      have hpreserved := layout.preservedClause_named hof hne (Nat.zero_add layout.unused).symm
      exact ⟨fun _ => trivial, fun _ => hpreserved⟩
  | both specifier comma bindings =>
    cases hunused : layout.unused with
    | zero =>
      refine ⟨fun _ => ?_, fun _ => layout.preservedClause_default hclause hunused hsize⟩
      split
      next h => cases h
      next => trivial
    | succ index =>
      rw [hclause, hunused] at hlt
      cases bindings with
      | namespaceSpecifier other =>
        obtain rfl : index = 0 := by
          change index + 1 < 2 at hlt
          omega
        exact ⟨fun _ => trivial, fun _ => layout.preservedClause_namespace hclause hunused⟩
      | empty opening closing =>
        change index + 1 < 1 at hlt
        omega
      | named opening specifiers last trailing closing =>
        cases specifiers with
        | nil =>
          obtain rfl : index = 0 := by
            change index + 1 < 2 at hlt
            omega
          constructor
          · intro h
            obtain rfl := layout.trailing_eq_none hclause hunused h
            exact ⟨rfl, layout.gap_from_ne_nil_of_preservedClause hclause hunused h⟩
          · rintro ⟨rfl, hfrom⟩
            exact layout.preservedClause_single hclause hunused hfrom
        | cons pair specifiers =>
          have hof : layout.clause = .of (some (specifier, comma)) (.named opening (pair :: specifiers) last trailing
            closing) := hclause
          have hpreserved := layout.preservedClause_named hof (List.cons_ne_nil _ _)
            (hunused.trans (Nat.add_comm index 1))
          exact ⟨fun _ => trivial, fun _ => hpreserved⟩

end Layout

end Single

/-! ### The whole declaration -/

section Whole

variable {scanner : Scanner Token State} {grammar : Grammar Token Stmt} {between : State} {after : Text}
  {statements others : List (Statement Token Stmt)} {last : Statement Token Stmt} {afterTokens : List (Token × Bool)}

theorem statementsText_append :
    statementsText (statements ++ others) = statementsText statements ++ statementsText others :=
  List.flatMap_append

theorem statementsTokens_append :
    statementsTokens (statements ++ others) = statementsTokens statements ++ statementsTokens others :=
  List.flatMap_append

theorem readsStatements_append : ReadsStatements scanner between after (statements ++ others) ↔
    ReadsStatements scanner between (statementsText others ++ after) statements ∧
      ReadsStatements scanner between after others := by
  induction statements with
  | nil => exact ⟨fun h => ⟨trivial, h⟩, fun h => h.2⟩
  | cons statement statements ih =>
    rw [List.cons_append, ReadsStatements, ReadsStatements, ih, statementsText_append, List.append_assoc]
    exact and_assoc.symm

theorem parsesStatements_append : ParsesStatements grammar afterTokens (statements ++ others) ↔
    ParsesStatements grammar (statementsTokens others ++ afterTokens) statements ∧
      ParsesStatements grammar afterTokens others := by
  induction statements with
  | nil => exact ⟨fun h => ⟨trivial, h⟩, fun h => h.2⟩
  | cons statement statements ih =>
    rw [List.cons_append, ParsesStatements, ParsesStatements, ih, statementsTokens_append, List.append_assoc]
    exact and_assoc.symm

namespace Layout

variable (layout : Layout scanner grammar)

theorem suggestion_whole (hsize : layout.clause.specifiers.length = 1) :
    layout.suggestion = some (statementsText layout.statements ++ (layout.kept ++ layout.after)) := by
  obtain ⟨others, hothers⟩ := @upToComment_isPrefix layout.keyword.gap
  have hgap : textOf layout.keyword.gap = layout.kept ++ textOf others := by
    rw [kept, ← textOf_append, hothers]
  have htext : layout.sourceText = (statementsText layout.statements ++ layout.kept) ++
      ((textOf others ++ (layout.keyword.word ++ (chunksText layout.clause.chunks ++
        (layout.fromKeyword.text ++ layout.source.text)))) ++ layout.after) := by
    rw [sourceText, declaration, Chunk.text, hgap]
    simp only [List.append_assoc]
  rw [suggestion, if_pos hsize]
  dsimp only
  rw [removeRange_eq htext, List.append_assoc]
  · rw [previousEnd_eq, List.length_append]
    rfl
  · rw [previousEnd_eq, declaration, Chunk.text, hgap, kept]
    simp only [List.length_append]
    omega

theorem skip_kept : (skip .code false (layout.kept ++ layout.after)).map Prod.snd = some layout.body ↔
    (endsWithLineComment layout.keyword.gap →
      (skip .lineComment false layout.after).map Prod.snd = (skip .code false layout.after).map Prod.snd) := by
  obtain ⟨newline, hskip⟩ := @skip_textOf false layout.after _
    (wellFormed_of_isPrefix layout.wellFormed_gap upToComment_isPrefix)
  have hmode : (skip .code false (layout.kept ++ layout.after)).map Prod.snd =
      (skip (if endsWithLineComment layout.keyword.gap then .lineComment else .code) false layout.after).map
        Prod.snd := by
    rw [kept, hskip, modeAfter_upToComment]
    exact skip_newline
  have hafter : (skip .code false layout.after).map Prod.snd = some layout.body := by
    rw [layout.skip_after]
    rfl
  rw [hmode, ← hafter]
  split_ifs with hline
  · exact ⟨fun h _ => h, fun h => h hline⟩
  · exact ⟨fun _ h => absurd h hline, fun _ => rfl⟩

/-- The statements in front end where they ended, if the last one does. -/
theorem reads_statements_iff {statements : List (Statement Token Stmt)} {text input : Text}
    (hstatements : layout.statements = statements ++ [last]) :
    scanner.Reads layout.between (statementsText layout.statements ++ text) (statementsTokens layout.statements)
        layout.between input ↔
      scanner.Reads layout.between (last.text ++ text) last.tokens layout.between text ∧ input = text := by
  have hreads := layout.reads_statements
  rw [hstatements, readsStatements_append] at hreads
  obtain ⟨hbefore, hlast, -⟩ := hreads
  have hbefore := hbefore.reads
  have hstops (statement : Statement Token Stmt) (hmem : statement ∈ layout.statements) :
      ∀ token ∈ statement.tokens.getLast?, scanner.text token.1 ≠ ['/'] := fun token htoken =>
    scanner.text_ne_slash ((layout.stops_statements statement hmem).2 token htoken)
  have hslash : ∀ token ∈ (statementsTokens statements).getLast?, scanner.text token.1 ≠ ['/'] := by
    rcases List.eq_nil_or_concat statements with rfl | ⟨initial, statement, rfl⟩
    · nofun
    · rw [List.concat_eq_append] at hstatements ⊢
      have hmem : statement ∈ layout.statements := by
        rw [hstatements]
        simp
      have hne := (layout.stops_statements statement hmem).1
      rw [statementsTokens_append, statementsTokens_cons, List.getLast?_append,
        show statement.tokens ++ statementsTokens [] = statement.tokens from List.append_nil _,
        List.getLast?_eq_some_getLast hne, Option.some_or, ← List.getLast?_eq_some_getLast hne]
      exact hstops statement hmem
  have hmem : last ∈ layout.statements := by
    rw [hstatements]
    simp
  have hlastText : statementsText [last] = last.text := List.append_nil _
  have hlastTokens : statementsTokens [last] = last.tokens := List.append_nil _
  rw [hlastText] at hbefore
  rw [hstatements, statementsText_append, statementsTokens_append, hlastText, hlastTokens, List.append_assoc]
  constructor
  · intro h
    obtain ⟨state, rest, hfirst, hsecond⟩ := h.split
    obtain ⟨rfl, rfl⟩ := hbefore.align hslash hfirst
    obtain ⟨-, rfl⟩ := hlast.align (hstops last hmem) hsecond
    exact ⟨hsecond, rfl⟩
  · rintro ⟨h, rfl⟩
    have hne := (layout.stops_statements last hmem).1
    exact (hbefore.change_next hslash hne (hstops last hmem) hlast h).append h

theorem parses_statements_iff {statements : List (Statement Token Stmt)} {tokens : List (Token × Bool)}
    (hstatements : layout.statements = statements ++ [last]) :
    ParsesStatements grammar tokens layout.statements ↔
      grammar.statement (last.tokens ++ tokens) = some (last.stmt, tokens) := by
  have hmem : last ∈ layout.statements := by
    rw [hstatements]
    simp
  obtain ⟨first, others, hcons⟩ := List.exists_cons_of_ne_nil (layout.stops_statements last hmem).1
  have hparses := layout.parses_statements
  have hlastTokens : statementsTokens [last] = last.tokens := List.append_nil _
  rw [hstatements, parsesStatements_append, hlastTokens, hcons] at hparses ⊢
  constructor
  · rintro ⟨-, h, -⟩
    rw [hcons] at h
    exact h
  · intro h
    refine ⟨parsesStatements_next hparses.1, ?_, trivial⟩
    rw [hcons]
    exact h

theorem preservedStatements_iff (hsize : layout.clause.specifiers.length = 1) :
    layout.PreservedStatements ↔ layout.StatementsJoin := by
  have hsuggestion := layout.suggestion_whole hsize
  rw [StatementsJoin, ← skip_kept]
  constructor
  · rintro ⟨text, input, newline, htext, hreads, hskip, hparses, -⟩
    rw [hsuggestion] at htext
    cases htext
    rcases List.eq_nil_or_concat layout.statements with hnil | ⟨statements, last, hconcat⟩
    · rw [hnil] at hreads ⊢
      cases hreads
      refine ⟨?_, nofun⟩
      rw [statementsText, List.flatMap_nil, List.nil_append] at hskip
      rw [hskip]
      rfl
    · rw [List.concat_eq_append] at hconcat
      obtain ⟨hjoin, rfl⟩ := (layout.reads_statements_iff hconcat).mp hreads
      refine ⟨by rw [hskip]; rfl, fun other hother => ?_⟩
      obtain rfl : last = other := by
        rw [hconcat, List.getLast?_concat] at hother
        exact Option.some.inj hother
      refine ⟨hjoin, fun newline' hnewline => ?_⟩
      rw [hskip] at hnewline
      obtain rfl : newline = newline' := Option.some.inj hnewline
      exact (layout.parses_statements_iff hconcat).mp hparses
  · rintro ⟨hskip, hjoins⟩
    obtain ⟨⟨newline, body⟩, hskip, rfl⟩ := Option.map_eq_some_iff.mp hskip
    refine ⟨_, layout.kept ++ layout.after, newline, hsuggestion, ?_, hskip, ?_, parses_setNewline layout.parses_rest⟩
    all_goals rcases List.eq_nil_or_concat layout.statements with hnil | ⟨statements, last, hconcat⟩
    · rw [hnil]
      exact .nil
    · rw [List.concat_eq_append] at hconcat
      obtain ⟨hjoin, -⟩ := hjoins last (by rw [hconcat, List.getLast?_concat]; rfl)
      exact (layout.reads_statements_iff hconcat).mpr ⟨hjoin, rfl⟩
    · rw [hnil]
      trivial
    · rw [List.concat_eq_append] at hconcat
      obtain ⟨-, hparses⟩ := hjoins last (by rw [hconcat, List.getLast?_concat]; rfl)
      exact (layout.parses_statements_iff hconcat).mpr (hparses newline (by rw [hskip]; rfl))

end Layout

end Whole

/-- The suggestion removes the unused name from the import and leaves the other statements as they are. -/
theorem Layout.import_preserved_iff {scanner : Scanner Token State} {grammar : Grammar Token Stmt}
    (layout : Layout scanner grammar) : layout.Preserved ↔
      if layout.clause.specifiers.length = 1 then layout.StatementsJoin else layout.ClauseCloses := by
  rw [Preserved]
  split_ifs with hsize
  · exact layout.preservedStatements_iff hsize
  · exact layout.preservedClause_iff hsize

/-! ### Statements that end with a semicolon -/

/-- The tokens up to a semicolon. -/
def upToSemicolon : List ((Char × Text) × Bool) → Option (List (Char × Text) × List ((Char × Text) × Bool))
  | [] => none
  | (token, _) :: tokens =>
    if token.1 = ';' then some ([token], tokens)
    else (upToSemicolon tokens).map fun (stmt, rest) => (token :: stmt, rest)

section Semicolon

variable {tokens rest rest' : List ((Char × Text) × Bool)} {stmt : List (Char × Text)}

theorem length_lt_of_upToSemicolon (h : upToSemicolon tokens = some (stmt, rest)) : rest.length < tokens.length := by
  induction tokens generalizing stmt with
  | nil => cases h
  | cons first tokens ih =>
    rw [upToSemicolon] at h
    split_ifs at h with hsemicolon
    · cases h
      exact Nat.lt_succ_self _
    · obtain ⟨⟨stmt', rest'⟩, hrest, heq⟩ := Option.map_eq_some_iff.mp h
      cases heq
      exact (ih hrest).trans (Nat.lt_succ_self _)

theorem upToSemicolon_append (h : upToSemicolon (tokens ++ rest) = some (stmt, rest)) :
    upToSemicolon (tokens ++ rest') = some (stmt, rest') := by
  induction tokens generalizing stmt with
  | nil => exact absurd (length_lt_of_upToSemicolon h) (Nat.lt_irrefl _)
  | cons first tokens ih =>
    rw [List.cons_append, upToSemicolon] at h ⊢
    split_ifs at h ⊢ with hsemicolon
    · obtain ⟨rfl, htokens⟩ := Prod.mk.inj (Option.some.inj h)
      obtain rfl : tokens = [] := List.append_left_eq_self.mp htokens
      rfl
    · obtain ⟨⟨stmt', rest''⟩, hrest, heq⟩ := Option.map_eq_some_iff.mp h
      cases heq
      rw [ih hrest]
      rfl

end Semicolon

def semicolons : Grammar (Char × Text) (List (Char × Text)) where
  statement := upToSemicolon
  statement_next := upToSemicolon_append
  statement_newline := rfl

/-- A word with white space in front of it. -/
def blankChunk (first : Char) (others : Text) : Chunk (Char × Text) :=
  ⟨[.blank ' '], first :: others, [((first, others), false)]⟩

def plainChunk (c : Char) : Chunk (Char × Text) := ⟨[], [c], [((c, []), false)]⟩

theorem isGap_blank : IsGap [.blank ' '] := ⟨⟨rfl, by rintro ⟨⟩, trivial⟩, rfl⟩

theorem isName_words {c : Char} {others : Text} (h : c ∉ ['\x7b', '\x7d', ',', '*']) : IsName words (c, others) := by
  rintro _ ⟨⟩
  exact h

theorem isSpecifier_words {c : Char} {gap : List Piece} (hgap : IsGap gap) (h : c ∉ ['\x7b', '\x7d', ',', '*']) :
    Chunk.IsSpecifier words ⟨gap, [c], [((c, []), false)]⟩ := by
  refine ⟨hgap, List.cons_ne_nil _ _, fun token hmem => ?_⟩
  rw [List.mem_singleton.mp hmem]
  exact isName_words h

theorem isPunctuator_words {c : Char} {gap : List Piece} (hgap : IsGap gap) :
    Chunk.IsPunctuator words c ⟨gap, [c], [((c, []), false)]⟩ := ⟨hgap, _, _, rfl, rfl⟩

/-- `import type { a, b } from x; b;`, where `a` is not used. -/
def typeLayout : Layout words semicolons where
  statements := []
  keyword := ⟨[], "import type".toList, [(('i', "mport".toList), false), (('t', "ype".toList), false)]⟩
  clause := .bindingsOnly (.named (blankChunk '\x7b' []) [(blankChunk 'a' [], plainChunk ',')] (blankChunk 'b' []) none
    (blankChunk '\x7d' []))
  fromKeyword := blankChunk 'f' "rom".toList
  source := ⟨[.blank ' '], "x;".toList, [(('x', []), false), ((';', []), false)]⟩
  after := " b;".toList
  body := "b;".toList
  left := []
  unused := 0
  newline := false
  rest := [(('b', []), false), ((';', []), false)]
  following := [[('b', []), (';', [])]]
  between := ()
  inside := ()
  stop := ()
  wellFormed_gap := trivial
  wellFormed := by
    refine ⟨isPunctuator_words isGap_blank, ?_, isSpecifier_words isGap_blank (by decide), nofun,
      isPunctuator_words isGap_blank⟩
    intro specifier hmem
    rw [List.mem_singleton.mp hmem]
    exact ⟨isSpecifier_words isGap_blank (by decide), isPunctuator_words .nil⟩
  unused_lt := by decide
  keyword_tokens := ⟨_, _, rfl, le_refl 1⟩
  from_token := ⟨_, _, rfl, rfl⟩
  gap_from := isGap_blank
  gap_keyword_ne_nil := nofun
  gap_from_ne_nil := nofun
  reads_statements := trivial
  reads_keyword := .of_scan rfl rfl (.of_scan rfl rfl .nil)
  reads_clause := ⟨.of_scan rfl rfl .nil, .of_scan rfl rfl .nil, .of_scan rfl rfl .nil, .of_scan rfl rfl .nil,
    .of_scan rfl rfl .nil, trivial⟩
  reads_from := .of_scan rfl rfl .nil
  reads_source := .of_scan rfl rfl (.of_scan rfl rfl .nil)
  skip_after := rfl
  reads_body := .of_scan rfl rfl (.of_scan rfl rfl .nil)
  left_end := rfl
  parses_statements := trivial
  parses_rest := .cons rfl .nil
  isRaw_between := isRaw_words ()
  isRaw_inside := isRaw_words ()
  stops := by
    intro chunk hmem last hlast heq
    rcases List.mem_cons.mp hmem with rfl | hmem
    · cases hlast
      cases heq
    · rcases List.mem_cons.mp hmem with rfl | hmem
      · cases hlast
        cases heq
      · rw [List.mem_singleton.mp hmem] at hlast
        cases hlast
        cases heq
  stops_statements := nofun
  scan_opening := by
    rintro ⟨c, others⟩ rest rest' state htext -
    cases htext
    rfl
  scan_words := nofun

theorem import_preserved_iff_type :
    typeLayout.suggestion = some "import type { b } from x; b;".toList ∧ typeLayout.Preserved :=
  ⟨by decide, typeLayout.import_preserved_iff.mpr trivial⟩

/-! ### A comma in front of the closing brace -/

/-- The default name is used, the name in braces is not. -/
def trailingCommaLayout : Layout words semicolons where
  statements := []
  keyword := ⟨[], "import".toList, [(('i', "mport".toList), false)]⟩
  clause := .both (blankChunk 'D' []) (plainChunk ',')
    (.named (blankChunk '\x7b' []) [] (plainChunk 'A') (some (plainChunk ',')) (plainChunk '\x7d'))
  fromKeyword := blankChunk 'f' "rom".toList
  source := ⟨[.blank ' '], "x;".toList, [(('x', []), false), ((';', []), false)]⟩
  after := " D;".toList
  body := "D;".toList
  left := []
  unused := 1
  newline := false
  rest := [(('D', []), false), ((';', []), false)]
  following := [[('D', []), (';', [])]]
  between := ()
  inside := ()
  stop := ()
  wellFormed_gap := trivial
  wellFormed := by
    refine ⟨⟨isGap_blank, _, _, rfl, isName_words (by decide), rfl⟩, isPunctuator_words .nil,
      isPunctuator_words isGap_blank, nofun, isSpecifier_words .nil (by decide), ?_, isPunctuator_words .nil⟩
    rintro _ ⟨⟩
    exact isPunctuator_words .nil
  unused_lt := by decide
  keyword_tokens := ⟨_, [], rfl, Nat.zero_le 1⟩
  from_token := ⟨_, _, rfl, rfl⟩
  gap_from := isGap_blank
  gap_keyword_ne_nil _ _ _ h := by
    cases h
    exact List.cons_ne_nil _ _
  gap_from_ne_nil _ _ _ _ := List.cons_ne_nil _ _
  reads_statements := trivial
  reads_keyword := .of_scan rfl rfl .nil
  reads_clause := ⟨.of_scan rfl rfl .nil, .of_scan rfl rfl .nil, .of_scan rfl rfl .nil, .of_scan rfl rfl .nil,
    .of_scan rfl rfl .nil, .of_scan rfl rfl .nil, trivial⟩
  reads_from := .of_scan rfl rfl .nil
  reads_source := .of_scan rfl rfl (.of_scan rfl rfl .nil)
  skip_after := rfl
  reads_body := .of_scan rfl rfl (.of_scan rfl rfl .nil)
  left_end := rfl
  parses_statements := trivial
  parses_rest := .cons rfl .nil
  isRaw_between := isRaw_words ()
  isRaw_inside := isRaw_words ()
  stops := by
    intro chunk hmem last hlast heq
    rcases List.mem_cons.mp hmem with rfl | hmem
    · cases hlast
      cases heq
    · rcases List.mem_cons.mp hmem with rfl | hmem
      · cases hlast
        cases heq
      · rw [List.mem_singleton.mp hmem] at hlast
        cases hlast
        cases heq
  stops_statements := nofun
  scan_opening := by
    rintro ⟨c, others⟩ rest rest' state htext -
    cases htext
    rfl
  scan_words := by
    rintro _ _ _ ⟨⟩ token hmem rest state h
    rw [List.mem_singleton.mp hmem] at h
    -- the other word is taken as a part of the name
    change some (('D', ("from".toList ++ rest).takeWhile isWord), ("from".toList ++ rest).dropWhile isWord, ()) = _ at h
    obtain ⟨hname, -⟩ := Prod.mk.inj (Option.some.inj h)
    cases (Prod.mk.inj hname).2

theorem trailing_comma_leaves_brace : ¬ ∀ (Token State Stmt : Type) (scanner : Scanner Token State)
    (grammar : Grammar Token Stmt) (layout : Layout scanner grammar), layout.Preserved := by
  intro h
  have hpreserved := h _ _ _ words semicolons trailingCommaLayout
  rw [Layout.Preserved, if_neg (by decide)] at hpreserved
  cases trailingCommaLayout.trailing_eq_none rfl rfl hpreserved

end SonarJavascript.Rules.UnusedImport

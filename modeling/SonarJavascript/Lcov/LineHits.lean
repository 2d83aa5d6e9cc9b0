import SonarJavascript.Lcov.MergedCoverage

/-!
# The hits of a line

What one `DA` line does to the coverage collected so far. A count in a line without a checksum is added, whatever
its sign, in 32 bits; every other line changes nothing: `lineHits_iff`.
-/

namespace SonarJavascript.Lcov

open SumMap

variable {InputFile : Type} (context : Context InputFile)

/-- `DA:<line number>,<execution count>[,<checksum>]` with a line of the current file and a count of 32 bits that
is not negative: the file, the line and the count. -/
def documentedLine (fileData : Option InputFile) (line : Text) : Option (InputFile × ℤ × ℤ) :=
  match fileData, lineRecord context line with
  | some file, some (.line number count _) =>
    if (1 ≤ number ∧ number ≤ context.lines file) ∧ 0 ≤ count ∧ Fits count then some (file, number, count) else none
  | _, _ => none

def FileData.hitsAt (data : FileData) (line : ℤ) : Option ℤ := (data.hits.lookup line).map BitVec.toInt

/-- The count is added to the hits of the line; its branches and all other lines keep what they have. -/
structure AddsHits (data data' : FileData) (number count : ℤ) : Prop where
  line : data'.hitsAt number = some ((data.hitsAt number).getD 0 + count)
  others : ∀ other, other ≠ number → data'.hitsAt other = data.hitsAt other
  branches : data'.branches = data.branches

variable [DecidableEq InputFile]

/-- The coverage that is collected for a file. -/
def ParserState.coverage (state : ParserState InputFile) (file : InputFile) :
    Option ((ℤ → Option ℤ) × List (ℤ × List (Text × BitVec 32))) :=
  (state.files.lookup file).map fun data => (data.hitsAt, data.branches)

/-- What is asked of a `DA` line. -/
def LineHitsExact (state : ParserState InputFile) (line : Text) : Prop :=
  match documentedLine context state.fileData line with
  | some (file, number, count) =>
    (∃ data data', state.files.lookup file = some data ∧
      (parseLine context state line).files.lookup file = some data' ∧ AddsHits data data' number count) ∧
    ∀ other, other ≠ file → (parseLine context state line).coverage other = state.coverage other
  | none => ∀ file, (parseLine context state line).coverage file = state.coverage file

/-- The hits of a line of the current file, 0 if there are none. -/
def ParserState.hitsAt (state : ParserState InputFile) (file : InputFile) (line : ℤ) : Option ℤ :=
  (state.files.lookup file).bind (·.hitsAt line)

/-- A count that is not negative has no checksum, and the sum stays below 2^31; or it is 0 and the line has hits. A
negative count has a checksum. -/
structure RegularLine (state : ParserState InputFile) (file : InputFile) (number count : ℤ) (checksum : Bool) :
    Prop where
  counted : 0 ≤ count → (checksum = false ∧ ((state.hitsAt file number).getD 0) + count < 2 ^ 31) ∨
    (checksum = true ∧ count = 0 ∧ (state.hitsAt file number).isSome)
  negative : count < 0 → checksum = true

variable {context}

omit [DecidableEq InputFile] in
theorem exists_line_of_lineRecord {line : Text} {record : Record} (h : lineRecord context line = some record) :
    ∃ number count checksum, record = .line number count checksum := by
  unfold lineRecord at h
  split at h
  · obtain ⟨number, -, h⟩ := Option.bind_eq_some_iff.mp h
    obtain ⟨count, -, h⟩ := Option.bind_eq_some_iff.mp h
    exact ⟨_, _, _, (Option.some.inj h).symm⟩
  · cases h

section AddLine

variable {data : FileData} {number count : ℤ}

theorem hitsAt_merge : ({ data with hits := merge number (BitVec.ofInt 32 count) data.hits } : FileData).hitsAt number =
    some (((data.hitsAt number).getD 0 + count).bmod (2 ^ 32)) := by
  unfold FileData.hitsAt
  dsimp only
  rw [merge, lookup_upsert_self]
  cases data.hits.lookup number with
  | none => simp
  | some old => simp [BitVec.toInt_add]

theorem hitsAt_merge_of_ne {other : ℤ} (h : other ≠ number) :
    ({ data with hits := merge number (BitVec.ofInt 32 count) data.hits } : FileData).hitsAt other =
      data.hitsAt other := by
  unfold FileData.hitsAt
  dsimp only
  rw [lookup_merge_of_ne h]

variable (data number) in
theorem hitsAt_bounds : -2 ^ 31 ≤ (data.hitsAt number).getD 0 ∧ (data.hitsAt number).getD 0 < 2 ^ 31 := by
  unfold FileData.hitsAt
  cases data.hits.lookup number with
  | none => decide
  | some old => exact ⟨BitVec.le_toInt old, BitVec.toInt_lt⟩

theorem addsHits_merge_iff (h : 0 ≤ count) :
    AddsHits data { data with hits := merge number (BitVec.ofInt 32 count) data.hits } number count ↔
      (data.hitsAt number).getD 0 + count < 2 ^ 31 := by
  obtain ⟨hlow, -⟩ := hitsAt_bounds data number
  constructor
  · intro hadds
    have hsum := hadds.line
    rw [hitsAt_merge, Option.some.injEq] at hsum
    have := Int.bmod_lt (x := (data.hitsAt number).getD 0 + count) (m := 2 ^ 32) (by decide)
    rw [hsum] at this
    simpa using this
  · intro hsum
    refine ⟨?_, fun other hother => hitsAt_merge_of_ne hother, rfl⟩
    rw [hitsAt_merge, Int.bmod_eq_of_le_mul_two (by omega) (by omega)]

theorem hitsAt_merge_ne (hneg : count < 0) (hfits : Fits count) :
    ({ data with hits := merge number (BitVec.ofInt 32 count) data.hits } : FileData).hitsAt number ≠
      data.hitsAt number := by
  rw [hitsAt_merge]
  cases hits : data.hitsAt number with
  | none => nofun
  | some old =>
    rw [Option.getD_some, ne_eq, Option.some.injEq]
    intro heq
    -- the count would be a multiple of 2^32
    have hmultiple := Int.bmod_add_bdiv (old + count) (2 ^ 32)
    rw [heq] at hmultiple
    obtain ⟨hmin, -⟩ := hfits
    push_cast at hmultiple
    omega

end AddLine

theorem addsHits_self_iff {data : FileData} {number count : ℤ} :
    AddsHits data data number count ↔ count = 0 ∧ (data.hitsAt number).isSome := by
  constructor
  · rintro ⟨hline, -, -⟩
    cases hits : data.hitsAt number with
    | none => rw [hits] at hline; cases hline
    | some old =>
      rw [hits, Option.getD_some, Option.some.injEq] at hline
      exact ⟨by omega, rfl⟩
  · rintro ⟨rfl, hsome⟩
    refine ⟨?_, fun _ _ => rfl, rfl⟩
    obtain ⟨old, hold⟩ := Option.isSome_iff_exists.mp hsome
    rw [hold, Option.getD_some, add_zero]

theorem not_SF_of_DA {line : Text} (hda : DA.isPrefixOf line = true) : SF.isPrefixOf line = false := by
  rcases line with _ | ⟨c, line⟩
  · rfl
  · simp only [DA, SF, List.isPrefixOf, Bool.and_eq_true, beq_iff_eq] at hda ⊢
    rw [← hda.1]
    rfl

variable (context) in
theorem parseLine_of_DA {state : ParserState InputFile} {line : Text} {file : InputFile}
    (hda : DA.isPrefixOf line = true) (hfile : state.fileData = some file) :
    parseLine context state line = state.update file fun data => (lineRecord context line).bind (·.add data) := by
  have hsource := not_SF_of_DA hda
  have hparse : parseLineCoverage context line = fun data => (lineRecord context line).bind (·.add data) :=
    funext (parseLineCoverage_eq line)
  unfold parseLine
  rw [hsource, hfile, ← hparse]
  simp only [Bool.false_eq_true, if_false, hda, if_true]

variable {state : ParserState InputFile} {file : InputFile} {data data' : FileData}

theorem coverage_update_none (parse : FileData → Option FileData) (hdata : state.files.lookup file = some data)
    (hparse : parse data = none) : (state.update file parse).files = state.files := by
  unfold ParserState.update
  rw [hdata, Option.bind_some, hparse]

theorem lookup_update (parse : FileData → Option FileData) (hdata : state.files.lookup file = some data)
    (hparse : parse data = some data') : (state.update file parse).files.lookup file = some data' ∧
      ∀ other, other ≠ file → (state.update file parse).files.lookup other = state.files.lookup other := by
  unfold ParserState.update
  rw [hdata, Option.bind_some, hparse]
  exact ⟨lookup_upsert_self, fun _ hother => lookup_upsert_of_ne hother⟩

/-- The record that the line has: the file, the number, the count, and whether there is a checksum. -/
def Reads (context : Context InputFile) (state : ParserState InputFile) (line : Text) (file : InputFile)
    (number count : ℤ) (checksum : Bool) : Prop :=
  state.fileData = some file ∧ lineRecord context line = some (.line number count checksum) ∧
    (1 ≤ number ∧ number ≤ context.lines file) ∧ Fits count

/-- The condition for the record of the line. -/
theorem lineHitsExact_of_reads {line : Text} {number count : ℤ} {checksum : Bool}
    (hda : DA.isPrefixOf line = true) (hdata : state.files.lookup file = some data)
    (hlines : data.linesInFile = context.lines file) (h : Reads context state line file number count checksum) :
    LineHitsExact context state line ↔ RegularLine state file number count checksum := by
  obtain ⟨hfile, hrecord, hwithin, hfits⟩ := h
  have hline := parseLine_of_DA context hda hfile
  have hhits : state.hitsAt file number = data.hitsAt number := by
    rw [ParserState.hitsAt, hdata, Option.bind_some]
  have hdocumented : documentedLine context state.fileData line =
      if 0 ≤ count then some (file, number, count) else none := by
    simp only [documentedLine, hfile, hrecord, hwithin, hfits, and_self, and_true, true_and]
  have hregular : RegularLine state file number count checksum ↔
      (0 ≤ count → (checksum = false ∧ (data.hitsAt number).getD 0 + count < 2 ^ 31) ∨
        (checksum = true ∧ count = 0 ∧ (data.hitsAt number).isSome)) ∧ (count < 0 → checksum = true) := by
    rw [← hhits]
    exact ⟨fun h => ⟨h.counted, h.negative⟩, fun h => ⟨h.1, h.2⟩⟩
  rw [hregular, LineHitsExact, hdocumented, hline]
  cases checksum with
  | true =>
    have hsame := coverage_update_none (fun data => (lineRecord context line).bind (·.add data)) hdata
      (by rw [hrecord]; rfl)
    split_ifs with hcount
    · simp only [ParserState.coverage, hsame, hdata, implies_true, and_true]
      simp [hcount, addsHits_self_iff]
    · simp [ParserState.coverage, hsame, hcount]
  | false =>
    have hadd : (lineRecord context line).bind (·.add data) =
        some { data with hits := merge number (BitVec.ofInt 32 count) data.hits } := by
      rw [hrecord, Option.bind_some, Record.add, if_pos ⟨rfl, hfits⟩, FileData.addLine,
        if_pos (by rw [FileData.checkLine, hlines]; exact hwithin)]
    obtain ⟨hself, hother⟩ := lookup_update (fun data => (lineRecord context line).bind (·.add data)) hdata hadd
    split_ifs with hcount
    · have hrest : ∀ other, other ≠ file →
          (state.update file fun data => (lineRecord context line).bind (·.add data)).coverage other =
            state.coverage other :=
        fun other hne => by rw [ParserState.coverage, ParserState.coverage, hother other hne]
      simp only [hself, hdata, Option.some.injEq, exists_eq_left', exists_and_left, addsHits_merge_iff hcount]
      simpa [hcount] using fun _ => hrest
    · refine iff_of_false (fun h => ?_) fun h => by simpa using h.2 (not_le.mp hcount)
      have hsame := h file
      rw [ParserState.coverage, ParserState.coverage, hself, hdata, Option.map_some, Option.map_some,
        Option.some.injEq, Prod.mk.injEq] at hsame
      exact hitsAt_merge_ne (not_le.mp hcount) hfits (congrFun hsame.1 number)

/-- A line without such a record changes nothing. -/
theorem lineHitsExact_of_not_reads {line : Text} (hda : DA.isPrefixOf line = true)
    (hstate : ∀ file, state.fileData = some file → ∃ data, state.files.lookup file = some data ∧
      data.linesInFile = context.lines file)
    (h : ∀ file number count checksum, ¬ Reads context state line file number count checksum) :
    LineHitsExact context state line := by
  have hdocumented : documentedLine context state.fileData line = none := by
    unfold documentedLine
    split
    · next file number count checksum hfile hrecord =>
      rw [if_neg]
      rintro ⟨hwithin, -, hfits⟩
      exact h file number count checksum ⟨hfile, hrecord, hwithin, hfits⟩
    · rfl
  rw [LineHitsExact, hdocumented]
  suffices hfiles : (parseLine context state line).files = state.files by
    intro file
    rw [ParserState.coverage, ParserState.coverage, hfiles]
  cases hfile : state.fileData with
  | none =>
    unfold parseLine
    rw [not_SF_of_DA hda, hfile]
    rfl
  | some file =>
    obtain ⟨data, hdata, hlines⟩ := hstate file hfile
    rw [parseLine_of_DA _ hda hfile]
    refine coverage_update_none _ hdata ?_
    cases hrecord : lineRecord context line with
    | none => rfl
    | some record =>
      obtain ⟨number, count, checksum, rfl⟩ := exists_line_of_lineRecord hrecord
      have hnot := h file number count checksum
      rw [Option.bind_some, Record.add]
      split_ifs with haccept
      · rw [FileData.addLine, if_neg]
        rw [FileData.checkLine, hlines]
        exact fun hwithin => hnot ⟨hfile, hrecord, hwithin, haccept.2⟩
      · rfl

variable (context) in
/-- **When a `DA` line does what is asked of it**, after any lines. -/
theorem lineHits_iff (before : List Text) (line : Text) (hda : DA.isPrefixOf line = true) :
    LineHitsExact context (parse context before) line ↔
      ∀ file number count checksum, Reads context (parse context before) line file number count checksum →
        RegularLine (parse context before) file number count checksum := by
  have hinv : Inv context _ _ := inv_parse before
  have hstate : ∀ file, (parse context before).fileData = some file → ∃ data,
      (parse context before).files.lookup file = some data ∧ data.linesInFile = context.lines file := by
    intro file hfile
    obtain ⟨data, hdata⟩ := hinv.current file hfile
    exact ⟨data, hdata, (hinv.collected file data hdata).lines⟩
  constructor
  · intro hexact file number count checksum hreads
    obtain ⟨data, hdata, hlines⟩ := hstate file hreads.1
    exact (lineHitsExact_of_reads hda hdata hlines hreads).mp hexact
  · intro h
    by_cases hreads : ∃ file number count checksum,
        Reads context (parse context before) line file number count checksum
    · obtain ⟨file, number, count, checksum, hreads⟩ := hreads
      obtain ⟨data, hdata, hlines⟩ := hstate file hreads.1
      exact (lineHitsExact_of_reads hda hdata hlines hreads).mpr (h file number count checksum hreads)
    · push Not at hreads
      exact lineHitsExact_of_not_reads hda hstate hreads

def daLine (rest : List Char) : Text := DA ++ rest

/-- A count in a line without a checksum. -/
theorem lineHits_iff_plain :
    LineHitsExact oneLine (parse oneLine [['S', 'F', ':', 'a']]) (daLine ['1', ',', '5']) := by
  refine (lineHits_iff oneLine _ _ (by decide)).mpr ?_
  rintro ⟨⟩ number count checksum ⟨-, hrecord, -, -⟩
  have hline : lineRecord oneLine (daLine ['1', ',', '5']) = some (.line 1 5 false) := by decide
  rw [hline, Option.some.injEq, Record.line.injEq] at hrecord
  obtain ⟨rfl, rfl, rfl⟩ := hrecord
  exact ⟨fun _ => .inl ⟨rfl, by decide⟩, fun h => absurd h (by decide)⟩

/-- The five hits of a line with a checksum are lost. -/
theorem checksum_not_added :
    ¬ LineHitsExact oneLine (parse oneLine [['S', 'F', ':', 'a']]) (daLine ['1', ',', '5', ',', 'a']) := by
  intro hexact
  have hdocumented : documentedLine oneLine (parse oneLine [['S', 'F', ':', 'a']]).fileData
      (daLine ['1', ',', '5', ',', 'a']) = some ((), 1, 5) := by decide
  rw [LineHitsExact, hdocumented] at hexact
  obtain ⟨⟨data, data', -, hdata', hadds⟩, -⟩ := hexact
  have hempty : (parseLine oneLine (parse oneLine [['S', 'F', ':', 'a']])
      (daLine ['1', ',', '5', ',', 'a'])).files.lookup () = some ⟨1, [], []⟩ := rfl
  obtain rfl := Option.some.inj (hdata'.symm.trans hempty)
  cases hadds.line

end SonarJavascript.Lcov

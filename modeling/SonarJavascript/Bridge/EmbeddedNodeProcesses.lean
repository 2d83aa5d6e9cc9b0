import Mathlib.Logic.Function.Basic
import SonarJavascript.Bridge.EmbeddedNode
import SonarJavascript.Lib.Runs

/-!
# Processes that deploy into one directory

Each process runs `EmbeddedNode.deploy` once, one file operation after the other, and may stop for good at
any of them; the operating system then releases its lock. Failing with an exception is stopping, since
`finally` releases the lock too.

`version_truthful`: the version file names the runtime in every state of a run in which no process stops
while it writes the runtime over a version file, and none copies a version that it has read before.
-/

namespace SonarJavascript.Bridge

/-- Where a process is, with what is left of its streams. -/
inductive Progress
  | start
  /-- The version file exists. -/
  | reading
  /-- The runtime has to be extracted. -/
  | locking (versionIs : String)
  /-- The process has the lock. -/
  | extracting (versionIs : String)
  /-- The runtime has been truncated, `rest` is still to be written. -/
  | writing (versionIs : String) (rest : List UInt8)
  | releasing
  | finished

inductive Operation
  | checkExists
  | readVersion
  | tryLock
  | truncate
  | write (chunk : List UInt8)
  | replaceVersion
  | unlock
  | stop

structure System (P : Type) where
  dir : DeployDirectory
  lock : Option P
  progress : P → Progress

variable {P : Type} [DecidableEq P]

def System.advance (s : System P) (p : P) (progress : Progress) : System P :=
  { s with progress := Function.update s.progress p progress }

@[simp] theorem System.advance_dir (s : System P) (p : P) (progress : Progress) :
    (s.advance p progress).dir = s.dir := rfl

@[simp] theorem System.advance_lock (s : System P) (p : P) (progress : Progress) :
    (s.advance p progress).lock = s.lock := rfl

@[simp] theorem System.advance_self (s : System P) (p : P) (progress : Progress) :
    (s.advance p progress).progress p = progress := Function.update_self ..

theorem System.advance_of_ne (s : System P) {p q : P} (h : q ≠ p) (progress : Progress) :
    (s.advance p progress).progress q = s.progress q := Function.update_of_ne h ..

/-- All processes before `deploy`. -/
def System.create (dir : DeployDirectory) : System P := ⟨dir, none, fun _ => .start⟩

/-- One file operation of a process. -/
inductive DeployStep (bundle : P → Bundle) : System P → P × Operation → System P → Prop
  | checkExists {s : System P} {p : P} (h : s.progress p = .start) :
      DeployStep bundle s (p, .checkExists)
        (s.advance p (if s.dir.version.isSome then .reading else .locking (bundle p).version))
  | readVersion {s : System P} {p : P} {current : String} (h : s.progress p = .reading)
      (hversion : s.dir.version = some current) :
      DeployStep bundle s (p, .readVersion)
        (s.advance p (if (isDifferent (bundle p).version current).1 then
          .locking (isDifferent (bundle p).version current).2 else .finished))
  | lock {s : System P} {p : P} {versionIs : String} (h : s.progress p = .locking versionIs)
      (hlock : s.lock = none) :
      DeployStep bundle s (p, .tryLock) { s.advance p (.extracting versionIs) with lock := some p }
  | lockTaken {s : System P} {p q : P} {versionIs : String} (h : s.progress p = .locking versionIs)
      (hlock : s.lock = some q) :
      DeployStep bundle s (p, .tryLock) (s.advance p .finished)
  | truncate {s : System P} {p : P} {versionIs : String} (h : s.progress p = .extracting versionIs) :
      DeployStep bundle s (p, .truncate)
        { s.advance p (.writing versionIs (bundle p).binary) with dir := extract [] s.dir }
  | write {s : System P} {p : P} {versionIs : String} {chunk rest : List UInt8}
      (h : s.progress p = .writing versionIs (chunk ++ rest)) :
      DeployStep bundle s (p, .write chunk)
        { s.advance p (.writing versionIs rest) with dir := extract (s.dir.runtime.getD [] ++ chunk) s.dir }
  | replaceVersion {s : System P} {p : P} {versionIs : String} (h : s.progress p = .writing versionIs []) :
      DeployStep bundle s (p, .replaceVersion)
        { s.advance p .releasing with dir := copyVersion versionIs s.dir }
  | unlock {s : System P} {p : P} (h : s.progress p = .releasing) :
      DeployStep bundle s (p, .unlock) { s.advance p .finished with lock := none }
  | stop {s : System P} {p : P} :
      DeployStep bundle s (p, .stop)
        { s.advance p .finished with lock := if s.lock = some p then none else s.lock }

/-! ### The version file -/

def System.Writes (s : System P) (p : P) : Prop := ∃ versionIs rest, s.progress p = .writing versionIs rest

/-- `IsBinaryOf` are the complete runtimes of the versions. The version file names the runtime, or a process
that has the lock is writing it. -/
def Truthful (IsBinaryOf : String → List UInt8 → Prop) (s : System P) : Prop :=
  ∀ version, s.dir.version = some version →
    (∃ binary, s.dir.runtime = some binary ∧ IsBinaryOf version binary) ∨ ∃ p, s.lock = some p ∧ s.Writes p

/-- No process stops while it writes and there is a version file; the version file gets the whole version. -/
def Careful (bundle : P → Bundle) (s : System P) : P × Operation → Prop
  | (p, .stop) => s.Writes p → s.dir.version = none
  | (p, .replaceVersion) => s.progress p = .writing (bundle p).version []
  | _ => True

/-- What the lock protects. -/
def Progress.NeedsLock : Progress → Prop
  | .extracting _ | .writing _ _ | .releasing => True
  | _ => False

structure DeployInv (bundle : P → Bundle) (IsBinaryOf : String → List UInt8 → Prop) (s : System P) : Prop where
  locked : ∀ p, (s.progress p).NeedsLock → s.lock = some p
  written : ∀ p versionIs rest, s.progress p = .writing versionIs rest →
    ∃ written, s.dir.runtime = some written ∧ written ++ rest = (bundle p).binary
  truthful : Truthful IsBinaryOf s

variable {bundle : P → Bundle} {IsBinaryOf : String → List UInt8 → Prop} {s s' : System P} {p q : P}

omit [DecidableEq P] in
theorem System.Writes.needsLock (h : s.Writes p) : (s.progress p).NeedsLock := by
  obtain ⟨versionIs, rest, hprogress⟩ := h
  rw [hprogress]
  trivial

theorem System.writes_advance (h : q ≠ p) (progress : Progress) :
    (s.advance p progress).Writes q ↔ s.Writes q := by
  unfold System.Writes
  rw [s.advance_of_ne h]

namespace DeployInv

omit [DecidableEq P] in
theorem eq_of_lock (h : DeployInv bundle IsBinaryOf s) (hlock : s.lock = some p)
    (hneeds : (s.progress q).NeedsLock) : q = p :=
  Option.some.inj ((h.locked q hneeds).symm.trans hlock)

omit [DecidableEq P] in
theorem complete (h : DeployInv bundle IsBinaryOf s) (hwrites : ∀ q, s.lock = some q → ¬ s.Writes q)
    {version : String} (hversion : s.dir.version = some version) :
    ∃ binary, s.dir.runtime = some binary ∧ IsBinaryOf version binary :=
  (h.truthful version hversion).resolve_right fun ⟨q, hlock, hq⟩ => hwrites q hlock hq

theorem idle (h : DeployInv bundle IsBinaryOf s) (hbefore : ¬ (s.progress p).NeedsLock) {progress : Progress}
    (hafter : ¬ progress.NeedsLock) : DeployInv bundle IsBinaryOf (s.advance p progress) where
  locked q hneeds := by
    obtain rfl | hne := eq_or_ne q p
    · exact absurd hneeds (by simpa using hafter)
    · exact h.locked q (by rwa [s.advance_of_ne hne] at hneeds)
  written q versionIs rest hq := by
    obtain rfl | hne := eq_or_ne q p
    · rw [s.advance_self] at hq
      exact absurd (hq ▸ trivial) hafter
    · exact h.written q versionIs rest (by rwa [s.advance_of_ne hne] at hq)
  truthful version hversion := by
    obtain hcomplete | ⟨q, hlock, hq⟩ := h.truthful version hversion
    · exact .inl hcomplete
    · have hne : q ≠ p := fun heq => hbefore (heq ▸ hq.needsLock)
      exact .inr ⟨q, hlock, (System.writes_advance hne _).mpr hq⟩

theorem lock (h : DeployInv bundle IsBinaryOf s) (hlock : s.lock = none) (versionIs : String) :
    DeployInv bundle IsBinaryOf { s.advance p (.extracting versionIs) with lock := some p } where
  locked q hneeds := by
    obtain rfl | hne := eq_or_ne q p
    · rfl
    · have := h.locked q (by rwa [show _ = s.progress q from s.advance_of_ne hne _] at hneeds)
      exact absurd (hlock.symm.trans this) (by simp)
  written q versionIs' rest hq := by
    obtain rfl | hne := eq_or_ne q p
    · rw [show _ = Progress.extracting versionIs from s.advance_self _ _] at hq
      cases hq
    · exact h.written q versionIs' rest (by rwa [show _ = s.progress q from s.advance_of_ne hne _] at hq)
  truthful version hversion := .inl (h.complete (fun q hq => absurd (hlock.symm.trans hq) (by simp)) hversion)

/-- The holder of the lock has written what is in the runtime. -/
theorem writing (h : DeployInv bundle IsBinaryOf s) (hlock : s.lock = some p) {versionIs : String}
    {written rest : List UInt8} (hbinary : written ++ rest = (bundle p).binary) :
    DeployInv bundle IsBinaryOf
      { s.advance p (.writing versionIs rest) with dir := extract written s.dir } where
  locked q hneeds := by
    obtain rfl | hne := eq_or_ne q p
    · exact hlock
    · exact h.locked q (by rwa [show _ = s.progress q from s.advance_of_ne hne _] at hneeds)
  written q versionIs' rest' hq := by
    obtain rfl | hne := eq_or_ne q p
    · rw [show _ = Progress.writing versionIs rest from s.advance_self _ _] at hq
      cases hq
      exact ⟨written, rfl, hbinary⟩
    · rw [show _ = s.progress q from s.advance_of_ne hne _] at hq
      exact absurd (h.eq_of_lock hlock (hq ▸ trivial)) hne
  truthful _ _ := .inr ⟨p, hlock, versionIs, rest, s.advance_self _ _⟩

/-- The whole runtime has been written, and the whole version is copied. -/
theorem replaceVersion (h : DeployInv bundle IsBinaryOf s)
    (hcomplete : IsBinaryOf (bundle p).version (bundle p).binary)
    (hp : s.progress p = .writing (bundle p).version []) :
    DeployInv bundle IsBinaryOf
      { s.advance p .releasing with dir := copyVersion (bundle p).version s.dir } := by
  have hlock := h.locked p (hp ▸ trivial)
  obtain ⟨written, hruntime, hbinary⟩ := h.written p _ _ hp
  rw [List.append_nil] at hbinary
  refine ⟨fun q hneeds => ?_, fun q versionIs rest hq => ?_, fun version hversion => .inl ⟨written, hruntime, ?_⟩⟩
  · obtain rfl | hne := eq_or_ne q p
    · exact hlock
    · exact h.locked q (by rwa [show _ = s.progress q from s.advance_of_ne hne _] at hneeds)
  · obtain rfl | hne := eq_or_ne q p
    · rw [show _ = Progress.releasing from s.advance_self _ _] at hq
      cases hq
    · rw [show _ = s.progress q from s.advance_of_ne hne _] at hq
      exact absurd (h.eq_of_lock hlock (hq ▸ trivial)) hne
  · obtain rfl : (bundle p).version = version := Option.some.inj hversion
    exact hbinary ▸ hcomplete

theorem release (h : DeployInv bundle IsBinaryOf s) (hstop : s.Writes p → s.dir.version = none) :
    DeployInv bundle IsBinaryOf
      { s.advance p .finished with lock := if s.lock = some p then none else s.lock } where
  locked q hneeds := by
    obtain rfl | hne := eq_or_ne q p
    · rw [show _ = Progress.finished from s.advance_self _ _] at hneeds
      exact absurd hneeds id
    · have hlock := h.locked q (by rwa [show _ = s.progress q from s.advance_of_ne hne _] at hneeds)
      have hother : s.lock ≠ some p := fun hp => hne (Option.some.inj (hlock.symm.trans hp))
      exact (if_neg hother).trans hlock
  written q versionIs rest hq := by
    obtain rfl | hne := eq_or_ne q p
    · rw [show _ = Progress.finished from s.advance_self _ _] at hq
      cases hq
    · exact h.written q versionIs rest (by rwa [show _ = s.progress q from s.advance_of_ne hne _] at hq)
  truthful version hversion := by
    obtain hcomplete | ⟨q, hlock, hq⟩ := h.truthful version hversion
    · exact .inl hcomplete
    · obtain rfl | hne := eq_or_ne q p
      · exact absurd (hversion.symm.trans (hstop hq)) (by simp)
      · have hother : s.lock ≠ some p := fun hp => hne (Option.some.inj (hlock.symm.trans hp))
        exact .inr ⟨q, (if_neg hother).trans hlock, (System.writes_advance hne _).mpr hq⟩

theorem step (hbundle : ∀ p, IsBinaryOf (bundle p).version (bundle p).binary)
    (h : DeployInv bundle IsBinaryOf s) {e : P × Operation} (hstep : DeployStep bundle s e s')
    (hcareful : Careful bundle s e) : DeployInv bundle IsBinaryOf s' := by
  cases hstep with
  | checkExists hp =>
    refine h.idle (hp ▸ id) ?_
    split_ifs <;> exact id
  | readVersion hp hversion =>
    refine h.idle (hp ▸ id) ?_
    split_ifs <;> exact id
  | lock hp hlock => exact h.lock hlock _
  | lockTaken hp hlock => exact h.idle (hp ▸ id) id
  | truncate hp => exact h.writing (h.locked _ (hp ▸ trivial)) (List.nil_append _)
  | write hp =>
    obtain ⟨written, hruntime, hbinary⟩ := h.written _ _ _ hp
    refine h.writing (h.locked _ (hp ▸ trivial)) ?_
    rw [hruntime, Option.getD_some, List.append_assoc, hbinary]
  | replaceVersion hp =>
    obtain ⟨rfl, -⟩ := Progress.writing.inj (hp.symm.trans hcareful)
    exact h.replaceVersion (hbundle _) hp
  | @unlock p hp =>
    have hlock := h.locked p (hp ▸ trivial)
    have hrelease := h.release (p := p) fun ⟨_, _, hwrites⟩ => by
      rw [hp] at hwrites
      cases hwrites
    rwa [if_pos hlock] at hrelease
  | stop => exact h.release hcareful

end DeployInv

/-- **When the version file is right.** In every run whose steps are careful, in every state the version file
names the complete runtime that is there, or a process with the lock is writing it. -/
theorem version_truthful (hbundle : ∀ p, IsBinaryOf (bundle p).version (bundle p).binary) {dir : DeployDirectory}
    (hdir : ∀ version, dir.version = some version →
      ∃ binary, dir.runtime = some binary ∧ IsBinaryOf version binary)
    {trace : List (System P × P × Operation)} {last : System P}
    (hrun : Run (DeployStep bundle) (System.create dir) trace last)
    (hcareful : ∀ step ∈ trace, Careful bundle step.1 step.2) :
    Throughout (Truthful IsBinaryOf) trace last := by
  have hstart : DeployInv bundle IsBinaryOf (System.create dir) :=
    ⟨fun _ hneeds => absurd hneeds id, fun _ _ _ hp => (by cases hp),
      fun version hversion => .inl (hdir version hversion)⟩
  obtain ⟨htrace, hlast⟩ := hrun.throughout_of_forall hstart (fun _ _ _ h => h.step hbundle) hcareful
  exact ⟨fun step hmem => (htrace step hmem).truthful, hlast.truthful⟩

/-! ### Runs of a few processes -/

/-- Two releases of the plugin. -/
def IsRelease (version : String) (binary : List UInt8) : Prop :=
  (version, binary) ∈ [("v18.0.0", [0x7f]), (nodeBundle.version, nodeBundle.binary)]

/-- The first of three processes has the older release. -/
def competing (p : Fin 3) : Bundle := if p.val = 0 then ⟨"v18.0.0", [0x7f]⟩ else nodeBundle

theorem isRelease_competing (p : Fin 3) : IsRelease (competing p).version (competing p).binary := by
  unfold competing
  split_ifs <;> simp [IsRelease]

/-- All three find no version file. The first one extracts the older release and is killed before it unlocks, the second
one finds the lock taken, and the third one extracts over what the first one has left. -/
theorem version_truthful_competing : ∃ trace last,
    Run (DeployStep competing) (.create ⟨none, none⟩) trace last ∧
      trace.map Prod.snd = [(0, .checkExists), (1, .checkExists), (2, .checkExists), (0, .tryLock), (0, .truncate),
        (1, .tryLock), (0, .write [0x7f]), (0, .replaceVersion), (0, .stop), (2, .tryLock), (2, .truncate),
        (2, .write [0x7f, 0x45]), (2, .write [0x4c, 0x46]), (2, .replaceVersion), (2, Operation.unlock)] ∧
      last.dir = ⟨some "v20.11.1", some nodeBundle.binary⟩ ∧ Throughout (Truthful IsRelease) trace last := by
  have hrun : Run (DeployStep competing) (.create ⟨none, none⟩) _ _ :=
    .cons (.checkExists (p := 0) rfl) (.cons (.checkExists (p := 1) rfl) (.cons (.checkExists (p := 2) rfl)
    (.cons (.lock (p := 0) rfl rfl) (.cons (.truncate (p := 0) rfl) (.cons (.lockTaken (p := 1) rfl rfl)
    (.cons (@DeployStep.write _ _ _ _ 0 _ [0x7f] [] rfl) (.cons (.replaceVersion (p := 0) rfl)
    (.cons (.stop (p := 0)) (.cons (.lock (p := 2) rfl rfl) (.cons (.truncate (p := 2) rfl)
    (.cons (@DeployStep.write _ _ _ _ 2 _ [0x7f, 0x45] [0x4c, 0x46] rfl)
    (.cons (@DeployStep.write _ _ _ _ 2 _ [0x4c, 0x46] [] rfl) (.cons (.replaceVersion (p := 2) rfl)
    (.cons (.unlock (p := 2) rfl) (.nil _)))))))))))))))
  refine ⟨_, _, hrun, rfl, rfl, version_truthful isRelease_competing (fun _ h => by cases h) hrun ?_⟩
  simp only [List.forall_mem_cons]
  refine ⟨trivial, trivial, trivial, trivial, trivial, trivial, trivial, rfl, ?_, trivial, trivial, trivial, trivial, rfl,
    trivial, List.forall_mem_nil _⟩
  rintro ⟨_, _, h⟩
  cases h

def upgradeStart : System Unit := .create ⟨some "v18.0.0", some [0x7f]⟩

def upgradeReading : System Unit := upgradeStart.advance () .reading

def upgradeLocking : System Unit := upgradeReading.advance () (.locking "")

def upgradeExtracting : System Unit := { upgradeLocking.advance () (.extracting "") with lock := some () }

def upgradeWriting : System Unit :=
  { upgradeExtracting.advance () (.writing "" nodeBundle.binary) with dir := ⟨some "v18.0.0", some []⟩ }

/-- The process stops after the runtime has been truncated: the version file still names the old one. -/
theorem truncated_runtime_trusted :
    Run (DeployStep fun _ => nodeBundle) upgradeStart
        [(upgradeStart, (), .checkExists), (upgradeReading, (), .readVersion), (upgradeLocking, (), .tryLock),
          (upgradeExtracting, (), .truncate), (upgradeWriting, (), .stop)]
        { upgradeWriting.advance () .finished with lock := none } ∧
      ¬ Truthful IsRelease { upgradeWriting.advance () .finished with lock := none } := by
  refine ⟨.cons (.checkExists rfl) (.cons (.readVersion rfl rfl) (.cons (.lock rfl rfl)
    (.cons (.truncate rfl) (.cons .stop (.nil _))))), fun h => ?_⟩
  obtain ⟨binary, hruntime, hrelease⟩ | ⟨p, hlock, -⟩ := h "v18.0.0" rfl
  · obtain rfl : [] = binary := Option.some.inj hruntime
    simp [IsRelease, nodeBundle] at hrelease
  · cases hlock

end SonarJavascript.Bridge

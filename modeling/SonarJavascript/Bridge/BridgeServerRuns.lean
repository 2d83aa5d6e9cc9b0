import SonarJavascript.Bridge.BridgeServerImpl

/-!
# Runs of the bridge server

`startProcess_licensed`: after a process, another one is only started if the last `OK!` is more than a minute
old and the server has failed, or if `clean` was called or a status request interrupted in between.
`started_answered`: a server that runs its own process is `STARTED` only after an `OK!` from that process, unless
the wait is interrupted. `heartbeat_scheduled_once` and `existing_process_only` are about the heartbeat service
and about a process that somebody else has started.
-/

namespace SonarJavascript.Bridge.Lifecycle

abbrev Trace := List (Process × (Input × List Effect))

def StartsProcess (e : Input × List Effect) : Prop := ∃ port, .startProcess port ∈ e.2

def effects (trace : Trace) : List Effect := (trace.map fun step => step.2.2).flatten

/-- The time of an `OK!`. -/
def okTime : Input → Option ℕ
  | .answer now true => some now
  | .heartbeatAnswer now true => some now
  | _ => none

/-- The time of the last `OK!` of a trace. -/
def lastOK : Trace → Option ℕ
  | [] => none
  | step :: trace => (lastOK trace).or (okTime step.2.1)

@[simp] theorem effects_nil : effects [] = [] := rfl

@[simp] theorem effects_append (trace rest : Trace) : effects (trace ++ rest) = effects trace ++ effects rest := by
  simp [effects]

@[simp] theorem effects_singleton (step : Process × (Input × List Effect)) : effects [step] = step.2.2 := by
  simp [effects]

@[simp] theorem lastOK_nil : lastOK [] = none := rfl

@[simp] theorem lastOK_cons (step : Process × (Input × List Effect)) (trace : Trace) :
    lastOK (step :: trace) = (lastOK trace).or (okTime step.2.1) := rfl

namespace BridgeServerImpl

variable (s : BridgeServerImpl)

@[simp] theorem serverHasStarted_status : s.serverHasStarted.1.status = .started := by
  unfold serverHasStarted
  split_ifs <;> rfl

@[simp] theorem serverHasStarted_port : s.serverHasStarted.1.port = s.port := by
  unfold serverHasStarted
  split_ifs <;> rfl

@[simp] theorem serverHasStarted_nodeCommand : s.serverHasStarted.1.nodeCommand = s.nodeCommand := by
  unfold serverHasStarted
  split_ifs <;> rfl

@[simp] theorem serverHasStarted_latest :
    s.serverHasStarted.1.latestOKIsAliveTimestamp = s.latestOKIsAliveTimestamp := by
  unfold serverHasStarted
  split_ifs <;> rfl

theorem serverHasStarted_effects : ∀ effect ∈ s.serverHasStarted.2,
    effect = .scheduleAtFixedRate ∨ effect = .throwsOther := by
  unfold serverHasStarted
  split_ifs <;> simp

@[simp] theorem resetStatus_port : s.resetStatus.port = s.port := by
  unfold resetStatus
  split_ifs <;> rfl

@[simp] theorem resetStatus_nodeCommand : s.resetStatus.nodeCommand = s.nodeCommand := by
  unfold resetStatus
  split_ifs <;> rfl

@[simp] theorem resetStatus_latest : s.resetStatus.latestOKIsAliveTimestamp = s.latestOKIsAliveTimestamp := by
  unfold resetStatus
  split_ifs <;> rfl

theorem resetStatus_eq {s : BridgeServerImpl} (h : s.status ≠ .failed) : s.resetStatus = s := if_neg h

@[simp] theorem resetStatus_status : s.resetStatus.status = .started ↔ s.status = .started := by
  unfold resetStatus
  split_ifs with h <;> simp [h]

@[simp] theorem answered_status (now : ℕ) (ok : Bool) : (s.answered now ok).status = s.status := by
  cases ok <;> rfl

@[simp] theorem answered_port (now : ℕ) (ok : Bool) : (s.answered now ok).port = s.port := by
  cases ok <;> rfl

@[simp] theorem answered_nodeCommand (now : ℕ) (ok : Bool) : (s.answered now ok).nodeCommand = s.nodeCommand := by
  cases ok <;> rfl

@[simp] theorem answered_heartbeatFuture (now : ℕ) (ok : Bool) :
    (s.answered now ok).heartbeatFuture = s.heartbeatFuture := by
  cases ok <;> rfl

@[simp] theorem answered_heartbeatShutdown (now : ℕ) (ok : Bool) :
    (s.answered now ok).heartbeatShutdown = s.heartbeatShutdown := by
  cases ok <;> rfl

theorem asksStatus_of_started {s : BridgeServerImpl} (h : s.status = .started) : s.asksStatus = true := by
  simp [asksStatus, h]

end BridgeServerImpl

open BridgeServerImpl

variable {env : Environment} {s s' last : Process} {e : Input × List Effect} {trace : Trace} {server server' : BridgeServerImpl}

theorem prepared_zero : prepared server 0 = (server.resetStatus, []) := rfl

/-- A server that is `STARTED` stays so until `isAlive`. -/
theorem prepared_status {providedPort : ℕ} {effects : List Effect}
    (h : prepared server providedPort = (server', effects)) (hstatus : server.status = .started) :
    server'.status = .started := by
  rw [prepared, useExistingProcess] at h
  split_ifs at h
  · obtain ⟨rfl, -⟩ := Prod.mk.inj h
    rwa [resetStatus_status]
  · obtain ⟨rfl, -⟩ := Prod.ext_iff.mp h
    simp

/-! ## Processes -/

/-- A process has been started, and nothing has yet given reason for another one. -/
def Spent (s : Process) : Prop :=
  match s.caller with
  | .idle => s.server.status ≠ .notStarted
  | .lazily _ => s.server.status = .started
  | .sleeping _ => True
  | .polling _ _ => True
  | _ => False

/-- What gives reason for another process. -/
def Licence (s : Process) : Input → Prop
  | .startServerLazily now => s.server.status = .failed ∧ s.server.shouldRestartFailedServer now = true
  | .requestInterrupted => ∃ start port, s.caller = .polling start port
  | .clean => True
  | _ => False

theorem StartsProcess.inv (h : StartsProcess e) (hstep : Step env s e s') :
    s.caller = .startingServer ∧ e.2 = [.startProcess s.server.port] ∧
      ∃ start, s' = { s with server := { s.server with nodeCommand := true }, caller := .sleeping start } := by
  obtain ⟨port, hport⟩ := h
  cases hstep with
  | processStarts h => exact ⟨h, rfl, _, rfl⟩
  | asks _ _ _ hprepared =>
    exfalso
    rw [prepared, useExistingProcess] at hprepared
    split_ifs at hprepared
    · obtain ⟨-, rfl⟩ := Prod.mk.inj hprepared
      simp at hport
    · obtain ⟨-, rfl⟩ := Prod.ext_iff.mp hprepared
      rcases List.mem_append.mp hport with hport | hport
      · simpa using serverHasStarted_effects _ _ hport
      · simp at hport
  | notAlive _ _ _ hprepared =>
    exfalso
    rw [prepared, useExistingProcess] at hprepared
    split_ifs at hprepared
    · obtain ⟨-, rfl⟩ := Prod.mk.inj hprepared
      simp at hport
    · obtain ⟨-, rfl⟩ := Prod.ext_iff.mp hprepared
      simpa using serverHasStarted_effects _ _ hport
  | pollOK | sleepInterrupted => simpa using serverHasStarted_effects _ _ hport
  | @deployFails b | @initNodeCommandFails b => cases b <;> simp [thrown] at hport
  | _ => simp at hport

theorem Spent.step (h : Spent s) (hstep : Step env s e s') (hlicence : ¬ Licence s e.1) : Spent s' := by
  have hstarted : ∀ {now : ℕ}, s.caller = .idle → Admitted s.server now → e.1 = .startServerLazily now →
      s.server.status = .started := by
    intro now hcaller hadmitted he
    rw [he] at hlicence
    rw [Spent, hcaller] at h
    match hstatus : s.server.status with
    | .started => rfl
    | .notStarted => exact absurd hstatus h
    | .failed => exact absurd ⟨hstatus, hadmitted hstatus⟩ hlicence
  cases hstep with
  | refused => exact h
  | portInvalid hcaller hadmitted =>
    have hstatus := hstarted hcaller hadmitted rfl
    rwa [resetStatus_eq (by simp [hstatus])]
  | rejected hcaller hadmitted _ hprepared =>
    simp [Spent, hcaller, prepared_status hprepared (hstarted hcaller hadmitted rfl)]
  | asks hcaller hadmitted _ hprepared => exact prepared_status hprepared (hstarted hcaller hadmitted rfl)
  | notAlive hcaller hadmitted _ hprepared _ hasks =>
    have hstatus := prepared_status hprepared (hstarted hcaller hadmitted rfl)
    simp [asksStatus_of_started hstatus] at hasks
  | isUp hcaller =>
    rw [Spent, hcaller] at h
    simp [Spent, h]
  | notUp hcaller hstatus =>
    rw [Spent, hcaller] at h
    exact absurd h hstatus
  | requestInterrupted hcaller =>
    rcases hcaller with hcaller | hcaller | hcaller
    · rw [Spent, hcaller] at h
      simp [Spent, h]
    · exact absurd ⟨_, _, hcaller⟩ hlicence
    · simp [Spent, hcaller] at h
  | deployFails hcaller | findOpenPort hcaller | initNodeCommandFails hcaller | processStarts hcaller
  | processFails hcaller | close hcaller | closeDead hcaller | closeFails hcaller => simp [Spent, hcaller] at h
  | cleanAsks | clean => exact absurd trivial hlicence
  | isDown | poll | pollOK | pollAgain | timeout | sleepInterrupted => simp [Spent]
  | heartbeat => exact h
  | heartbeatSkips => exact h
  | heartbeatAnswer => simpa [Spent] using h

theorem Step.latest (hstep : Step env s e s') :
    s'.server.latestOKIsAliveTimestamp = (okTime e.1).or s.server.latestOKIsAliveTimestamp := by
  have hprepared : ∀ {providedPort server' effects}, prepared s.server providedPort = (server', effects) →
      server'.latestOKIsAliveTimestamp = s.server.latestOKIsAliveTimestamp := by
    intro providedPort server' effects h
    rw [prepared, useExistingProcess] at h
    split_ifs at h
    · obtain ⟨rfl, -⟩ := Prod.mk.inj h
      simp
    · obtain ⟨rfl, -⟩ := Prod.ext_iff.mp h
      simp
  cases hstep with
  | rejected _ _ _ h | asks _ _ _ h | notAlive _ _ _ h => exact hprepared h
  | @deployFails b | @initNodeCommandFails b => cases b <;> rfl
  | @heartbeatAnswer _ _ ok => cases ok <;> rfl
  | portInvalid => simp [okTime]
  | pollOK => simp [okTime, answered]
  | sleepInterrupted => simp [okTime]
  | _ => rfl

theorem latest_eq (hrun : Run (Step env) s trace last) :
    last.server.latestOKIsAliveTimestamp = (lastOK trace).or s.server.latestOKIsAliveTimestamp := by
  induction hrun with
  | nil => rfl
  | cons hstep _ ih => rw [ih, hstep.latest, lastOK_cons, Option.or_assoc]

theorem spent_throughout (hrun : Run (Step env) s trace last) (h : Spent s)
    (hlicence : ∀ step ∈ trace, ¬ Licence step.1 step.2.1) : Throughout Spent trace last :=
  hrun.throughout_of_forall h (fun _ _ _ => Spent.step) hlicence

theorem startProcess_licensed {before mid after : Trace} {s₁ s₂ : Process} {e₁ e₂ : Input × List Effect}
    (hrun : Run (Step env) .new (before ++ (s₁, e₁) :: mid ++ (s₂, e₂) :: after) last) (h₁ : StartsProcess e₁)
    (h₂ : StartsProcess e₂) :
    ∃ mid₁ s input effects mid₂, mid = mid₁ ++ (s, input, effects) :: mid₂ ∧
      ((∃ now latest, input = .startServerLazily now ∧ s.server.status = .failed ∧
          lastOK (before ++ (s₁, e₁) :: mid₁) = some latest ∧
          now - latest > TIME_AFTER_FAILURE_TO_RESTART_MS) ∨
        input = .clean ∨
        (input = .requestInterrupted ∧ ∃ start port, s.caller = .polling start port)) := by
  obtain ⟨s₂', hbefore, hafter⟩ := hrun.append_inv
  obtain ⟨s₁', hfirst, hmid⟩ := hbefore.append_inv
  cases hmid with
  | cons hstep₁ hmid =>
    cases hafter with
    | cons hstep₂ _ =>
      obtain ⟨-, -, start, rfl⟩ := h₁.inv hstep₁
      have hnot : ¬ Spent s₂ := by
        rw [Spent, (h₂.inv hstep₂).1]
        exact id
      obtain ⟨⟨s, input, effects⟩, hmem, hlicence⟩ : ∃ step ∈ mid, Licence step.1 step.2.1 := by
        by_contra hnone
        push Not at hnone
        exact hnot (spent_throughout hmid trivial hnone).2
      obtain ⟨mid₁, mid₂, rfl⟩ := List.append_of_mem hmem
      refine ⟨mid₁, s, input, effects, mid₂, rfl, ?_⟩
      obtain ⟨m, hmid₁, hrest⟩ := hmid.append_inv
      cases hrest with
      | cons _ _ =>
        cases input with
        | startServerLazily now =>
          obtain ⟨hfailed, hrestart⟩ := hlicence
          have hlatest := latest_eq (Run.append hfirst (.cons hstep₁ hmid₁))
          rw [shouldRestartFailedServer] at hrestart
          match hstamp : s.server.latestOKIsAliveTimestamp with
          | none => simp [hstamp] at hrestart
          | some latest =>
            rw [hstamp] at hrestart hlatest
            refine .inl ⟨now, latest, rfl, hfailed, ?_, by simpa using hrestart⟩
            rw [hlatest]
            simp [Process.new, BridgeServerImpl.new]
        | requestInterrupted => exact .inr (.inr ⟨rfl, hlicence⟩)
        | clean => exact .inr (.inl rfl)
        | _ => exact hlicence.elim

def ownServer : Environment := ⟨300, some 0⟩

/-- The server on port 5000 answers at 210 ms. -/
def startUp : Trace :=
  [(.new, .startServerLazily 0, []),
    (⟨.new, .deploying, none⟩, .findOpenPort 5000, []),
    (⟨{ BridgeServerImpl.new with port := 5000 }, .startingServer, none⟩, .nodeCommandStart 10 true,
      [.startProcess 5000]),
    (⟨{ BridgeServerImpl.new with port := 5000, nodeCommand := true }, .sleeping 10, none⟩, .sleepOver,
      [.statusRequest 5000]),
    (⟨{ BridgeServerImpl.new with port := 5000, nodeCommand := true }, .polling 10 5000, none⟩, .answer 210 true,
      [.scheduleAtFixedRate])]

def startedServer : BridgeServerImpl := ⟨5000, true, .started, false, true, some 210⟩

theorem admitted_new (now : ℕ) : Admitted BridgeServerImpl.new now := by simp [Admitted, BridgeServerImpl.new]

theorem startUp_run : Run (Step ownServer) .new startUp ⟨startedServer, .idle, none⟩ :=
  .cons (.notAlive rfl (admitted_new 0) rfl rfl (by simp) rfl) <| .cons (.findOpenPort rfl) <|
    .cons (.processStarts rfl) <| .cons (.poll rfl) <| .cons (.pollOK rfl) <| .nil _

/-- Nearly 100 s later the server does not answer any more. -/
def restart : Trace :=
  [(⟨startedServer, .idle, none⟩, .startServerLazily 100000, [.statusRequest 5000]),
    (⟨startedServer, .lazily 5000, none⟩, .answer 100001 false, [.throwsServerAlreadyFailed]),
    (⟨{ startedServer with status := .failed }, .idle, none⟩, .startServerLazily 100002, [.statusRequest 5000]),
    (⟨{ startedServer with status := .notStarted }, .lazily 5000, none⟩, .answer 100003 false, []),
    (⟨{ startedServer with status := .notStarted }, .deploying, none⟩, .findOpenPort 5001, []),
    (⟨{ startedServer with status := .notStarted, port := 5001 }, .startingServer, none⟩,
      .nodeCommandStart 100004 true, [.startProcess 5001])]

theorem asks_own {server : BridgeServerImpl} {now : ℕ} (hadmitted : Admitted server now)
    (hasks : server.resetStatus.asksStatus = true) :
    Step ownServer ⟨server, .idle, none⟩ (.startServerLazily now, [.statusRequest server.resetStatus.port])
      ⟨server.resetStatus, .lazily server.resetStatus.port, none⟩ :=
  .asks rfl hadmitted rfl prepared_zero (by simp) hasks

theorem restart_run : Run (Step ownServer) ⟨startedServer, .idle, none⟩ restart
    ⟨{ startedServer with status := .notStarted, port := 5001 }, .sleeping 100004, none⟩ :=
  .cons (asks_own (by simp [Admitted, startedServer]) rfl) <| .cons (.isDown rfl rfl) <|
    .cons (asks_own (fun _ => rfl) rfl) <| .cons (.notUp rfl (by decide)) <|
    .cons (.findOpenPort rfl) <| .cons (.processStarts rfl) <| .nil _

theorem restart_licensed : ∃ mid₁ s input effects mid₂,
    startUp.drop 3 ++ restart.take 5 = mid₁ ++ (s, input, effects) :: mid₂ ∧
      ((∃ now latest, input = .startServerLazily now ∧ s.server.status = .failed ∧
          lastOK (startUp.take 3 ++ mid₁) = some latest ∧ now - latest > TIME_AFTER_FAILURE_TO_RESTART_MS) ∨
        input = .clean ∨
        (input = .requestInterrupted ∧ ∃ start port, s.caller = .polling start port)) :=
  @startProcess_licensed ownServer _ (startUp.take 2) _ [] _ _ _ _ (startUp_run.append restart_run)
    ⟨5000, by decide⟩ ⟨5001, by decide⟩

/-! ## The heartbeat service -/

theorem serverHasStarted_schedules (server : BridgeServerImpl) :
    server.serverHasStarted.2.count .scheduleAtFixedRate + server.heartbeatFuture.toNat =
      server.serverHasStarted.1.heartbeatFuture.toNat := by
  unfold serverHasStarted
  split_ifs with hfuture hshutdown <;> simp [hfuture]

theorem prepared_schedules {providedPort : ℕ} {effects : List Effect}
    (h : prepared server providedPort = (server', effects)) :
    effects.count .scheduleAtFixedRate + server.heartbeatFuture.toNat = server'.heartbeatFuture.toNat := by
  have hreset : server.resetStatus.heartbeatFuture = server.heartbeatFuture := by
    unfold resetStatus
    split_ifs <;> rfl
  rw [prepared, useExistingProcess] at h
  split_ifs at h
  · obtain ⟨rfl, rfl⟩ := Prod.mk.inj h
    simp [hreset]
  · obtain ⟨rfl, rfl⟩ := Prod.ext_iff.mp h
    rw [← hreset]
    exact serverHasStarted_schedules _

theorem Step.schedules (hstep : Step env s e s') :
    e.2.count .scheduleAtFixedRate + s.server.heartbeatFuture.toNat = s'.server.heartbeatFuture.toNat := by
  cases hstep with
  | rejected _ _ _ h | notAlive _ _ _ h => exact prepared_schedules h
  | asks _ _ _ h => simpa using prepared_schedules h
  | @deployFails b | @initNodeCommandFails b => cases b <;> simp [thrown]
  | portInvalid => simpa using prepared_schedules prepared_zero
  | pollOK => simpa using serverHasStarted_schedules (s.server.answered _ true)
  | sleepInterrupted => exact serverHasStarted_schedules _
  | _ => simp [reset]

/-- A server that is `STARTED` has its heartbeat, unless the service has been shut down. -/
def Watched (server : BridgeServerImpl) : Prop :=
  server.status = .started → server.heartbeatFuture = true ∨ server.heartbeatShutdown = true

theorem serverHasStarted_watched : Watched server.serverHasStarted.1 := by
  intro _
  unfold serverHasStarted
  split_ifs with hfuture hshutdown
  · exact .inl hfuture
  · exact .inr hshutdown
  · exact .inl rfl

theorem prepared_watched {providedPort : ℕ} {effects : List Effect}
    (h : prepared server providedPort = (server', effects)) (hwatched : Watched server) : Watched server' := by
  rw [prepared, useExistingProcess] at h
  split_ifs at h
  · obtain ⟨rfl, -⟩ := Prod.mk.inj h
    rw [resetStatus]
    split_ifs
    · intro hstatus
      simp at hstatus
    · exact hwatched
  · obtain ⟨rfl, -⟩ := Prod.ext_iff.mp h
    exact serverHasStarted_watched

theorem Step.watched (hstep : Step env s e s') (h : Watched s.server) : Watched s'.server := by
  cases hstep with
  | rejected _ _ _ hprepared | notAlive _ _ _ hprepared | asks _ _ _ hprepared => exact prepared_watched hprepared h
  | @deployFails b | @initNodeCommandFails b => cases b <;> simp_all [thrown, Watched]
  | portInvalid => exact prepared_watched prepared_zero h
  | pollOK => exact serverHasStarted_watched
  | sleepInterrupted => exact serverHasStarted_watched
  | cleanAsks => exact fun _ => .inr rfl
  | _ => simp_all [Watched, reset]

theorem heartbeat_scheduled_once (hrun : Run (Step env) .new trace last) :
    (effects trace).count .scheduleAtFixedRate = last.server.heartbeatFuture.toNat ∧
      Throughout (fun s => s.server.status = .started →
        s.server.heartbeatFuture = true ∨ s.server.heartbeatShutdown = true) trace last := by
  constructor
  · have hseen := hrun.induction_seen
      (fun seen s => (effects seen).count .scheduleAtFixedRate = s.server.heartbeatFuture.toNat)
      (fun _ _ => True) [] rfl ?_ (by simp)
    · simpa using hseen
    · intro seen s e s' hseen hstep _
      rw [effects_append, List.count_append, hseen, effects_singleton, Nat.add_comm]
      exact hstep.schedules
  · have hstart : Watched Process.new.server := by simp [Watched, Process.new, BridgeServerImpl.new]
    exact hrun.throughout_of_forall hstart
      (fun s e s' (h : Watched s.server) hstep (_ : True) => hstep.watched h) (by simp)

theorem heartbeat_scheduled_startUp : (effects startUp).count .scheduleAtFixedRate = 1 :=
  (heartbeat_scheduled_once startUp_run).1

/-! ## The first answer -/

/-- The steps since the last process was started, on the port. -/
def Since (seen : Trace) (port : ℕ) (since : Trace) : Prop :=
  ∃ before step, seen = before ++ step :: since ∧ .startProcess port ∈ step.2.2 ∧
    ∀ step ∈ since, ¬ StartsProcess step.2

/-- The process that was started last has answered `OK!` to `waitServerToStart`. -/
def AnsweredOK (seen : Trace) (port : ℕ) : Prop :=
  ∃ since, Since seen port since ∧
    ∃ step ∈ since, ∃ start now, step.1.caller = .polling start port ∧ step.2.1 = .answer now true

theorem Since.snoc {seen since : Trace} {port : ℕ} (h : Since seen port since) (he : ¬ StartsProcess e) :
    Since (seen ++ [(s, e)]) port (since ++ [(s, e)]) := by
  obtain ⟨before, step, rfl, hport, hsince⟩ := h
  refine ⟨before, step, by simp, hport, fun step hmem => ?_⟩
  rcases List.mem_append.mp hmem with hmem | hmem
  · exact hsince step hmem
  · rwa [List.mem_singleton.mp hmem]

theorem AnsweredOK.snoc {seen : Trace} {port : ℕ} (h : AnsweredOK seen port) (he : ¬ StartsProcess e) :
    AnsweredOK (seen ++ [(s, e)]) port := by
  obtain ⟨since, hsince, step, hmem, hstep⟩ := h
  exact ⟨_, hsince.snoc he, step, List.mem_append_left _ hmem, hstep⟩

/-- Where the server runs its own process. -/
structure OwnProcess (seen : Trace) (s : Process) : Prop where
  since : (∃ start, s.caller = .sleeping start) ∨ (∃ start, s.caller = .polling start s.server.port) →
    ∃ since, Since seen s.server.port since
  polled : ∀ start port, s.caller = .polling start port → port = s.server.port
  notYet : s.server.status = .started → s.caller = .idle ∨ (∃ port, s.caller = .lazily port) ∨
    ∃ port, s.caller = .cleaning port
  answered : s.server.status = .started → AnsweredOK seen s.server.port

/-- A step that moves neither the port nor the status to `STARTED`. -/
theorem OwnProcess.keep {seen : Trace} (h : OwnProcess seen s) (he : ¬ StartsProcess e)
    (hport : s'.server.port = s.server.port)
    (hcaller : s'.caller = s.caller ∨ s'.caller = .idle ∨ (∃ port, s'.caller = .lazily port) ∨
      ∃ port, s'.caller = .cleaning port)
    (hstatus : s'.server.status = .started → s.server.status = .started) : OwnProcess (seen ++ [(s, e)]) s' where
  since hwaiting := by
    have hsame : s'.caller = s.caller := by
      rcases hcaller with h | h | ⟨_, h⟩ | ⟨_, h⟩
      · exact h
      all_goals simp [h] at hwaiting
    rw [hsame, hport] at hwaiting
    obtain ⟨since, hsince⟩ := h.since hwaiting
    exact ⟨_, hport ▸ hsince.snoc he⟩
  polled start port hpolling := by
    have hsame : s'.caller = s.caller := by
      rcases hcaller with h | h | ⟨_, h⟩ | ⟨_, h⟩
      · exact h
      all_goals simp [h] at hpolling
    rw [hport]
    exact h.polled start port (hsame ▸ hpolling)
  notYet hstarted := by
    rcases hcaller with hsame | hidle | hlazily | hcleaning
    · rw [hsame]
      exact h.notYet (hstatus hstarted)
    · exact .inl hidle
    · exact .inr (.inl hlazily)
    · exact .inr (.inr hcleaning)
  answered hstarted := hport ▸ (h.answered (hstatus hstarted)).snoc he

theorem OwnProcess.of_not_started {seen : Trace} (hsleeping : ∀ start, s.caller ≠ .sleeping start)
    (hpolling : ∀ start port, s.caller ≠ .polling start port) (hstatus : s.server.status ≠ .started) :
    OwnProcess seen s where
  since hwaiting := by
    rcases hwaiting with ⟨start, h⟩ | ⟨start, h⟩
    · exact absurd h (hsleeping start)
    · exact absurd h (hpolling start _)
  polled start port h := absurd h (hpolling start port)
  notYet h := absurd h hstatus
  answered h := absurd h hstatus

theorem OwnProcess.step {seen : Trace} (henv : env.nodeAlreadyRunningPort = some 0) (h : OwnProcess seen s)
    (hstep : Step env s e s') (he : e.1 ≠ .sleepInterrupted) : OwnProcess (seen ++ [(s, e)]) s' := by
  by_cases hstarts : StartsProcess e
  · obtain ⟨hcaller, heffects, start, rfl⟩ := hstarts.inv hstep
    have hstatus : s.server.status ≠ .started := fun hstarted => by
      rcases h.notYet hstarted with h | ⟨_, h⟩ | ⟨_, h⟩ <;> simp [hcaller] at h
    refine ⟨fun _ => ⟨[], seen, _, rfl, by simp [heffects], by simp⟩, by simp, ?_, ?_⟩
    · exact fun hstarted => absurd hstarted hstatus
    · exact fun hstarted => absurd hstarted hstatus
  · cases hstep with
    | refused => exact h.keep hstarts rfl (.inl rfl) id
    | portInvalid _ _ hport => simp [henv] at hport
    | rejected _ _ hport hprepared =>
      obtain rfl := Option.some.inj (henv.symm.trans hport)
      simp [prepared_zero] at hprepared
    | asks _ _ hport hprepared =>
      obtain rfl := Option.some.inj (henv.symm.trans hport)
      obtain ⟨rfl, rfl⟩ := Prod.mk.inj hprepared
      exact h.keep hstarts (by simp) (.inr (.inr (.inl ⟨_, rfl⟩))) (by simp)
    | notAlive _ _ _ _ _ hasks =>
      refine .of_not_started (by simp) (by simp) fun hstatus => ?_
      simp [asksStatus_of_started hstatus] at hasks
    | isUp => exact h.keep hstarts (by simp) (.inr (.inl rfl)) (by simp)
    | isDown => exact h.keep hstarts rfl (.inr (.inl rfl)) (by simp)
    | notUp _ hstatus => exact .of_not_started (by simp) (by simp) hstatus
    | requestInterrupted => exact h.keep hstarts rfl (.inr (.inl rfl)) id
    | @deployFails b | @initNodeCommandFails b =>
      cases b
      · exact h.keep hstarts rfl (.inr (.inl rfl)) id
      · exact h.keep hstarts rfl (.inr (.inl rfl)) (by simp [thrown])
    | findOpenPort hcaller =>
      refine .of_not_started (by simp) (by simp) fun hstarted => ?_
      rcases h.notYet hstarted with h | ⟨_, h⟩ | ⟨_, h⟩ <;> simp [hcaller] at h
    | processStarts => exact absurd ⟨_, List.mem_singleton_self _⟩ hstarts
    | processFails => exact h.keep hstarts rfl (.inr (.inl rfl)) (by simp)
    | poll hcaller =>
      obtain ⟨since, hsince⟩ := h.since (.inl ⟨_, hcaller⟩)
      have hstatus : s.server.status ≠ .started := fun hstarted => by
        rcases h.notYet hstarted with h | ⟨_, h⟩ | ⟨_, h⟩ <;> simp [hcaller] at h
      exact ⟨fun _ => ⟨_, hsince.snoc hstarts⟩, by simp, fun h => absurd h hstatus, fun h => absurd h hstatus⟩
    | @pollOK start port now hcaller =>
      obtain rfl := h.polled _ _ hcaller
      obtain ⟨since, hsince⟩ := h.since (.inr ⟨_, hcaller⟩)
      have hanswered := hsince.snoc (s := s) hstarts
      refine ⟨by simp, by simp, by simp, fun _ => ⟨_, by simpa using hanswered, ?_⟩⟩
      exact ⟨_, List.mem_append_right _ (List.mem_singleton_self _), start, now, by simpa using hcaller, rfl⟩
    | pollAgain hcaller =>
      obtain rfl := h.polled _ _ hcaller
      obtain ⟨since, hsince⟩ := h.since (.inr ⟨_, hcaller⟩)
      have hstatus : s.server.status ≠ .started := fun hstarted => by
        rcases h.notYet hstarted with h | ⟨_, h⟩ | ⟨_, h⟩ <;> simp [hcaller] at h
      exact ⟨fun _ => ⟨_, hsince.snoc hstarts⟩, by simp, fun h => absurd h hstatus, fun h => absurd h hstatus⟩
    | timeout => exact h.keep hstarts rfl (.inr (.inl rfl)) (by simp)
    | sleepInterrupted => exact absurd rfl he
    | cleanAsks => exact h.keep hstarts rfl (.inr (.inr (.inr ⟨_, rfl⟩))) id
    | clean hcaller | close | closeDead => exact .of_not_started (by simp [*]) (by simp [*]) (by simp [reset])
    | closeFails => exact h.keep hstarts (by simp) (.inr (.inl rfl)) (by simp)
    | heartbeat => exact h.keep hstarts rfl (.inl rfl) id
    | heartbeatSkips => exact h.keep hstarts rfl (.inl rfl) id
    | heartbeatAnswer => exact h.keep hstarts (by simp) (.inl rfl) (by simp)

theorem started_answered (hrun : Run (Step env) .new trace last) (henv : env.nodeAlreadyRunningPort = some 0)
    (hsleep : ∀ step ∈ trace, step.2.1 ≠ .sleepInterrupted) (hstatus : last.server.status = .started) :
    AnsweredOK trace last.server.port := by
  have hstart : OwnProcess [] Process.new := .of_not_started (by simp [Process.new]) (by simp [Process.new])
    (by simp [Process.new, BridgeServerImpl.new])
  have hinv := hrun.induction_seen OwnProcess (fun _ e => e.1 ≠ .sleepInterrupted) [] hstart
    (fun _ _ _ _ h hstep => h.step henv hstep) hsleep
  exact hinv.answered hstatus

theorem startUp_answered : AnsweredOK startUp 5000 :=
  started_answered startUp_run rfl (by decide) rfl

/-! ## A process that somebody else has started -/

/-- The only requests go to the port, and nothing is started or closed. -/
def Effect.OnlyAsks (providedPort : ℕ) : Effect → Prop
  | .statusRequest port => port = providedPort
  | .closeRequest _ => False
  | .startProcess _ => False
  | _ => True

structure Borrowed (providedPort : ℕ) (s : Process) : Prop where
  noCommand : s.server.nodeCommand = false
  port : s.server.status = .started → s.server.port = providedPort
  caller : s.caller = .idle ∨ s.caller = .lazily providedPort ∧ s.server.status = .started

theorem serverHasStarted_onlyAsks (providedPort : ℕ) :
    ∀ effect ∈ server.serverHasStarted.2, effect.OnlyAsks providedPort := by
  intro effect hmem
  rcases serverHasStarted_effects _ _ hmem with rfl | rfl <;> trivial

/-- Where a port is provided, `isAlive` is asked of a server that is `STARTED` on that port. -/
theorem prepared_provided {providedPort : ℕ} {effects : List Effect} (hport : providedPort ≠ 0)
    (h : prepared server providedPort = (server', effects)) :
    server'.status = .started ∧ server'.port = providedPort ∧ server'.nodeCommand = server.nodeCommand ∧
      ∀ effect ∈ effects, effect.OnlyAsks providedPort := by
  rw [prepared, useExistingProcess, if_neg hport] at h
  obtain ⟨rfl, rfl⟩ := Prod.ext_iff.mp h
  exact ⟨by simp, by simp, by simp, serverHasStarted_onlyAsks providedPort⟩

theorem Borrowed.step {providedPort : ℕ} (hport : providedPort ≠ 0)
    (henv : env.nodeAlreadyRunningPort = some providedPort) (h : Borrowed providedPort s)
    (hstep : Step env s e s') : Borrowed providedPort s' ∧ ∀ effect ∈ e.2, effect.OnlyAsks providedPort := by
  obtain ⟨hcommand, hprovided, hcaller⟩ := h
  cases hstep with
  | refused h => exact ⟨⟨hcommand, hprovided, hcaller⟩, by simp [Effect.OnlyAsks]⟩
  | portInvalid _ _ hnone => simp [henv] at hnone
  | rejected h _ hsome hprepared =>
    obtain rfl := Option.some.inj (henv.symm.trans hsome)
    obtain ⟨_, hto, hsame, -⟩ := prepared_provided hport hprepared
    exact ⟨⟨hsame.trans hcommand, fun _ => hto, .inl h⟩, by simp [Effect.OnlyAsks]⟩
  | asks _ _ hsome hprepared =>
    obtain rfl := Option.some.inj (henv.symm.trans hsome)
    obtain ⟨hstatus, hto, hsame, heffects⟩ := prepared_provided hport hprepared
    refine ⟨⟨hsame.trans hcommand, fun _ => hto, .inr ⟨by simp [hto], hstatus⟩⟩, fun effect hmem => ?_⟩
    rcases List.mem_append.mp hmem with hmem | hmem
    · exact heffects effect hmem
    · obtain rfl := List.mem_singleton.mp hmem
      exact hto
  | notAlive _ _ hsome hprepared _ hasks =>
    obtain rfl := Option.some.inj (henv.symm.trans hsome)
    simp [asksStatus_of_started (prepared_provided hport hprepared).1] at hasks
  | isUp => exact ⟨⟨by simpa using hcommand, by simpa using hprovided, .inl rfl⟩, by simp⟩
  | isDown => exact ⟨⟨hcommand, by simp, .inl rfl⟩, by simp [Effect.OnlyAsks]⟩
  | notUp h hstatus =>
    rcases hcaller with hidle | ⟨-, hstarted⟩
    · simp [h] at hidle
    · exact absurd hstarted hstatus
  | requestInterrupted => exact ⟨⟨hcommand, hprovided, .inl rfl⟩, by simp [Effect.OnlyAsks]⟩
  | deployFails h | findOpenPort h | initNodeCommandFails h | processStarts h | processFails h | poll h | pollOK h
  | pollAgain h | timeout h | sleepInterrupted h | close h | closeFails h | closeDead h => simp [h] at hcaller
  | cleanAsks _ h => simp [hcommand] at h
  | clean h => exact ⟨⟨hcommand, by simp [reset], .inl h⟩, by simp⟩
  | heartbeat _ _ _ hasks =>
    have hstatus : s.server.status = .started := by simpa [asksStatus, hcommand] using hasks
    exact ⟨⟨hcommand, hprovided, hcaller⟩, by simpa [Effect.OnlyAsks] using hprovided hstatus⟩
  | heartbeatSkips => exact ⟨⟨hcommand, hprovided, hcaller⟩, by simp⟩
  | heartbeatAnswer =>
    exact ⟨⟨by simpa using hcommand, by simpa using hprovided, by simpa using hcaller⟩, by simp⟩

theorem existing_process_only {providedPort : ℕ} (hrun : Run (Step env) .new trace last) (hport : providedPort ≠ 0)
    (henv : env.nodeAlreadyRunningPort = some providedPort) :
    ∀ effect ∈ effects trace, effect.OnlyAsks providedPort := by
  have hstart : Borrowed providedPort Process.new := ⟨rfl, by simp [Process.new, BridgeServerImpl.new], .inl rfl⟩
  have hinv := hrun.induction_seen
    (fun seen s => Borrowed providedPort s ∧ ∀ effect ∈ effects seen, effect.OnlyAsks providedPort)
    (fun _ _ => True) [] ⟨hstart, by simp⟩ ?_ (by simp)
  · simpa using hinv.2
  · intro seen s e s' ⟨hborrowed, hseen⟩ hstep _
    obtain ⟨hborrowed', heffects⟩ := hborrowed.step hport henv hstep
    refine ⟨hborrowed', fun effect hmem => ?_⟩
    rw [effects_append, effects_singleton] at hmem
    rcases List.mem_append.mp hmem with hmem | hmem
    · exact hseen effect hmem
    · exact heffects effect hmem

def borrowedServer : Environment := ⟨300, some 60000⟩

def borrowedAnswered : BridgeServerImpl := ⟨60000, false, .started, false, true, some 5⟩

/-- The process answers, then no longer: the server fails and is cleaned. -/
def borrowedCalls : Trace :=
  [(.new, .startServerLazily 0, [.scheduleAtFixedRate, .statusRequest 60000]),
    (⟨{ borrowedAnswered with latestOKIsAliveTimestamp := none }, .lazily 60000, none⟩, .answer 5 true, []),
    (⟨borrowedAnswered, .idle, none⟩, .heartbeat, [.statusRequest 60000]),
    (⟨borrowedAnswered, .idle, some 60000⟩, .heartbeatAnswer 6 false, []),
    (⟨borrowedAnswered, .idle, none⟩, .startServerLazily 10, [.statusRequest 60000]),
    (⟨borrowedAnswered, .lazily 60000, none⟩, .answer 11 false, [.throwsServerAlreadyFailed]),
    (⟨{ borrowedAnswered with status := .failed }, .idle, none⟩, .clean, [])]

theorem borrowedCalls_run : Run (Step borrowedServer) .new borrowedCalls
    ⟨{ borrowedAnswered with status := .failed, heartbeatShutdown := true }.reset, .idle, none⟩ := by
  have hprepared : prepared .new 60000 =
      ({ borrowedAnswered with latestOKIsAliveTimestamp := none }, [.scheduleAtFixedRate]) := rfl
  have hprepared' : prepared borrowedAnswered 60000 = (borrowedAnswered, []) := rfl
  have hasks : Step borrowedServer .new _ _ := .asks rfl (admitted_new 0) rfl hprepared (by simp) rfl
  have hadmitted : Admitted borrowedAnswered 10 := fun hfailed => by cases hfailed
  have hasks' : Step borrowedServer ⟨borrowedAnswered, .idle, none⟩ (.startServerLazily 10, [] ++ _) _ :=
    .asks rfl hadmitted rfl hprepared' (by simp) rfl
  exact .cons hasks <| .cons (.isUp rfl) <| .cons (.heartbeat rfl rfl rfl rfl) <| .cons (.heartbeatAnswer rfl) <|
    .cons hasks' <| .cons (.isDown rfl rfl) <| .cons (.clean rfl rfl) <| .nil _

theorem borrowedCalls_only :
    (effects borrowedCalls).count (.statusRequest 60000) = 3 ∧ (effects borrowedCalls).Forall (Effect.OnlyAsks 60000) :=
  ⟨by decide, List.forall_iff_forall_mem.mpr (existing_process_only borrowedCalls_run (by decide) rfl)⟩

end SonarJavascript.Bridge.Lifecycle

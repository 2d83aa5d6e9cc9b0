import SonarJavascript.Lib.Runs

/-!
# The Java side of the bridge: life of the Node.js server

One thread calls `startServerLazily` and `clean`; the heartbeat thread sends its own `/status` requests in
between, so it may run at each point where the first one waits (for an answer, for a file, asleep). Fields are
read and written atomically.

The environment answers: what `/status` returns and when, which port is open, whether the runtime can be
deployed and started, and whether a thread is interrupted.
-/

namespace SonarJavascript.Bridge.Lifecycle

inductive Status
  | notStarted
  | failed
  | started
  deriving DecidableEq

/-- The mutable fields. -/
structure BridgeServerImpl where
  port : ℕ
  /-- Whether there is a `nodeCommand`. -/
  nodeCommand : Bool
  status : Status
  /-- Whether `heartbeatService` has been shut down. -/
  heartbeatShutdown : Bool
  /-- Whether there is a `heartbeatFuture`. -/
  heartbeatFuture : Bool
  latestOKIsAliveTimestamp : Option ℕ
  deriving DecidableEq

/-- What does not change while the process lives. -/
structure Environment where
  timeoutSeconds : ℕ
  /-- Of the environment variable; `none` where it throws, 0 where the variable is not set. -/
  nodeAlreadyRunningPort : Option ℕ

def TIME_AFTER_FAILURE_TO_RESTART_MS : ℕ := 60 * 1000

/-- What a step does to the outside. -/
inductive Effect
  | statusRequest (port : ℕ)
  | closeRequest (port : ℕ)
  /-- `NodeCommand.start` has created a process. -/
  | startProcess (port : ℕ)
  | scheduleAtFixedRate
  | throwsServerAlreadyFailed
  | throwsNodeCommandException
  | throwsOther
  deriving DecidableEq

namespace BridgeServerImpl

/-- The fields of a new instance. -/
def new : BridgeServerImpl := ⟨0, false, .notStarted, false, false, none⟩

/-- `serverHasStarted`; `scheduleAtFixedRate` throws once the service has been shut down. -/
def serverHasStarted (s : BridgeServerImpl) : BridgeServerImpl × List Effect :=
  if s.heartbeatFuture then ({ s with status := .started }, [])
  else if s.heartbeatShutdown then ({ s with status := .started }, [.throwsOther])
  else ({ s with status := .started, heartbeatFuture := true }, [.scheduleAtFixedRate])

def shouldRestartFailedServer (s : BridgeServerImpl) (now : ℕ) : Bool :=
  match s.latestOKIsAliveTimestamp with
  | none => false
  | some latest => decide (now - latest > TIME_AFTER_FAILURE_TO_RESTART_MS)

/-- The guard of `isAlive`: otherwise it is `false` without a request. -/
def asksStatus (s : BridgeServerImpl) : Bool := s.nodeCommand || s.status = .started

/-- The end of `isAlive`: whether the answer is `OK!`. -/
def answered (s : BridgeServerImpl) (now : ℕ) (result : Bool) : BridgeServerImpl :=
  if result then { s with latestOKIsAliveTimestamp := some now } else s

/-- The first statement of `startServerLazily`, where it does not throw. -/
def resetStatus (s : BridgeServerImpl) : BridgeServerImpl :=
  if s.status = .failed then { s with status := .notStarted } else s

/-- The second one. -/
def useExistingProcess (s : BridgeServerImpl) (providedPort : ℕ) : BridgeServerImpl × List Effect :=
  if providedPort = 0 then (s, []) else { s with port := providedPort }.serverHasStarted

/-- The last two statements of `clean`. -/
def reset (s : BridgeServerImpl) : BridgeServerImpl := { s with port := 0, status := .notStarted }

end BridgeServerImpl

/-- Where the calling thread is. -/
inductive Caller
  | idle
  /-- `isAlive` of `startServerLazily` waits for the answer from the port. -/
  | lazily (port : ℕ)
  | deploying
  /-- In `startServer`, before the process. -/
  | startingServer
  /-- `waitServerToStart` sleeps. -/
  | sleeping (start : ℕ)
  /-- `isAlive` of `waitServerToStart` waits for the answer. -/
  | polling (start port : ℕ)
  /-- `isAlive` of `clean` waits for the answer. -/
  | cleaning (port : ℕ)
  deriving DecidableEq

structure Process where
  server : BridgeServerImpl
  caller : Caller
  /-- The port that the heartbeat waits for. -/
  heartbeat : Option ℕ

namespace Process

def new : Process := ⟨.new, .idle, none⟩

end Process

inductive Input
  | startServerLazily (now : ℕ)
  /-- To the caller's request. -/
  | answer (now : ℕ) (ok : Bool)
  | requestInterrupted
  /-- By the bundle, the embedded runtime or the rules. -/
  | deployFails (nodeCommandException : Bool)
  /-- The deployment is over. -/
  | findOpenPort (port : ℕ)
  /-- No script, or no suitable Node.js. -/
  | initNodeCommandFails (nodeCommandException : Bool)
  | nodeCommandStart (now : ℕ) (succeeds : Bool)
  | sleepOver
  | sleepInterrupted
  | clean
  | heartbeat
  /-- To the request of the heartbeat. -/
  | heartbeatAnswer (now : ℕ) (ok : Bool)
  deriving DecidableEq

/-- The status after an exception out of `startServerLazily`. -/
def thrown (nodeCommandException : Bool) (server : BridgeServerImpl) : BridgeServerImpl × List Effect :=
  if nodeCommandException then ({ server with status := .failed }, [.throwsNodeCommandException])
  else (server, [.throwsOther])

/-- `startServerLazily` is not refused. -/
def Admitted (server : BridgeServerImpl) (now : ℕ) : Prop :=
  server.status = .failed → server.shouldRestartFailedServer now = true

/-- The server after the statements before `isAlive`. -/
def prepared (server : BridgeServerImpl) (providedPort : ℕ) : BridgeServerImpl × List Effect :=
  server.resetStatus.useExistingProcess providedPort

/-- One step of either thread, with its effects. -/
inductive Step (env : Environment) : Process → Input × List Effect → Process → Prop
  | refused {s : Process} {now : ℕ} (h : s.caller = .idle) (hrefused : ¬ Admitted s.server now) :
      Step env s (.startServerLazily now, [.throwsServerAlreadyFailed]) s
  | portInvalid {s : Process} {now : ℕ} (h : s.caller = .idle) (hadmitted : Admitted s.server now)
      (hport : env.nodeAlreadyRunningPort = none) :
      Step env s (.startServerLazily now, [.throwsOther]) { s with server := s.server.resetStatus }
  | rejected {s : Process} {now providedPort : ℕ} {server : BridgeServerImpl} (h : s.caller = .idle)
      (hadmitted : Admitted s.server now) (hport : env.nodeAlreadyRunningPort = some providedPort)
      (hprepared : prepared s.server providedPort = (server, [.throwsOther])) :
      Step env s (.startServerLazily now, [.throwsOther]) { s with server := server }
  | asks {s : Process} {now providedPort : ℕ} {server : BridgeServerImpl} {effects : List Effect}
      (h : s.caller = .idle) (hadmitted : Admitted s.server now)
      (hport : env.nodeAlreadyRunningPort = some providedPort)
      (hprepared : prepared s.server providedPort = (server, effects)) (heffects : .throwsOther ∉ effects)
      (hasks : server.asksStatus = true) :
      Step env s (.startServerLazily now, effects ++ [.statusRequest server.port])
        { s with server := server, caller := .lazily server.port }
  | notAlive {s : Process} {now providedPort : ℕ} {server : BridgeServerImpl} {effects : List Effect}
      (h : s.caller = .idle) (hadmitted : Admitted s.server now)
      (hport : env.nodeAlreadyRunningPort = some providedPort)
      (hprepared : prepared s.server providedPort = (server, effects)) (heffects : .throwsOther ∉ effects)
      (hasks : server.asksStatus = false) :
      Step env s (.startServerLazily now, effects) { s with server := server, caller := .deploying }
  | isUp {s : Process} {now port : ℕ} (h : s.caller = .lazily port) :
      Step env s (.answer now true, []) { s with server := s.server.answered now true, caller := .idle }
  | isDown {s : Process} {now port : ℕ} (h : s.caller = .lazily port) (hstatus : s.server.status = .started) :
      Step env s (.answer now false, [.throwsServerAlreadyFailed])
        { s with server := { s.server with status := .failed }, caller := .idle }
  | notUp {s : Process} {now port : ℕ} (h : s.caller = .lazily port) (hstatus : s.server.status ≠ .started) :
      Step env s (.answer now false, []) { s with caller := .deploying }
  -- `IllegalStateException`, which nothing on the way out catches
  | requestInterrupted {s : Process} {port start : ℕ}
      (h : s.caller = .lazily port ∨ s.caller = .polling start port ∨ s.caller = .cleaning port) :
      Step env s (.requestInterrupted, [.throwsOther]) { s with caller := .idle }
  | deployFails {s : Process} {nodeCommandException : Bool} (h : s.caller = .deploying) :
      Step env s (.deployFails nodeCommandException, (thrown nodeCommandException s.server).2)
        { s with server := (thrown nodeCommandException s.server).1, caller := .idle }
  | findOpenPort {s : Process} {port : ℕ} (h : s.caller = .deploying) :
      Step env s (.findOpenPort port, [])
        { s with server := { s.server with port := port }, caller := .startingServer }
  | initNodeCommandFails {s : Process} {nodeCommandException : Bool} (h : s.caller = .startingServer) :
      Step env s (.initNodeCommandFails nodeCommandException, (thrown nodeCommandException s.server).2)
        { s with server := (thrown nodeCommandException s.server).1, caller := .idle }
  | processStarts {s : Process} {now : ℕ} (h : s.caller = .startingServer) :
      Step env s (.nodeCommandStart now true, [.startProcess s.server.port])
        { s with server := { s.server with nodeCommand := true }, caller := .sleeping now }
  | processFails {s : Process} {now : ℕ} (h : s.caller = .startingServer) :
      Step env s (.nodeCommandStart now false, [.throwsNodeCommandException])
        { s with server := { s.server with nodeCommand := true, status := .failed }, caller := .idle }
  | poll {s : Process} {start : ℕ} (h : s.caller = .sleeping start) :
      Step env s (.sleepOver, [.statusRequest s.server.port]) { s with caller := .polling start s.server.port }
  | pollOK {s : Process} {start port now : ℕ} (h : s.caller = .polling start port) :
      Step env s (.answer now true, (s.server.answered now true).serverHasStarted.2)
        { s with server := (s.server.answered now true).serverHasStarted.1, caller := .idle }
  | pollAgain {s : Process} {start port now : ℕ} (h : s.caller = .polling start port)
      (htime : now - start ≤ env.timeoutSeconds * 1000) :
      Step env s (.answer now false, []) { s with caller := .sleeping start }
  | timeout {s : Process} {start port now : ℕ} (h : s.caller = .polling start port)
      (htime : env.timeoutSeconds * 1000 < now - start) :
      Step env s (.answer now false, [.throwsNodeCommandException])
        { s with server := { s.server with status := .failed }, caller := .idle }
  -- `waitServerToStart` returns `true` here
  | sleepInterrupted {s : Process} {start : ℕ} (h : s.caller = .sleeping start) :
      Step env s (.sleepInterrupted, s.server.serverHasStarted.2)
        { s with server := s.server.serverHasStarted.1, caller := .idle }
  | cleanAsks {s : Process} (h : s.caller = .idle) (hcommand : s.server.nodeCommand = true) :
      Step env s (.clean, [.statusRequest s.server.port])
        { s with server := { s.server with heartbeatShutdown := true }, caller := .cleaning s.server.port }
  | clean {s : Process} (h : s.caller = .idle) (hcommand : s.server.nodeCommand = false) :
      Step env s (.clean, []) { s with server := { s.server with heartbeatShutdown := true }.reset }
  | close {s : Process} {now port : ℕ} (h : s.caller = .cleaning port) :
      Step env s (.answer now true, [.closeRequest s.server.port])
        { s with server := { s.server.answered now true with nodeCommand := false }.reset, caller := .idle }
  | closeFails {s : Process} {now port : ℕ} (h : s.caller = .cleaning port) :
      Step env s (.answer now true, [.closeRequest s.server.port, .throwsOther])
        { s with server := s.server.answered now true, caller := .idle }
  | closeDead {s : Process} {now port : ℕ} (h : s.caller = .cleaning port) :
      Step env s (.answer now false, []) { s with server := s.server.reset, caller := .idle }
  | heartbeat {s : Process} (hfuture : s.server.heartbeatFuture = true)
      (hshutdown : s.server.heartbeatShutdown = false) (hnone : s.heartbeat = none)
      (hasks : s.server.asksStatus = true) :
      Step env s (.heartbeat, [.statusRequest s.server.port]) { s with heartbeat := some s.server.port }
  | heartbeatSkips {s : Process} (hfuture : s.server.heartbeatFuture = true)
      (hshutdown : s.server.heartbeatShutdown = false) (hnone : s.heartbeat = none)
      (hasks : s.server.asksStatus = false) :
      Step env s (.heartbeat, []) s
  | heartbeatAnswer {s : Process} {now port : ℕ} {ok : Bool} (h : s.heartbeat = some port) :
      Step env s (.heartbeatAnswer now ok, []) { s with server := s.server.answered now ok, heartbeat := none }

end SonarJavascript.Bridge.Lifecycle

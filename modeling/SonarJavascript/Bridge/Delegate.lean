import Mathlib.Data.List.Nodup
import SonarJavascript.Lib.Runs

/-!
# Requests and results of the worker

With a worker, the handler of a request registers a `once` listener for the next message of the worker and
posts the request. The worker handles the requests it receives concurrently and posts a result when one is
done. Messages arrive in order; nothing in a result says which request it is for.

Requests are numbered as they arrive, and messages carry the number of their request, which the code does
not read. `correlated_iff`: the responses of a run are right exactly when every result is delivered while one
request is waiting.
-/

namespace SonarJavascript.Bridge

inductive RequestType
  | onAnalyzeCss | onAnalyzeHtml | onAnalyzeJs | onAnalyzeProject | onAnalyzeTs | onAnalyzeWithProgram
  | onAnalyzeYaml | onCreateProgram | onCreateTsconfigFile | onDeleteProgram | onGetTelemetry | onInitLinter
  | onNewTsconfig | onTsconfigFiles

structure BridgeRequest (Data : Type) where
  type : RequestType
  data : Data

inductive RequestResult (Output Error : Type)
  | success (result : Output)
  | failure (error : Error)

/-- What a handler does with its response. -/
inductive Reply (Output Ast Error : Type)
  | formData (ast : Ast) (rest : Output)
  | send (result : Output)
  | next (error : Error)

variable {Data Output Ast Error : Type}

/-- The call has an output or it throws, and everything is thrown inside the `try`. -/
def handleRequest : Except Error Output → RequestResult Output Error
  | .ok output => .success output
  | .error error => .failure error

/-- `takeAst` takes `ast` out of an object that has it. -/
def handleResult (takeAst : Output → Option (Ast × Output)) : RequestResult Output Error → Reply Output Ast Error
  | .success result =>
    match takeAst result with
    | some (ast, rest) => .formData ast rest
    | none => .send result
  | .failure error => .next error

/-! ### The server -/

/-- A response, with the message that it was made from. -/
structure Response (Output Ast Error : Type) where
  request : ℕ
  reply : Reply Output Ast Error
  message : ℕ

/-- A result message that was emitted: the requests that were waiting, and those it was used for. -/
structure Delivery where
  waiting : List ℕ
  receivers : List ℕ

/-- The main thread, the worker and the messages between them. `computed` are the results of all calls. -/
structure Server (Data Output Ast Error : Type) where
  arrived : ℕ
  listeners : List ℕ
  toWorker : List (ℕ × BridgeRequest Data)
  computing : List (ℕ × BridgeRequest Data)
  computed : List (ℕ × RequestResult Output Error)
  toMain : List (ℕ × RequestResult Output Error)
  responses : List (Response Output Ast Error)
  deliveries : List Delivery

inductive ServerEvent (Data Output Error : Type)
  | arrive (request : BridgeRequest Data)
  | deliverRequest
  | complete (request : ℕ) (outcome : Except Error Output)
  | deliverResult

namespace Server

variable (server : Server Data Output Ast Error)

def start : Server Data Output Ast Error := ⟨0, [], [], [], [], [], [], []⟩

/-- The handler of `createWorkerHandler`. -/
def arrive (request : BridgeRequest Data) : Server Data Output Ast Error :=
  { server with
    arrived := server.arrived + 1
    listeners := server.listeners ++ [server.arrived]
    toWorker := server.toWorker ++ [(server.arrived, request)] }

/-- The listener of the worker starts to handle a request. -/
def deliverRequest (message : ℕ × BridgeRequest Data) (rest : List (ℕ × BridgeRequest Data)) :
    Server Data Output Ast Error :=
  { server with toWorker := rest, computing := server.computing ++ [message] }

/-- `parentThread.postMessage(await handleRequest(message))` -/
def complete (before after : List (ℕ × BridgeRequest Data)) (request : ℕ) (outcome : Except Error Output) :
    Server Data Output Ast Error :=
  { server with
    computing := before ++ after
    computed := server.computed ++ [(request, handleRequest outcome)]
    toMain := server.toMain ++ [(request, handleRequest outcome)] }

/-- The worker emits `message`: all listeners are removed and called. -/
def deliverResult (takeAst : Output → Option (Ast × Output)) (message : ℕ × RequestResult Output Error)
    (rest : List (ℕ × RequestResult Output Error)) : Server Data Output Ast Error :=
  { server with
    toMain := rest
    listeners := []
    responses := server.responses ++
      server.listeners.map fun request => ⟨request, handleResult takeAst message.2, message.1⟩
    deliveries := server.deliveries ++
      [⟨(List.range server.arrived).filter fun request => request ∉ server.responses.map Response.request,
        server.listeners⟩] }

end Server

open Server

inductive ServerStep (takeAst : Output → Option (Ast × Output)) : Server Data Output Ast Error →
    ServerEvent Data Output Error → Server Data Output Ast Error → Prop
  | arrive {server : Server Data Output Ast Error} (request : BridgeRequest Data) :
      ServerStep takeAst server (.arrive request) (server.arrive request)
  | deliverRequest {server : Server Data Output Ast Error} {message rest} (h : server.toWorker = message :: rest) :
      ServerStep takeAst server .deliverRequest (server.deliverRequest message rest)
  | complete {server : Server Data Output Ast Error} {before after : List (ℕ × BridgeRequest Data)} {request data}
      (h : server.computing = before ++ (request, data) :: after) (outcome : Except Error Output) :
      ServerStep takeAst server (.complete request outcome) (server.complete before after request outcome)
  | deliverResult {server : Server Data Output Ast Error} {message rest} (h : server.toMain = message :: rest) :
      ServerStep takeAst server .deliverResult (server.deliverResult takeAst message rest)

variable {takeAst : Output → Option (Ast × Output)} {server server' : Server Data Output Ast Error}

/-- Every response has the result of its own request, and every result message is used for one response
where a request is waiting. -/
structure Correlated (takeAst : Output → Option (Ast × Output)) (server : Server Data Output Ast Error) :
    Prop where
  own : ∀ response ∈ server.responses, ∃ result, (response.request, result) ∈ server.computed ∧
    response.reply = handleResult takeAst result
  once : (server.responses.map Response.message).Nodup
  used : ∀ delivery ∈ server.deliveries, delivery.waiting ≠ [] → delivery.receivers ≠ []

/-- A result is delivered to one listener. -/
def OneWaiting (server : Server Data Output Ast Error) : ServerEvent Data Output Error → Prop
  | .deliverResult => server.listeners.length ≤ 1
  | _ => True

/-- The requests that are on their way. -/
def Server.inFlight (server : Server Data Output Ast Error) : List ℕ :=
  server.toWorker.map Prod.fst ++ server.computing.map Prod.fst ++ server.toMain.map Prod.fst

/-- Every request on its way has its listener, and no message has been used for it. -/
structure ServerInv (takeAst : Output → Option (Ast × Output)) (server : Server Data Output Ast Error) :
    Prop where
  correlated : Correlated takeAst server
  listening : server.listeners.Perm server.inFlight
  nodup : server.inFlight.Nodup
  arrived : ∀ request ∈ server.inFlight, request < server.arrived
  unused : ∀ response ∈ server.responses, response.message < server.arrived ∧
    response.message ∉ server.inFlight
  computed : server.toMain ⊆ server.computed

theorem serverInv_start : ServerInv takeAst (start : Server Data Output Ast Error) where
  correlated := ⟨by simp [start], by simp [start], by simp [start]⟩
  listening := .refl _
  nodup := by simp [start, inFlight]
  arrived := by simp [start, inFlight]
  unused := by simp [start]
  computed := by simp [start]

/-- A step that only moves messages. -/
theorem ServerInv.move (h : ServerInv takeAst server) (hperm : server'.inFlight.Perm server.inFlight)
    (hlisteners : server'.listeners = server.listeners) (harrived : server'.arrived = server.arrived)
    (hresponses : server'.responses = server.responses) (hdeliveries : server'.deliveries = server.deliveries)
    (hcomputed : server.computed ⊆ server'.computed) (htoMain : server'.toMain ⊆ server'.computed) :
    ServerInv takeAst server' where
  correlated := by
    refine ⟨fun response hresponse => ?_, ?_, ?_⟩
    · obtain ⟨result, hresult, hreply⟩ := h.correlated.own response (hresponses ▸ hresponse)
      exact ⟨result, hcomputed hresult, hreply⟩
    · rw [hresponses]
      exact h.correlated.once
    · rw [hdeliveries]
      exact h.correlated.used
  listening := by
    rw [hlisteners]
    exact h.listening.trans hperm.symm
  nodup := hperm.nodup_iff.mpr h.nodup
  arrived request hrequest := harrived ▸ h.arrived request (hperm.subset hrequest)
  unused response hresponse := by
    obtain ⟨hlt, hnot⟩ := h.unused response (hresponses ▸ hresponse)
    exact ⟨harrived ▸ hlt, fun hin => hnot (hperm.subset hin)⟩
  computed := htoMain

theorem perm_inFlight_arrive (server : Server Data Output Ast Error) (request : BridgeRequest Data) :
    (server.arrive request).inFlight.Perm (server.arrived :: server.inFlight) := by
  simp only [inFlight, Server.arrive, List.map_append, List.map_cons, List.map_nil, List.append_assoc]
  exact List.perm_middle

theorem ServerInv.arrive (h : ServerInv takeAst server) (request : BridgeRequest Data) :
    ServerInv takeAst (server.arrive request) where
  correlated := ⟨h.correlated.own, h.correlated.once, h.correlated.used⟩
  listening := ((List.perm_append_singleton _ _).trans (h.listening.cons _)).trans
    (perm_inFlight_arrive server request).symm
  nodup := by
    refine (perm_inFlight_arrive server request).nodup_iff.mpr (List.nodup_cons.mpr ⟨fun hmem => ?_, h.nodup⟩)
    exact absurd (h.arrived _ hmem) (Nat.lt_irrefl _)
  arrived other hmem := by
    obtain rfl | hmem := List.mem_cons.mp ((perm_inFlight_arrive server request).subset hmem)
    · exact Nat.lt_succ_self _
    · exact Nat.lt_succ_of_lt (h.arrived other hmem)
  unused response hresponse := by
    obtain ⟨hlt, hnot⟩ := h.unused response hresponse
    refine ⟨Nat.lt_succ_of_lt hlt, fun hmem => ?_⟩
    obtain heq | hmem := List.mem_cons.mp ((perm_inFlight_arrive server request).subset hmem)
    · exact absurd hlt (heq ▸ Nat.lt_irrefl _)
    · exact hnot hmem
  computed := h.computed

/-- With one listener, the message is for the request of that listener. -/
theorem ServerInv.listeners_eq (h : ServerInv takeAst server) {message : ℕ × RequestResult Output Error}
    {rest : List (ℕ × RequestResult Output Error)} (hmain : server.toMain = message :: rest)
    (hone : server.listeners.length ≤ 1) :
    server.listeners = [message.1] ∧ server.inFlight = [message.1] := by
  have hmem : message.1 ∈ server.inFlight := by simp [inFlight, hmain]
  have hlen : server.inFlight.length ≤ 1 := h.listening.length_eq ▸ hone
  obtain ⟨request, hrequest⟩ : ∃ request, server.inFlight = [request] := by
    match hflight : server.inFlight with
    | [] => simp [hflight] at hmem
    | [request] => exact ⟨request, rfl⟩
    | _ :: _ :: _ =>
      rw [hflight] at hlen
      simp at hlen
  rw [hrequest, List.mem_singleton] at hmem
  subst hmem
  exact ⟨List.perm_singleton.mp (hrequest ▸ h.listening), hrequest⟩

theorem ServerInv.deliverResult (h : ServerInv takeAst server) {message : ℕ × RequestResult Output Error}
    {rest : List (ℕ × RequestResult Output Error)} (hmain : server.toMain = message :: rest)
    (hone : server.listeners.length ≤ 1) : ServerInv takeAst (server.deliverResult takeAst message rest) := by
  obtain ⟨hlisteners, hflight⟩ := h.listeners_eq hmain hone
  have hmessage : message ∈ server.computed := h.computed (by simp [hmain])
  have hempty : (server.deliverResult takeAst message rest).inFlight = [] := by
    have hlen := congrArg List.length hflight
    simp only [inFlight, hmain, List.length_append, List.length_map, List.length_cons, List.length_nil] at hlen
    refine List.length_eq_zero_iff.mp ?_
    simp only [inFlight, Server.deliverResult, List.length_append, List.length_map]
    omega
  have hresponses : (server.deliverResult takeAst message rest).responses =
      server.responses ++ [⟨message.1, handleResult takeAst message.2, message.1⟩] := by
    simp [Server.deliverResult, hlisteners]
  refine ⟨⟨?_, ?_, ?_⟩, ?_, ?_, ?_, ?_, ?_⟩
  · rw [hresponses]
    refine List.forall_mem_append.mpr ⟨h.correlated.own, List.forall_mem_singleton.mpr ?_⟩
    exact ⟨message.2, hmessage, rfl⟩
  · rw [hresponses, List.map_append, List.map_singleton]
    refine List.Nodup.append h.correlated.once (List.nodup_singleton _) ?_
    rw [List.disjoint_singleton]
    intro hmem
    obtain ⟨response, hresponse, heq⟩ := List.mem_map.mp hmem
    exact (h.unused response hresponse).2 (by rw [heq, hflight]; exact List.mem_singleton_self _)
  · exact List.forall_mem_append.mpr ⟨h.correlated.used, List.forall_mem_singleton.mpr fun _ => by simp [hlisteners]⟩
  · rw [hempty]
    exact .refl _
  · rw [hempty]
    exact List.nodup_nil
  · rw [hempty]
    simp
  · rw [hempty, hresponses]
    refine List.forall_mem_append.mpr ⟨fun response hresponse => ⟨(h.unused response hresponse).1, by simp⟩,
      List.forall_mem_singleton.mpr ⟨?_, by simp⟩⟩
    exact h.arrived _ (by rw [hflight]; exact List.mem_singleton_self _)
  · exact fun other hother => h.computed (by rw [hmain]; exact List.mem_cons_of_mem _ hother)

theorem ServerInv.step {e : ServerEvent Data Output Error} (h : ServerInv takeAst server)
    (hstep : ServerStep takeAst server e server') (hone : OneWaiting server e) : ServerInv takeAst server' := by
  cases hstep with
  | arrive request => exact h.arrive request
  | @deliverRequest message rest hworker =>
    refine h.move ?_ rfl rfl rfl rfl (fun _ => id) h.computed
    refine List.perm_iff_count.mpr fun request => ?_
    simp only [inFlight, Server.deliverRequest, hworker, List.map_append, List.map_cons, List.map_nil,
      List.count_append, List.count_cons, List.count_nil]
    omega
  | @complete before after request data hcomputing outcome =>
    refine h.move ?_ rfl rfl rfl rfl (List.subset_append_left _ _) ?_
    · refine List.perm_iff_count.mpr fun other => ?_
      simp only [inFlight, Server.complete, hcomputing, List.map_append, List.map_cons, List.map_nil,
        List.count_append, List.count_cons, List.count_nil]
      omega
    · exact List.append_subset.mpr
        ⟨fun other hother => List.mem_append_left _ (h.computed hother), List.subset_append_right _ _⟩
  | deliverResult hmain => exact h.deliverResult hmain hone

theorem oneWaiting_of_correlated {e : ServerEvent Data Output Error}
    (hstep : ServerStep takeAst server e server') (hcorrelated : Correlated takeAst server') :
    OneWaiting server e := by
  cases hstep with
  | arrive request => trivial
  | deliverRequest hworker => trivial
  | complete hcomputing outcome => trivial
  | @deliverResult message rest hmain =>
    have honce := hcorrelated.once
    simp only [Server.deliverResult, List.map_append, List.map_map] at honce
    have hconst := (List.nodup_append.mp honce).2.1
    match hlisteners : server.listeners with
    | [] => simp [OneWaiting, hlisteners]
    | [_] => simp [OneWaiting, hlisteners]
    | _ :: _ :: _ => simp [hlisteners] at hconst

/-- **When responses are right.** In every state of a run each response has the result of its own request and
no message is used twice, or not at all, if and only if at every delivery of a result at most one request is
waiting. -/
theorem correlated_iff {trace : List (Server Data Output Ast Error × ServerEvent Data Output Error)}
    {last : Server Data Output Ast Error} (hrun : Run (ServerStep takeAst) start trace last) :
    Throughout (Correlated takeAst) trace last ↔ ∀ step ∈ trace, OneWaiting step.1 step.2 :=
  hrun.throughout_iff serverInv_start (fun _ h => h.correlated) (fun _ _ _ h hstep => h.step hstep)
    fun _ _ _ _ hstep => oneWaiting_of_correlated hstep

/-! ### Two requests -/

def analyzeJs (file : String) : BridgeRequest String := ⟨.onAnalyzeJs, file⟩

/-- The server of these runs: results are texts. -/
abbrev TextServer := Server String String Unit String

def noAst (_ : String) : Option (Unit × String) := none

def oneArrived : TextServer := start.arrive (analyzeJs "a.js")

def oneReceived : TextServer := oneArrived.deliverRequest (0, analyzeJs "a.js") []

def oneDone : TextServer := oneReceived.complete [] [] 0 (.ok "issues of a.js")

def firstAnswered : TextServer := oneDone.deliverResult noAst (0, .success "issues of a.js") []

def secondArrived : TextServer := firstAnswered.arrive (analyzeJs "b.js")

def secondReceived : TextServer := secondArrived.deliverRequest (1, analyzeJs "b.js") []

def secondDone : TextServer := secondReceived.complete [] [] 1 (.ok "issues of b.js")

def inTurn : List (TextServer × ServerEvent String String String) :=
  [(start, .arrive (analyzeJs "a.js")), (oneArrived, .deliverRequest),
    (oneReceived, .complete 0 (.ok "issues of a.js")), (oneDone, .deliverResult),
    (firstAnswered, .arrive (analyzeJs "b.js")), (secondArrived, .deliverRequest),
    (secondReceived, .complete 1 (.ok "issues of b.js")), (secondDone, .deliverResult)]

/-- A request that is answered before the next one. -/
theorem correlated_iff_inTurn : Throughout (Correlated noAst) inTurn
    (secondDone.deliverResult noAst (1, .success "issues of b.js") []) := by
  refine (correlated_iff ?_).mpr (by simp [OneWaiting, inTurn, secondDone, secondReceived, secondArrived, firstAnswered,
    oneDone, oneReceived, oneArrived, Server.arrive, Server.deliverRequest, Server.complete, Server.deliverResult, start])
  exact .cons (.arrive _) (.cons (.deliverRequest rfl) (.cons (.complete rfl _) (.cons (.deliverResult rfl)
    (.cons (.arrive _) (.cons (.deliverRequest rfl) (.cons (.complete rfl _) (.cons (.deliverResult rfl) (.nil _))))))))

def bothArrived : TextServer := oneArrived.arrive (analyzeJs "b.js")

def bothReceived : TextServer :=
  bothArrived.deliverRequest (0, analyzeJs "a.js") [(1, analyzeJs "b.js")]

def firstDone : TextServer := bothReceived.complete [] [] 0 (.ok "issues of a.js")

def firstDelivered : TextServer := firstDone.deliverResult noAst (0, .success "issues of a.js") []

/-- Two requests overlap, and the result of the first one is the response of both. -/
theorem both_answered_by_first :
    Run (ServerStep noAst) start
        [(start, .arrive (analyzeJs "a.js")), (oneArrived, .arrive (analyzeJs "b.js")), (bothArrived, .deliverRequest),
          (bothReceived, .complete 0 (.ok "issues of a.js")), (firstDone, .deliverResult)] firstDelivered ∧
      firstDelivered.responses = [⟨0, .send "issues of a.js", 0⟩, ⟨1, .send "issues of a.js", 0⟩] ∧
      ¬ Correlated noAst firstDelivered := by
  refine ⟨?_, rfl, fun h => absurd h.once (by decide)⟩
  exact .cons (.arrive _) (.cons (.arrive _) (.cons (.deliverRequest rfl) (.cons (.complete rfl _)
    (.cons (.deliverResult rfl) (.nil _)))))

end SonarJavascript.Bridge

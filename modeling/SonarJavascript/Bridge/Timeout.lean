import SonarJavascript.Lib.Runs

/-!
# The shutdown timer of the bridge

`timeoutMiddleware` stops a timer when a request arrives and starts it when a response finishes; `cancel`
stops it for good. All requests share the timer, which is one handle of Node.js at most.

`guarded_iff`: in every state of a run the timer is armed when and only when it should be, exactly when no
response finishes while another request is open or after `cancel`, and no response that is the only open one
is closed without finishing.
-/

namespace SonarJavascript.Bridge

/-! ### The timer -/

/-- The timers of Node.js that have not been cleared, and the `Timeout` object. -/
structure Timers where
  pending : List ℕ
  nextHandle : ℕ
  timeout : Option ℕ

namespace Timers

/-- `clearTimeout(this.timeout)`, if there is one. -/
def stop (timers : Timers) : Timers :=
  match timers.timeout with
  | none => timers
  | some handle => { timers with pending := timers.pending.erase handle, timeout := none }

/-- `this.timeout = setTimeout(..)`, after `stop`. -/
def start (timers : Timers) : Timers :=
  { pending := timers.stop.pending ++ [timers.stop.nextHandle]
    nextHandle := timers.stop.nextHandle + 1
    timeout := some timers.stop.nextHandle }

/-- The only timer that may be pending is the one of the object. -/
def Single (timers : Timers) : Prop := timers.pending = timers.timeout.toList

theorem Single.pending_stop {timers : Timers} (h : timers.Single) : timers.stop.pending = [] := by
  unfold stop
  cases htimeout : timers.timeout with
  | none => simpa [Single, htimeout] using h
  | some handle =>
    rw [Single, htimeout] at h
    simp [h]

theorem Single.stop {timers : Timers} (h : timers.Single) : timers.stop.Single := by
  rw [Single, h.pending_stop]
  unfold Timers.stop
  cases htimeout : timers.timeout with
  | none => simp [htimeout]
  | some handle => rfl

theorem Single.start {timers : Timers} (h : timers.Single) : timers.start.Single := by
  simp [Single, Timers.start, h.pending_stop]

end Timers

/-! ### The middleware -/

/-- An open request: its response has not been closed. `listens` says that the middleware has registered
its `finish` listener. -/
structure OpenRequest where
  request : ℕ
  listens : Bool
  deriving DecidableEq

structure Middleware where
  timers : Timers
  cancelled : Bool
  openRequests : List OpenRequest

/-- What happens to the server: a request arrives, its response finishes, its connection is aborted. -/
inductive Event
  | arrive (request : ℕ)
  | finish (request : ℕ)
  | abort (request : ℕ)
  | cancel

namespace Middleware

/-- `timeoutMiddleware(f, delay)` -/
def create : Middleware := ⟨Timers.start ⟨[], 0, none⟩, false, []⟩

/-- `middleware(request, response, next)` -/
def arrive (m : Middleware) (request : ℕ) : Middleware :=
  if m.cancelled then { m with openRequests := m.openRequests ++ [⟨request, false⟩] }
  else { m with timers := m.timers.stop, openRequests := m.openRequests ++ [⟨request, true⟩] }

/-- The response is closed. -/
def close (m : Middleware) (request : ℕ) : Middleware :=
  { m with openRequests := m.openRequests.filter (·.request ≠ request) }

/-- The response emits `finish`, and the listener of its request starts the timer. -/
def finish (m : Middleware) (request : ℕ) : Middleware :=
  if ⟨request, true⟩ ∈ m.openRequests then { m.close request with timers := m.timers.start }
  else m.close request

def cancel (m : Middleware) : Middleware := { m with cancelled := true, timers := m.timers.stop }

/-- The timer is armed. -/
def Armed (m : Middleware) : Prop := m.timers.pending ≠ []

end Middleware

open Middleware

/-- One event. Requests are told apart, and only an open one is closed. -/
inductive Step : Middleware → Event → Middleware → Prop
  | arrive {m : Middleware} {request : ℕ} (hnew : ∀ o ∈ m.openRequests, o.request ≠ request) :
      Step m (.arrive request) (m.arrive request)
  | finish {m : Middleware} {request : ℕ} (hopen : ∃ o ∈ m.openRequests, o.request = request) :
      Step m (.finish request) (m.finish request)
  | abort {m : Middleware} {request : ℕ} (hopen : ∃ o ∈ m.openRequests, o.request = request) :
      Step m (.abort request) (m.close request)
  | cancel {m : Middleware} : Step m .cancel m.cancel

/-- The timer protects against orphans: it is armed while the server waits for a request, and only then. -/
structure Guarded (m : Middleware) : Prop where
  idle : m.cancelled = false → m.openRequests = [] → m.Armed
  busy : m.openRequests ≠ [] → ¬ m.Armed
  cancelled : m.cancelled = true → ¬ m.Armed

/-- A response finishes as the only open one and before `cancel`, unless its request came after `cancel`;
it is closed without finishing while another one is open or after `cancel`. -/
def Orderly (m : Middleware) : Event → Prop
  | .arrive _ => True
  | .finish request => ⟨request, true⟩ ∈ m.openRequests →
      m.cancelled = false ∧ ∀ o ∈ m.openRequests, o.request = request
  | .abort request => m.cancelled = true ∨ ∃ o ∈ m.openRequests, o.request ≠ request
  | .cancel => True

/-- The invariant of the runs whose steps are orderly: only a request that came after `cancel` has no
listener. -/
structure Inv (m : Middleware) : Prop where
  single : m.timers.Single
  guarded : Guarded m
  listens : ∀ o ∈ m.openRequests, o.listens = false → m.cancelled = true

theorem inv_create : Inv create where
  single := Timers.Single.start rfl
  guarded :=
    { idle := fun _ _ => by simp [Armed, create, Timers.start]
      busy := fun hopen => absurd rfl hopen
      cancelled := fun h => by simp [create] at h }
  listens := by simp [create]

variable {m m' : Middleware}

theorem close_openRequests_eq_nil {request : ℕ} :
    (m.close request).openRequests = [] ↔ ∀ o ∈ m.openRequests, o.request = request := by
  simp [close, List.filter_eq_nil_iff]

theorem mem_of_mem_close {request : ℕ} {o : OpenRequest} (h : o ∈ (m.close request).openRequests) :
    o ∈ m.openRequests :=
  List.mem_of_mem_filter h

/-- A request that is closed in silence leaves the timer off, so it must not be the last one. -/
theorem Inv.close (h : Inv m) {request : ℕ} (hopen : ∃ o ∈ m.openRequests, o.request = request)
    (hother : m.cancelled = true ∨ ∃ o ∈ m.openRequests, o.request ≠ request) : Inv (m.close request) := by
  obtain ⟨o, ho, -⟩ := hopen
  have hoff : ¬ m.Armed := h.guarded.busy (List.ne_nil_of_mem ho)
  refine ⟨h.single, ⟨fun hnot hnil => ?_, fun _ => hoff, fun _ => hoff⟩, fun o ho => h.listens o (mem_of_mem_close ho)⟩
  obtain hcancelled | ⟨o, ho, hne⟩ := hother
  · exact absurd hcancelled (by simpa [Middleware.close] using hnot)
  · exact absurd (close_openRequests_eq_nil.mp hnil o ho) hne

theorem Inv.step {e : Event} (h : Inv m) (hstep : Step m e m') (horderly : Orderly m e) : Inv m' := by
  cases hstep with
  | @arrive request hnew =>
    unfold Middleware.arrive
    split_ifs with hcancelled
    · have hoff := h.guarded.cancelled hcancelled
      exact ⟨h.single, ⟨fun hnot => by simp [hcancelled] at hnot, fun _ => hoff, fun _ => hoff⟩,
        fun _ _ _ => hcancelled⟩
    · have hoff : ¬ (⟨m.timers.stop, m.cancelled, m.openRequests ++ [⟨request, true⟩]⟩ : Middleware).Armed :=
        fun harmed => harmed h.single.pending_stop
      refine ⟨h.single.stop, ⟨fun _ hnil => by simp at hnil, fun _ => hoff, fun _ => hoff⟩, fun o ho hsilent => ?_⟩
      obtain ho | ho := List.mem_append.mp ho
      · exact h.listens o ho hsilent
      · obtain rfl := List.mem_singleton.mp ho
        cases hsilent
  | @finish request hopen =>
    unfold Middleware.finish
    split_ifs with hlistens
    · obtain ⟨hcancelled, honly⟩ := horderly hlistens
      refine ⟨h.single.start, ⟨fun _ _ => ?_, fun hbusy => ?_, fun hc => ?_⟩,
        fun o ho => h.listens o (mem_of_mem_close ho)⟩
      · simp [Armed, Timers.start]
      · exact absurd (close_openRequests_eq_nil.mpr honly) hbusy
      · exact absurd hc (by simp [Middleware.close, hcancelled])
    · obtain ⟨o, ho, rfl⟩ := hopen
      have hsilent : o.listens = false := by
        obtain ⟨request, listens⟩ := o
        cases listens with
        | true => exact absurd ho hlistens
        | false => rfl
      exact h.close ⟨o, ho, rfl⟩ (.inl (h.listens o ho hsilent))
  | @abort request hopen => exact h.close hopen horderly
  | cancel =>
    have hoff : ¬ m.cancel.Armed := fun harmed => harmed h.single.pending_stop
    exact ⟨h.single.stop, ⟨fun hnot => by simp [Middleware.cancel] at hnot, fun _ => hoff, fun _ => hoff⟩,
      fun _ _ _ => rfl⟩

theorem Inv.orderly_of_guarded {e : Event} (h : Inv m) (hstep : Step m e m') (hguarded : Guarded m') :
    Orderly m e := by
  cases hstep with
  | arrive hnew => trivial
  | @finish request hopen =>
    intro hlistens
    have harmed : (m.finish request).Armed := by simp [Middleware.finish, hlistens, Armed, Timers.start]
    refine ⟨?_, ?_⟩
    · by_contra hcancelled
      exact hguarded.cancelled (by simpa [Middleware.finish, hlistens, Middleware.close] using hcancelled) harmed
    · rw [← close_openRequests_eq_nil]
      by_contra hbusy
      exact hguarded.busy (by simpa [Middleware.finish, hlistens] using hbusy) harmed
  | @abort request hopen =>
    obtain ⟨o, ho, -⟩ := hopen
    have hoff : ¬ m.Armed := h.guarded.busy (List.ne_nil_of_mem ho)
    by_contra hlast
    rw [Orderly, not_or] at hlast
    have hnil : (m.close request).openRequests = [] :=
      close_openRequests_eq_nil.mpr fun o ho => by_contra fun hne => hlast.2 ⟨o, ho, hne⟩
    exact hoff (hguarded.idle (by simpa [Middleware.close] using hlast.1) hnil)
  | cancel => trivial

/-- **When the timer guards the server.** It is armed in every state of a run in which it should be, and in no
other, if and only if every step of the run is orderly. -/
theorem guarded_iff {trace : List (Middleware × Event)} {last : Middleware} (hrun : Run Step create trace last) :
    Throughout Guarded trace last ↔ ∀ step ∈ trace, Orderly step.1 step.2 :=
  hrun.throughout_iff inv_create (fun _ h => h.guarded) (fun _ _ _ h hstep => h.step hstep)
    fun _ _ _ h hstep => h.orderly_of_guarded hstep

/-- One request, then `cancel`. -/
theorem guarded_iff_one_request :
    Throughout Guarded
      [(create, Event.arrive 0), (create.arrive 0, Event.finish 0), ((create.arrive 0).finish 0, Event.cancel)]
      ((create.arrive 0).finish 0).cancel :=
  (guarded_iff (.cons (.arrive (by simp [create])) (.cons (.finish ⟨⟨0, true⟩, by decide, rfl⟩)
    (.cons .cancel (.nil _))))).mpr (by simp [Orderly, create, Middleware.arrive])

/-- The client of the only request goes away, and the timer is never armed again. -/
theorem aborted_not_guarded :
    Run Step create [(create, Event.arrive 0), (create.arrive 0, Event.abort 0)] ((create.arrive 0).close 0) ∧
      ¬ Guarded ((create.arrive 0).close 0) :=
  ⟨.cons (.arrive (by simp [create])) (.cons (.abort ⟨⟨0, true⟩, by decide, rfl⟩) (.nil _)),
    fun h => h.idle rfl rfl rfl⟩

end SonarJavascript.Bridge

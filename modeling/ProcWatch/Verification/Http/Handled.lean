import ProcWatch.Verification.Http.Segmentation

/-! # What a connection does to the handler's state -/

namespace ProcWatch

open CLib

section Handled

variable {σ : Type} (srv : Server σ)

/-- The state after the handler has been called with these requests. -/
def handleAll (reqs : List HttpRequest) (s : σ) : σ :=
  reqs.foldl (fun s req => (srv.handler req s).2) s

/-- The calls and the state after them account for each other. -/
def HandledBy (s : σ) (r : Serviced σ) : Prop :=
  ∃ reqs : List HttpRequest, invocations r.2.2 = reqs.map (fun req => (req.signal, req.body)) ∧
    r.2.1 = handleAll srv reqs s

theorem handledBy_afterDispatch {c : Conn} {s s' : σ} {events : List HttpEvent}
    (h : HandledBy srv s (none, s', events)) :
    HandledBy srv s (afterDispatch c s' events) := by
  unfold afterDispatch
  split
  · exact h
  · exact h

theorem handledBy_none {c : Option Conn} {s : σ} {events : List HttpEvent}
    (h : invocations events = []) : HandledBy srv s (c, s, events) :=
  ⟨[], h, rfl⟩

theorem handledBy_dispatch (c : Conn) (sig : Signal) (body after : Bytes) (s : σ) :
    HandledBy srv s (dispatch srv c sig body after s) :=
  handledBy_afterDispatch srv ⟨[⟨sig, c.path.val, body, after⟩], rfl, rfl⟩

theorem handledBy_serveBody (c : Conn) (behind : Bytes) (s : σ) :
    HandledBy srv s (serveBody srv c behind s) := by
  rw [serveBody]
  split
  · exact handledBy_none srv rfl
  · dsimp only
    split
    · exact handledBy_afterDispatch srv (handledBy_none srv rfl)
    · split
      · split
        · exact handledBy_dispatch srv c _ _ _ s
        · exact handledBy_afterDispatch srv (handledBy_none srv rfl)
      · exact handledBy_dispatch srv c _ _ _ s

theorem handledBy_connService (c : Conn) (r : Recv) (behind : Bytes) (s : σ) :
    HandledBy srv s (connService srv c r behind s) := by
  cases r with
  | closed => exact handledBy_none srv rfl
  | again => exact handledBy_none srv rfl
  | error => exact handledBy_none srv rfl
  | data chunk =>
      rw [connService]
      dsimp only
      split
      · exact handledBy_serveBody srv _ behind s
      · split
        · exact handledBy_none srv rfl
        · exact handledBy_none srv rfl
        · split
          · exact handledBy_none srv rfl
          · exact handledBy_serveBody srv _ behind s

/-- Over a whole connection the state has seen the calls that its events show, in their order. -/
theorem handledBy_serve (ds : List Delivery) (c : Option Conn) (s : σ) :
    HandledBy srv s (serve srv ds c s) := by
  induction ds generalizing c s with
  | nil => exact handledBy_none srv rfl
  | cons d ds ih =>
      cases c with
      | none => exact handledBy_none srv rfl
      | some c =>
          obtain ⟨reqs, hevents, hstate⟩ := handledBy_connService srv c (.data d.chunk) d.behind s
          obtain ⟨reqs', hevents', hstate'⟩ :=
            ih (connService srv c (.data d.chunk) d.behind s).1
              (connService srv c (.data d.chunk) d.behind s).2.1
          refine ⟨reqs ++ reqs', ?_, ?_⟩
          · rw [serve, invocations_append, hevents, hevents', List.map_append]
          · rw [serve, hstate', hstate, handleAll, handleAll, handleAll, List.foldl_append]

end Handled

end ProcWatch

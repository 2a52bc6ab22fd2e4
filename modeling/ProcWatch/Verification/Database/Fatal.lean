import ProcWatch.Library.Ends
import ProcWatch.Model.DbBuf
import ProcWatch.Verification.Database.Statements

/-! # Failures that end the process -/

namespace ProcWatch

open CLib

variable {σ : Type}

/-! ## Fatal events -/

/-- The commands behind `die` or `exit(1)`. -/
def Command.vital : Command → Bool
  | .tableExists _ _ => true
  | .createSchema _ => true
  | .createTable .sample _ _ => true
  | .createTracker _ => true
  | .createUpdateLastWrite _ => true
  | .createDropInactive _ => true
  | .registerTable _ _ => true
  | _ => false

/-- The statements whose failure ends the process; `agentd` prepares no insert of samples. -/
def Stmt.vital : Stmt → Bool
  | .exec c => c.vital
  | .prepare _ target => target.rows = .sample
  | .execPrepared _ _ => false

/-- A vital statement that failed, or a file operation in which the process was killed. -/
def Event.fatal : Event → Bool
  | .sql _ _ (.done _) => false
  | .sql s _ _ => s.vital
  | .file _ .died => true
  | _ => false

def Harmless (es : List Event) : Prop :=
  ∀ e ∈ es, e.fatal = false

theorem Harmless.nil : Harmless [] :=
  fun _ he => absurd he List.not_mem_nil

theorem Harmless.append {es es' : List Event} (h : Harmless es) (h' : Harmless es') :
    Harmless (es ++ es') := by
  intro e he
  cases List.mem_append.mp he with
  | inl he => exact h e he
  | inr he => exact h' e he

theorem harmless_singleton {e : Event} (h : e.fatal = false) : Harmless [e] := by
  intro e' he
  rwa [List.mem_singleton.mp he]

/-- The process goes on as long as no event is fatal, and ends with the first fatal one. -/
def lifespan : Course (World σ) where
  going w w' := ∃ es, w'.events = w.events ++ es ∧ Harmless es
  ending w w' := ∃ es e, w'.events = w.events ++ (es ++ [e]) ∧ Harmless es ∧ e.fatal = true
  refl w := ⟨[], (List.append_nil _).symm, Harmless.nil⟩
  trans := by
    rintro w w' w'' ⟨es, hes, h⟩ ⟨es', hes', h'⟩
    exact ⟨es ++ es', by rw [hes', hes, List.append_assoc], h.append h'⟩
  after := by
    rintro w w' w'' ⟨es, hes, h⟩ ⟨es', e, hes', h', he⟩
    refine ⟨es ++ es', e, ?_, h.append h', he⟩
    rw [hes', hes, List.append_assoc, List.append_assoc]

theorem lifespan_going_of_eq {w w' : World σ} (h : w'.events = w.events) : lifespan.going w w' :=
  ⟨[], by rw [h, List.append_nil], Harmless.nil⟩

theorem lifespan_going_of_event {w w' : World σ} {e : Event} (h : w'.events = w.events ++ [e])
    (he : e.fatal = false) : lifespan.going w w' :=
  ⟨[e], h, harmless_singleton he⟩

theorem lifespan_ending_of_event {w w' : World σ} {e : Event} (h : w'.events = w.events ++ [e])
    (he : e.fatal = true) : lifespan.ending w w' :=
  ⟨[], e, h, Harmless.nil, he⟩

/-- A step without an event. -/
theorem lives_modify {P : World σ → Prop} {f : World σ → World σ}
    (hes : ∀ w, (f w).events = w.events) (hP : ∀ w, P w → P (f w)) :
    Prog.Ends lifespan P (fun _ => P) (Prog.modify f) :=
  Prog.ends_modify fun w hw => ⟨lifespan_going_of_eq (hes w), hP w hw⟩

/-! ## Statements -/

/-- There is a connection object, alive or not. -/
def Linked (w : World σ) : Prop :=
  w.conn ≠ none

/-- A program over a connection object keeps it and ends the process with fatal events only. -/
abbrev Mortal {α : Type} (m : Code σ α) : Prop :=
  Prog.Ends lifespan Linked (fun _ => Linked) m

section Mortal

variable {α β : Type}

theorem mortal_pure (a : α) : Mortal (pure a : Code σ α) :=
  Prog.ends_pure a

theorem mortal_bind {m : Code σ α} {f : α → Code σ β} (hm : Mortal m) (hf : ∀ a, Mortal (f a)) :
    Mortal (m >>= f) :=
  Prog.ends_bind hm hf

theorem mortal_get_bind {f : World σ → Code σ β} (h : ∀ w, Mortal (f w)) :
    Mortal (Prog.get >>= f) :=
  Prog.ends_get_bind fun w hw => (h w).mono (fun _ heq => heq ▸ hw) fun _ _ => id

theorem mortal_modify {f : World σ → World σ}
    (h : ∀ w, (f w).conn = w.conn ∧ (f w).events = w.events) : Mortal (Prog.modify f) :=
  lives_modify (fun w => (h w).2) fun w hw => by rwa [Linked, (h w).1]

theorem wp_issue_linked {s : Stmt} {w : World σ} (hw : Linked w) :
    Prog.wp (issue s) (fun r w' => Linked w' ∧ ∃ known, w'.events = w.events ++ [.sql s known r])
      (fun _ => False) w := by
  obtain ⟨c, hc⟩ := Option.ne_none_iff_exists'.mp hw
  rw [Prog.wp, issue_of_some hc]
  exact ⟨by simp [Linked], s.known c, rfl⟩

/-- A statement that is not vital, whatever becomes of it. -/
theorem mortal_issue {s : Stmt} (hs : s.vital = false) : Mortal (issue s : Code σ Reply) := by
  intro w hw
  refine Prog.wp_mono (wp_issue_linked hw) (fun r w' h => ?_) fun _ => False.elim
  obtain ⟨hlinked, known, hes⟩ := h
  refine ⟨lifespan_going_of_event hes ?_, hlinked⟩
  cases r with
  | done found => rfl
  | refused => exact hs
  | lost => exact hs

/-- A vital statement behind which the process ends unless it was done. -/
theorem mortal_issue_bind {s : Stmt} (hs : s.vital = true) {f : Reply → Code σ β}
    (hdone : ∀ found, Mortal (f (.done found))) (hrefused : f .refused = Prog.exit)
    (hlost : f .lost = Prog.exit) : Mortal (issue s >>= f) := by
  intro w hw
  rw [Prog.wp_bind]
  refine Prog.wp_mono (wp_issue_linked hw) (fun r w' h => ?_) fun _ => False.elim
  obtain ⟨hlinked, known, hes⟩ := h
  cases r with
  | done found =>
      have hgoing := lifespan_going_of_event hes rfl
      refine Prog.wp_mono (hdone found w' hlinked) (fun b w'' h => ?_) fun w'' h => ?_
      · exact ⟨lifespan.trans hgoing h.1, h.2⟩
      · exact lifespan.after hgoing h
  | refused =>
      rw [hrefused]
      exact lifespan_ending_of_event hes hs
  | lost =>
      rw [hlost]
      exact lifespan_ending_of_event hes hs

theorem mortal_execOrExit {c : Command} (hc : c.vital = true) :
    Mortal (execOrExit c : Code σ Bool) :=
  mortal_issue_bind (s := .exec c) hc (fun found => mortal_pure found) rfl rfl

theorem mortal_execWarn {c : Command} (hc : c.vital = false) : Mortal (execWarn c : Code σ Unit) :=
  mortal_bind (mortal_issue hc) fun _ => mortal_pure ()

theorem mortal_dbEnsureSchema (schema : Bytes) : Mortal (dbEnsureSchema schema : Code σ Unit) :=
  mortal_bind (mortal_execOrExit rfl) fun _ => mortal_execWarn rfl

theorem mortal_trackNewTable (schema table : Bytes) :
    Mortal (trackNewTable schema table : Code σ Unit) := by
  refine mortal_bind ?_ fun _ => mortal_bind ?_ fun _ => ?_
  · exact mortal_bind (mortal_execOrExit rfl) fun _ =>
      mortal_bind (mortal_execOrExit rfl) fun _ =>
        mortal_bind (mortal_execOrExit rfl) fun _ => mortal_pure ()
  · exact mortal_bind (mortal_execOrExit rfl) fun _ => mortal_pure ()
  · exact mortal_bind (mortal_execWarn rfl) fun _ =>
      mortal_bind (mortal_execWarn rfl) fun _ => mortal_execWarn rfl

theorem mortal_hypertableAndRetention (schema table : Bytes) :
    Mortal (hypertableAndRetention schema table : Code σ Unit) :=
  mortal_bind (mortal_execWarn rfl) fun _ =>
    mortal_bind (mortal_execWarn rfl) fun _ => mortal_execWarn rfl

theorem mortal_dbEnsureTable (schema table : Bytes) :
    Mortal (dbEnsureTable schema table : Code σ Unit) := by
  refine mortal_bind (mortal_execOrExit rfl) fun existedBefore => ?_
  refine mortal_bind (mortal_dbEnsureSchema schema) fun _ => ?_
  refine mortal_bind (mortal_execWarn rfl) fun _ => ?_
  refine mortal_bind (mortal_execOrExit rfl) fun _ => ?_
  refine mortal_bind (mortal_hypertableAndRetention schema table) fun _ => ?_
  refine mortal_bind (mortal_execOrExit rfl) fun existedAfter => ?_
  split
  · exact mortal_trackNewTable schema table
  · exact mortal_pure ()

theorem mortal_dbEnsureDropInactiveJob (schema : Bytes) :
    Mortal (dbEnsureDropInactiveJob schema : Code σ Unit) := by
  refine mortal_bind (mortal_issue rfl) fun r => ?_
  cases r with
  | done found =>
      cases found with
      | true => exact mortal_execWarn rfl
      | false =>
          refine mortal_bind (mortal_issue rfl) fun r => ?_
          cases r with
          | done found => exact mortal_execWarn rfl
          | refused => exact mortal_pure ()
          | lost => exact mortal_pure ()
  | refused => exact mortal_pure ()
  | lost => exact mortal_pure ()

theorem mortal_dbPrepareInsert (schema table stmtName : Bytes) :
    Mortal (dbPrepareInsert schema table stmtName : Code σ Unit) :=
  mortal_issue_bind rfl (fun _ => mortal_pure ()) rfl rfl

theorem mortal_execInsert (name : Bytes) (vals : List (Option Bytes)) :
    Mortal (execInsert name vals : Code σ ℤ) := by
  refine mortal_bind (mortal_issue rfl) fun r => ?_
  cases r with
  | done found => exact mortal_pure 0
  | refused => exact mortal_pure (-1)
  | lost => exact mortal_pure (-1)

end Mortal

end ProcWatch

import ProcWatch.Verification.Database.Fatal
import ProcWatch.Verification.Store.Filing

/-! # How the store and the upkeep of the connection end -/

namespace ProcWatch

open CLib

variable {σ α : Type} {P : World σ → Prop}

/-! ## Files -/

theorem harmless_of_filed {es : List Event} (h : ∀ e ∈ es, e.filed = true) : Harmless es := by
  intro e he
  obtain ⟨op, o, ho, rfl⟩ := exists_of_filed (h e he)
  cases o with
  | died => exact absurd rfl ho
  | ok => rfl
  | failed => rfl
  | short => rfl
  | unwritten closed => rfl

theorem takesFiles_lifespan : TakesFiles (lifespan : Course (World σ)) where
  going := by
    rintro w w' ⟨-, es, hes, h⟩
    exact ⟨es, hes, harmless_of_filed h⟩
  ending := by
    rintro w w' ⟨-, es, op, hes, h⟩
    exact ⟨es, .file op .died, hes, harmless_of_filed h, rfl⟩

theorem Filing.lives {m : Code σ α} (h : Filing m) (hP : Apart P) :
    Prog.Ends lifespan P (fun _ => P) m :=
  h.ends takesFiles_lifespan hP

theorem lives_record {e : Event} (he : e.fatal = false) (hP : Apart P) :
    Prog.Ends lifespan P (fun _ => P) (record e : Code σ Unit) :=
  Prog.ends_modify fun w hw => ⟨lifespan_going_of_event rfl he, hP w _ ⟨rfl, rfl, rfl⟩ hw⟩

theorem lives_ask {β : Type} (f : Env → ℕ → β) (hP : Apart P) :
    Prog.Ends lifespan P (fun _ => P) (ask f : Code σ β) :=
  fun w hw => ⟨lifespan_going_of_eq rfl, hP w _ ⟨rfl, rfl, rfl⟩ hw⟩

theorem lives_pwDbBufSpill (line : Bytes) (hP : Apart P) :
    Prog.Ends lifespan P (fun _ => P) (pwDbBufSpill line : Code σ ℤ) := by
  have hcount (f : World σ → World σ) (hf : ∀ w, Beside w (f w) ∧ (f w).events = w.events) :
      Prog.Ends lifespan P (fun _ => P) (Prog.modify f) :=
    Prog.ends_modify fun w hw => ⟨lifespan_going_of_eq (hf w).2, hP w _ (hf w).1 hw⟩
  have hdrop : Prog.Ends lifespan P (fun _ => P) (dropSpill line : Code σ ℤ) :=
    Prog.ends_bind (hcount _ fun _ => ⟨⟨rfl, rfl, rfl⟩, rfl⟩) fun _ =>
      Prog.ends_bind (lives_record rfl hP) fun _ => Prog.ends_pure (-1)
  refine Prog.ends_bind ((filing_openAppend _).lives hP) fun ok => Prog.ends_ite (fun _ => ?_)
    fun _ => hdrop
  refine Prog.ends_bind ((filing_writeClose _ _).lives hP) fun r => Prog.ends_ite (fun _ => ?_)
    fun _ => hdrop
  exact Prog.ends_bind (hcount _ fun _ => ⟨⟨rfl, rfl, rfl⟩, rfl⟩) fun _ =>
    Prog.ends_bind (lives_record rfl hP) fun _ => Prog.ends_pure 0

/-! ## Conditions on the connection -/

theorem apart_linked : Apart (Linked : World σ → Prop) :=
  fun _ _ hb h => by rwa [Linked, hb.conn]

/-- Online only with a connection object. -/
def Attached (w : World σ) : Prop :=
  w.online = true → w.conn ≠ none

theorem apart_attached : Apart (Attached : World σ → Prop) :=
  fun _ _ hb h hon => by
    rw [hb.conn]
    exact h (hb.online ▸ hon)

def Offline (w : World σ) : Prop :=
  w.online = false

theorem apart_offline : Apart (Offline : World σ → Prop) :=
  fun _ _ hb h => hb.online.trans h

theorem Offline.attached {w : World σ} (h : Offline w) : Attached w :=
  fun hon => by
    rw [h] at hon
    cases hon

theorem Linked.attached {w : World σ} (h : Linked w) : Attached w :=
  fun _ => h

theorem Linked.of_connOk {w : World σ} (h : connOk w.conn = true) : Linked w := by
  intro hnone
  rw [hnone] at h
  cases h

theorem goesOffline : Prog.Ends lifespan P (fun _ => Offline) (setOnline false : Code σ Unit) :=
  fun _ _ => ⟨lifespan_going_of_eq rfl, rfl⟩

/-- A program that keeps the agent or the monitor attached. -/
abbrev Runs (m : Code σ α) : Prop :=
  Prog.Ends lifespan Attached (fun _ => Attached) m

theorem runs_of_mortal {m : Code σ α} (h : Mortal m) :
    Prog.Ends lifespan Linked (fun _ => Attached) m :=
  h.mono (fun _ => id) fun _ _ => Linked.attached

/-! ## Flush and upkeep -/

theorem runs_pwDbBufFlush {fn : Bytes → Code σ ℤ} (hfn : ∀ line, Mortal (fn line)) :
    Runs (pwDbBufFlush fn) := by
  refine ends_pwDbBufFlush (P := Linked) takesFiles_lifespan apart_linked (fun line => ?_)
    (fun _ hw hon _ => hw hon) (fun _ => Linked.attached) fun _ _ => ?_
  · exact mortal_bind (hfn line) fun rc =>
      mortal_bind (lives_record rfl apart_linked) fun _ => mortal_pure rc
  · exact ⟨lifespan_going_of_eq rfl, fun hon => Bool.noConfusion hon⟩

theorem lives_dbConnect (hP : Apart P) :
    Prog.Ends lifespan P (fun _ => P) (dbConnect : Code σ (Option Session)) := by
  refine Prog.ends_bind (lives_ask _ hP) fun up => Prog.ends_ite (fun _ => ?_) fun _ => ?_
  · exact Prog.ends_bind (lives_record rfl hP) fun _ => Prog.ends_pure _
  · exact Prog.ends_pure _

/-- Whether there is a connection afterwards; the flag is not touched. -/
def Tells (up : Bool) (w : World σ) : Prop :=
  (up = true → Linked w) ∧ Offline w

theorem ends_dbReconnect : Prog.Ends lifespan Offline Tells (dbReconnect : Code σ Bool) := by
  have hnew : Prog.Ends lifespan Offline Tells (dbReconnectNew : Code σ Bool) := by
    refine Prog.ends_bind (lives_dbConnect apart_offline) fun conn w hw => ?_
    simp only [setConn, Prog.wp_bind, Prog.wp_modify, Prog.wp_pure]
    exact ⟨lifespan_going_of_eq rfl, fun hup => Linked.of_connOk hup, hw⟩
  refine Prog.ends_get_bind fun w hw => ?_
  cases hconn : w.conn with
  | none => exact hnew.mono (fun _ heq => heq ▸ hw) fun _ _ => id
  | some c =>
      dsimp only
      split
      · intro w' heq
        obtain rfl : w' = w := heq
        exact ⟨lifespan_going_of_eq rfl, fun _ => by simp [Linked, hconn], hw⟩
      · refine (Prog.ends_bind (lives_ask _ apart_offline) fun up => ?_).mono
          (fun _ heq => heq ▸ hw) fun _ _ => id
        cases up with
        | true =>
            intro w' hw'
            simp only [if_true, setConn, record, Prog.wp_bind, Prog.wp_modify, Prog.wp_pure]
            exact ⟨lifespan_going_of_event rfl rfl, fun _ => by simp [Linked], hw'⟩
        | false =>
            exact Prog.ends_bind (fun _ hw' => ⟨lifespan_going_of_eq rfl, hw'⟩) fun _ => hnew

/-- `pw_db_buf_ensure` is online with a connection, or offline. -/
def Ensures (up : Bool) (w : World σ) : Prop :=
  (up = true → Linked w) ∧ Attached w

theorem ends_pwDbBufEnsure : Prog.Ends lifespan P Ensures (pwDbBufEnsure : Code σ Bool) := by
  have hdown : Prog.Ends lifespan Offline Ensures (pure false : Code σ Bool) :=
    fun _ hw => ⟨lifespan_going_of_eq rfl, fun h => absurd h (by decide), Offline.attached hw⟩
  have hup : Prog.Ends lifespan Linked Ensures (do
      setOnline true
      return true : Code σ Bool) :=
    fun _ hw => ⟨lifespan_going_of_eq rfl, fun _ => hw, fun _ => hw⟩
  refine Prog.ends_get_bind fun w _ => Prog.ends_ite (fun hok => ?_) fun _ => ?_
  · exact hup.mono (fun _ heq => heq ▸ Linked.of_connOk hok) fun _ _ => id
  · refine Prog.ends_bind goesOffline fun _ => ?_
    refine Prog.ends_bind (lives_ask _ apart_offline) fun now => ?_
    refine Prog.ends_ite (fun _ => hdown) fun _ => ?_
    refine Prog.ends_bind (Q := fun _ => Offline) (fun _ hw => ⟨lifespan_going_of_eq rfl, hw⟩)
      fun _ => ?_
    refine Prog.ends_bind ends_dbReconnect fun up => ?_
    cases up with
    | true => exact hup.mono (fun _ h => h.1 rfl) fun _ _ => id
    | false => exact hdown.mono (fun _ h => h.2) fun _ _ => id

theorem ends_pwDbBufMaintain {fn : Bytes → Code σ ℤ} (hfn : ∀ line, Mortal (fn line)) :
    Prog.Ends lifespan P (fun _ => Attached) (pwDbBufMaintain fn) := by
  refine Prog.ends_bind ends_pwDbBufEnsure fun up => ?_
  cases up with
  | true => exact (runs_pwDbBufFlush hfn).mono (fun _ h => h.2) fun _ _ => id
  | false => exact (Prog.ends_pure 0).mono (fun _ h => h.2) fun _ _ => id

theorem ends_pwDbBufInit : Prog.Ends lifespan P (fun _ => Attached) (pwDbBufInit : Code σ Unit) := by
  refine Prog.ends_bind (Q := fun _ _ => True) ?_ fun conn w _ => ?_
  · exact (lives_dbConnect fun _ _ _ => id).mono (fun _ _ => trivial) fun _ _ => id
  · simp only [setConn, setOnline, Prog.wp_bind, Prog.wp_modify]
    exact ⟨lifespan_going_of_eq rfl, fun hon => Linked.of_connOk hon⟩

end ProcWatch

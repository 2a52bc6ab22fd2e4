import ProcWatch.Model.AgentMain
import ProcWatch.Model.MonitorMain
import ProcWatch.Verification.Agent.Writes
import ProcWatch.Verification.Store.Fatal

/-! # What ends `agentd` and `procwatch` -/

namespace ProcWatch

open CLib

/-! ## Labels and inserts -/

theorem mortal_ensureKindTable (kind : Kind) (schema label : Bytes) :
    Mortal (ensureKindTable kind schema label) := by
  refine mortal_bind (mortal_execOrExit rfl) fun existedBefore => ?_
  refine mortal_bind (mortal_dbEnsureSchema schema) fun _ => ?_
  refine mortal_bind (mortal_execWarn rfl) fun _ => ?_
  refine mortal_bind (mortal_issue rfl) fun r => ?_
  cases r with
  | done found =>
      have hindexes : Mortal (createIndexes kind schema (tableName kind label)) := by
        cases kind with
        | spans => exact mortal_bind (mortal_execWarn rfl) fun _ => mortal_execWarn rfl
        | procs => exact mortal_bind (mortal_execWarn rfl) fun _ => mortal_execWarn rfl
        | otelMetrics =>
            exact mortal_bind (mortal_execWarn rfl) fun _ =>
              mortal_bind (mortal_execWarn rfl) fun _ => mortal_execWarn rfl
      refine mortal_bind hindexes fun _ => ?_
      refine mortal_bind (mortal_hypertableAndRetention _ _) fun _ => ?_
      cases existedBefore with
      | false =>
          refine mortal_bind (mortal_execOrExit rfl) fun exists' => ?_
          cases exists' with
          | false => exact mortal_pure ()
          | true => exact mortal_trackNewTable _ _
      | true => exact mortal_pure ()
  | refused => exact mortal_pure ()
  | lost => exact mortal_pure ()

theorem mortal_prepareLabel (schema : Bytes) (e : LabelEntry) : Mortal (prepareLabel schema e) := by
  have hprepare (kind : Kind) (name : Bytes) : Mortal (prepareKind kind schema e.label name) :=
    mortal_bind (mortal_issue rfl) fun _ => mortal_pure ()
  have hcreate : Mortal (createLabel schema e) :=
    mortal_bind (mortal_ensureKindTable _ _ _) fun _ =>
      mortal_bind (mortal_ensureKindTable _ _ _) fun _ =>
        mortal_bind (mortal_ensureKindTable _ _ _) fun _ =>
          mortal_bind (hprepare _ _) fun _ => mortal_bind (hprepare _ _) fun _ => hprepare _ _
  refine mortal_bind hcreate fun _ => mortal_get_bind fun w => ?_
  exact mortal_bind (mortal_modify fun _ => ⟨rfl, rfl⟩) fun _ => mortal_pure 0

theorem mortal_dbEnsureLabel (schema label : Bytes) : Mortal (dbEnsureLabel schema label) := by
  refine mortal_get_bind fun w => ?_
  split
  · exact mortal_pure (-1)
  · split
    · exact mortal_pure (-1)
    · split
      · split
        · exact mortal_pure 0
        · exact mortal_prepareLabel _ _
      · split
        · exact mortal_pure (-1)
        · refine mortal_bind ?_ fun _ => mortal_prepareLabel _ _
          exact mortal_modify fun _ => ⟨rfl, rfl⟩

theorem mortal_insertKind (kind : Kind) (label : Bytes) (vals : List (Option Bytes)) :
    Mortal (insertKind kind label vals) := by
  refine mortal_get_bind fun w => ?_
  split
  · exact mortal_pure (-1)
  · split
    · exact mortal_pure (-1)
    · split
      · exact mortal_execInsert _ _
      · exact mortal_pure (-1)

theorem mortal_replayLine (line : Bytes) : Mortal (replayLine line) := by
  have hrecord (insert : CStr 100 → Agent ℤ) (hinsert : ∀ l, Mortal (insert l)) :
      Mortal (replayRecord line insert) := by
    unfold replayRecord
    dsimp only
    split
    · exact mortal_pure 0
    · split
      · exact mortal_pure 0
      · refine mortal_get_bind fun w => mortal_bind (mortal_dbEnsureLabel _ _) fun rc => ?_
        split
        · exact mortal_pure (-1)
        · refine mortal_bind (hinsert _) fun rc => ?_
          split
          · exact mortal_pure (-1)
          · exact mortal_pure 0
  refine mortal_get_bind fun w => ?_
  split
  · exact mortal_pure (-1)
  · split
    · exact hrecord _ fun _ => mortal_insertKind _ _ _
    · split
      · exact hrecord _ fun _ => mortal_insertKind _ _ _
      · split
        · exact hrecord _ fun _ => mortal_insertKind _ _ _
        · exact mortal_pure 0

/-! ## `agentd` -/

theorem runs_put (r : AgentRecord) : Runs r.put := by
  have htry : Runs (tryInsert r.label.val (insertKind r.kind r.label.val r.vals)) := by
    refine Prog.ends_get_bind fun w hw => Prog.ends_ite (fun _ => ?_) fun hup => ?_
    · exact (Prog.ends_pure false).mono (fun _ heq => heq ▸ hw) fun _ _ => id
    · have hlinked : Linked w := fun hnone => hup (Or.inr hnone)
      have hinner : Mortal (do
          let rc ← dbEnsureLabel w.user.schema.val r.label.val
          if rc ≠ 0 then return false
          else
            let rc ← insertKind r.kind r.label.val r.vals
            return rc = 0 : Agent Bool) := by
        refine mortal_bind (mortal_dbEnsureLabel _ _) fun rc => ?_
        split
        · exact mortal_pure false
        · exact mortal_bind (mortal_insertKind _ _ _) fun _ => mortal_pure _
      exact (runs_of_mortal hinner).mono (fun _ heq => heq ▸ hlinked) fun _ _ => id
  refine Prog.ends_bind htry fun inserted => Prog.ends_ite (fun _ => Prog.ends_pure ()) fun _ => ?_
  have hoffline : Prog.Ends lifespan Attached (fun _ => Offline) markOffline :=
    Prog.ends_bind goesOffline fun _ => lives_modify (fun _ => rfl) fun _ => id
  have hspill : Prog.Ends lifespan Offline (fun _ => Offline) (do
      let w ← Prog.get
      let _ ← pwDbBufSpill (r.line w.user.schema) : Agent Unit) :=
    Prog.ends_get_bind fun w hw => (Prog.ends_bind (lives_pwDbBufSpill _ apart_offline) fun _ =>
      Prog.ends_pure ()).mono (fun _ heq => heq ▸ hw) fun _ _ => id
  exact Prog.ends_bind hoffline fun _ => hspill.mono (fun _ => id) fun _ _ => Offline.attached

theorem runs_writeAll (rs : List AgentRecord) : Runs (writeAll rs) := by
  induction rs with
  | nil => exact Prog.ends_pure ()
  | cons r rs ih => exact Prog.ends_bind (runs_put r) fun _ => ih

theorem runs_serveRequests (reqs : List HttpRequest) : Runs (serveRequests reqs) := by
  induction reqs with
  | nil => exact Prog.ends_pure ()
  | cons req reqs ih =>
      obtain ⟨rc, hrc⟩ := onRequest_eq req
      rw [serveRequests, hrc]
      exact Prog.ends_bind (Prog.ends_bind (runs_writeAll _) fun _ => Prog.ends_pure rc) fun _ => ih

theorem mortal_agentSetUp : Mortal agentSetUp :=
  mortal_get_bind fun _ => mortal_bind (mortal_dbEnsureSchema _) fun _ =>
    mortal_bind (mortal_execWarn rfl) fun _ => mortal_dbEnsureDropInactiveJob _

/-- The flush behind the set-up, which is reached only online. -/
theorem ends_setUp_flush : Prog.Ends lifespan Linked (fun _ => Attached) (do
    agentSetUp
    let _ ← pwDbBufFlush replayLine : Agent Unit) := by
  refine Prog.ends_bind mortal_agentSetUp fun _ => Prog.ends_bind ?_ fun _ => Prog.ends_pure ()
  exact (runs_pwDbBufFlush mortal_replayLine).mono (fun _ => Linked.attached) fun _ _ => id

theorem runs_agentMaintenance : Runs agentMaintenance := by
  refine Prog.ends_get_bind fun w _ => ?_
  refine Prog.ends_bind (ends_pwDbBufMaintain mortal_replayLine) fun _ => ?_
  refine Prog.ends_get_bind fun w' hw' => Prog.ends_ite (fun hup => ?_) fun _ => ?_
  · have hlinked : Linked w' := hw' (Bool.and_eq_true_iff.mp hup).1
    refine Prog.ends_bind (Q := fun _ => Linked) ?_ fun _ => ends_setUp_flush
    rintro _ rfl
    exact ⟨lifespan_going_of_eq rfl, hlinked⟩
  · exact (Prog.ends_pure ()).mono (fun _ heq => heq ▸ hw') fun _ _ => id

theorem runs_agentLoop (turns : List (List HttpRequest)) (nextMaintain : ℤ) :
    Runs (agentLoop turns nextMaintain) := by
  induction turns generalizing nextMaintain with
  | nil => exact Prog.ends_pure ()
  | cons reqs turns ih =>
      refine Prog.ends_bind (runs_serveRequests reqs) fun _ => ?_
      refine Prog.ends_bind (lives_ask _ apart_attached) fun now => ?_
      exact Prog.ends_ite (fun _ => Prog.ends_bind runs_agentMaintenance fun _ => ih _) fun _ => ih _

theorem ends_agentStartup {P : AgentWorld → Prop} :
    Prog.Ends lifespan P (fun _ => Attached) agentStartup := by
  refine Prog.ends_bind ends_pwDbBufInit fun _ => Prog.ends_get_bind fun w hw => ?_
  refine Prog.ends_ite (fun hup => ?_) fun _ => ?_
  · exact ends_setUp_flush.mono (fun _ heq => heq ▸ hw hup) fun _ _ => id
  · exact (Prog.ends_pure ()).mono (fun _ heq => heq ▸ hw) fun _ _ => id

theorem ends_agentMain {P : AgentWorld → Prop} (listens : Bool) (turns : List (List HttpRequest)) :
    Prog.Ends lifespan P (fun _ => Attached) (agentMain listens turns) := by
  refine Prog.ends_bind ends_agentStartup fun _ => ?_
  refine Prog.ends_ite (fun _ => Prog.ends_pure 1) fun _ => ?_
  refine Prog.ends_bind (lives_ask _ apart_attached) fun now => ?_
  refine Prog.ends_bind (runs_agentLoop _ _) fun _ => ?_
  exact Prog.ends_bind (ends_pwDbBufMaintain mortal_replayLine) fun _ => Prog.ends_pure 0

/-- Attached afterwards and alive, or ended by the last event. -/
theorem exit_iff_of_ends {σ α : Type} {m : Code σ α}
    (h : Prog.Ends lifespan (fun _ => True) (fun _ => Attached) m) (w : World σ) :
    ∃ es, (m w).2.events = w.events ++ es ∧
      ((m w).1 = .exit ↔ ∃ e ∈ es, e.fatal = true) ∧ Harmless es.dropLast := by
  have hw := h w trivial
  rw [Prog.wp] at hw
  cases hm : m w with
  | mk o w' =>
      rw [hm] at hw
      cases o with
      | ret a =>
          obtain ⟨⟨es, hes, hharmless⟩, -⟩ := hw
          refine ⟨es, hes, ⟨?_, ?_⟩, fun e he => hharmless e (List.mem_of_mem_dropLast he)⟩
          · rintro ⟨⟩
          · rintro ⟨e, he, hfatal⟩
            rw [hharmless e he] at hfatal
            cases hfatal
      | exit =>
          obtain ⟨es, e, hes, hharmless, hfatal⟩ := hw
          refine ⟨es ++ [e], hes, ⟨fun _ => ⟨e, by simp, hfatal⟩, fun _ => rfl⟩, ?_⟩
          rwa [List.dropLast_concat]

/-- `agentd` ends itself exactly when a vital statement fails or it is killed in a file
operation, and does nothing afterwards. -/
theorem agentMain_exit_iff (listens : Bool) (turns : List (List HttpRequest)) (w : AgentWorld) :
    ∃ es, (agentMain listens turns w).2.events = w.events ++ es ∧
      ((agentMain listens turns w).1 = .exit ↔ ∃ e ∈ es, e.fatal = true) ∧
        Harmless es.dropLast :=
  exit_iff_of_ends (ends_agentMain listens turns) w

/-! ## `procwatch` -/

theorem mortal_ensurePrepared : Mortal ensurePrepared := by
  refine mortal_get_bind fun w => ?_
  split
  · exact mortal_pure (-1)
  · split
    · exact mortal_pure 0
    · refine mortal_bind (mortal_dbEnsureTable _ _) fun _ => ?_
      refine mortal_bind (mortal_dbEnsureDropInactiveJob _) fun _ => ?_
      refine mortal_bind (mortal_dbPrepareInsert _ _ _) fun _ => mortal_bind ?_ fun _ => mortal_pure 0
      exact mortal_modify fun _ => ⟨rfl, rfl⟩

/-- Without a connection the monitor is offline, and there is nothing to prepare. -/
theorem runs_ensurePrepared : Runs ensurePrepared := by
  intro w hw
  by_cases hlinked : Linked w
  · exact runs_of_mortal mortal_ensurePrepared w hlinked
  · have hdown : w.online = false ∨ w.conn = none := Or.inr (not_not.mp hlinked)
    rw [ensurePrepared, Prog.wp_bind, Prog.wp_get, if_pos hdown]
    exact ⟨lifespan_going_of_eq rfl, hw⟩

theorem mortal_dbInsertSample (stmtName : Bytes) (x : Sample) :
    Mortal (dbInsertSample stmtName x : Monitor ℤ) :=
  mortal_get_bind fun _ => Prog.ends_ite (fun _ => mortal_execInsert _ _) fun _ => mortal_pure (-1)

theorem mortal_replaySample (line : Bytes) : Mortal (replaySample line) := by
  refine mortal_bind mortal_ensurePrepared fun rc => ?_
  split
  · exact mortal_pure (-1)
  · split
    · exact mortal_pure 0
    · dsimp only
      split
      · exact mortal_pure 0
      · refine mortal_get_bind fun w => mortal_bind (mortal_dbInsertSample _ _) fun rc => ?_
        split
        · exact mortal_pure (-1)
        · exact mortal_pure 0

theorem runs_writeSample (x : Sample) : Runs (writeSample x) := by
  have htry : Runs (tryInsertSample x) := by
    refine Prog.ends_get_bind fun w hw => Prog.ends_ite (fun _ => ?_) fun hup => ?_
    · exact (Prog.ends_pure false).mono (fun _ heq => heq ▸ hw) fun _ _ => id
    · have hlinked : Linked w := hw (by simpa using hup)
      have hinner : Mortal (do
          if (← ensurePrepared) ≠ 0 then return false
          else
            let rc ← dbInsertSample w.user.stmtName x
            return rc = 0 : Monitor Bool) := by
        refine mortal_bind mortal_ensurePrepared fun rc => ?_
        split
        · exact mortal_pure false
        · exact mortal_bind (mortal_dbInsertSample _ _) fun _ => mortal_pure _
      exact (runs_of_mortal hinner).mono (fun _ heq => heq ▸ hlinked) fun _ _ => id
  refine Prog.ends_bind htry fun inserted => Prog.ends_ite (fun _ => Prog.ends_pure ()) fun _ => ?_
  have hspill : Prog.Ends lifespan Offline (fun _ => Offline) (spillSample x) := by
    rw [spillSample]
    cases sampleLine x with
    | none => exact Prog.ends_pure ()
    | some line =>
        exact Prog.ends_bind (lives_pwDbBufSpill _ apart_offline) fun _ => Prog.ends_pure ()
  exact Prog.ends_bind goesOffline fun _ => hspill.mono (fun _ => id) fun _ _ => Offline.attached

theorem runs_writeSamples (samples : List MonitorSample) : Runs (writeSamples samples) := by
  induction samples with
  | nil => exact Prog.ends_pure ()
  | cons s samples ih => exact Prog.ends_bind (runs_writeSample _) fun _ => ih

theorem runs_monitorMaintenance : Runs monitorMaintenance := by
  refine Prog.ends_get_bind fun w _ => ?_
  refine Prog.ends_bind (ends_pwDbBufMaintain mortal_replaySample) fun _ => ?_
  refine Prog.ends_get_bind fun w' hw' => Prog.ends_ite (fun _ => ?_) fun _ => ?_
  · refine (Prog.ends_bind (Q := fun _ => Attached) ?_ fun _ =>
      Prog.ends_bind runs_ensurePrepared fun _ => Prog.ends_pure ()).mono
        (fun _ heq => heq ▸ hw') fun _ _ => id
    exact lives_modify (fun _ => rfl) fun _ => id
  · exact (Prog.ends_pure ()).mono (fun _ heq => heq ▸ hw') fun _ _ => id

theorem runs_monitorLoop (cfg : MonitorConfig) (turns : List ProcAnswers) (b : Baseline) :
    Runs (monitorLoop cfg turns b) := by
  induction turns generalizing b with
  | nil => exact Prog.ends_pure ()
  | cons turn turns ih =>
      refine Prog.ends_bind runs_monitorMaintenance fun _ => ?_
      refine Prog.ends_ite (fun _ => Prog.ends_pure ()) fun _ => ?_
      cases monitorRound cfg turn.totals turn.snaps b with
      | none => exact Prog.ends_pure ()
      | some r => exact Prog.ends_bind (runs_writeSamples _) fun _ => ih _

theorem ends_monitorMain {P : MonitorWorld → Prop} (cfg : MonitorConfig) (totPrev : CpuTotals)
    (turns : List ProcAnswers) :
    Prog.Ends lifespan P (fun _ => Attached) (monitorMain cfg (some totPrev) turns) := by
  have hstartup : Prog.Ends lifespan P (fun _ => Attached) monitorStartup := by
    refine Prog.ends_bind ends_pwDbBufInit fun _ => Prog.ends_get_bind fun w hw => ?_
    refine Prog.ends_ite (fun hup => ?_) fun _ => ?_
    · refine (Prog.ends_bind runs_ensurePrepared fun _ =>
        Prog.ends_bind (runs_pwDbBufFlush mortal_replaySample) fun _ => Prog.ends_pure ()).mono
          (fun _ heq => heq ▸ hw) fun _ _ => id
    · exact (Prog.ends_pure ()).mono (fun _ heq => heq ▸ hw) fun _ _ => id
  refine Prog.ends_bind hstartup fun _ => Prog.ends_bind (runs_monitorLoop cfg turns _) fun _ => ?_
  exact Prog.ends_bind (ends_pwDbBufMaintain mortal_replaySample) fun _ => Prog.ends_pure 0

/-- The same of `procwatch`, once it has read `/proc/stat` for the first time. -/
theorem monitorMain_exit_iff (cfg : MonitorConfig) (totPrev : CpuTotals)
    (turns : List ProcAnswers) (w : MonitorWorld) :
    ∃ es, (monitorMain cfg (some totPrev) turns w).2.events = w.events ++ es ∧
      ((monitorMain cfg (some totPrev) turns w).1 = .exit ↔ ∃ e ∈ es, e.fatal = true) ∧
        Harmless es.dropLast :=
  exit_iff_of_ends (ends_monitorMain cfg totPrev turns) w

end ProcWatch

import ProcWatch.Model.Rows
import ProcWatch.Model.Samples
import ProcWatch.Verification.Agent.Replay

/-! # Rows of process metrics, and the time that they are given -/

namespace ProcWatch

open CLib

variable {σ : Type}

/-- The row that was added, at a time of the clock of the database. -/
def InsertedRow.row (i : InsertedRow) (now : ℤ) : Row :=
  i.target.rows.row now i.vals

/-! ## The rows that a program inserts -/

/-- The statements of these names insert rows of this kind, and `user` is as it should be. -/
structure Serves (names : Bytes → Prop) (inv : σ → Prop) (rows : RowKind) (w : World σ) : Prop where
  user : inv w.user
  session : ∀ c, w.conn = some c → ∀ x ∈ c.prepared, names x.1 → x.2.rows = rows

/-- Where the statements serve a kind, they go on to do so, and only rows of it are inserted. -/
def Into (names : Bytes → Prop) (inv : σ → Prop) (rows : RowKind) (w w' : World σ) : Prop :=
  Serves names inv rows w → Serves names inv rows w' ∧
    ∃ es, w'.events = w.events ++ es ∧ ∀ i ∈ inserted es, i.target.rows = rows

variable {names : Bytes → Prop} {inv : σ → Prop} {rows : RowKind}

theorem Into.refl (w : World σ) : Into names inv rows w w :=
  fun h => ⟨h, [], (List.append_nil _).symm, fun _ hi => absurd hi List.not_mem_nil⟩

theorem Into.trans {w w' w'' : World σ} (h : Into names inv rows w w')
    (h' : Into names inv rows w' w'') : Into names inv rows w w'' := by
  intro hw
  obtain ⟨hw', es, hes, hrows⟩ := h hw
  obtain ⟨hw'', es', hes', hrows'⟩ := h' hw'
  refine ⟨hw'', es ++ es', by rw [hes', hes, List.append_assoc], ?_⟩
  intro i hi
  rw [inserted_append] at hi
  cases List.mem_append.mp hi with
  | inl hi => exact hrows i hi
  | inr hi => exact hrows' i hi

instance : IsPreorder (World σ) (Into names inv rows) where
  refl := Into.refl
  trans := fun _ _ _ => Into.trans

/-- Steps that send no statement. -/
theorem into_of_same {w w' : World σ} (hconn : w'.conn = w.conn) (huser : inv w.user → inv w'.user)
    {l : List Event} (hl : w'.events = w.events ++ l) (hnone : inserted l = []) :
    Into names inv rows w w' := by
  intro h
  refine ⟨⟨huser h.user, hconn ▸ h.session⟩, l, hl, ?_⟩
  rw [hnone]
  exact fun _ hi => absurd hi List.not_mem_nil

theorem keeps_into_modify {f : World σ → World σ}
    (h : ∀ w, (f w).conn = w.conn ∧ (inv w.user → inv (f w).user) ∧ (f w).events = w.events) :
    Prog.Keeps (Into names inv rows) (Prog.modify f) := fun w =>
  into_of_same (l := []) (h w).1 (h w).2.1 ((h w).2.2.trans (List.append_nil _).symm) rfl

theorem keeps_into_record {e : Event} (he : e.insertedRow? = none) :
    Prog.Keeps (Into names inv rows) (record e : Code σ Unit) := fun w =>
  into_of_same (w := w) (l := [e]) rfl id rfl (by simp [inserted, he])

theorem keeps_into_ask {β : Type} (f : Env → ℕ → β) :
    Prog.Keeps (Into names inv rows) (ask f : Code σ β) := fun w =>
  into_of_same (w := w) (l := []) rfl id (List.append_nil _).symm rfl

/-- Statements other than inserts, if those prepared under a name of ours are of our kind. -/
theorem Issues.into {P : Stmt → Prop} {U : σ → σ → Prop} (hU : ∀ u u', U u u' → inv u → inv u')
    (hprepare : ∀ name target, P (.prepare name target) → names name → target.rows = rows)
    (hinsert : ∀ name vals, ¬ P (.execPrepared name vals)) {w w' : World σ} (h : Issues P U w w') :
    Into names inv rows w w' := by
  intro hw
  obtain ⟨es, hes, -⟩ := h.events
  have hnone : inserted es = [] := by
    have hsame := h.inserted_eq hinsert
    rw [hes, inserted_append] at hsame
    exact List.append_cancel_left (hsame.trans (List.append_nil _).symm)
  refine ⟨⟨hU _ _ h.user hw.user, ?_⟩, es, hes, by simp [hnone]⟩
  intro c' hc' x hx hname
  cases hc : w.conn with
  | none => simp [h.noConn hc] at hc'
  | some c =>
      obtain ⟨c₁, hc₁, hext⟩ := h.session c hc
      obtain rfl := Option.some.inj (hc₁.symm.trans hc')
      obtain ⟨new, hnew, hP⟩ := hext.prepared
      rw [hnew] at hx
      cases List.mem_append.mp hx with
      | inl hx => exact hprepare _ _ (hP x hx) hname
      | inr hx => exact hw.session c hc x hx hname

theorem keeps_into_execInsert {name : Bytes} (hname : names name) (vals : List (Option Bytes)) :
    Prog.Keeps (Into names inv rows) (execInsert name vals : Code σ ℤ) := by
  have hissue : Prog.Keeps (Into names inv rows)
      (issue (.execPrepared name vals) : Code σ Reply) := by
    intro w hw
    cases hc : w.conn with
    | none =>
        rw [issue_of_none hc]
        exact Into.refl w hw
    | some c =>
        rw [issue_of_some hc]
        have hprepared : (c.answer (.execPrepared name vals)
            (w.env.reply w.tick c (.execPrepared name vals))).2.prepared = c.prepared := by
          obtain ⟨new, hnew, hP⟩ := (extends_answer (c := c)
            (r := w.env.reply w.tick c (.execPrepared name vals)) (P := (· = .execPrepared name vals))
            rfl).prepared
          cases new with
          | nil => simpa using hnew
          | cons x new => exact absurd (hP x (by simp)) (by simp)
        refine ⟨⟨hw.user, ?_⟩, _, rfl, ?_⟩
        · rintro c' ⟨⟩ x hx
          rw [hprepared] at hx
          exact hw.session c hc x hx
        · intro i hi
          obtain ⟨e, he, hrow⟩ := List.mem_filterMap.mp hi
          obtain rfl := List.mem_singleton.mp he
          have htarget : c.target? name = some i.target := by
            generalize (c.answer (.execPrepared name vals) _).1 = r at hrow
            change (Event.sql (.execPrepared name vals) (c.target? name) r).insertedRow? = _ at hrow
            cases ht : c.target? name with
            | none => simp [ht, Event.insertedRow?] at hrow
            | some t =>
                cases r with
                | done found =>
                    rw [ht] at hrow
                    obtain rfl := Option.some.inj hrow
                    rfl
                | refused => simp [Event.insertedRow?] at hrow
                | lost => simp [Event.insertedRow?] at hrow
          obtain ⟨front, back, hprep, -⟩ := List.lookup_eq_some_iff.mp htarget
          exact hw.session c hc (name, i.target) (by simp [hprep]) hname
  refine Prog.keeps_bind hissue fun r => ?_
  cases r with
  | done found => exact Prog.keeps_pure _
  | refused => exact Prog.keeps_pure _
  | lost => exact Prog.keeps_pure _

/-! ## The spill file -/

theorem keeps_into_fileOp (op : FileOp) :
    Prog.Keeps (Into names inv rows) (fileOp op : Code σ Bool) := by
  refine Prog.keeps_bind (keeps_into_ask _) fun a => ?_
  split
  · exact Prog.keeps_bind (keeps_into_record rfl) fun _ => Prog.keeps_exit
  · exact Prog.keeps_bind (keeps_into_record rfl) fun _ => Prog.keeps_pure _

theorem keeps_into_setFile (p : Path) (content : Option Bytes) :
    Prog.Keeps (Into names inv rows) (setFile p content : Code σ Unit) :=
  keeps_into_modify fun _ => ⟨rfl, id, rfl⟩

theorem keeps_into_pwDbBufSpill (line : Bytes) :
    Prog.Keeps (Into names inv rows) (pwDbBufSpill line : Code σ ℤ) := by
  have hdrop : Prog.Keeps (Into names inv rows) (dropSpill line : Code σ ℤ) :=
    Prog.keeps_bind (keeps_into_modify fun _ => ⟨rfl, id, rfl⟩) fun _ =>
      Prog.keeps_bind (keeps_into_record rfl) fun _ => Prog.keeps_pure _
  have hopen : Prog.Keeps (Into names inv rows) (openAppend .spill : Code σ Bool) := by
    refine Prog.keeps_bind (keeps_into_fileOp _) fun ok => ?_
    split
    · exact Prog.keeps_bind Prog.keeps_get fun _ =>
        Prog.keeps_bind (keeps_into_setFile _ _) fun _ => Prog.keeps_pure _
    · exact Prog.keeps_pure _
  have hwrite (text : Bytes) :
      Prog.Keeps (Into names inv rows) (writeClose .spill text : Code σ Written) := by
    refine Prog.keeps_bind (keeps_into_ask _) fun a => Prog.keeps_bind Prog.keeps_get fun w => ?_
    dsimp only
    split
    · exact Prog.keeps_bind (keeps_into_setFile _ _) fun _ =>
        Prog.keeps_bind (keeps_into_record rfl) fun _ => Prog.keeps_exit
    · split
      · exact Prog.keeps_bind (keeps_into_setFile _ _) fun _ =>
          Prog.keeps_bind (keeps_into_record rfl) fun _ => Prog.keeps_pure _
      · exact Prog.keeps_bind (keeps_into_setFile _ _) fun _ =>
          Prog.keeps_bind (keeps_into_record rfl) fun _ => Prog.keeps_pure _
  refine Prog.keeps_bind hopen fun ok => ?_
  split
  · refine Prog.keeps_bind (hwrite _) fun r => ?_
    split
    · exact Prog.keeps_bind (keeps_into_modify fun _ => ⟨rfl, id, rfl⟩) fun _ =>
        Prog.keeps_bind (keeps_into_record rfl) fun _ => Prog.keeps_pure _
    · exact hdrop
  · exact hdrop

/-! ## Process metrics of the agent -/

/-- The names of the statements for process metrics, of any label. -/
def ProcsName (name : Bytes) : Prop :=
  ∃ label, name = stmtName .procs label

/-- The state of an agent whose session has statements for process metrics under their names
only. -/
abbrev ServesProcs (w : AgentWorld) : Prop :=
  Serves ProcsName (fun _ => True) (.record .procs) w

abbrev IntoProcs (w w' : AgentWorld) : Prop :=
  Into ProcsName (fun _ => True) (.record .procs) w w'

theorem keeps_into_dbEnsureLabel (schema label : Bytes) :
    Prog.Keeps IntoProcs (dbEnsureLabel schema label) :=
  (keeps_dbEnsureLabel schema label).mono fun _ _ h => by
    refine h.into (fun _ _ _ h => h) ?_ fun _ _ => id
    rintro name target ⟨kind, hname, rfl⟩ ⟨label', hprocs⟩
    obtain rfl := kind_eq_of_stmtName_eq (hname.symm.trans hprocs)
    rfl

theorem keeps_into_insertKind (label : Bytes) (vals : List (Option Bytes)) :
    Prog.Keeps IntoProcs (insertKind .procs label vals) := by
  refine Prog.keeps_bind Prog.keeps_get fun w => ?_
  split
  · exact Prog.keeps_pure _
  · cases hfind : findLabel w.user.labels label with
    | none => exact Prog.keeps_pure _
    | some e =>
        dsimp only
        split
        · exact keeps_into_execInsert ⟨e.label, e.stmt_eq .procs⟩ vals
        · exact Prog.keeps_pure _

theorem keeps_into_writeMetric (m : ProcMetric) : Prog.Keeps IntoProcs (writeMetric m) := by
  have htry : Prog.Keeps IntoProcs (tryInsert m.label.val (dbInsertMetricLabeled m)) := by
    refine Prog.keeps_bind Prog.keeps_get fun w => ?_
    split
    · exact Prog.keeps_pure _
    · refine Prog.keeps_bind (keeps_into_dbEnsureLabel _ _) fun rc => ?_
      split
      · exact Prog.keeps_pure _
      · exact Prog.keeps_bind (keeps_into_insertKind _ _) fun _ => Prog.keeps_pure _
  refine Prog.keeps_bind htry fun ok => ?_
  split
  · exact Prog.keeps_pure _
  · refine Prog.keeps_bind ?_ fun _ => Prog.keeps_bind Prog.keeps_get fun w =>
      Prog.keeps_bind (keeps_into_pwDbBufSpill _) fun _ => Prog.keeps_pure _
    exact Prog.keeps_bind (keeps_into_modify fun _ => ⟨rfl, id, rfl⟩) fun _ =>
      keeps_into_modify fun _ => ⟨rfl, id, rfl⟩

theorem keeps_into_replayLine (schema : Identifier) (m : ProcMetric) :
    Prog.Keeps IntoProcs (replayLine (metricLine schema m)) := by
  have hrecord (line : Bytes) (vals : CStr 100 → List (Option Bytes)) :
      Prog.Keeps IntoProcs (replayRecord line fun l => insertKind .procs l.val (vals l)) := by
    unfold replayRecord
    split
    · exact Prog.keeps_pure _
    · dsimp only
      split
      · exact Prog.keeps_pure _
      · refine Prog.keeps_bind Prog.keeps_get fun w =>
          Prog.keeps_bind (keeps_into_dbEnsureLabel _ _) fun rc => ?_
        split
        · exact Prog.keeps_pure _
        · refine Prog.keeps_bind (keeps_into_insertKind _ _) fun rc => ?_
          split
          · exact Prog.keeps_pure _
          · exact Prog.keeps_pure _
  intro w
  by_cases hconn : connOk w.conn = true
  · have hline := replayLine_line schema (.metric m) hconn
    rw [show metricLine schema m = (AgentRecord.metric m).line schema by rfl, hline]
    exact hrecord _ (fun l => metricVals (readProcMetric _ [0] "cpu" "rss" l)) w
  · have hdown : replayLine (metricLine schema m) w = (.ret (-1), w) := by
      simp [replayLine, Prog.bind_apply, Prog.get, hconn, Prog.pure_apply]
    rw [hdown]
    exact Into.refl w

/-! ## Samples -/

/-- The state of a monitor whose statement, if it is prepared, inserts samples. -/
abbrev ServesSamples (name : Bytes) (w : MonitorWorld) : Prop :=
  Serves (· = name) (fun u => u.stmtName = name) .sample w

abbrev IntoSamples (name : Bytes) (w w' : MonitorWorld) : Prop :=
  Into (· = name) (fun u => u.stmtName = name) .sample w w'

/-- The state of the monitor is only read. -/
instance : IsPreorder MonitorState (fun u u' => u' = u) where
  refl _ := rfl
  trans _ _ _ h h' := h'.trans h

/-- What runs from a world that it reads first. -/
theorem keeps_get_bind {β : Type} {R : World σ → World σ → Prop} {f : World σ → Code σ β}
    (h : ∀ w, R w (f w w).2) : Prog.Keeps R (Prog.get >>= f) :=
  h

theorem keeps_into_dbPrepareInsert (name schema label stmtName : Bytes) :
    Prog.Keeps (IntoSamples name) (dbPrepareInsert schema label stmtName) := by
  have hprepare : Prog.Keeps (Issues (· = .prepare stmtName ⟨.sample, schema, label⟩)
      (fun u u' : MonitorState => u' = u)) (issue (.prepare stmtName ⟨.sample, schema, label⟩)) :=
    keeps_issue rfl
  refine Prog.keeps_bind (hprepare.mono fun w w' h => h.into ?_ ?_ ?_) fun r => ?_
  · rintro u _ rfl h
    exact h
  · rintro _ _ ⟨⟩ _
    rfl
  · exact fun _ _ => Stmt.noConfusion
  · cases r with
    | done found => exact Prog.keeps_pure _
    | refused => exact Prog.keeps_exit
    | lost => exact Prog.keeps_exit

theorem keeps_into_ensurePrepared (name : Bytes) :
    Prog.Keeps (IntoSamples name) ensurePrepared := by
  have hstatements {α : Type} {m : Monitor α}
      (h : Prog.Keeps (Issues (fun s => ∃ c, s = .exec c) (fun u u' : MonitorState => u' = u)) m) :
      Prog.Keeps (IntoSamples name) m := h.mono fun w w' h => by
    refine h.into ?_ ?_ ?_
    · rintro u _ rfl h
      exact h
    · rintro _ _ ⟨c, hc⟩
      exact Stmt.noConfusion hc
    · rintro _ _ ⟨c, hc⟩
      exact Stmt.noConfusion hc
  refine Prog.keeps_bind Prog.keeps_get fun w => ?_
  split
  · exact Prog.keeps_pure _
  · split
    · exact Prog.keeps_pure _
    · refine Prog.keeps_bind (hstatements (keeps_dbEnsureTable (fun c => ⟨c, rfl⟩) _ _)) fun _ => ?_
      refine Prog.keeps_bind
        (hstatements (keeps_dbEnsureDropInactiveJob (fun c => ⟨c, rfl⟩) _)) fun _ => ?_
      refine Prog.keeps_bind (keeps_into_dbPrepareInsert _ _ _ _) fun _ => ?_
      exact Prog.keeps_bind (keeps_into_modify fun _ => ⟨rfl, id, rfl⟩) fun _ => Prog.keeps_pure _

theorem keeps_into_dbInsertSample (name : Bytes) (x : Sample) :
    Prog.Keeps (IntoSamples name) (dbInsertSample name x) := by
  refine Prog.keeps_bind Prog.keeps_get fun w => ?_
  split
  · refine keeps_into_execInsert ?_ _
    rfl
  · exact Prog.keeps_pure _

theorem keeps_into_writeSample (name : Bytes) (x : Sample) :
    Prog.Keeps (IntoSamples name) (writeSample x) := by
  have htry : Prog.Keeps (IntoSamples name) (tryInsertSample x) := by
    refine keeps_get_bind fun w hw => ?_
    rw [hw.user]
    have hrest : Prog.Keeps (IntoSamples name) (if !w.online then return false
        else do
          if (← ensurePrepared) ≠ 0 then return false
          else
            let rc ← dbInsertSample name x
            return rc = 0 : Monitor Bool) := by
      split
      · exact Prog.keeps_pure _
      · refine Prog.keeps_bind (keeps_into_ensurePrepared name) fun rc => ?_
        split
        · exact Prog.keeps_pure _
        · exact Prog.keeps_bind (keeps_into_dbInsertSample name x) fun _ => Prog.keeps_pure _
    exact hrest w hw
  refine Prog.keeps_bind htry fun ok => ?_
  split
  · exact Prog.keeps_pure _
  · refine Prog.keeps_bind (keeps_into_modify fun _ => ⟨rfl, id, rfl⟩) fun _ => ?_
    rw [spillSample]
    split
    · exact Prog.keeps_pure _
    · exact Prog.keeps_bind (keeps_into_pwDbBufSpill _) fun _ => Prog.keeps_pure _

theorem keeps_into_replaySample (name line : Bytes) :
    Prog.Keeps (IntoSamples name) (replaySample line) := by
  refine Prog.keeps_bind (keeps_into_ensurePrepared name) fun rc => ?_
  split
  · exact Prog.keeps_pure _
  · split
    · exact Prog.keeps_pure _
    · dsimp only
      split
      · exact Prog.keeps_pure _
      · refine keeps_get_bind fun w hw => ?_
        rw [hw.user]
        refine (Prog.keeps_bind (keeps_into_dbInsertSample name _) fun rc => ?_) w hw
        split
        · exact Prog.keeps_pure _
        · exact Prog.keeps_pure _

/-! ## Time stamps -/

/-- Of a process metric or a sample, the row says when it was inserted. -/
theorem row_ne {i i' : InsertedRow} {rows : RowKind} (hts : ("ts", .now) ∈ rows.columns)
    (hi : i.target.rows = rows) (hi' : i'.target.rows = rows) {t₁ t₂ : ℤ} (ht : t₁ < t₂) :
    i'.row t₂ ≠ i.row t₁ := by
  intro h
  rw [InsertedRow.row, InsertedRow.row, hi, hi', RowKind.row, RowKind.row, List.map_inj_left] at h
  have hclock : Datum.clock t₂ = Datum.clock t₁ := (Prod.mk.inj (h _ hts)).2
  exact absurd (Datum.clock.inj hclock) ht.ne'

/-- The row that a run of the program adds. -/
def InsertsRow {α : Type} (m : Code σ α) (w : World σ) (i : InsertedRow) : Prop :=
  inserted (m w).2.events = inserted w.events ++ [i]

theorem rows_of_insertsRow {α : Type} {m : Code σ α} (hm : Prog.Keeps (Into names inv rows) m)
    {w : World σ} (hw : Serves names inv rows w) {i : InsertedRow} (hi : InsertsRow m w i) :
    i.target.rows = rows := by
  obtain ⟨-, es, hes, hrows⟩ := hm w hw
  rw [InsertsRow, hes, inserted_append] at hi
  exact hrows i (List.append_cancel_left hi ▸ List.mem_singleton_self i)

/-- An agent that has just connected, with nothing spilled. -/
def freshAgent : AgentWorld :=
  connectedAgent obligingEnv ⟨none, none, none⟩

/-- A metric of a shell, with every value in the form in which it is read back. -/
def shellMetric : ProcMetric where
  label := ⟨bytes "procwatch", Spilled.length_procwatch, Spilled.nulFree_procwatch⟩
  service := some ⟨bytes "sh", by decide, by decide⟩
  containerId := none
  pod := none
  pid := some ⟨bytes "7", by decide, by decide⟩
  comm := some ⟨bytes "sh", by decide, by decide⟩
  runtime := some ⟨bytes "other", by decide, by decide⟩
  cpu := Double.ofNat 0
  rss := 100
  threads := 1

def shellRow : InsertedRow where
  stmt := stmtName .procs (bytes "procwatch")
  target := recordTarget (bytes "procwatch") .procs (bytes "procwatch")
  vals := [some (bytes "sh"), some [], some [], some (bytes "7"), some (bytes "sh"),
    some (bytes "other"), some (bytes "0"), some (bytes "100"), some (bytes "1")]

theorem servesProcs_freshAgent : ServesProcs freshAgent where
  user := trivial
  session := by
    rintro c ⟨⟩ x hx
    exact absurd hx List.not_mem_nil

theorem insertsRow_writeMetric_shell : InsertsRow (writeMetric shellMetric) freshAgent shellRow := by
  rw [InsertsRow]
  decide +kernel

theorem insertsRow_replayLine_shell :
    InsertsRow (replayLine (metricLine DEFAULT_SCHEMA shellMetric)) freshAgent shellRow := by
  rw [InsertsRow]
  decide +kernel

/-- A process metric or a sample that was spilled and is replayed later never gives the row that
it would have given at once. -/
theorem row_replayed_ne {t₁ t₂ : ℤ} (ht : t₁ < t₂) :
    (∀ (schema : Identifier) (m : ProcMetric) (w w' : AgentWorld) (i i' : InsertedRow),
      ServesProcs w → ServesProcs w' → InsertsRow (writeMetric m) w i →
      InsertsRow (replayLine (metricLine schema m)) w' i' → i'.row t₂ ≠ i.row t₁) ∧
    ∀ (x : Sample) (line : Bytes) (name : Bytes) (w w' : MonitorWorld) (i i' : InsertedRow),
      ServesSamples name w → ServesSamples name w' → InsertsRow (writeSample x) w i →
      sampleLine x = some line → InsertsRow (replaySample line) w' i' → i'.row t₂ ≠ i.row t₁ := by
  constructor
  · intro schema m w w' i i' hw hw' hi hi'
    exact row_ne (by decide) (rows_of_insertsRow (keeps_into_writeMetric m) hw hi)
      (rows_of_insertsRow (keeps_into_replayLine schema m) hw' hi') ht
  · intro x line name w w' i i' hw hw' hi _ hi'
    exact row_ne (by decide) (rows_of_insertsRow (keeps_into_writeSample name x) hw hi)
      (rows_of_insertsRow (keeps_into_replaySample name line) hw' hi') ht

theorem row_replayed_ne_shell : shellRow.row 5 ≠ shellRow.row 0 :=
  (row_replayed_ne (by decide)).1 DEFAULT_SCHEMA shellMetric freshAgent freshAgent shellRow shellRow
    servesProcs_freshAgent servesProcs_freshAgent insertsRow_writeMetric_shell
    insertsRow_replayLine_shell

/-- Replayed five units of time later, the metric of the shell is given another time stamp. -/
theorem not_forall_row_replayed_eq :
    ¬ ∀ (schema : Identifier) (m : ProcMetric) (w w' : AgentWorld) (i i' : InsertedRow) (t₁ t₂ : ℤ),
      t₁ < t₂ → ServesProcs w → ServesProcs w' → InsertsRow (writeMetric m) w i →
      InsertsRow (replayLine (metricLine schema m)) w' i' → i'.row t₂ = i.row t₁ := by
  intro h
  have hrow := h DEFAULT_SCHEMA shellMetric freshAgent freshAgent shellRow shellRow 0 5 (by decide)
    servesProcs_freshAgent servesProcs_freshAgent insertsRow_writeMetric_shell
    insertsRow_replayLine_shell
  exact absurd hrow (by decide +kernel)

end ProcWatch

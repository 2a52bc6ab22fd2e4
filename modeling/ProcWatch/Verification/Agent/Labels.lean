import ProcWatch.Model.DbOtlp
import ProcWatch.Verification.Database.Statements
import ProcWatch.Verification.Names.Separation

/-! # The label cache: what `db_ensure_label` does -/

namespace ProcWatch

open CLib

/-! ## Statements for one label -/

/-- Everything but an insert, with statements prepared for the tables of the label only. -/
def LabelStmt (schema label : Bytes) : Stmt → Prop
  | .exec _ => True
  | .prepare name target =>
      ∃ kind, name = stmtName kind label ∧ target = ⟨.record kind, schema, tableName kind label⟩
  | .execPrepared _ _ => False

/-- The schema of an agent never changes. -/
def SameSchema (u u' : AgentState) : Prop :=
  u'.schema = u.schema

instance : IsPreorder AgentState SameSchema where
  refl _ := rfl
  trans _ _ _ h h' := h'.trans h

section Keeps

variable {U : AgentState → AgentState → Prop} [IsPreorder AgentState U] {P : Stmt → Prop}

theorem keeps_createIndexes (hexec : ∀ c, P (.exec c)) (kind : Kind) (schema table : Bytes) :
    Prog.Keeps (Issues P U) (createIndexes kind schema table) := by
  cases kind with
  | spans => exact Prog.keeps_bind (keeps_execWarn hexec _) fun _ => keeps_execWarn hexec _
  | procs => exact Prog.keeps_bind (keeps_execWarn hexec _) fun _ => keeps_execWarn hexec _
  | otelMetrics =>
      exact Prog.keeps_bind (keeps_execWarn hexec _) fun _ =>
        Prog.keeps_bind (keeps_execWarn hexec _) fun _ => keeps_execWarn hexec _

theorem keeps_ensureKindTable (hexec : ∀ c, P (.exec c)) (kind : Kind) (schema label : Bytes) :
    Prog.Keeps (Issues P U) (ensureKindTable kind schema label) := by
  refine Prog.keeps_bind (keeps_execOrExit hexec _) fun existedBefore => ?_
  refine Prog.keeps_bind (keeps_dbEnsureSchema hexec _) fun _ => ?_
  refine Prog.keeps_bind (keeps_execWarn hexec _) fun _ => ?_
  refine Prog.keeps_bind (keeps_exec hexec _) fun r => ?_
  cases r with
  | done found =>
      refine Prog.keeps_bind (keeps_createIndexes hexec _ _ _) fun _ => ?_
      refine Prog.keeps_bind (keeps_hypertableAndRetention hexec _ _) fun _ => ?_
      cases existedBefore with
      | false =>
          refine Prog.keeps_bind (keeps_execOrExit hexec _) fun exists' => ?_
          cases exists' with
          | false => exact Prog.keeps_pure ()
          | true => exact keeps_trackNewTable hexec _ _
      | true => exact Prog.keeps_pure ()
  | refused => exact Prog.keeps_pure ()
  | lost => exact Prog.keeps_pure ()

theorem keeps_prepareKind {kind : Kind} {schema label name : Bytes}
    (h : P (.prepare name ⟨.record kind, schema, tableName kind label⟩)) :
    Prog.Keeps (Issues P U) (prepareKind kind schema label name) :=
  Prog.keeps_bind (keeps_issue h) fun _ => Prog.keeps_pure ()

theorem keeps_createLabel (schema : Bytes) (e : LabelEntry) :
    Prog.Keeps (Issues (LabelStmt schema e.label) U) (createLabel schema e) := by
  have hexec : ∀ c, LabelStmt schema e.label (.exec c) := fun _ => trivial
  refine Prog.keeps_bind (keeps_ensureKindTable hexec _ _ _) fun _ => ?_
  refine Prog.keeps_bind (keeps_ensureKindTable hexec _ _ _) fun _ => ?_
  refine Prog.keeps_bind (keeps_ensureKindTable hexec _ _ _) fun _ => ?_
  refine Prog.keeps_bind (keeps_prepareKind ⟨.spans, e.spanStmt_eq, rfl⟩) fun _ => ?_
  refine Prog.keeps_bind (keeps_prepareKind ⟨.procs, e.metricStmt_eq, rfl⟩) fun _ => ?_
  exact keeps_prepareKind ⟨.otelMetrics, e.otelMetricStmt_eq, rfl⟩

end Keeps

theorem keeps_setLabels {P : Stmt → Prop} (labels : List LabelEntry) :
    Prog.Keeps (Issues P SameSchema) (setLabels labels) :=
  fun w => ⟨rfl, rfl, id, fun c hc => ⟨c, hc, Extends.refl c⟩, [], by simp [setLabels, Prog.modify],
    by simp⟩

theorem keeps_prepareLabel (schema : Bytes) (e : LabelEntry) :
    Prog.Keeps (Issues (LabelStmt schema e.label) SameSchema) (prepareLabel schema e) := by
  refine Prog.keeps_bind (keeps_createLabel schema e) fun _ => ?_
  refine Prog.keeps_bind Prog.keeps_get fun w => ?_
  exact Prog.keeps_bind (keeps_setLabels _) fun _ => Prog.keeps_pure 0

theorem findLabel_label {labels : List LabelEntry} {label : Bytes} {e : LabelEntry}
    (h : findLabel labels label = some e) : e.label = label := by
  simpa using List.find?_some h

/-- Whatever the database answers, `db_ensure_label` only prepares the label's statements. -/
theorem keeps_dbEnsureLabel (schema label : Bytes) :
    Prog.Keeps (Issues (LabelStmt schema label) SameSchema) (dbEnsureLabel schema label) := by
  refine Prog.keeps_bind Prog.keeps_get fun w => ?_
  split
  · exact Prog.keeps_pure (-1)
  · split
    · exact Prog.keeps_pure (-1)
    · cases hfind : findLabel w.user.labels label with
      | some e =>
          obtain rfl := findLabel_label hfind
          simp only
          split
          · exact Prog.keeps_pure 0
          · exact keeps_prepareLabel schema e
      | none =>
          simp only
          split
          · exact Prog.keeps_pure (-1)
          · exact Prog.keeps_bind (keeps_setLabels _) fun _ =>
              keeps_prepareLabel schema (LabelEntry.ofLabel label)

/-! ## Over a healthy connection -/

/-- The session knows the name. -/
def HasStmt {σ : Type} (name : Bytes) (w : World σ) : Prop :=
  ∃ c t, w.conn = some c ∧ c.target? name = some t

/-- Names are never dropped. -/
theorem Issues.hasStmt {σ : Type} {P : Stmt → Prop} {U : σ → σ → Prop} {w w' : World σ}
    {name : Bytes} (h : Issues P U w w') (hn : HasStmt name w) : HasStmt name w' := by
  obtain ⟨c, t, hc, ht⟩ := hn
  obtain ⟨c', hc', hext⟩ := h.session c hc
  obtain ⟨new, hnew, -⟩ := hext.prepared
  have hsome : (c'.target? name).isSome := by
    rw [Session.target?, hnew, List.lookup_append]
    simp [show c.prepared.lookup name = some t from ht]
  obtain ⟨t', ht'⟩ := Option.isSome_iff_exists.mp hsome
  exact ⟨c', t', hc', ht'⟩

/-- After a `PREPARE` the name is known, whether it was new or not. -/
theorem wp_prepareKind_healthy {kind : Kind} {schema label name : Bytes} {w : AgentWorld}
    (h : Healthy w) :
    Prog.wp (prepareKind kind schema label name) (fun _ w' => HasStmt name w') (fun _ => False) w := by
  rw [prepareKind, Prog.wp_bind]
  refine Prog.wp_mono (wp_issue_healthy h) ?_ fun _ => id
  rintro r w' ⟨-, c, found, -, hok, -, hc', -⟩
  obtain ⟨t, ht⟩ := answer_prepare_target hok
  exact ⟨_, t, hc', ht⟩

theorem succeeds_createIndexes (kind : Kind) (schema table : Bytes) :
    Succeeds (createIndexes kind schema table) := by
  cases kind with
  | spans => exact succeeds_bind (succeeds_execWarn _) fun _ => succeeds_execWarn _
  | procs => exact succeeds_bind (succeeds_execWarn _) fun _ => succeeds_execWarn _
  | otelMetrics =>
      exact succeeds_bind (succeeds_execWarn _) fun _ =>
        succeeds_bind (succeeds_execWarn _) fun _ => succeeds_execWarn _

theorem succeeds_ensureKindTable (kind : Kind) (schema label : Bytes) :
    Succeeds (ensureKindTable kind schema label) := by
  refine succeeds_bind (succeeds_execOrExit _) fun existedBefore => ?_
  refine succeeds_bind (succeeds_dbEnsureSchema _) fun _ => ?_
  refine succeeds_bind (succeeds_execWarn _) fun _ => ?_
  refine succeeds_bind (succeeds_issue _) fun r => ?_
  cases r with
  | done found =>
      refine succeeds_bind (succeeds_createIndexes _ _ _) fun _ => ?_
      refine succeeds_bind (succeeds_hypertableAndRetention _ _) fun _ => ?_
      cases existedBefore with
      | false =>
          refine succeeds_bind (succeeds_execOrExit _) fun exists' => ?_
          cases exists' with
          | false => exact succeeds_pure ()
          | true => exact succeeds_trackNewTable _ _
      | true => exact succeeds_pure ()
  | refused => exact succeeds_pure ()
  | lost => exact succeeds_pure ()

theorem succeeds_prepareKind (kind : Kind) (schema label name : Bytes) :
    Succeeds (prepareKind kind schema label name) :=
  succeeds_bind (succeeds_issue _) fun _ => succeeds_pure ()

/-- Tables and statements of the label are there afterwards. -/
theorem wp_createLabel_healthy (schema : Bytes) (e : LabelEntry) {w : AgentWorld} (h : Healthy w) :
    Prog.wp (createLabel schema e) (fun _ w' => Healthy w' ∧ ∀ kind, HasStmt (e.stmt kind) w')
      (fun _ => False) w := by
  have hprepare (kind : Kind) (name : Bytes) {w : AgentWorld} (h : Healthy w) :
      Prog.wp (prepareKind kind schema e.label name)
        (fun _ w' => (Healthy w' ∧ Issues (fun _ => True) SameSchema w w') ∧ HasStmt name w')
        (fun _ => False) w :=
    Prog.wp_mono (Prog.wp_and ((succeeds_prepareKind _ _ _ _).wp (keeps_prepareKind trivial) h)
      (wp_prepareKind_healthy h)) (fun _ _ => id) fun _ => And.left
  have htable (kind : Kind) := succeeds_ensureKindTable kind schema e.label
  simp only [createLabel, Prog.wp_bind]
  refine Prog.wp_mono (htable .spans w h) (fun _ w₁ h₁ => ?_) fun _ => id
  refine Prog.wp_mono (htable .procs w₁ h₁) (fun _ w₂ h₂ => ?_) fun _ => id
  refine Prog.wp_mono (htable .otelMetrics w₂ h₂) (fun _ w₃ h₃ => ?_) fun _ => id
  refine Prog.wp_mono (hprepare .spans e.spanStmt h₃) ?_ fun _ => id
  rintro _ w₄ ⟨⟨h₄, -⟩, hspan⟩
  refine Prog.wp_mono (hprepare .procs e.metricStmt h₄) ?_ fun _ => id
  rintro _ w₅ ⟨⟨h₅, hi₅⟩, hmetric⟩
  refine Prog.wp_mono (hprepare .otelMetrics e.otelMetricStmt h₅) ?_ fun _ => id
  rintro _ w₆ ⟨⟨h₆, hi₆⟩, hotel⟩
  refine ⟨h₆, fun kind => ?_⟩
  cases kind with
  | spans => exact hi₆.hasStmt (hi₅.hasStmt hspan)
  | procs => exact hi₆.hasStmt hmetric
  | otelMetrics => exact hotel

theorem LabelEntry.stmt_eq (e : LabelEntry) (kind : Kind) : e.stmt kind = stmtName kind e.label := by
  cases kind with
  | spans => exact e.spanStmt_eq
  | procs => exact e.metricStmt_eq
  | otelMetrics => exact e.otelMetricStmt_eq

/-- The label has a cache entry in use, and the session its three statements. -/
structure LabelReady (label : Bytes) (w : AgentWorld) : Prop where
  entry : ∃ e, findLabel w.user.labels label = some e ∧ e.ready = true
  stmts : ∀ kind, HasStmt (stmtName kind label) w

theorem findLabel_setReady {labels : List LabelEntry} {label : Bytes} {e : LabelEntry}
    (h : findLabel labels label = some e) :
    ∃ e', findLabel (labels.map fun e' => if e'.label = label then e'.setReady else e') label =
      some e' ∧ e'.ready = true := by
  induction labels with
  | nil => simp [findLabel] at h
  | cons e₀ labels ih =>
      by_cases hl : e₀.label = label
      · exact ⟨e₀.setReady, by simp [findLabel, hl, LabelEntry.setReady], rfl⟩
      · have htail : findLabel labels label = some e := by simpa [findLabel, hl] using h
        obtain ⟨e', he', hready⟩ := ih htail
        refine ⟨e', ?_, hready⟩
        simpa [findLabel, hl] using he'

theorem wp_prepareLabel_healthy (schema : Bytes) (e : LabelEntry) {w : AgentWorld} (h : Healthy w)
    (hfind : ∃ e', findLabel w.user.labels e.label = some e') :
    Prog.wp (prepareLabel schema e) (fun rc w' => rc = 0 ∧ Healthy w' ∧ LabelReady e.label w')
      (fun _ => False) w := by
  have hkeep := (keeps_createLabel (U := Eq) schema e) w
  simp only [prepareLabel, Prog.wp_bind]
  rw [Prog.wp_iff_run]
  have hrun := Prog.wp_iff_run.mp (wp_createLabel_healthy schema e h)
  refine ⟨?_, hrun.2⟩
  intro _ w' hw'
  obtain ⟨h', hstmts⟩ := hrun.1 _ w' hw'
  rw [hw'] at hkeep
  obtain ⟨e', he'⟩ := hfind
  rw [hkeep.user] at he'
  refine ⟨rfl, ⟨h'.replies, h'.connOk⟩, findLabel_setReady he', fun kind => ?_⟩
  rw [← e.stmt_eq kind]
  exact hstmts kind

/-- Room in the cache for a label: it has an entry, or there is one to spare. -/
def CacheRoom (label : Bytes) (w : AgentWorld) : Prop :=
  findLabel w.user.labels label ≠ none ∨ w.user.labels.length < LABEL_CACHE_MAX

/-- The labels in use have their statements on the current session. -/
def CacheCurrent (w : AgentWorld) : Prop :=
  ∀ e ∈ w.user.labels, e.ready = true → ∀ kind, HasStmt (stmtName kind e.label) w

/-- Over a healthy connection `db_ensure_label` fails only for want of room in the cache. -/
theorem wp_dbEnsureLabel_healthy {schema label : Bytes} {w : AgentWorld} (h : Healthy w)
    (hlabel : validateIdentifier label = true) (hschema : validateIdentifier schema = true)
    (hcache : CacheCurrent w) :
    Prog.wp (dbEnsureLabel schema label)
      (fun rc w' => (rc = 0 ∧ CacheRoom label w ∧ Healthy w' ∧ LabelReady label w') ∨
        (rc = -1 ∧ ¬ CacheRoom label w ∧ w' = w))
      (fun _ => False) w := by
  simp only [dbEnsureLabel, Prog.wp_bind, Prog.wp_get, h.connOk, hlabel, hschema, Bool.not_true,
    Bool.or_false, Bool.false_eq_true, if_false]
  cases hfind : findLabel w.user.labels label with
  | some e =>
      have hroom : CacheRoom label w := Or.inl (by simp [hfind])
      obtain rfl := findLabel_label hfind
      simp only
      by_cases hready : e.ready = true
      · rw [if_pos hready, Prog.wp_pure]
        have hmem := List.mem_of_find?_eq_some hfind
        exact Or.inl ⟨rfl, hroom, h, ⟨e, hfind, hready⟩, hcache e hmem hready⟩
      · rw [if_neg hready]
        refine Prog.wp_mono (wp_prepareLabel_healthy schema e h ⟨e, hfind⟩) ?_ fun _ => id
        intro rc w' hdone
        exact Or.inl ⟨hdone.1, hroom, hdone.2⟩
  | none =>
      simp only
      by_cases hfull : LABEL_CACHE_MAX ≤ w.user.labels.length
      · rw [if_pos hfull, Prog.wp_pure]
        refine Or.inr ⟨rfl, ?_, rfl⟩
        rintro (hne | hlt)
        · exact hne hfind
        · omega
      · rw [if_neg hfull, Prog.wp_bind, setLabels, Prog.wp_modify]
        refine Prog.wp_mono (wp_prepareLabel_healthy schema (LabelEntry.ofLabel label) ?_ ?_) ?_
          fun _ => id
        · exact ⟨h.replies, h.connOk⟩
        · have hnone : List.find? (fun e => e.label == label) w.user.labels = none := hfind
          exact ⟨LabelEntry.ofLabel label, by simp [findLabel, hnone, LabelEntry.ofLabel]⟩
        · intro rc w' hdone
          exact Or.inl ⟨hdone.1, Or.inr (by omega), hdone.2⟩

end ProcWatch

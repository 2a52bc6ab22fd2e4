import ProcWatch.Verification.Agent.Cache
import ProcWatch.Verification.Agent.Replay

/-! # What stands behind a ready label

The database is seen through the record of statements: a table is there when it was there at
the start or a `CREATE TABLE` for it has succeeded.
-/

namespace ProcWatch

open CLib

/-! ## Tables and statements of a label -/

def Reply.isDone : Reply → Bool
  | .done _ => true
  | _ => false

def Event.creates (schema table : Bytes) : Event → Bool
  | .sql (.exec (.createTable _ schema' table')) _ r =>
      r.isDone && schema' == schema && table' == table
  | _ => false

/-- Tables that are there after the events, `tables` being there before them. -/
def TableThere (tables : List (Bytes × Bytes)) (schema table : Bytes) (es : List Event) : Prop :=
  (schema, table) ∈ tables ∨ es.any (Event.creates schema table) = true

instance instDecidableTableThere (tables : List (Bytes × Bytes)) (schema table : Bytes)
    (es : List Event) : Decidable (TableThere tables schema table es) :=
  inferInstanceAs (Decidable (_ ∨ _))

/-- The three tables of the label are there, and its three inserts prepared. -/
structure Ensured (tables : List (Bytes × Bytes)) (schema label : Bytes) (w : AgentWorld) : Prop where
  tables : ∀ kind, TableThere tables schema (tableName kind label) w.events
  stmts : ∀ kind, ∃ c, w.conn = some c ∧
    c.target? (stmtName kind label) = some (recordTarget schema kind label)

/-! ## Runs of the label cache -/

/-- The operations on the cache; `mark_offline` is what resets it. -/
inductive LabelOp where
  | ensure (label : Bytes)
  | insert (kind : Kind) (label : Bytes) (vals : List (Option Bytes))
  | reset

def LabelOp.run (schema : Bytes) : LabelOp → Agent ℤ
  | .ensure label => dbEnsureLabel schema label
  | .insert kind label vals => insertKind kind label vals
  | .reset => do
      dbLabelCacheReset
      return 0

/-- Operations one after the other, none of which ended the process; `P` holds at the start and
after each of them. -/
inductive LabelRun (schema : Bytes) (P : AgentWorld → Prop) (w₀ : AgentWorld) : AgentWorld → Prop where
  | start (h₀ : P w₀) : LabelRun schema P w₀ w₀
  | step {w w' : AgentWorld} {rc : ℤ} (op : LabelOp) (h : LabelRun schema P w₀ w)
      (hop : op.run schema w = (.ret rc, w')) (hw' : P w') : LabelRun schema P w₀ w'

theorem LabelRun.holds {schema : Bytes} {P : AgentWorld → Prop} {w₀ w : AgentWorld}
    (h : LabelRun schema P w₀ w) : P w := by
  cases h with
  | start h₀ => exact h₀
  | step op h hop hw' => exact hw'

/-- A new connection and an empty cache. -/
structure Started (w : AgentWorld) : Prop where
  conn : w.conn = some Session.fresh
  labels : w.user.labels = []
  events : w.events = []

/-- Labels are marked ready, and reported so by the call that has led here, only with everything
in place. -/
def ReportsTruly (tables : List (Bytes × Bytes)) (schema : Bytes) (P : AgentWorld → Prop)
    (w₀ w : AgentWorld) : Prop :=
  (∀ e ∈ w.user.labels, e.ready = true → Ensured tables schema e.label w) ∧
    ∀ label v, LabelRun schema P w₀ v → dbEnsureLabel schema label v = (.ret 0, w) →
      Ensured tables schema label w

/-- The table that a failed `CREATE TABLE` of a label was for. -/
def Event.failedTable? : Event → Option (Bytes × Bytes)
  | .sql (.exec (.createTable (.record _) schema table)) _ r =>
      if r.isDone then none else some (schema, table)
  | _ => none

/-- A failed `PREPARE` of a name that the session did not know. -/
def Event.failedPrepare : Event → Bool
  | .sql (.prepare _ _) known r => !r.isDone && known.isNone
  | _ => false

/-- No `CREATE TABLE` of a label has failed so far but for a table that is there by now, and no
`PREPARE` but for a name that the session knew. -/
def Granted (tables : List (Bytes × Bytes)) (w : AgentWorld) : Prop :=
  ∀ e ∈ w.events,
    (∀ t ∈ e.failedTable?, TableThere tables t.1 t.2 w.events) ∧ e.failedPrepare = false

instance instDecidableGranted (tables : List (Bytes × Bytes)) (w : AgentWorld) :
    Decidable (Granted tables w) :=
  inferInstanceAs (Decidable (∀ e ∈ w.events, _))

/-! ## Statements that were sent -/

/-- The statement was sent, whatever became of it. -/
def Asked (s : Stmt) (w : AgentWorld) : Prop :=
  ∃ known r, .sql s known r ∈ w.events

/-- The name was sent for preparation, and is known if that went well or had gone well before. -/
def PrepareAsked (name : Bytes) (target : Target) (w : AgentWorld) : Prop :=
  ∃ known r, .sql (.prepare name target) known r ∈ w.events ∧
    (r.isDone = true ∨ known ≠ none → HasStmt name w)

structure LabelAsked (schema label : Bytes) (w : AgentWorld) : Prop where
  table : ∀ kind, Asked (.exec (.createTable (.record kind) schema (tableName kind label))) w
  stmt : ∀ kind, PrepareAsked (stmtName kind label) (recordTarget schema kind label) w

section Stable

variable {P : Stmt → Prop} {U : AgentState → AgentState → Prop} {w w' : AgentWorld}

/-- What sending statements leaves true. -/
def Stable (Q : AgentWorld → Prop) : Prop :=
  ∀ (P : Stmt → Prop) (U : AgentState → AgentState → Prop) (w w' : AgentWorld),
    Issues P U w w' → Q w → Q w'

theorem Issues.mem_events (h : Issues P U w w') {e : Event} (he : e ∈ w.events) : e ∈ w'.events := by
  obtain ⟨es, hes, -⟩ := h.events
  rw [hes]
  exact List.mem_append_left es he

theorem Issues.conn_ne_none (h : Issues P U w w') (hc : w.conn ≠ none) : w'.conn ≠ none := by
  obtain ⟨c, hc⟩ := Option.ne_none_iff_exists'.mp hc
  obtain ⟨c', hc', -⟩ := h.session c hc
  simp [hc']

theorem stable_asked (s : Stmt) : Stable (Asked s) := by
  intro P U w w' h hasked
  obtain ⟨known, r, hmem⟩ := hasked
  exact ⟨known, r, h.mem_events hmem⟩

theorem stable_prepareAsked (name : Bytes) (target : Target) : Stable (PrepareAsked name target) := by
  intro P U w w' h hasked
  obtain ⟨known, r, hmem, hknown⟩ := hasked
  exact ⟨known, r, h.mem_events hmem, fun hr => h.hasStmt (hknown hr)⟩

end Stable

/-! ## What `db_ensure_label` sends -/

/-- Whatever the replies, a returning run over a connection leaves `Q` true. -/
def Sends {α : Type} (m : Agent α) (Q : AgentWorld → Prop) : Prop :=
  ∀ w, w.conn ≠ none → Prog.wp m (fun _ w' => Q w') (fun _ => True) w

/-- A program that changes the session and the record of statements only. -/
def OnlySends {α : Type} (m : Agent α) : Prop :=
  Prog.Keeps (Issues (fun _ => True) (Eq : AgentState → AgentState → Prop)) m

section Sends

variable {α β : Type} {Q : AgentWorld → Prop}

/-- What the first program has sent stays sent. -/
theorem Sends.bind_left {m : Agent α} {f : α → Agent β} (hm : Sends m Q) (hQ : Stable Q)
    (hf : ∀ a, OnlySends (f a)) : Sends (m >>= f) Q := by
  intro w hc
  rw [Prog.wp_bind]
  refine Prog.wp_mono (hm w hc) (fun a w' hw' => ?_) fun _ => id
  exact Prog.wp_mono ((hf a).wp w') (fun _ w'' h => hQ _ _ w' w'' h hw') fun _ _ => trivial

/-- The second program finds the connection too. -/
theorem Sends.bind_right {m : Agent α} {f : α → Agent β} (hm : OnlySends m)
    (hf : ∀ a, Sends (f a) Q) : Sends (m >>= f) Q := by
  intro w hc
  rw [Prog.wp_bind]
  refine Prog.wp_mono (hm.wp w) (fun a w' h => ?_) fun _ _ => trivial
  exact hf a w' (h.conn_ne_none hc)

theorem sends_issue (s : Stmt) : Sends (issue s) (Asked s) := by
  intro w hc
  obtain ⟨c, hc⟩ := Option.ne_none_iff_exists'.mp hc
  rw [Prog.wp, issue_of_some hc]
  exact ⟨_, _, List.mem_append_right _ List.mem_cons_self⟩

theorem onlySends_ensureKindTable (kind : Kind) (schema label : Bytes) :
    OnlySends (ensureKindTable kind schema label) :=
  keeps_ensureKindTable (fun _ => trivial) kind schema label

theorem onlySends_prepareKind (kind : Kind) (schema label name : Bytes) :
    OnlySends (prepareKind kind schema label name) :=
  keeps_prepareKind trivial

/-- The session knows a name that it has accepted or knew before. -/
theorem target?_answer_prepare {c : Session} {name : Bytes} {target : Target} {r : Reply}
    (h : (c.answer (.prepare name target) r).1.isDone = true ∨ c.target? name ≠ none) :
    (c.answer (.prepare name target) r).2.target? name ≠ none := by
  by_cases hn : c.target? name = none
  · have hdone := h.resolve_right (not_not_intro hn)
    by_cases hok : c.ok = false
    · simp [Session.answer, hok, Reply.isDone] at hdone
    · cases r with
      | done found =>
          have hready : ∃ t, (c.answer (.prepare name target) (.done found)).2.target? name =
            some t := answer_prepare_target (by simpa using hok)
          exact Option.ne_none_iff_exists'.mpr hready
      | refused => simp [Session.answer, hok, Reply.isDone] at hdone
      | lost => simp [Session.answer, hok, Reply.isDone] at hdone
  · obtain ⟨t, ht⟩ := Option.ne_none_iff_exists'.mp hn
    by_cases hok : c.ok = false
    · simp [Session.answer, hok, ht]
    · cases r with
      | done found => simp [Session.answer, hok, ht]
      | refused => simp [Session.answer, hok, ht]
      | lost =>
          have hans : (c.answer (.prepare name target) .lost).2 = { c with ok := false } := by
            simp [Session.answer, hok]
          rw [hans]
          exact hn

theorem sends_prepareKind (kind : Kind) (schema label name : Bytes) :
    Sends (prepareKind kind schema label name)
      (PrepareAsked name (recordTarget schema kind label)) := by
  intro w hc
  obtain ⟨c, hc⟩ := Option.ne_none_iff_exists'.mp hc
  rw [prepareKind, Prog.wp_bind, Prog.wp, issue_of_some hc]
  refine ⟨_, _, List.mem_append_right _ List.mem_cons_self, fun h => ?_⟩
  obtain ⟨t, ht⟩ := Option.ne_none_iff_exists'.mp (target?_answer_prepare h)
  exact ⟨_, t, rfl, ht⟩

theorem sends_ensureKindTable (kind : Kind) (schema label : Bytes) :
    Sends (ensureKindTable kind schema label)
      (Asked (.exec (.createTable (.record kind) schema (tableName kind label)))) := by
  have hexec : ∀ c, (fun _ : Stmt => True) (.exec c) := fun _ => trivial
  refine Sends.bind_right (keeps_execOrExit hexec _) fun existedBefore => ?_
  refine Sends.bind_right (keeps_dbEnsureSchema hexec _) fun _ => ?_
  refine Sends.bind_right (keeps_execWarn hexec _) fun _ => ?_
  refine Sends.bind_left (sends_issue _) (stable_asked _) fun r => ?_
  cases r with
  | done found =>
      refine Prog.keeps_bind (keeps_createIndexes hexec _ _ _) fun _ => ?_
      refine Prog.keeps_bind (keeps_hypertableAndRetention hexec _ _) fun _ => ?_
      cases existedBefore with
      | false =>
          refine Prog.keeps_bind (keeps_execOrExit hexec _) fun exists' => ?_
          cases exists' with
          | false => exact Prog.keeps_pure ()
          | true => exact keeps_trackNewTable hexec _ _
      | true => exact Prog.keeps_pure ()
  | refused => exact Prog.keeps_pure ()
  | lost => exact Prog.keeps_pure ()

/-- All six statements that matter are sent, also after a failure. -/
theorem sends_createLabel (schema : Bytes) (e : LabelEntry) :
    Sends (createLabel schema e) (LabelAsked schema e.label) := by
  have htable (kind : Kind) := onlySends_ensureKindTable kind schema e.label
  have hstmt (kind : Kind) (name : Bytes) := onlySends_prepareKind kind schema e.label name
  have hprepares := Prog.keeps_bind (hstmt .spans e.spanStmt) fun _ =>
    Prog.keeps_bind (hstmt .procs e.metricStmt) fun _ => hstmt .otelMetrics e.otelMetricStmt
  have htables (kind : Kind) : Sends (createLabel schema e)
      (Asked (.exec (.createTable (.record kind) schema (tableName kind e.label)))) := by
    cases kind with
    | spans =>
        exact (sends_ensureKindTable _ _ _).bind_left (stable_asked _) fun _ =>
          Prog.keeps_bind (htable _) fun _ => Prog.keeps_bind (htable _) fun _ => hprepares
    | procs =>
        exact .bind_right (htable _) fun _ => (sends_ensureKindTable _ _ _).bind_left
          (stable_asked _) fun _ => Prog.keeps_bind (htable _) fun _ => hprepares
    | otelMetrics =>
        exact .bind_right (htable _) fun _ => .bind_right (htable _) fun _ =>
          (sends_ensureKindTable _ _ _).bind_left (stable_asked _) fun _ => hprepares
  have hstmts (kind : Kind) : Sends (createLabel schema e)
      (PrepareAsked (stmtName kind e.label) (recordTarget schema kind e.label)) := by
    rw [← e.stmt_eq kind]
    refine .bind_right (htable _) fun _ => .bind_right (htable _) fun _ =>
      .bind_right (htable _) fun _ => ?_
    cases kind with
    | spans =>
        exact (sends_prepareKind _ _ _ _).bind_left (stable_prepareAsked _ _) fun _ =>
          Prog.keeps_bind (hstmt _ _) fun _ => hstmt _ _
    | procs =>
        exact .bind_right (hstmt _ _) fun _ => (sends_prepareKind _ _ _ _).bind_left
          (stable_prepareAsked _ _) fun _ => hstmt _ _
    | otelMetrics =>
        exact .bind_right (hstmt _ _) fun _ => .bind_right (hstmt _ _) fun _ =>
          sends_prepareKind _ _ _ _
  intro w hc
  rw [Prog.wp_iff_run]
  refine ⟨fun a w' hrun => ⟨fun kind => ?_, fun kind => ?_⟩, fun _ _ => trivial⟩
  · exact (Prog.wp_iff_run.mp (htables kind w hc)).1 a w' hrun
  · exact (Prog.wp_iff_run.mp (hstmts kind w hc)).1 a w' hrun

end Sends

theorem lasting_labelAsked (schema : Bytes) : Lasting (LabelAsked schema) where
  issues := fun P U w w' _ h hl =>
    ⟨fun kind => stable_asked _ P U w w' h (hl.table kind),
      fun kind => stable_prepareAsked _ _ P U w w' h (hl.stmt kind)⟩
  recache := fun _ _ _ hl => ⟨hl.table, hl.stmt⟩

/-! ## The cache over a run -/

/-- The labels in use have had their statements sent. -/
structure CacheAsked (schema : Bytes) (w : AgentWorld) : Prop where
  ready : ReadyAll (LabelAsked schema) w
  session : ∀ c, w.conn = some c → SessionFor schema c

theorem wp_dbEnsureLabel_asked {schema : Bytes} (label : Bytes) {w : AgentWorld}
    (hw : CacheAsked schema w) :
    Prog.wp (dbEnsureLabel schema label)
      (fun rc w' => CacheAsked schema w' ∧ (rc = 0 → LabelAsked schema label w'))
      (fun _ => True) w := by
  have hcreate (hconn : connOk w.conn = true) (labels : List LabelEntry) (e : LabelEntry)
      (hl : e.label = label) :
      Prog.wp (createLabel schema e) (fun _ w' => LabelAsked schema e.label w') (fun _ => True)
        (recache labels w) := by
    refine sends_createLabel schema e (recache labels w) fun hnone => ?_
    rw [show w.conn = none from hnone] at hconn
    cases hconn
  have hready := wp_dbEnsureLabel_ready (lasting_labelAsked schema) hcreate hw.ready
  refine Prog.wp_mono (Prog.wp_and hready ((keeps_dbEnsureLabel schema label).wp w)) ?_
    fun _ _ => trivial
  intro rc w' h
  exact ⟨⟨h.1.1, h.2.sessionFor (fun _ _ => LabelStmt.prepares) hw.session⟩, fun hrc => (h.1.2 hrc).1⟩

/-- What one operation keeps. -/
theorem LabelOp.cacheAsked {schema : Bytes} (op : LabelOp) {w w' : AgentWorld} {rc : ℤ}
    (hw : CacheAsked schema w) (hop : op.run schema w = (.ret rc, w')) : CacheAsked schema w' := by
  cases op with
  | ensure label =>
      have hrun := Prog.wp_iff_run.mp (wp_dbEnsureLabel_asked label hw)
      exact (hrun.1 rc w' hop).1
  | insert kind label vals =>
      have hkeep := keeps_insertKind kind label vals w
      rw [show insertKind kind label vals w = (.ret rc, w') from hop] at hkeep
      exact ⟨hkeep.readyAll (lasting_labelAsked schema) hw.ready,
        hkeep.sessionFor (fun name target hnot => absurd rfl (hnot name target)) hw.session⟩
  | reset =>
      obtain ⟨-, rfl⟩ := Prod.mk.inj hop
      exact ⟨fun e he => absurd he List.not_mem_nil, hw.session⟩

theorem Started.cacheAsked {schema : Bytes} {w : AgentWorld} (h : Started w) :
    CacheAsked schema w := by
  refine ⟨by simp [ReadyAll, h.labels], fun c hc => ?_⟩
  obtain rfl := Option.some.inj (h.conn.symm.trans hc)
  simp [SessionFor, Session.fresh]

theorem LabelRun.cacheAsked {schema : Bytes} {P : AgentWorld → Prop} {w₀ w : AgentWorld}
    (h : LabelRun schema P w₀ w) (h₀ : Started w₀) : CacheAsked schema w := by
  induction h with
  | start _ => exact h₀.cacheAsked
  | step op _ hop _ ih => exact op.cacheAsked ih hop

/-- Statements that were sent and granted have had their effect. -/
theorem LabelAsked.ensured {tables : List (Bytes × Bytes)} {schema label : Bytes} {w : AgentWorld}
    (h : LabelAsked schema label w) (hsession : ∀ c, w.conn = some c → SessionFor schema c)
    (hg : Granted tables w) : Ensured tables schema label w := by
  constructor
  · intro kind
    obtain ⟨known, r, hmem⟩ := h.table kind
    by_cases hdone : r.isDone = true
    · refine Or.inr (List.any_eq_true.mpr ⟨_, hmem, ?_⟩)
      simp [Event.creates, hdone]
    · exact (hg _ hmem).1 (schema, tableName kind label) (by simp [Event.failedTable?, hdone])
  · intro kind
    obtain ⟨known, r, hmem, hknown⟩ := h.stmt kind
    have hfailed := (hg _ hmem).2
    have hok : r.isDone = true ∨ known ≠ none := by
      by_cases hdone : r.isDone = true
      · exact Or.inl hdone
      · refine Or.inr fun hnone => ?_
        simp [Event.failedPrepare, hdone, hnone] at hfailed
    obtain ⟨c, t, hc, ht⟩ := hknown hok
    exact ⟨c, hc, by rw [ht, (hsession c hc).target_eq ht]⟩

/-- Wherever a run of the cache gets to with harmless failures all along, a ready label is
truly so. -/
theorem reportsTruly_of_granted {tables : List (Bytes × Bytes)} {schema : Bytes}
    {w₀ w : AgentWorld} (h₀ : Started w₀) (hrun : LabelRun schema (Granted tables) w₀ w) :
    ReportsTruly tables schema (Granted tables) w₀ w := by
  have hg := hrun.holds
  have hasked := hrun.cacheAsked h₀
  constructor
  · intro e he hready
    exact (hasked.ready e he hready).ensured hasked.session hg
  · intro label v hv hcall
    have hensure := Prog.wp_iff_run.mp (wp_dbEnsureLabel_asked label (hv.cacheAsked h₀))
    exact ((hensure.1 0 w hcall).2 rfl).ensured hasked.session hg

/-- The default schema's agent after it has ensured the label `shop`. -/
def shopEnsured (env : Env) : AgentWorld :=
  ((LabelOp.ensure (bytes "shop")).run (bytes "procwatch")
    (connectedAgent env ⟨none, none, none⟩)).2

theorem started_connectedAgent (env : Env) (files : Files) : Started (connectedAgent env files) :=
  ⟨rfl, rfl, rfl⟩

theorem run_shopEnsured (env : Env) (h : ((LabelOp.ensure (bytes "shop")).run (bytes "procwatch")
      (connectedAgent env ⟨none, none, none⟩)).1 = .ret 0) :
    dbEnsureLabel (bytes "procwatch") (bytes "shop") (connectedAgent env ⟨none, none, none⟩) =
      (.ret 0, shopEnsured env) :=
  Prog.eq_of_outcome h

theorem reportsTruly_of_granted_shop :
    ReportsTruly [] (bytes "procwatch") (Granted []) (connectedAgent obligingEnv ⟨none, none, none⟩)
      (shopEnsured obligingEnv) :=
  reportsTruly_of_granted (started_connectedAgent _ _)
    (.step (.ensure (bytes "shop")) (.start (by decide +kernel))
      (run_shopEnsured obligingEnv (by decide +kernel)) (by decide +kernel))

/-- Surroundings that refuse to create a span table and nothing else. -/
def noSpanTableEnv : Env where
  reply _ _ s := match s with
    | .exec (.createTable (.record .spans) _ _) => .refused
    | _ => .done true
  connect _ := true
  reset _ := true
  now _ := 1
  file _ := ⟨false, true, true, 0⟩

/-- Over a connection that stays up, the label is ready without its span table. -/
theorem not_reportsTruly_noSpanTable :
    ¬ ∀ (tables : List (Bytes × Bytes)) (schema : Bytes) (w₀ w : AgentWorld), Started w₀ →
      (∀ n c s, w₀.env.reply n c s ≠ .lost) → LabelRun schema (fun _ => True) w₀ w →
      ReportsTruly tables schema (fun _ => True) w₀ w := by
  intro h
  have hrun := run_shopEnsured noSpanTableEnv (by decide +kernel)
  have hreports := h [] (bytes "procwatch") _ _ (started_connectedAgent noSpanTableEnv _) ?_
    (.step (.ensure (bytes "shop")) (.start trivial) hrun trivial)
  · have hensured := hreports.2 (bytes "shop") _ (.start trivial) hrun
    have hthere := hensured.tables .spans
    revert hthere
    decide +kernel
  · intro n c s
    simp only [connectedAgent, noSpanTableEnv]
    split
    · simp
    · simp

end ProcWatch

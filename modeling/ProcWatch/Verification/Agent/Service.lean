import ProcWatch.Verification.Agent.Cache
import ProcWatch.Verification.Agent.Replay
import ProcWatch.Verification.Store.SpillFile
import ProcWatch.Verification.Store.Trace

/-! # Serving records over a connection that stays up -/

namespace ProcWatch

open CLib

/-! ## Records, steps and rows -/

namespace AgentRecord

def write : AgentRecord → Agent ℤ
  | metric m => writeMetric m
  | otelMetric p => writeOtelMetric p
  | span s => writeSpan s

def vals : AgentRecord → List (Option Bytes)
  | metric m => metricVals m
  | otelMetric p => otelMetricVals p
  | span s => spanVals s

/-- The values that are read back from the record's line. -/
def replayVals (schema : Identifier) (r : AgentRecord) : List (Option Bytes) :=
  match r with
  | metric _ => metricVals (readProcMetric (r.line schema) [0] "cpu" "rss" r.label)
  | otelMetric _ => otelMetricVals (readMetricPoint (r.line schema) [0] r.label)
  | span _ => spanVals (readSpan (r.line schema) [0] r.label)

def rowOf (schema : Identifier) (r : AgentRecord) (vals : List (Option Bytes)) : InsertedRow :=
  ⟨stmtName r.kind r.label.val, recordTarget schema.val r.kind r.label.val, vals⟩

end AgentRecord

/-- A record arrives, or the spill file is flushed, by itself or in the upkeep. -/
inductive AgentStep where
  | live (r : AgentRecord)
  | flush
  | maintain

def AgentStep.run : AgentStep → Agent ℤ
  | .live r => r.write
  | .flush => pwDbBufFlush replayLine
  | .maintain => pwDbBufMaintain replayLine

def runSteps : List AgentStep → Agent (List ℤ)
  | [] => return []
  | s :: ss => do
      let rc ← s.run
      let rcs ← runSteps ss
      return rc :: rcs

/-- Every record once: a live one at its step, the stored ones at the first flush. -/
def rowsOf (schema : Identifier) : List AgentStep → List AgentRecord → List InsertedRow
  | [], _ => []
  | .live r :: ss, stored => r.rowOf schema r.vals :: rowsOf schema ss stored
  | .flush :: ss, stored | .maintain :: ss, stored =>
      stored.map (fun r => r.rowOf schema (r.replayVals schema)) ++ rowsOf schema ss []

/-- The records still in the spill file. -/
def leftOf : List AgentStep → List AgentRecord → List AgentRecord
  | [], stored => stored
  | .live _ :: ss, stored => leftOf ss stored
  | .flush :: ss, _ | .maintain :: ss, _ => leftOf ss []

def Event.isSpill : Event → Bool
  | .spilled _ _ => true
  | _ => false

/-- Rows were inserted, and nothing was spilled. -/
def Adds (rows : List InsertedRow) (w w' : AgentWorld) : Prop :=
  ∃ es, w'.events = w.events ++ es ∧ inserted es = rows ∧ ∀ e ∈ es, e.isSpill = false

/-- Every file operation succeeds. -/
def Smooth (env : Env) : Prop :=
  ∀ n, (env.file n).crash = false ∧ (env.file n).ok = true ∧ (env.file n).wrote = true

/-- A running agent with a new connection, in surroundings where nothing fails. -/
structure AgentStart (w : AgentWorld) : Prop where
  healthy : Healthy w
  smooth : Smooth w.env
  online : w.online = true
  conn : w.conn = some Session.fresh
  labels : w.user.labels = []

def Among (labels : Finset Bytes) (r : AgentRecord) : Prop :=
  validateIdentifier r.label.val = true ∧ r.label.val ∈ labels

/-- Every step succeeds, every record is inserted, none is spilled, a flush leaves nothing in
the file, and no label would be refused. -/
structure Served (labels : Finset Bytes) (steps : List AgentStep) (stored : List AgentRecord)
    (w₀ : AgentWorld) : Prop where
  run : Prog.wp (runSteps steps)
    (fun rcs w => (∀ rc ∈ rcs, rc = 0) ∧ Adds (rowsOf w₀.user.schema steps stored) w₀ w ∧
      Holds w.files.spill ((leftOf steps stored).map fun r => r.line w₀.user.schema) ∧
      ∀ label ∈ labels, validateIdentifier label = true →
        (dbEnsureLabel w.user.schema.val label w).1 = .ret 0)
    (fun _ => False) w₀

/-! ## The state between steps -/

theorem Adds.refl (w : AgentWorld) : Adds [] w w :=
  ⟨[], by simp, rfl, by simp⟩

theorem Adds.trans {rows rows' : List InsertedRow} {w w' w'' : AgentWorld} (h : Adds rows w w')
    (h' : Adds rows' w' w'') : Adds (rows ++ rows') w w'' := by
  obtain ⟨es, hes, hrows, hspill⟩ := h
  obtain ⟨es', hes', hrows', hspill'⟩ := h'
  refine ⟨es ++ es', by rw [hes', hes, List.append_assoc], by rw [inserted_append, hrows, hrows'],
    fun e he => ?_⟩
  cases List.mem_append.mp he with
  | inl he => exact hspill e he
  | inr he => exact hspill' e he

/-- Sending statements spills nothing. -/
theorem Issues.adds {P : Stmt → Prop} {U : AgentState → AgentState → Prop} {w w' : AgentWorld}
    (h : Issues P U w w') {rows : List InsertedRow}
    (hrows : inserted w'.events = inserted w.events ++ rows) : Adds rows w w' := by
  obtain ⟨es, hes, hsql⟩ := h.events
  refine ⟨es, hes, ?_, fun e he => ?_⟩
  · rw [hes, inserted_append] at hrows
    exact List.append_cancel_left hrows
  · obtain ⟨s, known, r, rfl, -⟩ := hsql e he
    rfl

/-- The agent is in working order, and its cache holds labels of a set only. -/
structure Serving (labels : Finset Bytes) (w : AgentWorld) : Prop where
  healthy : Healthy w
  smooth : Smooth w.env
  online : w.online = true
  session : AgentSession w
  current : CacheCurrent w
  nodup : (cachedLabels w).Nodup
  known : ∀ label ∈ cachedLabels w, label ∈ labels

theorem AgentStart.serving {w : AgentWorld} (h : AgentStart w) (labels : Finset Bytes) :
    Serving labels w where
  healthy := h.healthy
  smooth := h.smooth
  online := h.online
  session := by
    intro c hc
    obtain rfl := Option.some.inj (h.conn.symm.trans hc)
    simp [SessionFor, Session.fresh]
  current := by simp [CacheCurrent, h.labels]
  nodup := by simp [cachedLabels, h.labels]
  known := by simp [cachedLabels, h.labels]

/-- One step forward with these rows inserted. -/
structure Progress (labels : Finset Bytes) (rows : List InsertedRow) (w w' : AgentWorld) : Prop where
  serving : Serving labels w'
  adds : Adds rows w w'
  schema : w'.user.schema = w.user.schema
  cached : ∀ label ∈ cachedLabels w, label ∈ cachedLabels w'

theorem Progress.trans {labels : Finset Bytes} {rows rows' : List InsertedRow}
    {w w' w'' : AgentWorld} (h : Progress labels rows w w') (h' : Progress labels rows' w' w'') :
    Progress labels (rows ++ rows') w w'' :=
  ⟨h'.serving, h.adds.trans h'.adds, h'.schema.trans h.schema,
    fun label hl => h'.cached label (h.cached label hl)⟩

theorem Serving.refl {labels : Finset Bytes} {w : AgentWorld} (h : Serving labels w) :
    Progress labels [] w w :=
  ⟨h, Adds.refl w, rfl, fun _ => id⟩

/-- Distinct labels of a small set leave room for one more of it. -/
theorem Serving.cacheRoom {labels : Finset Bytes} (hcard : labels.card ≤ LABEL_CACHE_MAX)
    {w : AgentWorld} (h : Serving labels w) {label : Bytes} (hl : label ∈ labels) :
    CacheRoom label w := by
  by_cases hmem : label ∈ cachedLabels w
  · exact Or.inl fun hnone => notMem_cachedLabels_iff.mpr hnone hmem
  · refine Or.inr ?_
    have hsub : insert label (cachedLabels w).toFinset ⊆ labels := by
      intro l hin
      cases Finset.mem_insert.mp hin with
      | inl heq => exact heq ▸ hl
      | inr hin => exact h.known l (List.mem_toFinset.mp hin)
    have hle := Finset.card_le_card hsub
    rw [Finset.card_insert_of_notMem (by simpa using hmem), List.toFinset_card_of_nodup h.nodup]
      at hle
    have hlen : (cachedLabels w).length = w.user.labels.length := List.length_map _
    omega

/-! ## Statements -/

theorem lasting_hasStmts :
    Lasting fun label w => ∀ kind, HasStmt (stmtName kind label) w where
  issues := fun _ _ _ _ _ h hl kind => h.hasStmt (hl kind)
  recache := fun _ _ _ hl => hl

section Steps

variable {labels : Finset Bytes} {w : AgentWorld}

/-- `db_ensure_label` takes every label of a set that fits the cache. -/
theorem wp_dbEnsureLabel_serving (hcard : labels.card ≤ LABEL_CACHE_MAX) (h : Serving labels w)
    {label : Bytes} (hvalid : validateIdentifier label = true) (hl : label ∈ labels) :
    Prog.wp (dbEnsureLabel w.user.schema.val label)
      (fun rc w' => rc = 0 ∧ Progress labels [] w w' ∧ w'.files = w.files ∧ LabelReady label w' ∧
        label ∈ cachedLabels w')
      (fun _ => False) w := by
  have hcreate (_ : connOk w.conn = true) (entries : List LabelEntry) (e : LabelEntry)
      (_ : e.label = label) :
      Prog.wp (createLabel w.user.schema.val e)
        (fun _ w' => ∀ kind, HasStmt (stmtName kind e.label) w') (fun _ => True)
        (recache entries w) := by
    have hhealthy : Healthy (recache entries w) := ⟨h.healthy.replies, h.healthy.connOk⟩
    refine Prog.wp_mono (wp_createLabel_healthy w.user.schema.val e hhealthy) ?_ fun _ _ => trivial
    intro _ w' h' kind
    rw [← e.stmt_eq kind]
    exact h'.2 kind
  have hready := wp_dbEnsureLabel_ready lasting_hasStmts hcreate h.current
  have hhealthy := wp_dbEnsureLabel_healthy h.healthy hvalid w.user.schema.valid h.current
  have hkeep := (keeps_dbEnsureLabel w.user.schema.val label).wp w
  refine Prog.wp_mono (Prog.wp_and hhealthy (Prog.wp_and hready hkeep)) ?_ fun _ h' => h'.1
  intro rc w' hdone
  obtain ⟨hres, ⟨hcurrent, hcaches⟩, hissues⟩ := hdone
  cases hres with
  | inr hfull => exact absurd (h.cacheRoom hcard hl) hfull.2.1
  | inl hok =>
      obtain ⟨rfl, -, hhealthy', hlabel⟩ := hok
      have hframe := hissues.frame
      have hcached := (hcaches rfl).2
      have hnone := hissues.inserted_eq fun _ _ => id
      have hserving : Serving labels w' := {
        healthy := hhealthy'
        smooth := by rw [hframe]; exact h.smooth
        online := by rw [hframe]; exact h.online
        session := hissues.agentSession h.session
        current := hcurrent
        nodup := hcached.nodup h.nodup
        known := fun l hin => ((hcached.mem_iff l).mp hin).elim (h.known l) fun heq => heq ▸ hl }
      refine ⟨rfl, ⟨hserving, hissues.adds (by rw [hnone, List.append_nil]), hissues.user, ?_⟩,
        by rw [hframe], hlabel, (hcached.mem_iff label).mpr (Or.inr rfl)⟩
      exact fun l hin => (hcached.mem_iff l).mpr (Or.inl hin)

/-- The insert for a label that is ready. -/
theorem wp_insertKind_serving (h : Serving labels w) {kind : Kind} {label : Bytes}
    (vals : List (Option Bytes)) (hlabel : LabelReady label w) :
    Prog.wp (insertKind kind label vals)
      (fun rc w' => rc = 0 ∧ Progress labels
        [⟨stmtName kind label, recordTarget w.user.schema.val kind label, vals⟩] w w' ∧
        w'.files = w.files)
      (fun _ => False) w := by
  have hins := wp_insertKind_healthy kind vals h.healthy h.session hlabel
  refine Prog.wp_mono (Prog.wp_and hins ((keeps_insertKind kind label vals).wp w)) ?_
    fun _ h' => h'.1
  intro rc w' hdone
  obtain ⟨⟨rfl, hhealthy, huser, hrows⟩, hissues⟩ := hdone
  have hframe := hissues.frame
  have hcached : cachedLabels w' = cachedLabels w := by rw [cachedLabels, huser, cachedLabels]
  have hserving : Serving labels w' := {
    healthy := hhealthy
    smooth := by rw [hframe]; exact h.smooth
    online := by rw [hframe]; exact h.online
    session := by
      rw [AgentSession, huser]
      exact hissues.sessionFor (fun name target hnot => absurd rfl (hnot name target)) h.session
    current := hissues.readyAll lasting_hasStmts h.current
    nodup := hcached ▸ h.nodup
    known := hcached ▸ h.known }
  refine ⟨rfl, ⟨hserving, hissues.adds hrows, by rw [huser], ?_⟩, by rw [hframe]⟩
  exact fun l hin => hcached ▸ hin

/-! ## A live record -/

theorem wp_tryInsert_serving (hcard : labels.card ≤ LABEL_CACHE_MAX) (h : Serving labels w)
    {kind : Kind} {label : Bytes} (vals : List (Option Bytes))
    (hvalid : validateIdentifier label = true) (hl : label ∈ labels) :
    Prog.wp (tryInsert label (insertKind kind label vals))
      (fun ok w' => ok = true ∧ Progress labels
        [⟨stmtName kind label, recordTarget w.user.schema.val kind label, vals⟩] w w' ∧
        w'.files = w.files ∧ label ∈ cachedLabels w')
      (fun _ => False) w := by
  obtain ⟨c, hc, -⟩ := h.healthy.exists_session
  simp only [tryInsert, Prog.wp_bind, Prog.wp_get, h.online, hc, Bool.true_eq_false,
    reduceCtorEq, or_self, if_false]
  refine Prog.wp_mono (wp_dbEnsureLabel_serving hcard h hvalid hl) ?_ fun _ => id
  intro rc w₁ hensured
  obtain ⟨rfl, hprogress, hfiles, hready, hcached⟩ := hensured
  simp only [ne_eq, not_true_eq_false, if_false, Prog.wp_bind]
  refine Prog.wp_mono (wp_insertKind_serving hprogress.serving vals hready) ?_ fun _ => id
  intro rc w₂ hinserted
  obtain ⟨rfl, hprogress', hfiles'⟩ := hinserted
  rw [hprogress.schema] at hprogress'
  exact ⟨by simp, hprogress.trans hprogress', hfiles'.trans hfiles, hprogress'.cached label hcached⟩

theorem write_eq (r : AgentRecord) : r.write = writeRecord r (insertKind r.kind r.label.val r.vals) := by
  cases r <;> rfl

theorem wp_write_serving (hcard : labels.card ≤ LABEL_CACHE_MAX) (h : Serving labels w)
    {r : AgentRecord} (hr : Among labels r) :
    Prog.wp r.write
      (fun rc w' => rc = 0 ∧ Progress labels [r.rowOf w.user.schema r.vals] w w' ∧
        w'.files = w.files ∧ r.label.val ∈ cachedLabels w')
      (fun _ => False) w := by
  rw [write_eq, writeRecord, Prog.wp_bind]
  refine Prog.wp_mono (wp_tryInsert_serving hcard h r.vals hr.1 hr.2) ?_ fun _ => id
  intro ok w' hdone
  obtain ⟨rfl, hdone⟩ := hdone
  exact ⟨rfl, hdone⟩

/-! ## A replayed line -/

theorem wp_replayRecord_serving (hcard : labels.card ≤ LABEL_CACHE_MAX) (h : Serving labels w)
    {schema : Identifier} {r : AgentRecord} (hr : Among labels r)
    (vals : CStr 100 → List (Option Bytes)) :
    Prog.wp (replayRecord (r.line schema) fun l => insertKind r.kind l.val (vals l))
      (fun rc w' => rc = 0 ∧ Progress labels [r.rowOf w.user.schema (vals r.label)] w w' ∧
        w'.files = w.files)
      (fun _ => False) w := by
  simp only [replayRecord, strBuf_label schema r hr.1, jsonStr_label schema r hr.1, hr.1,
    Bool.not_true, Bool.false_eq_true, if_false, Prog.wp_bind, Prog.wp_get]
  refine Prog.wp_mono (wp_dbEnsureLabel_serving hcard h hr.1 hr.2) ?_ fun _ => id
  intro rc w₁ hensured
  obtain ⟨rfl, hprogress, hfiles, hready, -⟩ := hensured
  simp only [ne_eq, not_true_eq_false, if_false, Prog.wp_bind]
  refine Prog.wp_mono (wp_insertKind_serving hprogress.serving (vals r.label) hready) ?_ fun _ => id
  intro rc w₂ hinserted
  obtain ⟨rfl, hprogress', hfiles'⟩ := hinserted
  rw [hprogress.schema] at hprogress'
  simp only [not_true_eq_false, if_false]
  exact ⟨rfl, hprogress.trans hprogress', hfiles'.trans hfiles⟩

theorem wp_replayLine_serving (hcard : labels.card ≤ LABEL_CACHE_MAX) (h : Serving labels w)
    {r : AgentRecord} (hr : Among labels r) (hkind : r.kind ≠ .otelMetrics) :
    Prog.wp (replayLine (r.line w.user.schema))
      (fun rc w' => rc = 0 ∧
        Progress labels [r.rowOf w.user.schema (r.replayVals w.user.schema)] w w' ∧
        w'.files = w.files)
      (fun _ => False) w := by
  have hline := replayLine_line w.user.schema r h.healthy.connOk
  rw [Prog.wp, hline]
  cases r with
  | metric m => exact wp_replayRecord_serving hcard h hr _
  | span s => exact wp_replayRecord_serving hcard h hr _
  | otelMetric p => exact absurd rfl hkind

/-! ## File operations that succeed -/

section Files

variable {X : AgentWorld → Prop}

theorem wp_fileOp_smooth (h : Smooth w.env) {op : FileOp} {Q : Bool → AgentWorld → Prop}
    (hok : Q true (w.after op .ok)) : Prog.wp (fileOp op) Q X w := by
  obtain ⟨hcrash, hdone, -⟩ := h w.tick
  simpa [fileOp, ask, record, Prog.wp_ite, hcrash, hdone, World.after] using hok

theorem wp_unlink_smooth (h : Smooth w.env) {p : Path} {Q : Unit → AgentWorld → Prop}
    (hok : Q () ((w.after (.unlink p) .ok).put p none)) : Prog.wp (unlink p) Q X w := by
  simp only [unlink, setFile, Prog.wp_bind]
  exact wp_fileOp_smooth h hok

theorem wp_openRead_smooth (h : Smooth w.env) {p : Path} {Q : Option Bytes → AgentWorld → Prop}
    (hok : Q (w.files.get p) (w.after (.openRead p) .ok)) : Prog.wp (openRead p) Q X w := by
  simp only [openRead, Prog.wp_bind, Prog.wp_get]
  exact wp_fileOp_smooth h hok

theorem wp_rename_smooth (h : Smooth w.env) {src dst : Path}
    {Q : RenameResult → AgentWorld → Prop}
    (henoent : w.files.get src = none → Q .enoent (w.after (.rename src dst) .ok))
    (hok : ∀ content, w.files.get src = some content →
      Q .ok (((w.after (.rename src dst) .ok).put src none).put dst (some content))) :
    Prog.wp (rename src dst) Q X w := by
  simp only [rename, setFile, Prog.wp_bind, Prog.wp_get]
  apply wp_fileOp_smooth h
  simp only [World.after_files]
  cases hsrc : w.files.get src with
  | none => exact henoent hsrc
  | some content => exact hok content hsrc

end Files

/-- An event that neither inserts nor spills. -/
theorem Serving.note (h : Serving labels w) (e : Event) (tick flushed : ℕ)
    (hrow : e.insertedRow? = none) (hspill : e.isSpill = false) :
    Progress labels [] w { w with tick := tick, flushed := flushed, events := w.events ++ [e] } := by
  refine ⟨⟨⟨h.healthy.replies, h.healthy.connOk⟩, h.smooth, h.online, h.session, h.current, h.nodup,
    h.known⟩, ⟨[e], rfl, ?_, ?_⟩, rfl, fun _ => id⟩
  · simp [inserted, hrow]
  · simpa using hspill

theorem Serving.after (h : Serving labels w) (op : FileOp) : Progress labels [] w (w.after op .ok) :=
  h.note (.file op .ok) (w.tick + 1) w.flushed rfl rfl

theorem Serving.put (h : Serving labels w) (p : Path) (content : Option Bytes) :
    Progress labels [] w (w.put p content) :=
  ⟨⟨⟨h.healthy.replies, h.healthy.connOk⟩, h.smooth, h.online, h.session, h.current, h.nodup,
    h.known⟩, Adds.refl w, rfl, fun _ => id⟩

/-! ## A flush -/

/-- Removing the claim and the remainder. -/
theorem wp_discardClaim_serving (h : Serving labels w) :
    Prog.wp (discardClaim : Agent ℤ)
      (fun rc w' => rc = 0 ∧ Progress labels [] w w' ∧ w'.files.spill = w.files.spill)
      (fun _ => False) w := by
  rw [discardClaim, Prog.wp_bind]
  apply wp_unlink_smooth h.smooth
  have hflushing := (h.after (.unlink .flushing)).serving.put .flushing none
  have hfirst := (h.after (.unlink .flushing)).trans hflushing
  rw [Prog.wp_bind]
  apply wp_unlink_smooth hfirst.serving.smooth
  have hrest := hfirst.serving.after (.unlink .rest)
  exact ⟨rfl, hfirst.trans (hrest.trans (hrest.serving.put .rest none)), rfl⟩

/-- Every claimed line is inserted. -/
theorem wp_flushLoop_serving (hcard : labels.card ≤ LABEL_CACHE_MAX) {schema : Identifier}
    {stored : List AgentRecord} (hstored : ∀ r ∈ stored, Among labels r ∧ r.kind ≠ .otelMetrics)
    (h : Serving labels w) (hschema : w.user.schema = schema) :
    Prog.wp (flushLoop replayLine (stored.map fun r => r.line schema ++ [0x0a]))
      (fun d w' => d = .drained ∧
        Progress labels (stored.map fun r => r.rowOf schema (r.replayVals schema)) w w' ∧
        w'.files = w.files)
      (fun _ => False) w := by
  induction stored generalizing w with
  | nil => exact ⟨rfl, h.refl, rfl⟩
  | cons r stored ih =>
      have hr := hstored r List.mem_cons_self
      have hwhole := (completeLine (spilled_line schema r)).wholeLine
      rw [List.map_cons, flushLoop]
      simp only [stripEol_line hwhole.oneLine, hwhole.ne_nil, if_false, Prog.wp_bind]
      have hreplay := wp_replayLine_serving hcard h hr.1 hr.2
      rw [hschema] at hreplay
      refine Prog.wp_mono hreplay ?_ fun _ => id
      intro rc w₁ hdone
      obtain ⟨rfl, hprogress, hfiles⟩ := hdone
      simp only [record, Prog.wp_modify, Prog.wp_bind, if_true]
      have hnote := hprogress.serving.note (.replayed (r.line schema) 0) w₁.tick (w₁.flushed + 1)
        rfl rfl
      have hnext := ih (fun r' hr' => hstored r' (List.mem_cons_of_mem _ hr')) hnote.serving
        (hnote.schema.trans (hprogress.schema.trans hschema))
      refine Prog.wp_mono hnext ?_ fun _ => id
      intro d w₂ hrest
      obtain ⟨rfl, hprogress', hfiles'⟩ := hrest
      exact ⟨rfl, hprogress.trans (hnote.trans hprogress'), hfiles'.trans hfiles⟩

/-- A flush inserts the records of the file and leaves none. -/
theorem wp_pwDbBufFlush_serving (hcard : labels.card ≤ LABEL_CACHE_MAX) {schema : Identifier}
    {stored : List AgentRecord} (hstored : ∀ r ∈ stored, Among labels r ∧ r.kind ≠ .otelMetrics)
    (h : Serving labels w) (hschema : w.user.schema = schema)
    (hfile : Holds w.files.spill (stored.map fun r => r.line schema)) :
    Prog.wp (pwDbBufFlush replayLine)
      (fun rc w' => rc = 0 ∧
        Progress labels (stored.map fun r => r.rowOf schema (r.replayVals schema)) w w' ∧
        w'.files.spill = none)
      (fun _ => False) w := by
  obtain ⟨c, hc, hok⟩ := h.healthy.exists_session
  simp only [pwDbBufFlush, Prog.wp_bind, Prog.wp_get, h.online, hc, hok, Bool.not_true,
    Bool.false_eq_true, if_false]
  apply wp_rename_smooth h.smooth
  · intro hnone
    have htext := hfile.text
    rw [show w.files.spill = none from hnone] at htext
    have hnil : stored = [] := by
      cases stored with
      | nil => rfl
      | cons r stored => simp [unlines] at htext
    subst hnil
    have hclaim := h.after (.rename .spill .flushing)
    refine Prog.wp_mono (wp_discardClaim_serving hclaim.serving) ?_ fun _ => id
    intro rc w' hdone
    exact ⟨hdone.1, hclaim.trans hdone.2.1, hdone.2.2.trans hnone⟩
  · intro content hcontent
    have htext : content = unlines (stored.map fun r => r.line schema) := by
      rw [← hfile.text, show w.files.spill = some content from hcontent, Option.getD_some]
    have hlines : getlines content = stored.map fun r => r.line schema ++ [0x0a] := by
      rw [htext, getlines_unlines hfile.whole, List.map_map]
      rfl
    have hafter := h.after (.rename .spill .flushing)
    have hspill := hafter.trans (hafter.serving.put .spill none)
    have hclaim := hspill.trans (hspill.serving.put .flushing (some content))
    rw [Prog.wp_bind]
    apply wp_openRead_smooth hclaim.serving.smooth
    have hread := hclaim.trans (hclaim.serving.after (.openRead .flushing))
    simp only [World.put_files, Files.get, Files.set, Prog.wp_bind, hlines]
    have hloop := wp_flushLoop_serving hcard hstored hread.serving (hread.schema.trans hschema)
    refine Prog.wp_mono hloop ?_ fun _ => id
    intro d w₁ hdrained
    obtain ⟨rfl, hprogress, hfiles⟩ := hdrained
    refine Prog.wp_mono (wp_discardClaim_serving hprogress.serving) ?_ fun _ => id
    intro rc w₂ hdone
    refine ⟨hdone.1, ?_, hdone.2.2.trans (by rw [hfiles]; rfl)⟩
    have hall := hread.trans (hprogress.trans hdone.2.1)
    simpa using hall

/-- The upkeep finds the connection up and flushes. -/
theorem wp_pwDbBufMaintain_serving {Q : ℤ → AgentWorld → Prop} (h : Serving labels w)
    (hflush : Prog.wp (pwDbBufFlush replayLine) Q (fun _ => False) w) :
    Prog.wp (pwDbBufMaintain replayLine) Q (fun _ => False) w := by
  have honline : { w with online := true } = w := by rw [← h.online]
  simp only [pwDbBufMaintain, pwDbBufEnsure, Prog.wp_bind, Prog.wp_get, h.healthy.connOk, if_true,
    setOnline, Prog.wp_modify, Prog.wp_pure, honline]
  exact hflush

end Steps

/-! ## Runs -/

section Runs

variable {labels : Finset Bytes} {schema : Identifier} {steps : List AgentStep}
  {stored : List AgentRecord} {w : AgentWorld}

/-- The steps keep the agent serving, and the cache takes in the labels of the live records. -/
theorem wp_runSteps_serving (hcard : labels.card ≤ LABEL_CACHE_MAX)
    (hlive : ∀ r, AgentStep.live r ∈ steps → Among labels r)
    (hstored : ∀ r ∈ stored, Among labels r ∧ r.kind ≠ .otelMetrics) (h : Serving labels w)
    (hschema : w.user.schema = schema)
    (hfile : Holds w.files.spill (stored.map fun r => r.line schema)) :
    Prog.wp (runSteps steps)
      (fun rcs w' => (∀ rc ∈ rcs, rc = 0) ∧ Progress labels (rowsOf schema steps stored) w w' ∧
        Holds w'.files.spill ((leftOf steps stored).map fun r => r.line schema) ∧
        ∀ r, AgentStep.live r ∈ steps → r.label.val ∈ cachedLabels w')
      (fun _ => False) w := by
  induction steps generalizing w stored with
  | nil => exact ⟨by simp, h.refl, hfile, by simp⟩
  | cons s ss ih =>
      have hlive' (r : AgentRecord) (hr : AgentStep.live r ∈ ss) : Among labels r :=
        hlive r (List.mem_cons_of_mem s hr)
      -- both kinds of flush go on with an empty file
      have hflushed : Prog.wp (pwDbBufFlush replayLine) (fun rc w₁ => Prog.wp (runSteps ss)
          (fun rcs w' => (∀ rc' ∈ rc :: rcs, rc' = 0) ∧
            Progress labels ((stored.map fun r => r.rowOf schema (r.replayVals schema)) ++
              rowsOf schema ss []) w w' ∧
            Holds w'.files.spill ((leftOf ss []).map fun r => r.line schema) ∧
            ∀ r, AgentStep.live r ∈ ss → r.label.val ∈ cachedLabels w')
          (fun _ => False) w₁) (fun _ => False) w := by
        refine Prog.wp_mono (wp_pwDbBufFlush_serving hcard hstored h hschema hfile) ?_ fun _ => id
        intro rc w₁ hdone
        obtain ⟨rfl, hprogress, hempty⟩ := hdone
        have hnil : ∀ r ∈ ([] : List AgentRecord), Among labels r ∧ r.kind ≠ .otelMetrics := by
          simp
        have hnext := ih hlive' hnil hprogress.serving (hprogress.schema.trans hschema)
          (by rw [hempty]; exact Holds.none)
        refine Prog.wp_mono hnext ?_ fun _ => id
        intro rcs w₂ hrest
        exact ⟨List.forall_mem_cons.mpr ⟨rfl, hrest.1⟩, hprogress.trans hrest.2.1, hrest.2.2⟩
      rw [runSteps]
      simp only [Prog.wp_bind, Prog.wp_pure]
      cases s with
      | live r =>
          have hr := hlive r List.mem_cons_self
          refine Prog.wp_mono (wp_write_serving hcard h hr) ?_ fun _ => id
          intro rc w₁ hdone
          obtain ⟨rfl, hprogress, hfiles, hcached⟩ := hdone
          rw [hschema] at hprogress
          have hnext := ih hlive' hstored hprogress.serving (hprogress.schema.trans hschema)
            (by rw [hfiles]; exact hfile)
          refine Prog.wp_mono hnext ?_ fun _ => id
          intro rcs w₂ hrest
          refine ⟨List.forall_mem_cons.mpr ⟨rfl, hrest.1⟩, hprogress.trans hrest.2.1, hrest.2.2.1, ?_⟩
          intro r' hr'
          cases List.mem_cons.mp hr' with
          | inl heq =>
              cases heq
              exact hrest.2.1.cached _ hcached
          | inr hmem => exact hrest.2.2.2 r' hmem
      | flush =>
          refine Prog.wp_mono hflushed (fun rc w₁ hrun => ?_) fun _ => id
          refine Prog.wp_mono hrun (fun rcs w₂ hdone => ?_) fun _ => id
          exact ⟨hdone.1, hdone.2.1, hdone.2.2.1, fun r hr => hdone.2.2.2 r (by simpa using hr)⟩
      | maintain =>
          refine wp_pwDbBufMaintain_serving h (Prog.wp_mono hflushed (fun rc w₁ hrun => ?_) fun _ => id)
          refine Prog.wp_mono hrun (fun rcs w₂ hdone => ?_) fun _ => id
          exact ⟨hdone.1, hdone.2.1, hdone.2.2.1, fun r hr => hdone.2.2.2 r (by simpa using hr)⟩

/-- Labels that fit the cache are served: every record is inserted, nothing is spilled, a flush
empties the file. -/
theorem served_of_card_le (hcard : labels.card ≤ LABEL_CACHE_MAX) (h : AgentStart w)
    (hlive : ∀ r, AgentStep.live r ∈ steps → Among labels r)
    (hstored : ∀ r ∈ stored, Among labels r ∧ r.kind ≠ .otelMetrics)
    (hfile : Holds w.files.spill (stored.map fun r => r.line w.user.schema)) :
    Served labels steps stored w := by
  have hrun := wp_runSteps_serving hcard hlive hstored (h.serving labels) rfl hfile
  refine ⟨Prog.wp_mono hrun ?_ fun _ => id⟩
  intro rcs w' hdone
  refine ⟨hdone.1, hdone.2.1.adds, hdone.2.2.1, fun label hl hvalid => ?_⟩
  have hensure := Prog.wp_iff_run.mp
    (wp_dbEnsureLabel_serving hcard hdone.2.1.serving hvalid hl)
  cases hres : dbEnsureLabel w'.user.schema.val label w' with
  | mk o w'' =>
      cases o with
      | ret rc => rw [(hensure.1 rc w'' hres).1]
      | exit => exact (hensure.2 w'' hres).elim

end Runs

/-! ## One label too many -/

def numberedLabel (i : ℕ) : CStr 100 :=
  CStr.copy 100 (bytes "app" ++ decimal i)

/-- A process metric with the `i`th of many labels. -/
def numbered (i : ℕ) : AgentRecord :=
  .metric { Spilled.metricOfComm (CStr.copy 64 (bytes "sh")) with label := numberedLabel i }

def numberedSteps (n : ℕ) : List AgentStep :=
  (List.range n).map fun i => .live (numbered i)

def numberedLabels (n : ℕ) : Finset Bytes :=
  ((List.range n).map fun i => (numberedLabel i).val).toFinset

theorem kind_numbered (i : ℕ) : (numbered i).kind = .procs := rfl

theorem nodup_numberedLabel : ((List.range 65).map fun i => (numberedLabel i).val).Nodup := by
  decide +kernel

theorem valid_numberedLabel : ∀ i < 65, validateIdentifier (numberedLabel i).val = true := by
  decide +kernel

theorem among_numbered {n i : ℕ} (hi : i < n) (hn : n ≤ 65) :
    Among (numberedLabels n) (numbered i) := by
  refine ⟨valid_numberedLabel i (by omega), List.mem_toFinset.mpr ?_⟩
  exact List.mem_map.mpr ⟨i, List.mem_range.mpr hi, rfl⟩

theorem live_numberedSteps {n : ℕ} (hn : n ≤ 65) :
    ∀ r, AgentStep.live r ∈ numberedSteps n → Among (numberedLabels n) r := by
  intro r hr
  obtain ⟨i, hi, heq⟩ := List.mem_map.mp hr
  cases heq
  exact among_numbered (List.mem_range.mp hi) hn

theorem card_numberedLabels_le (n : ℕ) : (numberedLabels n).card ≤ n := by
  refine (List.toFinset_card_le _).trans ?_
  simp

theorem holds_unlines (schema : Identifier) (rs : List AgentRecord) :
    Holds (some (unlines (rs.map fun r => r.line schema))) (rs.map fun r => r.line schema) := by
  refine ⟨rfl, fun l hl => ?_⟩
  obtain ⟨r, -, rfl⟩ := List.mem_map.mp hl
  exact (completeLine (spilled_line schema r)).wholeLine

theorem agentStart_connectedAgent (files : Files) : AgentStart (connectedAgent obligingEnv files) :=
  ⟨healthy_connectedAgent files, fun _ => ⟨rfl, rfl, rfl⟩, rfl, rfl, rfl⟩

/-- A started agent whose spill file holds the record. -/
def storedAgent (r : AgentRecord) : AgentWorld :=
  connectedAgent obligingEnv ⟨some (unlines ([r].map fun r => r.line DEFAULT_SCHEMA)), none, none⟩

theorem served_of_card_le_two :
    Served (numberedLabels 2) (.flush :: numberedSteps 2) [numbered 1]
      (storedAgent (numbered 1)) := by
  refine served_of_card_le ?_ ?_ ?_ ?_ ?_
  · exact (card_numberedLabels_le 2).trans (by decide)
  · exact agentStart_connectedAgent _
  · exact fun r hr => live_numberedSteps (by decide) r (by simpa using hr)
  · intro r hr
    obtain rfl := List.mem_singleton.mp hr
    exact ⟨among_numbered (by decide) (by decide), by rw [kind_numbered]; decide⟩
  · exact holds_unlines DEFAULT_SCHEMA [numbered 1]

theorem wp_runSteps_append {steps steps' : List AgentStep} {Q : List ℤ → AgentWorld → Prop}
    {X : AgentWorld → Prop} {w : AgentWorld} :
    Prog.wp (runSteps (steps ++ steps')) Q X w ↔
      Prog.wp (runSteps steps) (fun rcs w' =>
        Prog.wp (runSteps steps') (fun rcs' w'' => Q (rcs ++ rcs') w'') X w') X w := by
  induction steps generalizing Q w with
  | nil => rfl
  | cons s ss ih =>
      simp only [List.cons_append, runSteps, Prog.wp_bind, Prog.wp_pure, ih]

/-- The world's record goes on with a call of `pw_db_buf_spill`. -/
def NotesSpill (w w' : AgentWorld) : Prop :=
  ∃ es, w'.events = w.events ++ es ∧ ∃ e ∈ es, e.isSpill = true

theorem notesSpill_of_events {w w' : AgentWorld} (es : List Event) (line : Bytes) (ok : Bool)
    (h : w'.events = w.events ++ (es ++ [.spilled line ok])) : NotesSpill w w' :=
  ⟨es ++ [.spilled line ok], h, .spilled line ok, by simp, rfl⟩

theorem wp_pwDbBufSpill_notes (line : Bytes) (w : AgentWorld) :
    Prog.wp (pwDbBufSpill line) (fun _ w' => NotesSpill w w') (fun _ => True) w := by
  apply wp_pwDbBufSpill trivial fun _ => trivial
  · exact notesSpill_of_events [.file (.openAppend .spill) .ok, .file (.write .spill) .ok] line
      true (by simp)
  · exact notesSpill_of_events [.file (.openAppend .spill) .failed] line false (by simp)
  · intro closed left
    exact notesSpill_of_events [.file (.openAppend .spill) .ok,
      .file (.write .spill) (uncleanWrite left closed)] line false (by simp)

/-- Without room in the cache a live record is spilled. -/
theorem wp_write_refused {labels : Finset Bytes} {w : AgentWorld} (h : Serving labels w)
    {r : AgentRecord} (hvalid : validateIdentifier r.label.val = true)
    (hfull : ¬ CacheRoom r.label.val w) :
    Prog.wp r.write (fun _ w' => NotesSpill w w') (fun _ => True) w := by
  obtain ⟨c, hc, -⟩ := h.healthy.exists_session
  have htry : Prog.wp (tryInsert r.label.val (insertKind r.kind r.label.val r.vals))
      (fun ok w' => ok = false ∧ w' = w) (fun _ => True) w := by
    simp only [tryInsert, Prog.wp_bind, Prog.wp_get, h.online, hc, Bool.true_eq_false,
      reduceCtorEq, or_self, if_false]
    refine Prog.wp_mono (wp_dbEnsureLabel_healthy h.healthy hvalid w.user.schema.valid h.current) ?_
      fun _ _ => trivial
    intro rc w' hres
    cases hres with
    | inl hok => exact absurd hok.2.1 hfull
    | inr hrefused =>
        obtain ⟨rfl, -, rfl⟩ := hrefused
        exact ⟨rfl, rfl⟩
  rw [write_eq, writeRecord, Prog.wp_bind]
  refine Prog.wp_mono htry ?_ fun _ => id
  intro ok w' hfailed
  obtain ⟨rfl, rfl⟩ := hfailed
  simp only [Bool.false_eq_true, if_false, markOffline, setOnline, dbLabelCacheReset, setLabels,
    Prog.wp_bind, Prog.wp_modify, Prog.wp_get]
  refine Prog.wp_mono (wp_pwDbBufSpill_notes _ _) ?_ fun _ => id
  intro rc w₁ hnoted
  exact hnoted

/-- Once the labels of 64 records are cached there is no room for the next. -/
theorem not_cacheRoom_numbered {w : AgentWorld} (h : Serving (numberedLabels 64) w)
    (hcached : ∀ r, AgentStep.live r ∈ numberedSteps 64 → r.label.val ∈ cachedLabels w) :
    ¬ CacheRoom (numbered 64).label.val w := by
  have hnodup := nodup_numberedLabel
  rw [List.range_succ, List.map_append, List.map_singleton, List.nodup_append] at hnodup
  intro hroom
  cases hroom with
  | inl hfound =>
      have hmem := (not_congr notMem_cachedLabels_iff).mpr hfound
      have hin := List.mem_toFinset.mp (h.known _ (not_not.mp hmem))
      exact hnodup.2.2 _ hin _ List.mem_cons_self rfl
  | inr hlt =>
      have hsub : numberedLabels 64 ⊆ (cachedLabels w).toFinset := by
        intro l hl
        obtain ⟨i, hi, rfl⟩ := List.mem_map.mp (List.mem_toFinset.mp hl)
        exact List.mem_toFinset.mpr (hcached (numbered i) (List.mem_map.mpr ⟨i, hi, rfl⟩))
      have hle := Finset.card_le_card hsub
      rw [numberedLabels, List.toFinset_card_of_nodup hnodup.1, List.length_map, List.length_range,
        List.toFinset_card_of_nodup h.nodup, cachedLabels, List.length_map] at hle
      exact absurd hlt (Nat.not_lt.mpr hle)

/-- The 65th label's record is spilled. -/
theorem not_served_tooMany {w : AgentWorld} (h : AgentStart w) (hfile : w.files.spill = none) :
    ¬ Served (numberedLabels 65) (numberedSteps 65) [] w := by
  intro hserved
  have hsteps : numberedSteps 65 = numberedSteps 64 ++ [.live (numbered 64)] := by
    rw [numberedSteps, List.range_succ, List.map_append, List.map_singleton, numberedSteps]
  have hrun := hserved.run
  rw [hsteps, wp_runSteps_append] at hrun
  have hnone : Holds w.files.spill ([].map fun r : AgentRecord => r.line w.user.schema) := by
    rw [hfile]
    exact Holds.none
  have hfirst := wp_runSteps_serving (card_numberedLabels_le 64) (live_numberedSteps (by decide))
    (fun r hr => absurd hr List.not_mem_nil) (h.serving _) rfl hnone
  refine Prog.not_wp_false _ _ (Prog.wp_mono (Prog.wp_and hfirst hrun) ?_ fun _ hexit => hexit.1)
  intro rcs w₁ hmid
  obtain ⟨⟨-, hprogress, -, hcached⟩, hlast⟩ := hmid
  have hvalid : validateIdentifier (numbered 64).label.val = true :=
    valid_numberedLabel 64 (by decide)
  have hrefused := wp_write_refused hprogress.serving hvalid
    (not_cacheRoom_numbered hprogress.serving hcached)
  simp only [runSteps, Prog.wp_bind, Prog.wp_pure] at hlast
  refine Prog.not_wp_false _ _ (Prog.wp_mono (Prog.wp_and hlast hrefused) ?_ fun _ hexit => hexit.1)
  intro rc w₂ hend
  obtain ⟨⟨-, ⟨es, hes, -, hquiet⟩, -⟩, es', hes', e, he, hspill⟩ := hend
  obtain ⟨es₁, hes₁, -, -⟩ := hprogress.adds
  rw [hes', hes₁, List.append_assoc] at hes
  have heq := List.append_cancel_left hes
  have hfalse := hquiet e (heq ▸ List.mem_append_right es₁ he)
  rw [hspill] at hfalse
  cases hfalse

theorem not_served_numbered :
    ¬ ∀ (labels : Finset Bytes) (steps : List AgentStep) (stored : List AgentRecord)
      (w : AgentWorld), AgentStart w →
      (∀ r, AgentStep.live r ∈ steps → Among labels r) →
      (∀ r ∈ stored, Among labels r ∧ r.kind ≠ .otelMetrics) →
      Holds w.files.spill (stored.map fun r => r.line w.user.schema) →
      Served labels steps stored w := by
  intro h
  refine not_served_tooMany (agentStart_connectedAgent ⟨none, none, none⟩) rfl ?_
  exact h _ _ [] _ (agentStart_connectedAgent _) (live_numberedSteps le_rfl)
    (fun r hr => absurd hr List.not_mem_nil) Holds.none

end ProcWatch

import ProcWatch.Model.Database
import ProcWatch.Model.SpillLine

/-! # Label cache and inserts of `agentd` (`db_otlp.c`) -/

namespace ProcWatch

open CLib

def LABEL_CACHE_MAX : ℕ := 64

/-- `label_entry_t`, with its statement names formed from its label. -/
structure LabelEntry where
  label : Bytes
  spanStmt : Bytes
  metricStmt : Bytes
  otelMetricStmt : Bytes
  ready : Bool
  spanStmt_eq : spanStmt = stmtName .spans label
  metricStmt_eq : metricStmt = stmtName .procs label
  otelMetricStmt_eq : otelMetricStmt = stmtName .otelMetrics label

namespace LabelEntry

/-- The entry that `db_ensure_label` adds for a new label. -/
def ofLabel (label : Bytes) : LabelEntry where
  label := label
  spanStmt := stmtName .spans label
  metricStmt := stmtName .procs label
  otelMetricStmt := stmtName .otelMetrics label
  ready := false
  spanStmt_eq := rfl
  metricStmt_eq := rfl
  otelMetricStmt_eq := rfl

def setReady (e : LabelEntry) : LabelEntry :=
  { e with ready := true }

/-- The statement an insert of this kind runs. -/
def stmt (e : LabelEntry) : Kind → Bytes
  | .spans => e.spanStmt
  | .procs => e.metricStmt
  | .otelMetrics => e.otelMetricStmt

end LabelEntry

/-- State of a running agent: its schema, the label cache `g_labels`, and the counters of
`agent_state_t` are left to the events. -/
structure AgentState where
  schema : Identifier
  labels : List LabelEntry

abbrev AgentWorld := World AgentState

abbrev Agent (α : Type) := Code AgentState α

def setLabels (labels : List LabelEntry) : Agent Unit :=
  Prog.modify fun w => { w with user := { w.user with labels := labels } }

def dbLabelCacheReset : Agent Unit :=
  setLabels []

def findLabel (labels : List LabelEntry) (label : Bytes) : Option LabelEntry :=
  labels.find? fun e => e.label == label

/-! ## Tables -/

/-- An index name `idx_<table>_<what>`, cut at 63 characters. -/
def indexName (table what : Bytes) : Bytes :=
  (bounded 80 (bytes "idx_" ++ table ++ bytes "_" ++ what)).take 63

/-- The migrations and indexes that follow `CREATE TABLE`, kind by kind. -/
def createIndexes (kind : Kind) (schema table : Bytes) : Agent Unit :=
  match kind with
  | .spans => do
      execWarn (.createIndex (indexName table (bytes "trace")) schema table (bytes "trace_id"))
      execWarn (.createIndex (indexName table (bytes "svc")) schema table (bytes "service_name"))
  | .procs => do
      execWarn (.alterPidType schema table)
      execWarn (.createIndex (indexName table (bytes "svc")) schema table (bytes "service_name"))
  | .otelMetrics => do
      execWarn (.addPidColumn schema table)
      execWarn (.createIndex (indexName table (bytes "name")) schema table (bytes "metric_name"))
      execWarn (.createIndex (indexName table (bytes "svc")) schema table (bytes "service_name"))

/-- The body shared by `ensure_span_table`, `ensure_metric_table` and
`ensure_otel_metric_table`. -/
def ensureKindTable (kind : Kind) (schema label : Bytes) : Agent Unit := do
  let table := tableName kind label
  let existedBefore ← dbTableExists schema table
  dbEnsureSchema schema
  dbTryEnableTimescaledb
  match ← exec (.createTable (.record kind) schema table) with
  | .done _ =>
      createIndexes kind schema table
      hypertableAndRetention schema table
      -- the second look happens only where there was no table before
      if !existedBefore then
        if ← dbTableExists schema table then trackNewTable schema table
  | _ => return ()

def ensureSpanTable (schema label : Bytes) : Agent Unit :=
  ensureKindTable .spans schema label

def ensureMetricTable (schema label : Bytes) : Agent Unit :=
  ensureKindTable .procs schema label

def ensureOtelMetricTable (schema label : Bytes) : Agent Unit :=
  ensureKindTable .otelMetrics schema label

/-! ## Statements -/

/-- The body shared by `prepare_span`, `prepare_metric` and `prepare_otel_metric`. -/
def prepareKind (kind : Kind) (schema label stmtName : Bytes) : Agent Unit := do
  let _ ← issue (.prepare stmtName ⟨.record kind, schema, tableName kind label⟩)

def prepareSpan (schema label stmtName : Bytes) : Agent Unit :=
  prepareKind .spans schema label stmtName

def prepareMetric (schema label stmtName : Bytes) : Agent Unit :=
  prepareKind .procs schema label stmtName

def prepareOtelMetric (schema label stmtName : Bytes) : Agent Unit :=
  prepareKind .otelMetrics schema label stmtName

/-- The tables and the statements of a label. -/
def createLabel (schema : Bytes) (e : LabelEntry) : Agent Unit := do
  ensureSpanTable schema e.label
  ensureMetricTable schema e.label
  ensureOtelMetricTable schema e.label
  prepareSpan schema e.label e.spanStmt
  prepareMetric schema e.label e.metricStmt
  prepareOtelMetric schema e.label e.otelMetricStmt

/-- The part of `db_ensure_label` behind the cache, with `e->ready = 1`. -/
def prepareLabel (schema : Bytes) (e : LabelEntry) : Agent ℤ := do
  createLabel schema e
  let w ← Prog.get
  setLabels (w.user.labels.map fun e' => if e'.label = e.label then e'.setReady else e')
  return 0

/-- `db_ensure_label(conn, schema, label)` -/
def dbEnsureLabel (schema label : Bytes) : Agent ℤ := do
  let w ← Prog.get
  if !connOk w.conn then return -1
  else if !validateIdentifier label || !validateIdentifier schema then return -1
  else
    match findLabel w.user.labels label with
    | some e => if e.ready then return 0 else prepareLabel schema e
    | none =>
        if LABEL_CACHE_MAX ≤ w.user.labels.length then return -1
        else
          let e := LabelEntry.ofLabel label
          setLabels (w.user.labels ++ [e])
          prepareLabel schema e

/-! ## Inserts -/

/-- The guards shared by the three insert functions. -/
def insertKind (kind : Kind) (label : Bytes) (vals : List (Option Bytes)) : Agent ℤ := do
  let w ← Prog.get
  if !connOk w.conn then return -1
  else
    match findLabel w.user.labels label with
    | none => return -1
    | some e => if e.ready then execInsert (e.stmt kind) vals else return -1

def spanVals (s : Span) : List (Option Bytes) :=
  [some (bounded 64 (Double.fmtF 6 (seconds s.timeNs))), some s.traceId.val, some s.spanId.val,
    some s.parentSpanId.val, some s.name.val, s.kind.map (·.val), some s.serviceName.val,
    some s.scopeName.val, some (bounded 32 (decimalInt s.durationNs.toInt)),
    s.statusCode.map (·.val), some s.statusMessage.val, some s.attributesJson.val]

def dbInsertSpan (s : Span) : Agent ℤ :=
  insertKind .spans s.label.val (spanVals s)

def metricVals (m : ProcMetric) : List (Option Bytes) :=
  [m.service.map (·.val), some (orText m.containerId []), some (orText m.pod []),
    some (orText m.pid []), m.comm.map (·.val), m.runtime.map (·.val),
    some (bounded 64 (Double.fmtG 10 m.cpu)), some (bounded 32 (decimalInt m.rss.toInt)),
    some (bounded 16 (decimalInt m.threads.toInt))]

def dbInsertMetricLabeled (m : ProcMetric) : Agent ℤ :=
  insertKind .procs m.label.val (metricVals m)

def otelMetricVals (p : MetricPoint) : List (Option Bytes) :=
  [some (bounded 64 (Double.fmtF 9 (seconds p.timeNs))), some p.serviceName.val,
    some p.scopeName.val, some p.pidKey.val, some p.metricName.val,
    some (orText p.metricType (bytes "gauge")), some p.description.val, some p.unit.val,
    some (bounded 64 (Double.fmtG 17 p.value)), some (bounded 32 (decimalInt p.count.toInt)),
    some (orNonempty p.attributesJson.val (bytes "\x7b\x7d"))]

def dbInsertOtelMetric (p : MetricPoint) : Agent ℤ :=
  insertKind .otelMetrics p.label.val (otelMetricVals p)

end ProcWatch

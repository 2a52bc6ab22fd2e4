import ProcWatch.Model.World

/-! # The rows that the prepared statements insert (`db_otlp.c`, `db.c`) -/

namespace ProcWatch

open CLib

/-- A value in the `VALUES` list of an `INSERT`; parameters count from 1. Casts are left out. -/
inductive ColumnValue where
  /-- `NOW()` -/
  | now
  /-- `$i` -/
  | param (i : ℕ)
  /-- `NULLIF($i, '')` -/
  | nullIfEmpty (i : ℕ)
  /-- `to_timestamp($i)` -/
  | toTimestamp (i : ℕ)
  deriving DecidableEq

/-- The columns of the `INSERT` that `prepare_span`, `prepare_metric`, `prepare_otel_metric` and
`db_prepare_insert` prepare. -/
def RowKind.columns : RowKind → List (String × ColumnValue)
  | .record .spans =>
      [("ts", .toTimestamp 1), ("trace_id", .param 2), ("span_id", .param 3),
        ("parent_span_id", .nullIfEmpty 4), ("name", .param 5), ("kind", .param 6),
        ("service_name", .param 7), ("scope_name", .param 8), ("duration_ns", .param 9),
        ("status_code", .param 10), ("status_message", .nullIfEmpty 11), ("attributes", .param 12)]
  | .record .procs =>
      [("ts", .now), ("service_name", .param 1), ("container_id", .nullIfEmpty 2),
        ("pod", .nullIfEmpty 3), ("pid", .param 4), ("comm", .param 5), ("runtime", .param 6),
        ("cpu_pct", .param 7), ("rss_kb", .param 8), ("threads", .param 9)]
  | .record .otelMetrics =>
      [("ts", .toTimestamp 1), ("service_name", .param 2), ("scope_name", .param 3),
        ("pid", .nullIfEmpty 4), ("metric_name", .param 5), ("metric_type", .param 6),
        ("description", .nullIfEmpty 7), ("unit", .nullIfEmpty 8), ("value", .param 9),
        ("count", .param 10), ("attributes", .param 11)]
  | .sample =>
      [("ts", .now), ("pid", .param 1), ("cpu_pct", .param 2), ("rss_kb", .param 3)]

/-- What a column holds: the text of a value, or a time of the clock of the database. -/
inductive Datum where
  | null
  | text (t : Bytes)
  | timestamp (seconds : Bytes)
  | clock (t : ℤ)
  deriving DecidableEq

def ColumnValue.eval (now : ℤ) (vals : List (Option Bytes)) : ColumnValue → Datum
  | .now => .clock now
  | .param i => (vals.getD (i - 1) none).elim .null .text
  | .nullIfEmpty i =>
      match vals.getD (i - 1) none with
      | none => .null
      | some t => if t = [] then .null else .text t
  | .toTimestamp i => (vals.getD (i - 1) none).elim .null .timestamp

abbrev Row := List (String × Datum)

/-- The row that the `INSERT` adds when the clock of the database stands at `now`. -/
def RowKind.row (rows : RowKind) (now : ℤ) (vals : List (Option Bytes)) : Row :=
  rows.columns.map fun c => (c.1, c.2.eval now vals)

end ProcWatch

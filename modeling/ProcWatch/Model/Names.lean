import ProcWatch.Library.Numerals

/-! # Labels, table names and prepared statement names (`util.c`, `db_otlp.c`) -/

namespace ProcWatch

open CLib

/-- A C string of 1 to 99 letters, digits and underscores. -/
def validateIdentifier (label : Bytes) : Bool :=
  let n := label.length
  if n = 0 ∨ 100 ≤ n then false
  else label.all fun c => isAlnum c || c == 0x5f

/-- The three tables of a label. -/
inductive Kind where
  | spans
  | procs
  | otelMetrics
  deriving DecidableEq, Repr

/-- Suffix of the table name, as `ensure_*_table` and `prepare_*` pass it. -/
def Kind.suffix : Kind → Bytes
  | .spans => bytes "_spans"
  | .procs => bytes "_procs"
  | .otelMetrics => bytes "_otel_metrics"

/-- Prefix of the prepared statement name in `db_ensure_label`. -/
def Kind.stmtPrefix : Kind → Bytes
  | .spans => bytes "pw_span_"
  | .procs => bytes "pw_metric_"
  | .otelMetrics => bytes "pw_otelm_"

def STMT_NAME_MAX : ℕ := 80

/-- `snprintf` into the caller's buffer, then the cut at 63 characters. -/
def suffixedName (cap : ℕ) (label suffix : Bytes) : Bytes :=
  let out := bounded cap (label ++ suffix)
  if 63 < out.length then out.take 63 else out

/-- The table of a kind and label; every caller declares `char table[80]`. -/
def tableName (kind : Kind) (label : Bytes) : Bytes :=
  suffixedName 80 label kind.suffix

/-- The statement name that `db_ensure_label` stores in the cache entry. -/
def stmtName (kind : Kind) (label : Bytes) : Bytes :=
  bounded STMT_NAME_MAX (kind.stmtPrefix ++ label)

end ProcWatch

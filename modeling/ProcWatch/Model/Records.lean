import ProcWatch.Library.Double
import ProcWatch.Model.Names

/-! # Records: spans, OTLP data points, process metrics and samples

Each `char` array is a `CStr` of its size. A `const char *` that the code compares with
`NULL` is an `Option`, of the size of the largest buffer that a caller points it at.
-/

namespace ProcWatch

open CLib

/-- A string that `validate_identifier` accepts: the schema of a running agent. -/
structure Identifier where
  val : Bytes
  valid : validateIdentifier val = true
  deriving DecidableEq

/-- `DEFAULT_SCHEMA` -/
def DEFAULT_SCHEMA : Identifier :=
  ⟨bytes "procwatch", by decide +kernel⟩

/-- `pw_span_t` -/
structure Span where
  label : CStr 100
  traceId : CStr 33
  spanId : CStr 17
  parentSpanId : CStr 17
  name : CStr 512
  serviceName : CStr 256
  scopeName : CStr 256
  kind : Option (CStr 40)
  statusCode : Option (CStr 40)
  statusMessage : CStr 512
  startNs : UInt64
  endNs : UInt64
  durationNs : Int64
  attributesJson : CStr 8192
  deriving DecidableEq

/-- `pw_metric_point_t` -/
structure MetricPoint where
  label : CStr 100
  serviceName : CStr 256
  scopeName : CStr 256
  pidKey : CStr 64
  metricName : CStr 256
  description : CStr 256
  unit : CStr 64
  metricType : Option (CStr 16)
  value : Double
  count : Int64
  timeNs : UInt64
  attributesJson : CStr 2048
  deriving DecidableEq

/-- The arguments of `write_metric` and `db_insert_metric_labeled`. -/
structure ProcMetric where
  label : CStr 100
  service : Option (CStr 256)
  containerId : Option (CStr 80)
  pod : Option (CStr 256)
  pid : Option (CStr 80)
  comm : Option (CStr 64)
  runtime : Option (CStr 32)
  cpu : Double
  rss : Int64
  threads : Int64
  deriving DecidableEq

/-- The arguments of `spill_sample` and `db_insert_sample`. -/
structure Sample where
  pid : CStr 128
  cpu : Double
  rss : Int64
  deriving DecidableEq

/-- `p ? p : fallback` -/
def orText {cap : ℕ} (p : Option (CStr cap)) (fallback : Bytes) : Bytes :=
  match p with
  | some s => s.val
  | none => fallback

/-- `s[0] ? s : fallback` -/
def orNonempty (s fallback : Bytes) : Bytes :=
  if s = [] then fallback else s

end ProcWatch

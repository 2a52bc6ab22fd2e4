import ProcWatch.Model.OtlpWalk
import ProcWatch.Model.Records

/-! # Decoding metrics (`otlp_metric.c`) -/

namespace ProcWatch

open CLib

/-! ## Field numbers -/

@[match_pattern]
abbrev F_METRIC_NAME : ℕ := 1

@[match_pattern]
abbrev F_METRIC_DESCRIPTION : ℕ := 2

@[match_pattern]
abbrev F_METRIC_UNIT : ℕ := 3

@[match_pattern]
abbrev F_METRIC_GAUGE : ℕ := 5

@[match_pattern]
abbrev F_METRIC_SUM : ℕ := 7

@[match_pattern]
abbrev F_METRIC_HISTOGRAM : ℕ := 9

/-- Also `F_SUM_DATA_POINTS` and `F_HIST_DATA_POINTS`. -/
@[match_pattern]
abbrev F_GAUGE_DATA_POINTS : ℕ := 1

@[match_pattern]
abbrev F_NDP_TIME : ℕ := 3

@[match_pattern]
abbrev F_NDP_AS_DOUBLE : ℕ := 4

@[match_pattern]
abbrev F_NDP_AS_INT : ℕ := 6

@[match_pattern]
abbrev F_NDP_ATTRIBUTES : ℕ := 7

@[match_pattern]
abbrev F_HDP_TIME : ℕ := 3

@[match_pattern]
abbrev F_HDP_COUNT : ℕ := 4

@[match_pattern]
abbrev F_HDP_SUM : ℕ := 5

@[match_pattern]
abbrev F_HDP_ATTRIBUTES : ℕ := 9

/-! ## Data points -/

/-- `metric_context_t` -/
structure MetricContext where
  serviceName : CStr 256
  scopeName : CStr 256
  label : CStr 100
  pidKey : CStr 64
  deriving DecidableEq

/-- The containers of data points; `pending_kind` holds their names. -/
inductive Container where
  | gauge
  | sum
  | histogram
  deriving DecidableEq

def Container.name : Container → CStr 16
  | .gauge => CStr.copy 16 (bytes "gauge")
  | .sum => CStr.copy 16 (bytes "sum")
  | .histogram => CStr.copy 16 (bytes "histogram")

/-- The locals of `decode_metric`; of the containers, their kind and reader. -/
structure MetricLocals where
  name : CStr 256
  description : CStr 256
  unit : CStr 64
  pending : List (Container × Bytes)

/-- The point as `decode_number_point` and `decode_histogram_point` initialise it. -/
def MetricPoint.init (ctx : MetricContext) (m : MetricLocals) (kind : Container) : MetricPoint where
  label := ctx.label
  serviceName := ctx.serviceName
  scopeName := ctx.scopeName
  pidKey := ctx.pidKey
  metricName := m.name
  description := m.description
  unit := m.unit
  metricType := some kind.name
  value := ⟨0⟩
  count := if kind = .histogram then 0 else 1
  timeNs := 0
  attributesJson := CStr.copy 2048 []

/-- One turn of the loop of `decode_number_point`. -/
def numberPointStep (s : MetricPoint × Attrs 2048) (f : Wire.Field) : MetricPoint × Attrs 2048 :=
  match f with
  | ⟨F_NDP_TIME, .fixed64 v⟩ => ({ s.1 with timeNs := v }, s.2)
  | ⟨F_NDP_AS_DOUBLE, .fixed64 bits⟩ => ({ s.1 with value := ⟨bits⟩ }, s.2)
  | ⟨F_NDP_AS_INT, .fixed64 bits⟩ => ({ s.1 with value := Double.ofInt bits.toInt64.toInt }, s.2)
  | ⟨F_NDP_ATTRIBUTES, .bytes kv⟩ => (s.1, decodePointAttrs kv s.2)
  | _ => s

/-- One turn of the loop of `decode_histogram_point`. -/
def histogramPointStep (s : MetricPoint × Attrs 2048) (f : Wire.Field) :
    MetricPoint × Attrs 2048 :=
  match f with
  | ⟨F_HDP_TIME, .fixed64 v⟩ => ({ s.1 with timeNs := v }, s.2)
  | ⟨F_HDP_COUNT, .fixed64 v⟩ => ({ s.1 with count := v.toInt64 }, s.2)
  | ⟨F_HDP_SUM, .fixed64 bits⟩ => ({ s.1 with value := ⟨bits⟩ }, s.2)
  | ⟨F_HDP_ATTRIBUTES, .bytes kv⟩ => (s.1, decodePointAttrs kv s.2)
  | _ => s

/-- The point handed to the sink; `none` where the decoder returns -1 before. -/
def readPointMessage (step : MetricPoint × Attrs 2048 → Wire.Field → MetricPoint × Attrs 2048)
    (point : MetricPoint) (r : Bytes) : Option MetricPoint :=
  let (fields, ending) := pbFields r
  if ending = .badValue then none
  else
    let s := fields.foldl step (point, Attrs.init 2048)
    some { s.1 with attributesJson := s.2.finish }

variable {W : Type}

/-- The body shared by the two decoders of points. -/
def decodePoint (step : MetricPoint × Attrs 2048 → Wire.Field → MetricPoint × Attrs 2048)
    (sink : MetricPoint → Prog W ℤ) (point : MetricPoint) (r : Bytes) : Prog W ℤ :=
  match readPointMessage step point r with
  | none => return -1
  | some point => sink point

/-- `decode_number_point` -/
def decodeNumberPoint (sink : MetricPoint → Prog W ℤ) (ctx : MetricContext) (m : MetricLocals)
    (kind : Container) (r : Bytes) : Prog W ℤ :=
  decodePoint numberPointStep sink (MetricPoint.init ctx m kind) r

/-- `decode_histogram_point` -/
def decodeHistogramPoint (sink : MetricPoint → Prog W ℤ) (ctx : MetricContext) (m : MetricLocals)
    (r : Bytes) : Prog W ℤ :=
  decodePoint histogramPointStep sink (MetricPoint.init ctx m .histogram) r

/-! ## Metrics -/

/-- `sizeof pending / sizeof pending[0]` -/
abbrev PENDING_CONTAINERS : ℕ := 8

def MetricLocals.push (m : MetricLocals) (kind : Container) (r : Bytes) : MetricLocals :=
  if m.pending.length < PENDING_CONTAINERS then { m with pending := m.pending ++ [(kind, r)] }
  else m

/-- One turn of the first loop of `decode_metric`. -/
def metricStep (m : MetricLocals) (f : Wire.Field) : MetricLocals :=
  match f with
  | ⟨F_METRIC_NAME, .bytes s⟩ => { m with name := pwCopyStr 256 s }
  | ⟨F_METRIC_DESCRIPTION, .bytes s⟩ => { m with description := pwCopyStr 256 s }
  | ⟨F_METRIC_UNIT, .bytes s⟩ => { m with unit := pwCopyStr 64 s }
  | ⟨F_METRIC_GAUGE, .bytes r⟩ => m.push .gauge r
  | ⟨F_METRIC_SUM, .bytes r⟩ => m.push .sum r
  | ⟨F_METRIC_HISTOGRAM, .bytes r⟩ => m.push .histogram r
  | _ => m

/-- The loop over the fields of a container, given the decoder of its points. -/
def containerLoop (point : Bytes → Prog W ℤ) (ending : Ending) :
    List Wire.Field → ℕ → Prog W (ℤ × ℕ)
  | [], count => return (if ending = .badValue then -1 else 0, count)
  | f :: fields, count =>
      match f with
      | ⟨F_GAUGE_DATA_POINTS, .bytes r⟩ => do
          let rc ← point r
          if rc < 0 then return (-1, count)
          else if 0 < rc then return (1, count)
          else containerLoop point ending fields (count + 1)
      | _ => containerLoop point ending fields count

/-- The loop over the containers put off. -/
def containersLoop (sink : MetricPoint → Prog W ℤ) (ctx : MetricContext) (m : MetricLocals) :
    List (Container × Bytes) → ℕ → Prog W (ℤ × ℕ)
  | [], count => return (0, count)
  | (kind, r) :: pending, count => do
      let point := if kind = .histogram then decodeHistogramPoint sink ctx m
        else decodeNumberPoint sink ctx m kind
      let (rc, count) ← containerLoop point (pbFields r).2 (pbFields r).1 count
      if rc ≠ 0 then return (rc, count) else containersLoop sink ctx m pending count

/-- `decode_metric(r, ctx, sink, user_data, count)` -/
def decodeMetric (sink : MetricPoint → Prog W ℤ) : ItemDecoder W MetricContext :=
  fun r ctx count =>
    let (fields, ending) := pbFields r
    let m := fields.foldl metricStep ⟨CStr.copy 256 [], CStr.copy 256 [], CStr.copy 64 [], []⟩
    if ending = .badValue then return (-1, count)
    else if m.name.val = [] then return (0, count)
    else containersLoop sink ctx m m.pending count

/-! ## The walk -/

/-- The branches of `decode_resource_metrics` for an attribute that has a value. -/
def metricAttribute (key value : Bytes) (ctx : MetricContext) : MetricContext :=
  if key = bytes "service.name" then
    { ctx with serviceName := (pwAnyValueAsString 256 value).getD ctx.serviceName }
  else if key = bytes "procwatch.label" then
    { ctx with label := (pwAnyValueAsString 100 value).getD ctx.label }
  else if key = bytes "procwatch.pid_key" then
    { ctx with pidKey := (pwAnyValueAsString 64 value).getD ctx.pidKey }
  else ctx

def metricContext : WalkContext MetricContext where
  init := ⟨CStr.copy 256 (bytes "unknown_service"), CStr.copy 256 [], CStr.copy 100 [],
    CStr.copy 64 []⟩
  mapScopeName := fun f ctx => { ctx with scopeName := f ctx.scopeName }
  takeAttribute := metricAttribute

/-- `decode_scope_metrics(r, ctx, sink, user_data, count)` -/
def decodeScopeMetrics (sink : MetricPoint → Prog W ℤ) (r : Bytes) (ctx : MetricContext)
    (count : ℕ) : Prog W (ℤ × MetricContext × ℕ) :=
  decodeScope metricContext (decodeMetric sink) r ctx count

/-- `decode_resource_metrics(r, sink, user_data, count)` -/
def decodeResourceMetrics (sink : MetricPoint → Prog W ℤ) (r : Bytes) (count : ℕ) :
    Prog W (ℤ × ℕ) :=
  decodeResource metricContext (decodeMetric sink) r count

/-- `otlp_decode_metrics(data, len, sink, user_data)` -/
def otlpDecodeMetrics (sink : MetricPoint → Prog W ℤ) (data : Bytes) : Prog W ℤ :=
  decodeRequest metricContext (decodeMetric sink) data

end ProcWatch

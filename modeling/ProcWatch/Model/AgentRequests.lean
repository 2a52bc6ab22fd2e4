import ProcWatch.Model.Agent
import ProcWatch.Model.Http
import ProcWatch.Model.OtlpMetric
import ProcWatch.Model.OtlpTrace

/-! # Payloads handed to the agent (`agentd.c`)

The bytes `after` a body are the memory behind it. What is forwarded to Tempo and Prometheus,
and the counters of payloads, are left out: neither changes what becomes of a payload.
-/

namespace ProcWatch

open CLib

/-! ## `handle_procmetrics` -/

/-- The record of a body, whose label has been read. -/
def procMetricOf (body after : Bytes) (label : CStr 100) : ProcMetric :=
  let m := readProcMetric body after "cpu_pct" "rss_kb" label
  { m with service := some (CStr.copy 256
      (orNonempty (orText m.service []) (orNonempty (orText m.comm []) (bytes "unknown")))) }

/-- `handle_procmetrics(st, body, len)` -/
def handleProcmetrics (body after : Bytes) : Agent ℤ :=
  let label := strBuf body after "label" 100 []
  if !(jsonStr body after (bytes "label") 100 []).1 then return -1
  else if !validateIdentifier label.val then return -1
  else writeMetric (procMetricOf body after label)

/-! ## Sinks -/

/-- `span_sink(span, user_data)` -/
def spanSink (span : Span) : Agent ℤ :=
  if span.label.val = [] ∨ !validateIdentifier span.label.val then return 0
  else writeSpan span

/-- `otel_metric_sink(point, user_data)` -/
def otelMetricSink (point : MetricPoint) : Agent ℤ :=
  if point.label.val = [] ∨ !validateIdentifier point.label.val then return 0
  else writeOtelMetric point

/-! ## `on_request` -/

/-- `on_request(req, user_data)` -/
def onRequest (req : HttpRequest) : Agent ℤ := do
  if req.signal = .procmetrics then handleProcmetrics req.body req.after
  else if req.signal = .metrics then
    let n ← otlpDecodeMetrics otelMetricSink req.body
    if n < 0 then return -1 else return 0
  else if req.signal ≠ .traces then return 0
  else
    let n ← otlpDecodeTraces spanSink req.body
    if n < 0 then return -1 else return 0

end ProcWatch

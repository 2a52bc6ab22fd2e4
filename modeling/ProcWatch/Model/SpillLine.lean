import ProcWatch.Library.FlatObject
import ProcWatch.Model.Json
import ProcWatch.Model.Records

/-! # Spill lines (`agentd.c`, `main.c`)

The `snprintf` of each writer as the list of members that its format string spells out.
-/

namespace ProcWatch

open CLib Member

/-! ## `write_metric` -/

def metricMembers (schema : Identifier) (m : ProcMetric) : List Member :=
  [str (bytes "k") (bytes "metric"),
    str (bytes "schema") schema.val,
    str (bytes "label") (escaped 200 m.label.val),
    str (bytes "service") (escaped 512 (orText m.service [])),
    str (bytes "container_id") (escaped 160 (orText m.containerId [])),
    str (bytes "pod") (escaped 512 (orText m.pod [])),
    str (bytes "pid") (escaped 160 (orText m.pid [])),
    str (bytes "comm") (escaped 128 (orText m.comm [])),
    str (bytes "runtime") (escaped 64 (orText m.runtime (bytes "other"))),
    num (bytes "cpu") (Double.fmtG 10 m.cpu),
    num (bytes "rss") (decimalInt m.rss.toInt),
    num (bytes "threads") (decimalInt m.threads.toInt)]

def metricLine (schema : Identifier) (m : ProcMetric) : Bytes :=
  bounded 2048 (object (metricMembers schema m))

/-! ## `write_otel_metric` -/

/-- Nanoseconds as seconds, `(double)ns / 1e9`. -/
def seconds (ns : UInt64) : Double :=
  Double.div (Double.ofNat ns.toNat) (Double.ofNat 1000000000)

def otelMetricMembers (schema : Identifier) (p : MetricPoint) : List Member :=
  [str (bytes "k") (bytes "otelmetric"),
    str (bytes "schema") schema.val,
    str (bytes "label") (escaped 200 p.label.val),
    str (bytes "ts") (bounded 64 (Double.fmtF 9 (seconds p.timeNs))),
    str (bytes "service_name") (escaped 512 p.serviceName.val),
    str (bytes "scope_name") (escaped 512 p.scopeName.val),
    str (bytes "pid") (escaped 160 p.pidKey.val),
    str (bytes "metric_name") (escaped 512 p.metricName.val),
    str (bytes "metric_type") (escaped 32 (orText p.metricType (bytes "gauge"))),
    str (bytes "description") (escaped 512 p.description.val),
    str (bytes "unit") (escaped 128 p.unit.val),
    num (bytes "value") (Double.fmtG 17 p.value),
    num (bytes "count") (decimalInt p.count.toInt),
    str (bytes "attributes") (escaped 2200 (orNonempty p.attributesJson.val (bytes "\x7b\x7d")))]

def otelMetricLine (schema : Identifier) (p : MetricPoint) : Bytes :=
  bounded 8192 (object (otelMetricMembers schema p))

/-! ## `write_span` -/

/-- The time stored for a span: its end, or its start while it has no end. -/
def Span.timeNs (s : Span) : UInt64 :=
  if s.endNs = 0 then s.startNs else s.endNs

def spanMembers (schema : Identifier) (s : Span) : List Member :=
  [str (bytes "k") (bytes "span"),
    str (bytes "schema") schema.val,
    str (bytes "label") (escaped 200 s.label.val),
    str (bytes "ts") (bounded 64 (Double.fmtF 6 (seconds s.timeNs))),
    str (bytes "trace_id") (escaped 80 s.traceId.val),
    str (bytes "span_id") (escaped 40 s.spanId.val),
    str (bytes "parent_span_id") (escaped 40 s.parentSpanId.val),
    str (bytes "name") (escaped 512 s.name.val),
    str (bytes "kind") (escaped 40 (orText s.kind (bytes "INTERNAL"))),
    str (bytes "service_name") (escaped 512 s.serviceName.val),
    str (bytes "scope_name") (escaped 512 s.scopeName.val),
    num (bytes "duration_ns") (decimalInt s.durationNs.toInt),
    str (bytes "status_code") (escaped 40 (orText s.statusCode (bytes "UNSET"))),
    str (bytes "status_message") (escaped 512 s.statusMessage.val),
    str (bytes "attributes") (escaped 8192 (orNonempty s.attributesJson.val (bytes "\x7b\x7d")))]

def spanLine (schema : Identifier) (s : Span) : Bytes :=
  bounded 16384 (object (spanMembers schema s))

/-! ## The records of `agentd` -/

/-- What one of the three writers of `agentd` stores. -/
inductive AgentRecord where
  | metric (m : ProcMetric)
  | otelMetric (p : MetricPoint)
  | span (s : Span)
  deriving DecidableEq

namespace AgentRecord

def kind : AgentRecord → Kind
  | metric _ => .procs
  | otelMetric _ => .otelMetrics
  | span _ => .spans

def label : AgentRecord → CStr 100
  | metric m => m.label
  | otelMetric p => p.label
  | span s => s.label

def members (schema : Identifier) : AgentRecord → List Member
  | metric m => metricMembers schema m
  | otelMetric p => otelMetricMembers schema p
  | span s => spanMembers schema s

/-- The line handed to `pw_db_buf_spill`. -/
def line (schema : Identifier) : AgentRecord → Bytes
  | metric m => metricLine schema m
  | otelMetric p => otelMetricLine schema p
  | span s => spanLine schema s

end AgentRecord

/-! ## `spill_sample` -/

def sampleMembers (epid : Bytes) (x : Sample) : List Member :=
  [str (bytes "k") (bytes "sample"),
    str (bytes "pid") epid,
    num (bytes "cpu") (Double.fmtG 10 x.cpu),
    num (bytes "rss") (decimalInt x.rss.toInt)]

/-- The line, or `none` where the escape fails and nothing is spilled. -/
def sampleLine (x : Sample) : Option Bytes :=
  (pwJsonEscape 256 x.pid.val).map fun epid => bounded 512 (object (sampleMembers epid x))

end ProcWatch

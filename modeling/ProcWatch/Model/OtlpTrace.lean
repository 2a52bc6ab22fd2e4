import ProcWatch.Model.OtlpWalk
import ProcWatch.Model.Records

/-! # Decoding traces (`otlp_trace.c`) -/

namespace ProcWatch

open CLib

/-! ## Field numbers -/

@[match_pattern]
abbrev F_SPAN_TRACE_ID : ℕ := 1

@[match_pattern]
abbrev F_SPAN_SPAN_ID : ℕ := 2

@[match_pattern]
abbrev F_SPAN_PARENT_SPAN_ID : ℕ := 4

@[match_pattern]
abbrev F_SPAN_NAME : ℕ := 5

@[match_pattern]
abbrev F_SPAN_KIND : ℕ := 6

@[match_pattern]
abbrev F_SPAN_START : ℕ := 7

@[match_pattern]
abbrev F_SPAN_END : ℕ := 8

@[match_pattern]
abbrev F_SPAN_ATTRIBUTES : ℕ := 9

@[match_pattern]
abbrev F_SPAN_STATUS : ℕ := 15

@[match_pattern]
abbrev F_STATUS_MESSAGE : ℕ := 2

@[match_pattern]
abbrev F_STATUS_CODE : ℕ := 3

/-! ## Spans -/

/-- `span_kind_name(kind)` -/
def spanKindName (kind : UInt64) : CStr 40 :=
  if kind = 1 then CStr.copy 40 (bytes "INTERNAL")
  else if kind = 2 then CStr.copy 40 (bytes "SERVER")
  else if kind = 3 then CStr.copy 40 (bytes "CLIENT")
  else if kind = 4 then CStr.copy 40 (bytes "PRODUCER")
  else if kind = 5 then CStr.copy 40 (bytes "CONSUMER")
  else CStr.copy 40 (bytes "UNSPECIFIED")

/-- `status_code_name(code)` -/
def statusCodeName (code : UInt64) : CStr 40 :=
  if code = 1 then CStr.copy 40 (bytes "OK")
  else if code = 2 then CStr.copy 40 (bytes "ERROR")
  else CStr.copy 40 (bytes "UNSET")

/-- `span_context_t` -/
structure SpanContext where
  serviceName : CStr 256
  scopeName : CStr 256
  label : CStr 100
  deriving DecidableEq

/-- The span as `decode_span` initialises it. -/
def Span.init (ctx : SpanContext) : Span where
  label := ctx.label
  traceId := CStr.copy 33 []
  spanId := CStr.copy 17 []
  parentSpanId := CStr.copy 17 []
  name := CStr.copy 512 []
  serviceName := ctx.serviceName
  scopeName := ctx.scopeName
  kind := some (spanKindName 0)
  statusCode := some (statusCodeName 0)
  statusMessage := CStr.copy 512 []
  startNs := 0
  endNs := 0
  durationNs := 0
  attributesJson := CStr.copy 8192 []

/-- One turn of the loop over a `Status`. -/
def statusStep (span : Span) (f : Wire.Field) : Span :=
  match f with
  | ⟨F_STATUS_MESSAGE, .bytes s⟩ => { span with statusMessage := pwCopyStr 512 s }
  | ⟨F_STATUS_CODE, .varint v⟩ => { span with statusCode := some (statusCodeName v) }
  | _ => span

/-- One turn of the loop of `decode_span`. -/
def spanStep (s : Span × Attrs 8192) (f : Wire.Field) : Span × Attrs 8192 :=
  match f with
  | ⟨F_SPAN_TRACE_ID, .bytes b⟩ => ({ s.1 with traceId := pwToHex 33 b }, s.2)
  | ⟨F_SPAN_SPAN_ID, .bytes b⟩ => ({ s.1 with spanId := pwToHex 17 b }, s.2)
  | ⟨F_SPAN_PARENT_SPAN_ID, .bytes b⟩ => ({ s.1 with parentSpanId := pwToHex 17 b }, s.2)
  | ⟨F_SPAN_NAME, .bytes b⟩ => ({ s.1 with name := pwCopyStr 512 b }, s.2)
  | ⟨F_SPAN_KIND, .varint v⟩ => ({ s.1 with kind := some (spanKindName v) }, s.2)
  | ⟨F_SPAN_START, .fixed64 v⟩ => ({ s.1 with startNs := v }, s.2)
  | ⟨F_SPAN_END, .fixed64 v⟩ => ({ s.1 with endNs := v }, s.2)
  | ⟨F_SPAN_ATTRIBUTES, .bytes kv⟩ => (s.1, decodePointAttrs kv s.2)
  | ⟨F_SPAN_STATUS, .bytes st⟩ => ((pbFields st).1.foldl statusStep s.1, s.2)
  | _ => s

/-- What `decode_span` computes once its loop is done. -/
def finishSpan (s : Span × Attrs 8192) : Span :=
  { s.1 with
    attributesJson := s.2.finish
    durationNs := if s.1.startNs ≤ s.1.endNs then (s.1.endNs - s.1.startNs).toInt64 else 0 }

/-- The span that `decode_span` hands to the sink; `none` where it returns -1 before. -/
def readSpanMessage (r : Bytes) (ctx : SpanContext) : Option Span :=
  let (fields, ending) := pbFields r
  if ending = .badValue then none
  else some (finishSpan (fields.foldl spanStep (Span.init ctx, Attrs.init 8192)))

/-! ## The walk

A sink is a program over any world; no sink is one that returns 0.
-/

variable {W : Type}

/-- `decode_span(r, ctx, sink, user_data)` -/
def decodeSpan (sink : Span → Prog W ℤ) (r : Bytes) (ctx : SpanContext) : Prog W ℤ :=
  match readSpanMessage r ctx with
  | none => return -1
  | some span => sink span

/-- The call of `decode_span` in `decode_scope_spans`, with the count. -/
def spanItem (sink : Span → Prog W ℤ) : ItemDecoder W SpanContext := fun r ctx count => do
  let rc ← decodeSpan sink r ctx
  if rc < 0 then return (-1, count)
  else if 0 < rc then return (1, count)
  else return (0, count + 1)

/-- The branches of `decode_resource_spans` for an attribute that has a value. -/
def spanAttribute (key value : Bytes) (ctx : SpanContext) : SpanContext :=
  if key = bytes "service.name" then
    { ctx with serviceName := (pwAnyValueAsString 256 value).getD ctx.serviceName }
  else if key = bytes "procwatch.label" then
    { ctx with label := (pwAnyValueAsString 100 value).getD ctx.label }
  else ctx

def spanContext : WalkContext SpanContext where
  init := ⟨CStr.copy 256 (bytes "unknown_service"), CStr.copy 256 [], CStr.copy 100 []⟩
  mapScopeName := fun f ctx => { ctx with scopeName := f ctx.scopeName }
  takeAttribute := spanAttribute

/-- `decode_scope_spans(r, ctx, sink, user_data, count)` -/
def decodeScopeSpans (sink : Span → Prog W ℤ) (r : Bytes) (ctx : SpanContext) (count : ℕ) :
    Prog W (ℤ × SpanContext × ℕ) :=
  decodeScope spanContext (spanItem sink) r ctx count

/-- `decode_resource_spans(r, sink, user_data, count)` -/
def decodeResourceSpans (sink : Span → Prog W ℤ) (r : Bytes) (count : ℕ) : Prog W (ℤ × ℕ) :=
  decodeResource spanContext (spanItem sink) r count

/-- `otlp_decode_traces(data, len, sink, user_data)` -/
def otlpDecodeTraces (sink : Span → Prog W ℤ) (data : Bytes) : Prog W ℤ :=
  decodeRequest spanContext (spanItem sink) data

end ProcWatch

import ProcWatch.Model.OtlpMetric
import ProcWatch.Model.OtlpTrace
import ProcWatch.Model.PbMemory

/-! # The decoders over memory (`otlp_common.c`, `otlp_trace.c`, `otlp_metric.c`)

The decoders once more, with the readers of `PbMemory`: what they read of a payload, and where.
-/

namespace ProcWatch.Memory

open CLib Wire Traced

variable {W : Type} (mem : Contents) {cap : ℕ}

/-- Go on with the value that a reader operation returns 1 for. -/
def reading {α γ : Type} (op : Reading W (Option α × PbReader)) (fail : Reading W γ)
    (use : PbReader → α → Reading W γ) : Reading W γ := do
  match ← op with
  | (none, _) => fail
  | (some v, r) => use r v

/-! ## Strings -/

/-- `pw_copy_str(dst, cap, src, len)` -/
def pwCopyStr (cap : ℕ) [NeZero cap] (s : Slice) : Reading W (CStr cap) := do
  let content ← loadBytes mem (if cap ≤ s.len then cap - 1 else s.len) s.data
  return ProcWatch.pwCopyStr cap content

/-- `pw_to_hex(dst, dst_cap, src, len)` -/
def pwToHex (cap : ℕ) [NeZero cap] (s : Slice) : Reading W (CStr cap) := do
  let content ← loadBytes mem (if (cap - 1) / 2 < s.len then (cap - 1) / 2 else s.len) s.data
  return ProcWatch.pwToHex cap content

/-- The loop of `utf8_seq_len` over the bytes behind the first. -/
def continuations : ℕ → ℕ → Reading W Bool
  | 0, _ => return true
  | n + 1, address => do
      let byte ← load mem address
      if byte &&& 0xc0 ≠ 0x80 then return false else continuations n (address + 1)

/-- The length that the first byte announces; 0 where it announces none. -/
def utf8Need (c : Byte) : ℕ :=
  if c &&& 0xe0 = 0xc0 then 2
  else if c &&& 0xf0 = 0xe0 then 3
  else if c &&& 0xf8 = 0xf0 then 4
  else 0

/-- `utf8_seq_len(s, avail)` -/
def utf8SeqLen (s avail : ℕ) : Reading W ℕ := do
  let c ← load mem s
  if c < 0x80 then return 1
  else
    let need := utf8Need c
    if need = 0 then return 0
    else if avail < need then return 0
    else do
      let continued ← continuations mem (need - 1) (s + 1)
      if !continued then return 0
      else if need = 2 ∧ c < 0xc2 then return 0
      else if need = 3 ∧ c = 0xe0 then do
        let second ← load mem (s + 1)
        return if second < 0xa0 then 0 else need
      else if need = 4 ∧ 0xf4 < c then return 0
      else if need = 4 ∧ c = 0xf0 then do
        let second ← load mem (s + 1)
        return if second < 0x90 then 0 else need
      else return need

/-- The loop of `pw_sb_json_string`, with room for so many turns; `left` is `len - i`. -/
def jsonStringLoop : ℕ → ℕ → ℕ → Sb cap → Reading W (Sb cap)
  | _, _, 0, sb => return sb
  | 0, _, _ + 1, sb => do
      log .endless
      return sb
  | n + 1, p, left + 1, sb => do
      let c ← load mem p
      if c = 0x22 ∨ c = 0x5c then jsonStringLoop n (p + 1) left (pwSbPutc (pwSbPutc sb 0x5c) c)
      else if c = 0x0a then jsonStringLoop n (p + 1) left (pwSbPuts sb (bytes "\\n"))
      else if c = 0x0d then jsonStringLoop n (p + 1) left (pwSbPuts sb (bytes "\\r"))
      else if c = 0x09 then jsonStringLoop n (p + 1) left (pwSbPuts sb (bytes "\\t"))
      else if c < 0x20 then jsonStringLoop n (p + 1) left (pwSbPuts sb (unicodeEscape c))
      else if c < 0x80 then jsonStringLoop n (p + 1) left (pwSbPutc sb c)
      else do
        let len ← utf8SeqLen mem p (left + 1)
        if len = 0 then jsonStringLoop n (p + 1) left (pwSbPuts sb (bytes "\\ufffd"))
        else do
          let content ← loadBytes mem len p
          jsonStringLoop n (p + len) (left + 1 - len) (content.foldl pwSbPutc sb)

/-- `pw_sb_json_string(sb, s, len)` for a string of the payload. -/
def pwSbJsonString (sb : Sb cap) (s : Slice) : Reading W (Sb cap) := do
  let sb ← jsonStringLoop mem s.len s.data s.len (pwSbPutc sb 0x22)
  return pwSbPutc sb 0x22

/-! ## Key-value pairs -/

def parseKvBody (field wire : ℕ) (r : PbReader) (s : CStr 256 × Option PbReader)
    (k : PbReader → CStr 256 × Option PbReader → Reading W (CStr 256 × Option PbReader)) :
    Reading W (CStr 256 × Option PbReader) :=
  match field, wire with
  | F_KV_KEY, PB_WIRE_BYTES => reading (pbBytes mem r) (return s) fun r key => do
      let key ← pwCopyStr mem 256 key
      k r (key, s.2)
  | F_KV_VALUE, PB_WIRE_BYTES =>
      reading (pbSubmsg mem r) (return s) fun r value => k r (s.1, some value)
  | _, wire => reading (pbSkip mem r wire) (return s) fun r _ => k r s

/-- `pw_parse_kv(kv, key, key_cap, value_out, have_value)` -/
def pwParseKv (kv : PbReader) : Reading W (CStr 256 × Option PbReader) :=
  pbWhile mem (parseKvBody mem) (fun s => return s) kv.turns kv (CStr.copy 256 [], none)

def anyValueAsStringBody (cap : ℕ) [NeZero cap] (field wire : ℕ) (r : PbReader) (s : Unit)
    (k : PbReader → Unit → Reading W (Option (CStr cap))) : Reading W (Option (CStr cap)) :=
  match field, wire with
  | F_AV_STRING, PB_WIRE_BYTES => reading (pbBytes mem r) (return none) fun _ text => do
      let text ← pwCopyStr mem cap text
      return some text
  | _, wire => reading (pbSkip mem r wire) (return none) fun r _ => k r s

/-- `pw_any_value_as_string(value, out, cap)`: what it copies to `out`, if it returns 1. -/
def pwAnyValueAsString (cap : ℕ) [NeZero cap] (value : PbReader) : Reading W (Option (CStr cap)) :=
  pbWhile mem (anyValueAsStringBody mem cap) (fun _ => return none) value.turns value ()

/-- `decode_any_value`, given the depth. -/
abbrev AnyValueDecoder (W : Type) (cap : ℕ) := PbReader → Sb cap → ℕ → Reading W (Sb cap)

/-- `pw_append_kv_json(kv, sb, depth)`; `none` where it returns 0. -/
def pwAppendKvJson (any : AnyValueDecoder W cap) (kv : PbReader) (sb : Sb cap) (depth : ℕ) :
    Reading W (Option (Sb cap)) := do
  let (key, value) ← pwParseKv mem kv
  if key.val = [] then return none
  else
    let sb := pwSbPutc (ProcWatch.pwSbJsonString sb key.val) 0x3a
    match value with
    | some value => do
        let sb ← any value sb (depth + 1)
        return some sb
    | none => return some (pwSbPuts sb (bytes "null"))

def valueListBody (any : AnyValueDecoder W cap) (depth field wire : ℕ) (r : PbReader)
    (s : Bool × Sb cap) (k : PbReader → Bool × Sb cap → Reading W (Sb cap)) : Reading W (Sb cap) :=
  match field, wire with
  | F_LIST_VALUES, PB_WIRE_BYTES =>
      reading (pbSubmsg mem r) (return pwSbPutc s.2 0x5d) fun r sub => do
        let sb ← any sub (if s.1 then s.2 else pwSbPutc s.2 0x2c) (depth + 1)
        k r (false, sb)
  | _, wire => reading (pbSkip mem r wire) (return pwSbPutc s.2 0x5d) fun r _ => k r s

/-- `decode_value_list(r, sb, depth)` -/
def decodeValueList (any : AnyValueDecoder W cap) (r : PbReader) (sb : Sb cap) (depth : ℕ) :
    Reading W (Sb cap) :=
  pbWhile mem (valueListBody mem any depth) (fun s => return pwSbPutc s.2 0x5d) r.turns r
    (true, pwSbPutc sb 0x5b)

/-- A separator and a member, or neither where there is no key. -/
def appendMember (any : AnyValueDecoder W cap) (s : Bool × Sb cap) (kv : PbReader) (depth : ℕ) :
    Reading W (Bool × Sb cap) := do
  let mark := s.2.text.length
  let sb := if s.1 then s.2 else pwSbPutc s.2 0x2c
  match ← pwAppendKvJson mem any kv sb depth with
  | some sb => return (false, sb)
  | none => return (s.1, sb.rollback mark)

def kvlistBody (any : AnyValueDecoder W cap) (depth field wire : ℕ) (r : PbReader)
    (s : Bool × Sb cap) (k : PbReader → Bool × Sb cap → Reading W (Sb cap)) : Reading W (Sb cap) :=
  match field, wire with
  | F_LIST_VALUES, PB_WIRE_BYTES =>
      reading (pbSubmsg mem r) (return pwSbPutc s.2 0x7d) fun r kv => do
        let s ← appendMember mem any s kv depth
        k r s
  | _, wire => reading (pbSkip mem r wire) (return pwSbPutc s.2 0x7d) fun r _ => k r s

/-- `decode_kvlist(r, sb, depth)` -/
def decodeKvlist (any : AnyValueDecoder W cap) (r : PbReader) (sb : Sb cap) (depth : ℕ) :
    Reading W (Sb cap) :=
  pbWhile mem (kvlistBody mem any depth) (fun s => return pwSbPutc s.2 0x7d) r.turns r
    (true, pwSbPutc sb 0x7b)

/-- The statements of `decode_any_value` behind its loop. -/
def anyValueEnd (s : Bool × Sb cap) : Reading W (Sb cap) :=
  return if s.1 then s.2 else pwSbPuts s.2 (bytes "null")

def anyValueBody (any : AnyValueDecoder W cap) (depth field wire : ℕ) (r : PbReader)
    (s : Bool × Sb cap) (k : PbReader → Bool × Sb cap → Reading W (Sb cap)) : Reading W (Sb cap) :=
  match field, wire with
  | F_AV_STRING, PB_WIRE_BYTES => reading (pbBytes mem r) (anyValueEnd s) fun r text => do
      let sb ← pwSbJsonString mem s.2 text
      k r (true, sb)
  | F_AV_BOOL, PB_WIRE_VARINT => reading (pbVarint mem r) (anyValueEnd s) fun r v =>
      k r (true, pwSbPuts s.2 (if UInt64.ofNat v ≠ 0 then bytes "true" else bytes "false"))
  | F_AV_INT, PB_WIRE_VARINT => reading (pbVarint mem r) (anyValueEnd s) fun r v =>
      k r (true, pwSbPuts s.2 (decimalInt (UInt64.ofNat v).toInt64.toInt))
  | F_AV_DOUBLE, PB_WIRE_FIXED64 => reading (pbFixed64 mem r) (anyValueEnd s) fun r bits =>
      k r (true, pwSbPuts s.2 (Double.fmtG 17 ⟨bits⟩))
  | F_AV_ARRAY, PB_WIRE_BYTES => reading (pbSubmsg mem r) (anyValueEnd s) fun r sub => do
      let sb ← decodeValueList mem any sub s.2 depth
      k r (true, sb)
  | F_AV_KVLIST, PB_WIRE_BYTES => reading (pbSubmsg mem r) (anyValueEnd s) fun r sub => do
      let sb ← decodeKvlist mem any sub s.2 depth
      k r (true, sb)
  | F_AV_BYTES, PB_WIRE_BYTES => reading (pbBytes mem r) (anyValueEnd s) fun r content => do
      let hex ← pwToHex mem 129 content
      k r (true, ProcWatch.pwSbJsonString s.2 hex.val)
  | _, wire => reading (pbSkip mem r wire) (anyValueEnd s) fun r _ => k r s

/-- `decode_any_value(r, sb, depth)` within so many other activations, with room for so many
more. -/
def decodeAnyValue : ℕ → ℕ → AnyValueDecoder W cap
  | 0, _, _, sb, _ => do
      log .endless
      return sb
  | room + 1, nested, r, sb, depth => do
      log (.activation (nested + 1))
      if PW_ATTR_MAX_DEPTH < depth then return pwSbPuts sb (bytes "null")
      else
        pbWhile mem (anyValueBody mem (decodeAnyValue room (nested + 1)) depth) anyValueEnd r.turns
          r (false, sb)

/-- `decode_point_attrs`, and the same steps in `decode_span`. -/
def decodePointAttrs (kv : PbReader) (a : Attrs cap) : Reading W (Attrs cap) := do
  let mark := a.sb.text.length
  let sb := if a.first then a.sb else pwSbPutc a.sb 0x2c
  match ← pwAppendKvJson mem (decodeAnyValue mem (PW_ATTR_MAX_DEPTH + 1) 0) kv sb 0 with
  | some sb => return ⟨sb, false, true⟩
  | none => return ⟨sb.rollback mark, a.first, a.haveAttrs⟩

/-! ## The walk -/

/-- What the walk does with `span_context_t` and `metric_context_t`. -/
structure WalkContext (W C : Type) where
  init : C
  scopeName : C → CStr 256
  setScopeName : CStr 256 → C → C
  /-- Take over an attribute of the resource: its key and its value. -/
  takeAttribute : Bytes → PbReader → C → Reading W C

/-- The decoder of a span or metric of a scope: its reader, the context and the count, to a
return code and the new count. -/
abbrev ItemDecoder (W C : Type) := PbReader → C → ℕ → Reading W (ℤ × ℕ)

def scopeNameBody (field wire : ℕ) (r : PbReader) (name : CStr 256)
    (k : PbReader → CStr 256 → Reading W (CStr 256)) : Reading W (CStr 256) :=
  match field, wire with
  | F_IS_NAME, PB_WIRE_BYTES => reading (pbBytes mem r) (return name) fun r text => do
      let name ← pwCopyStr mem 256 text
      k r name
  | _, wire => reading (pbSkip mem r wire) (return name) fun r _ => k r name

variable {C : Type} (ops : WalkContext W C) (item : ItemDecoder W C)

def scopeBody (field wire : ℕ) (r : PbReader) (s : C × ℕ)
    (k : PbReader → C × ℕ → Reading W (ℤ × C × ℕ)) : Reading W (ℤ × C × ℕ) :=
  match field, wire with
  | F_SS_SCOPE, PB_WIRE_BYTES => reading (pbSubmsg mem r) (return (-1, s)) fun r scope => do
      let name ← pbWhile mem (scopeNameBody mem) (fun name => return name) scope.turns scope
        (ops.scopeName s.1)
      k r (ops.setScopeName name s.1, s.2)
  | F_SS_SPANS, PB_WIRE_BYTES => reading (pbSubmsg mem r) (return (-1, s)) fun r sub => do
      let (rc, count) ← item sub s.1 s.2
      if rc < 0 then return (-1, s.1, count)
      else if 0 < rc then return (1, s.1, count)
      else k r (s.1, count)
  | _, wire => reading (pbSkip mem r wire) (return (-1, s)) fun r _ => k r s

/-- `decode_scope_spans` and `decode_scope_metrics` -/
def decodeScope (r : PbReader) (ctx : C) (count : ℕ) : Reading W (ℤ × C × ℕ) :=
  pbWhile mem (scopeBody mem ops item) (fun s => return (0, s)) r.turns r (ctx, count)

def resourceAttributesBody (field wire : ℕ) (r : PbReader) (ctx : C)
    (k : PbReader → C → Reading W C) : Reading W C :=
  match field, wire with
  | F_RES_ATTRIBUTES, PB_WIRE_BYTES => reading (pbSubmsg mem r) (return ctx) fun r kv => do
      match ← pwParseKv mem kv with
      | (key, some value) => do
          let ctx ← ops.takeAttribute key.val value ctx
          k r ctx
      | (_, none) => k r ctx
  | _, wire => reading (pbSkip mem r wire) (return ctx) fun r _ => k r ctx

/-- The loop over the scopes put off, `pending[i]` being the first of those that are left. -/
def pendingLoop (ctx : C) (i : ℕ) : List PbReader → ℕ → Reading W (ℤ × ℕ)
  | [], count => return (0, count)
  | scope :: pending, count => do
      log (.index i PENDING_SCOPES)
      let (rc, ctx, count) ← decodeScope mem ops item scope ctx count
      if rc ≠ 0 then return (rc, count) else pendingLoop ctx (i + 1) pending count

def resourceBody (field wire : ℕ) (r : PbReader) (s : C × List PbReader × ℕ)
    (k : PbReader → C × List PbReader × ℕ → Reading W (ℤ × ℕ)) : Reading W (ℤ × ℕ) :=
  match s with
  | (ctx, pending, count) =>
      match field, wire with
      | F_RS_RESOURCE, PB_WIRE_BYTES =>
          reading (pbSubmsg mem r) (return (-1, count)) fun r res => do
            let ctx ← pbWhile mem (resourceAttributesBody mem ops) (fun ctx => return ctx) res.turns
              res ctx
            k r (ctx, pending, count)
      | F_RS_SCOPE_SPANS, PB_WIRE_BYTES =>
          reading (pbSubmsg mem r) (return (-1, count)) fun r scope =>
            if pending.length < PENDING_SCOPES then do
              log (.index pending.length PENDING_SCOPES)
              k r (ctx, pending ++ [scope], count)
            else do
              let (rc, ctx, count) ← decodeScope mem ops item scope ctx count
              if rc ≠ 0 then return (rc, count) else k r (ctx, pending, count)
      | _, wire => reading (pbSkip mem r wire) (return (-1, count)) fun r _ =>
          k r (ctx, pending, count)

/-- `decode_resource_spans` and `decode_resource_metrics` -/
def decodeResource (r : PbReader) (count : ℕ) : Reading W (ℤ × ℕ) :=
  pbWhile mem (resourceBody mem ops item)
    (fun s => pendingLoop mem ops item s.1 0 s.2.1 s.2.2) r.turns r (ops.init, [], count)

def requestBody (field wire : ℕ) (r : PbReader) (count : ℕ) (k : PbReader → ℕ → Reading W ℤ) :
    Reading W ℤ :=
  match field, wire with
  | F_ETSR_RESOURCE_SPANS, PB_WIRE_BYTES =>
      reading (pbSubmsg mem r) (return countOrError count) fun r sub => do
        let (rc, count) ← decodeResource mem ops item sub count
        if rc < 0 then return countOrError count
        else if 0 < rc then return count
        else k r count
  | _, wire => reading (pbSkip mem r wire) (return countOrError count) fun r _ => k r count

/-- `otlp_decode_traces` and `otlp_decode_metrics`, for the `len` bytes at `data`. -/
def decodeRequest (data len : ℕ) : Reading W ℤ := do
  let r ← pbReaderInit data len
  pbWhile mem (requestBody mem ops item) (fun count => return (count : ℤ)) r.turns r 0

/-! ## Traces -/

def statusBody (field wire : ℕ) (r : PbReader) (span : Span)
    (k : PbReader → Span → Reading W Span) : Reading W Span :=
  match field, wire with
  | F_STATUS_MESSAGE, PB_WIRE_BYTES => reading (pbBytes mem r) (return span) fun r text => do
      let text ← pwCopyStr mem 512 text
      k r { span with statusMessage := text }
  | F_STATUS_CODE, PB_WIRE_VARINT => reading (pbVarint mem r) (return span) fun r v =>
      k r { span with statusCode := some (statusCodeName (UInt64.ofNat v)) }
  | _, wire => reading (pbSkip mem r wire) (return span) fun r _ => k r span

def spanBody (field wire : ℕ) (r : PbReader) (s : Span × Attrs 8192)
    (k : PbReader → Span × Attrs 8192 → Reading W ℤ) : Reading W ℤ :=
  match field, wire with
  | F_SPAN_TRACE_ID, PB_WIRE_BYTES => reading (pbBytes mem r) (return -1) fun r b => do
      let traceId ← pwToHex mem 33 b
      k r ({ s.1 with traceId := traceId }, s.2)
  | F_SPAN_SPAN_ID, PB_WIRE_BYTES => reading (pbBytes mem r) (return -1) fun r b => do
      let spanId ← pwToHex mem 17 b
      k r ({ s.1 with spanId := spanId }, s.2)
  | F_SPAN_PARENT_SPAN_ID, PB_WIRE_BYTES => reading (pbBytes mem r) (return -1) fun r b => do
      let parentSpanId ← pwToHex mem 17 b
      k r ({ s.1 with parentSpanId := parentSpanId }, s.2)
  | F_SPAN_NAME, PB_WIRE_BYTES => reading (pbBytes mem r) (return -1) fun r b => do
      let name ← pwCopyStr mem 512 b
      k r ({ s.1 with name := name }, s.2)
  | F_SPAN_KIND, PB_WIRE_VARINT => reading (pbVarint mem r) (return -1) fun r v =>
      k r ({ s.1 with kind := some (spanKindName (UInt64.ofNat v)) }, s.2)
  | F_SPAN_START, PB_WIRE_FIXED64 => reading (pbFixed64 mem r) (return -1) fun r v =>
      k r ({ s.1 with startNs := v }, s.2)
  | F_SPAN_END, PB_WIRE_FIXED64 => reading (pbFixed64 mem r) (return -1) fun r v =>
      k r ({ s.1 with endNs := v }, s.2)
  | F_SPAN_ATTRIBUTES, PB_WIRE_BYTES => reading (pbSubmsg mem r) (return -1) fun r kv => do
      let attrs ← decodePointAttrs mem kv s.2
      k r (s.1, attrs)
  | F_SPAN_STATUS, PB_WIRE_BYTES => reading (pbSubmsg mem r) (return -1) fun r st => do
      let span ← pbWhile mem (statusBody mem) (fun span => return span) st.turns st s.1
      k r (span, s.2)
  | _, wire => reading (pbSkip mem r wire) (return -1) fun r _ => k r s

/-- `decode_span(r, ctx, sink, user_data)` -/
def decodeSpan (sink : Span → Prog W ℤ) (r : PbReader) (ctx : SpanContext) : Reading W ℤ :=
  pbWhile mem (spanBody mem) (fun s => lift (sink (finishSpan s))) r.turns r
    (Span.init ctx, Attrs.init 8192)

/-- The call of `decode_span` in `decode_scope_spans`, with the count. -/
def spanItem (sink : Span → Prog W ℤ) : ItemDecoder W SpanContext := fun r ctx count => do
  let rc ← decodeSpan mem sink r ctx
  if rc < 0 then return (-1, count)
  else if 0 < rc then return (1, count)
  else return (0, count + 1)

/-- The branches of `decode_resource_spans` for an attribute that has a value. -/
def spanAttribute (key : Bytes) (value : PbReader) (ctx : SpanContext) : Reading W SpanContext :=
  if key = bytes "service.name" then do
    let text ← pwAnyValueAsString mem 256 value
    return { ctx with serviceName := text.getD ctx.serviceName }
  else if key = bytes "procwatch.label" then do
    let text ← pwAnyValueAsString mem 100 value
    return { ctx with label := text.getD ctx.label }
  else return ctx

def spanContext : WalkContext W SpanContext where
  init := ProcWatch.spanContext.init
  scopeName := SpanContext.scopeName
  setScopeName := fun name ctx => { ctx with scopeName := name }
  takeAttribute := spanAttribute mem

/-- `otlp_decode_traces(data, len, sink, user_data)` -/
def otlpDecodeTraces (sink : Span → Prog W ℤ) (data len : ℕ) : Reading W ℤ :=
  decodeRequest mem (spanContext mem) (spanItem mem sink) data len

/-! ## Metrics -/

def numberPointBody (field wire : ℕ) (r : PbReader) (s : MetricPoint × Attrs 2048)
    (k : PbReader → MetricPoint × Attrs 2048 → Reading W ℤ) : Reading W ℤ :=
  match field, wire with
  | F_NDP_TIME, PB_WIRE_FIXED64 => reading (pbFixed64 mem r) (return -1) fun r v =>
      k r ({ s.1 with timeNs := v }, s.2)
  | F_NDP_AS_DOUBLE, PB_WIRE_FIXED64 => reading (pbFixed64 mem r) (return -1) fun r bits =>
      k r ({ s.1 with value := ⟨bits⟩ }, s.2)
  | F_NDP_AS_INT, PB_WIRE_FIXED64 => reading (pbFixed64 mem r) (return -1) fun r bits =>
      k r ({ s.1 with value := Double.ofInt bits.toInt64.toInt }, s.2)
  | F_NDP_ATTRIBUTES, PB_WIRE_BYTES => reading (pbSubmsg mem r) (return -1) fun r kv => do
      let attrs ← decodePointAttrs mem kv s.2
      k r (s.1, attrs)
  | _, wire => reading (pbSkip mem r wire) (return -1) fun r _ => k r s

def histogramPointBody (field wire : ℕ) (r : PbReader) (s : MetricPoint × Attrs 2048)
    (k : PbReader → MetricPoint × Attrs 2048 → Reading W ℤ) : Reading W ℤ :=
  match field, wire with
  | F_HDP_TIME, PB_WIRE_FIXED64 => reading (pbFixed64 mem r) (return -1) fun r v =>
      k r ({ s.1 with timeNs := v }, s.2)
  | F_HDP_COUNT, PB_WIRE_FIXED64 => reading (pbFixed64 mem r) (return -1) fun r v =>
      k r ({ s.1 with count := v.toInt64 }, s.2)
  | F_HDP_SUM, PB_WIRE_FIXED64 => reading (pbFixed64 mem r) (return -1) fun r bits =>
      k r ({ s.1 with value := ⟨bits⟩ }, s.2)
  | F_HDP_ATTRIBUTES, PB_WIRE_BYTES => reading (pbSubmsg mem r) (return -1) fun r kv => do
      let attrs ← decodePointAttrs mem kv s.2
      k r (s.1, attrs)
  | _, wire => reading (pbSkip mem r wire) (return -1) fun r _ => k r s

/-- The locals of `decode_metric`; of the containers, their kind and reader. -/
structure MetricLocals where
  name : CStr 256
  description : CStr 256
  unit : CStr 64
  pending : List (Container × PbReader)

/-- What a point takes from them. -/
def MetricLocals.texts (m : MetricLocals) : ProcWatch.MetricLocals :=
  ⟨m.name, m.description, m.unit, []⟩

/-- `decode_number_point` and `decode_histogram_point` -/
def decodePoint (sink : MetricPoint → Prog W ℤ) (ctx : MetricContext) (m : MetricLocals)
    (kind : Container) (r : PbReader) : Reading W ℤ :=
  pbWhile mem (if kind = .histogram then histogramPointBody mem else numberPointBody mem)
    (fun s => lift (sink { s.1 with attributesJson := s.2.finish })) r.turns r
    (MetricPoint.init ctx m.texts kind, Attrs.init 2048)

/-- `pending[pending_count] = sub; pending_kind[pending_count] = …; ++pending_count`, unless
the arrays are full. -/
def MetricLocals.push (m : MetricLocals) (kind : Container) (r : PbReader) :
    Reading W MetricLocals :=
  if m.pending.length < PENDING_CONTAINERS then do
    log (.index m.pending.length PENDING_CONTAINERS)
    log (.index m.pending.length PENDING_CONTAINERS)
    return { m with pending := m.pending ++ [(kind, r)] }
  else return m

def metricBody (field wire : ℕ) (r : PbReader) (s : MetricLocals × ℕ)
    (k : PbReader → MetricLocals × ℕ → Reading W (ℤ × ℕ)) : Reading W (ℤ × ℕ) :=
  match s with
  | (m, count) =>
      match field, wire with
      | F_METRIC_NAME, PB_WIRE_BYTES => reading (pbBytes mem r) (return (-1, count)) fun r b => do
          let name ← pwCopyStr mem 256 b
          k r ({ m with name := name }, count)
      | F_METRIC_DESCRIPTION, PB_WIRE_BYTES =>
          reading (pbBytes mem r) (return (-1, count)) fun r b => do
            let description ← pwCopyStr mem 256 b
            k r ({ m with description := description }, count)
      | F_METRIC_UNIT, PB_WIRE_BYTES => reading (pbBytes mem r) (return (-1, count)) fun r b => do
          let unit ← pwCopyStr mem 64 b
          k r ({ m with unit := unit }, count)
      | F_METRIC_GAUGE, PB_WIRE_BYTES =>
          reading (pbSubmsg mem r) (return (-1, count)) fun r sub => do
            let m ← m.push .gauge sub
            k r (m, count)
      | F_METRIC_SUM, PB_WIRE_BYTES =>
          reading (pbSubmsg mem r) (return (-1, count)) fun r sub => do
            let m ← m.push .sum sub
            k r (m, count)
      | F_METRIC_HISTOGRAM, PB_WIRE_BYTES =>
          reading (pbSubmsg mem r) (return (-1, count)) fun r sub => do
            let m ← m.push .histogram sub
            k r (m, count)
      | _, wire => reading (pbSkip mem r wire) (return (-1, count)) fun r _ => k r (m, count)

def containerBody (point : PbReader → Reading W ℤ) (field wire : ℕ) (r : PbReader) (count : ℕ)
    (k : PbReader → ℕ → Reading W (ℤ × ℕ)) : Reading W (ℤ × ℕ) :=
  match field, wire with
  | F_GAUGE_DATA_POINTS, PB_WIRE_BYTES =>
      reading (pbSubmsg mem r) (return (-1, count)) fun r sub => do
        let rc ← point sub
        if rc < 0 then return (-1, count)
        else if 0 < rc then return (1, count)
        else k r (count + 1)
  | _, wire => reading (pbSkip mem r wire) (return (-1, count)) fun r _ => k r count

/-- The loop over the containers put off, `pending[i]` being the first of those that are left. -/
def containersLoop (sink : MetricPoint → Prog W ℤ) (ctx : MetricContext) (m : MetricLocals)
    (i : ℕ) : List (Container × PbReader) → ℕ → Reading W (ℤ × ℕ)
  | [], count => return (0, count)
  | (kind, r) :: pending, count => do
      log (.index i PENDING_CONTAINERS)
      log (.index i PENDING_CONTAINERS)
      let (rc, count) ← pbWhile mem (containerBody mem (decodePoint mem sink ctx m kind))
        (fun count => return (0, count)) r.turns r count
      if rc ≠ 0 then return (rc, count) else containersLoop sink ctx m (i + 1) pending count

/-- `decode_metric(r, ctx, sink, user_data, count)` -/
def decodeMetric (sink : MetricPoint → Prog W ℤ) : ItemDecoder W MetricContext :=
  fun r ctx count =>
    pbWhile mem (metricBody mem)
      (fun s => if s.1.name.val = [] then return (0, s.2)
        else containersLoop mem sink ctx s.1 0 s.1.pending s.2)
      r.turns r (⟨CStr.copy 256 [], CStr.copy 256 [], CStr.copy 64 [], []⟩, count)

/-- The branches of `decode_resource_metrics` for an attribute that has a value. -/
def metricAttribute (key : Bytes) (value : PbReader) (ctx : MetricContext) :
    Reading W MetricContext :=
  if key = bytes "service.name" then do
    let text ← pwAnyValueAsString mem 256 value
    return { ctx with serviceName := text.getD ctx.serviceName }
  else if key = bytes "procwatch.label" then do
    let text ← pwAnyValueAsString mem 100 value
    return { ctx with label := text.getD ctx.label }
  else if key = bytes "procwatch.pid_key" then do
    let text ← pwAnyValueAsString mem 64 value
    return { ctx with pidKey := text.getD ctx.pidKey }
  else return ctx

def metricContext : WalkContext W MetricContext where
  init := ProcWatch.metricContext.init
  scopeName := MetricContext.scopeName
  setScopeName := fun name ctx => { ctx with scopeName := name }
  takeAttribute := metricAttribute mem

/-- `otlp_decode_metrics(data, len, sink, user_data)` -/
def otlpDecodeMetrics (sink : MetricPoint → Prog W ℤ) (data len : ℕ) : Reading W ℤ :=
  decodeRequest mem (metricContext mem) (decodeMetric mem sink) data len

end ProcWatch.Memory

import ProcWatch.Model.OtlpTrace
import ProcWatch.Verification.Otlp.RoundTrip

/-! # Traces: decoding undoes encoding -/

namespace ProcWatch

open CLib Wire

namespace Otlp

/-! ## Spans as trees -/

structure Status where
  message : Bytes
  code : UInt64

/-- A span, without its attributes. -/
structure Span where
  traceId : Bytes
  spanId : Bytes
  parentSpanId : Bytes
  name : Bytes
  kind : UInt64
  startNs : UInt64
  endNs : UInt64
  status : Status

structure EncodesStatus (fs : List Field) (s : Status) : Prop where
  valid : ∀ f ∈ fs, f.Valid
  message : Single fs 2 (.bytes s.message) (.bytes [])
  code : Single fs 3 (.varint s.code) (.varint 0)

/-- The fields of a span, in any order and among any others. -/
structure EncodesSpan (fs : List Field) (s : Span) : Prop where
  valid : ∀ f ∈ fs, f.Valid
  traceId : Single fs 1 (.bytes s.traceId) (.bytes [])
  spanId : Single fs 2 (.bytes s.spanId) (.bytes [])
  parentSpanId : Single fs 4 (.bytes s.parentSpanId) (.bytes [])
  name : Single fs 5 (.bytes s.name) (.bytes [])
  kind : Single fs 6 (.varint s.kind) (.varint 0)
  startNs : Single fs 7 (.fixed64 s.startNs) (.fixed64 0)
  endNs : Single fs 8 (.fixed64 s.endNs) (.fixed64 0)
  status : (∃ status, EncodesStatus status s.status ∧
      numbered 15 fs = [⟨15, .bytes (encode status)⟩]) ∨
    numbered 15 fs = [] ∧ s.status = ⟨[], 0⟩

structure Span.Fits (s : Span) : Prop where
  traceId : s.traceId.length ≤ 16
  spanId : s.spanId.length ≤ 8
  parentSpanId : s.parentSpanId.length ≤ 8
  name : FitsIn 512 s.name
  message : FitsIn 512 s.status.message
  duration : s.endNs.toNat < s.startNs.toNat + 2 ^ 63

/-! ## What is stored of a span -/

/-- The text and numbers of a `pw_span_t`, but for its attributes. -/
structure SpanRow where
  label : Bytes
  traceId : Bytes
  spanId : Bytes
  parentSpanId : Bytes
  name : Bytes
  serviceName : Bytes
  scopeName : Bytes
  kind : Option Bytes
  statusCode : Option Bytes
  statusMessage : Bytes
  startNs : UInt64
  endNs : UInt64
  durationNs : ℤ
  deriving DecidableEq

def kindName (kind : UInt64) : Bytes :=
  (["UNSPECIFIED", "INTERNAL", "SERVER", "CLIENT", "PRODUCER", "CONSUMER"].map bytes).getD
    kind.toNat (bytes "UNSPECIFIED")

def codeName (code : UInt64) : Bytes :=
  (["UNSET", "OK", "ERROR"].map bytes).getD code.toNat (bytes "UNSET")

/-- The row of a span, of a scope and a resource with these names and label. -/
def Span.row (serviceName scopeName label : Bytes) (s : Span) : SpanRow where
  label := label
  traceId := hexText s.traceId
  spanId := hexText s.spanId
  parentSpanId := hexText s.parentSpanId
  name := s.name
  serviceName := serviceName
  scopeName := scopeName
  kind := some (kindName s.kind)
  statusCode := some (codeName s.status.code)
  statusMessage := s.status.message
  startNs := s.startNs
  endNs := s.endNs
  durationNs := if s.startNs ≤ s.endNs then s.endNs.toNat - s.startNs.toNat else 0

end Otlp

def Span.row (s : Span) : Otlp.SpanRow where
  label := s.label.val
  traceId := s.traceId.val
  spanId := s.spanId.val
  parentSpanId := s.parentSpanId.val
  name := s.name.val
  serviceName := s.serviceName.val
  scopeName := s.scopeName.val
  kind := s.kind.map CStr.val
  statusCode := s.statusCode.map CStr.val
  statusMessage := s.statusMessage.val
  startNs := s.startNs
  endNs := s.endNs
  durationNs := s.durationNs.toInt

namespace Otlp

/-! ## One span -/

theorem pwToHex_val_of_le (cap : ℕ) [NeZero cap] {s : Bytes} (h : s.length ≤ (cap - 1) / 2) :
    (pwToHex cap s).val = hexText s :=
  congrArg hexText (List.take_of_length_le h)

def messageStep (m : CStr 512) (f : Field) : CStr 512 :=
  onField 2 (setBytes (pwCopyStr 512)) m f

def codeStep (c : Option (CStr 40)) (f : Field) : Option (CStr 40) :=
  onField 3 (setVarint fun v => some (statusCodeName v)) c f

theorem statusStep_eq (s : ProcWatch.Span) (f : Field) :
    statusStep s f = { s with
      statusMessage := messageStep s.statusMessage f
      statusCode := codeStep s.statusCode f } := by
  unfold statusStep
  split
  · rfl
  · rfl
  · obtain ⟨n, v | v | b | v⟩ := f <;>
      simp_all [messageStep, codeStep, onField, setBytes, setVarint]

theorem foldl_statusStep (fs : List Field) (s : ProcWatch.Span) :
    fs.foldl statusStep s = { s with
      statusMessage := fs.foldl messageStep s.statusMessage
      statusCode := fs.foldl codeStep s.statusCode } := by
  induction fs generalizing s with
  | nil => rfl
  | cons f fs ih =>
      rw [List.foldl_cons, ih, statusStep_eq]
      rfl

/-- Each component of the span depends on the fields of one number. -/
theorem spanStep_eq (s : ProcWatch.Span × Attrs 8192) (f : Field) :
    spanStep s f = ({ s.1 with
      traceId := onField 1 (setBytes (pwToHex 33)) s.1.traceId f
      spanId := onField 2 (setBytes (pwToHex 17)) s.1.spanId f
      parentSpanId := onField 4 (setBytes (pwToHex 17)) s.1.parentSpanId f
      name := onField 5 (setBytes (pwCopyStr 512)) s.1.name f
      kind := onField 6 (setVarint fun v => some (spanKindName v)) s.1.kind f
      startNs := onField 7 (setFixed64 id) s.1.startNs f
      endNs := onField 8 (setFixed64 id) s.1.endNs f
      statusMessage := onField 15 (fun m p => setBytes (fun status =>
        (pbFields status).1.foldl messageStep m) m p) s.1.statusMessage f
      statusCode := onField 15 (fun c p => setBytes (fun status =>
        (pbFields status).1.foldl codeStep c) c p) s.1.statusCode f },
      onField 9 (fun a p => setBytes (fun kv => decodePointAttrs kv a) a p) s.2 f) := by
  unfold spanStep
  split
  case h_9 =>
    rw [foldl_statusStep]
    rfl
  case h_10 =>
    obtain ⟨n, v | v | b | v⟩ := f <;> simp_all [onField, setBytes, setVarint, setFixed64]
  all_goals rfl

theorem spanKindName_val (kind : UInt64) : (spanKindName kind).val = kindName kind := by
  by_cases hlt : kind.toNat < 6
  · have hall : ∀ i : Fin 6, (spanKindName (UInt64.ofNat i)).val = kindName (UInt64.ofNat i) := by
      decide
    simpa using hall ⟨kind.toNat, hlt⟩
  · have hne (i : UInt64) (hi : i.toNat < 6) : kind ≠ i := fun h => hlt (h ▸ hi)
    have hdefault : kindName kind = bytes "UNSPECIFIED" :=
      List.getD_eq_default _ _ (by simpa using hlt)
    rw [spanKindName, if_neg (hne 1 (by decide)), if_neg (hne 2 (by decide)),
      if_neg (hne 3 (by decide)), if_neg (hne 4 (by decide)), if_neg (hne 5 (by decide)), hdefault]
    decide

theorem statusCodeName_val (code : UInt64) : (statusCodeName code).val = codeName code := by
  by_cases hlt : code.toNat < 3
  · have hall : ∀ i : Fin 3,
        (statusCodeName (UInt64.ofNat i)).val = codeName (UInt64.ofNat i) := by decide
    simpa using hall ⟨code.toNat, hlt⟩
  · have hne (i : UInt64) (hi : i.toNat < 3) : code ≠ i := fun h => hlt (h ▸ hi)
    have hdefault : codeName code = bytes "UNSET" :=
      List.getD_eq_default _ _ (by simpa using hlt)
    rw [statusCodeName, if_neg (hne 1 (by decide)), if_neg (hne 2 (by decide)), hdefault]
    decide

/-- A duration below `2 ^ 63` survives the conversion to `int64_t`. -/
theorem duration_toInt {start stop : UInt64} (hle : start ≤ stop)
    (hlt : stop.toNat < start.toNat + 2 ^ 63) :
    (stop - start).toInt64.toInt = stop.toNat - start.toNat := by
  have hnat : (stop - start).toNat = stop.toNat - start.toNat := UInt64.toNat_sub_of_le _ _ hle
  have hle' : start.toNat ≤ stop.toNat := UInt64.le_iff_toNat_le.mp hle
  have hsmall : (stop - start).toNat < 2 ^ 63 := by
    rw [hnat]
    omega
  rw [← UInt64.ofNat_toNat (x := stop - start), UInt64.toInt64_ofNat', Int64.toInt_ofNat_of_lt hsmall,
    hnat]
  omega

/-- Where the loop over the fields of a span starts. -/
def spanStart (ctx : SpanContext) : ProcWatch.Span × Attrs 8192 :=
  (ProcWatch.Span.init ctx, Attrs.init 8192)

/-- The span that comes of an encoding, but for its attributes. -/
theorem readSpanMessage_encode {fs : List Field} {s : Span} (h : EncodesSpan fs s) (hfits : s.Fits)
    (hlen : (encode fs).length < 2 ^ 64) (ctx : SpanContext) :
    ∃ span, readSpanMessage (encode fs) ctx = some span ∧
      span.row = s.row ctx.serviceName.val ctx.scopeName.val ctx.label.val := by
  rw [readSpanMessage, pbFields_encode h.valid hlen]
  refine ⟨_, rfl, ?_⟩
  change (finishSpan (fs.foldl spanStep (spanStart ctx))).row = _
  generalize hs : fs.foldl spanStep (spanStart ctx) = t
  have htraceId : t.1.traceId = pwToHex 33 s.traceId := by
    rw [← hs]
    exact foldl_single spanStep (·.1.traceId) (fun s f => by rw [spanStep_eq])
      (spanStart ctx) h.traceId rfl
  have hspanId : t.1.spanId = pwToHex 17 s.spanId := by
    rw [← hs]
    exact foldl_single spanStep (·.1.spanId) (fun s f => by rw [spanStep_eq])
      (spanStart ctx) h.spanId rfl
  have hparent : t.1.parentSpanId = pwToHex 17 s.parentSpanId := by
    rw [← hs]
    exact foldl_single spanStep (·.1.parentSpanId) (fun s f => by rw [spanStep_eq])
      (spanStart ctx) h.parentSpanId rfl
  have hname : t.1.name = pwCopyStr 512 s.name := by
    rw [← hs]
    exact foldl_single spanStep (·.1.name) (fun s f => by rw [spanStep_eq])
      (spanStart ctx) h.name rfl
  have hkind : t.1.kind = some (spanKindName s.kind) := by
    rw [← hs]
    exact foldl_single spanStep (·.1.kind) (fun s f => by rw [spanStep_eq])
      (spanStart ctx) h.kind rfl
  have hstart : t.1.startNs = s.startNs := by
    rw [← hs]
    exact foldl_single spanStep (·.1.startNs) (fun s f => by rw [spanStep_eq])
      (spanStart ctx) h.startNs rfl
  have hend : t.1.endNs = s.endNs := by
    rw [← hs]
    exact foldl_single spanStep (·.1.endNs) (fun s f => by rw [spanStep_eq])
      (spanStart ctx) h.endNs rfl
  have hctx : (t.1.serviceName, t.1.scopeName, t.1.label) =
      (ctx.serviceName, ctx.scopeName, ctx.label) := by
    rw [← hs]
    exact foldl_unchanged spanStep (fun s => (s.1.serviceName, s.1.scopeName, s.1.label))
      (fun s f => by rw [spanStep_eq]) (spanStart ctx) fs
  have hstatus : t.1.statusMessage = pwCopyStr 512 s.status.message ∧
      t.1.statusCode = some (statusCodeName s.status.code) := by
    have hmessage := foldl_numbered spanStep (·.1.statusMessage) (fun s f => by rw [spanStep_eq])
      (spanStart ctx) fs
    have hcode := foldl_numbered spanStep (·.1.statusCode) (fun s f => by rw [spanStep_eq])
      (spanStart ctx) fs
    rw [hs] at hmessage hcode
    rw [hmessage, hcode]
    rcases h.status with ⟨status, henc, hnum⟩ | ⟨hnum, hdefault⟩
    · have hsub : (encode status).length < 2 ^ 64 :=
        (length_bytes_of_mem_numbered (hnum ▸ List.mem_singleton_self _)).trans_lt hlen
      rw [hnum]
      simp only [List.foldl_cons, List.foldl_nil, setBytes, pbFields_encode henc.valid hsub]
      exact ⟨foldl_single messageStep id (fun _ _ => rfl) _ henc.message rfl,
        foldl_single codeStep id (fun _ _ => rfl) _ henc.code rfl⟩
    · rw [hnum, hdefault]
      exact ⟨rfl, rfl⟩
  obtain ⟨hservice, hscope, hlabel⟩ : t.1.serviceName = ctx.serviceName ∧
      t.1.scopeName = ctx.scopeName ∧ t.1.label = ctx.label := by simpa using hctx
  have hduration : (finishSpan t).durationNs.toInt =
      if s.startNs ≤ s.endNs then (s.endNs.toNat : ℤ) - s.startNs.toNat else 0 := by
    rw [finishSpan]
    simp only [hstart, hend]
    split
    · rename_i hle
      exact duration_toInt hle hfits.duration
    · rfl
  rw [ProcWatch.Span.row, Span.row, hduration]
  simp only [finishSpan, htraceId, hspanId, hparent, hname, hkind, hstart, hend, hservice, hscope,
    hlabel, hstatus.1, hstatus.2, Option.map_some, spanKindName_val, statusCodeName_val,
    pwCopyStr_val_of_fits hfits.name, pwCopyStr_val_of_fits hfits.message,
    pwToHex_val_of_le 33 hfits.traceId, pwToHex_val_of_le 17 hfits.spanId,
    pwToHex_val_of_le 17 hfits.parentSpanId]

/-! ## Requests -/

def readSpan (r : Bytes) (ctx : SpanContext) : Emission ProcWatch.Span :=
  .ofOption (readSpanMessage r ctx)

theorem spanItem_eq {W : Type} (sink : ProcWatch.Span → Prog W ℤ) (r : Bytes) (ctx : SpanContext)
    (count : ℕ) : spanItem sink r ctx count = (readSpan r ctx).run sink count := by
  rw [spanItem, decodeSpan, readSpan, Emission.run_ofOption]
  cases readSpanMessage r ctx <;> rfl

/-- The rows of a resource: those of its spans, each with the name of its scope. -/
def Resource.spanRows (r : Resource Span) : List SpanRow :=
  r.scopes.flatMap fun s => s.items.map (Span.row r.serviceName s.name r.label)

/-- The rows of a span in a context. -/
def spanRowsIn (c : SpanContext) (s : Span) : List SpanRow :=
  [s.row c.serviceName.val c.scopeName.val c.label.val]

theorem readsSpans :
    ReadsItems spanContext readSpan EncodesSpan ProcWatch.Span.row Span.Fits spanRowsIn where
  mapScopeName _ _ _ := rfl
  reads _ _ c henc hfits hlen := by
    obtain ⟨span, hread, hrow⟩ := readSpanMessage_encode henc hfits hlen c
    rw [readSpan, hread]
    exact ⟨rfl, congrArg ([·]) hrow⟩

theorem spanAttribute_serviceName (k value : Bytes) (c : SpanContext) :
    (spanAttribute k value c).serviceName =
      if k = bytes "service.name" then (pwAnyValueAsString 256 value).getD c.serviceName
      else c.serviceName := by
  by_cases hk : k = bytes "service.name"
  · rw [spanAttribute, if_pos hk, if_pos hk]
  · rw [spanAttribute, if_neg hk, if_neg hk]
    split <;> rfl

theorem spanAttribute_label (k value : Bytes) (c : SpanContext) :
    (spanAttribute k value c).label =
      if k = bytes "procwatch.label" then (pwAnyValueAsString 100 value).getD c.label
      else c.label := by
  by_cases hk : k = bytes "procwatch.label"
  · have hne : k ≠ bytes "service.name" := by
      rw [hk]
      decide
    rw [spanAttribute, if_neg hne, if_pos hk, if_pos hk]
  · rw [spanAttribute, if_neg hk, if_neg hk]
    split <;> rfl

theorem rows_spanContext {r : Resource Span} (hfits : r.Fits Span.Fits)
    (hlen : ∀ kv ∈ r.attributes, (encode kv.2.fields).length < 2 ^ 64) :
    r.rows spanContext spanRowsIn = r.spanRows := by
  have hservice : (attributesContext spanContext r.attributes).serviceName.val = r.serviceName :=
    attributesContext_string SpanContext.serviceName (by decide) spanAttribute_serviceName
      hfits.keys hlen hfits.serviceName
  have hlabel : (attributesContext spanContext r.attributes).label.val = r.label :=
    attributesContext_string SpanContext.label (by decide) spanAttribute_label
      hfits.keys hlen hfits.label
  rw [Resource.rows, Resource.spanRows]
  apply List.flatMap_congr
  intro s hs
  have hname : (pwCopyStr 256 s.name).val = s.name := pwCopyStr_val_of_fits (hfits.scopes s hs).1
  rw [Scope.rows, List.map_eq_flatMap, ← hservice, ← hlabel]
  conv_rhs => rw [← hname]
  rfl

/-- Decoding undoes encoding: each span of the request is handed over once, with the row that
it has in the tree, and counted. -/
theorem otlpDecodeTraces_encode {fs : List Field} {req : Request Span}
    (hreq : Encodes EncodesSpan fs req) (hfits : ∀ r ∈ req, r.Fits Span.Fits)
    (hlen : (encode fs).length < 2 ^ 64) {W : Type} {sink : ProcWatch.Span → Prog W ℤ}
    (hsink : ∀ s w, (sink s w).1 = .ret 0) (w : W) :
    ∃ spans : List ProcWatch.Span, otlpDecodeTraces sink (encode fs) w =
        (.ret ((req.flatMap Resource.spanRows).length : ℤ),
          spans.foldl (fun w s => (sink s w).2) w) ∧
      (spans.map ProcWatch.Span.row).Perm (req.flatMap Resource.spanRows) := by
  obtain ⟨spans, hrun, hperm⟩ := decodeRequest_encode readsSpans (spanItem_eq sink) hsink hreq
    (fun r hr s hs => ((hfits r hr).scopes s hs).2) hlen w
  have hrows : req.flatMap (Resource.rows spanContext spanRowsIn) =
      req.flatMap Resource.spanRows :=
    List.flatMap_congr fun r hr => rows_spanContext (hfits r hr) (hreq.length_value hlen r hr)
  rw [hrows] at hperm
  refine ⟨spans, ?_, hperm⟩
  rw [← hperm.length_eq, List.length_map]
  exact hrun

/-- The fields of a server span, without a parent, that failed after 15 ns. -/
def failedGetFields : List Field :=
  [⟨1, .bytes [1, 2]⟩, ⟨2, .bytes [3]⟩, ⟨5, .bytes (bytes "GET /")⟩, ⟨6, .varint 2⟩,
    ⟨7, .fixed64 10⟩, ⟨8, .fixed64 25⟩, ⟨15, .bytes (encode [⟨3, .varint 2⟩])⟩]

def failedGet : Span :=
  ⟨[1, 2], [3], [], bytes "GET /", 2, 10, 25, ⟨[], 2⟩⟩

theorem encodesSpan_failedGet : EncodesSpan failedGetFields failedGet where
  valid := by decide
  traceId := .inl (by decide)
  spanId := .inl (by decide)
  parentSpanId := .inr (by decide)
  name := .inl (by decide)
  kind := .inl (by decide)
  startNs := .inl (by decide)
  endNs := .inl (by decide)
  status := .inl ⟨[⟨3, .varint 2⟩], ⟨by decide, .inr (by decide), .inl (by decide)⟩, by decide⟩

def httpFields : List Field :=
  ⟨1, .bytes (encode [⟨1, .bytes (bytes "http")⟩])⟩ :: submessages 2 [failedGetFields]

def shopFields : List Field :=
  ⟨1, .bytes (encode [⟨1, .bytes (encodePair (bytes "service.name", .str (bytes "shop")))⟩])⟩ ::
    submessages 2 [httpFields]

/-- A request with the span alone, in the scope `http` of the service `shop`. -/
def shop : Request Span :=
  [⟨[(bytes "service.name", .str (bytes "shop"))], [⟨bytes "http", [failedGet]⟩]⟩]

theorem encodes_shop : Encodes EncodesSpan (submessages 1 [shopFields]) shop := by
  have hscope : EncodesScope EncodesSpan httpFields ⟨bytes "http", [failedGet]⟩ :=
    ⟨by decide, [⟨1, .bytes (bytes "http")⟩], [failedGetFields], by decide, by decide,
      .cons encodesSpan_failedGet .nil, by decide⟩
  have hattrs : EncodesAttributes [⟨1, .bytes (encode
      [⟨1, .bytes (encodePair (bytes "service.name", .str (bytes "shop")))⟩])⟩]
      [(bytes "service.name", .str (bytes "shop"))] :=
    .inr ⟨_, by decide, by decide, rfl⟩
  have hresource : EncodesResource EncodesSpan shopFields
      ⟨[(bytes "service.name", .str (bytes "shop"))], [⟨bytes "http", [failedGet]⟩]⟩ :=
    ⟨by decide, _, [httpFields], hattrs, .cons hscope .nil, by decide⟩
  exact ⟨by decide, [shopFields], .cons hresource .nil, by decide⟩

theorem fits_shop : ∀ r ∈ shop, r.Fits Span.Fits := by
  intro r hr
  obtain rfl := List.mem_singleton.mp hr
  constructor
  · intro kv hkv
    obtain rfl := List.mem_singleton.mp hkv
    decide
  · intro s hs
    obtain ⟨-, h⟩ := Prod.mk.inj (List.mem_singleton.mp hs)
    obtain rfl := AnyValue.str.inj h
    exact ⟨by decide, by decide⟩
  · intro s hs
    obtain ⟨h, -⟩ := Prod.mk.inj (List.mem_singleton.mp hs)
    exact absurd h (by decide)
  · intro s hs
    obtain rfl := List.mem_singleton.mp hs
    refine ⟨⟨by decide, by decide⟩, fun x hx => ?_⟩
    obtain rfl := List.mem_singleton.mp hx
    exact ⟨by decide, by decide, by decide, ⟨by decide, by decide⟩, ⟨by decide, by decide⟩,
      by decide⟩

theorem otlpDecodeTraces_encode_shop :
    ∃ spans : List ProcWatch.Span,
      otlpDecodeTraces (fun s => do Prog.modify (s.row :: ·); return 0) (encode (submessages 1 [shopFields])) [] =
        (.ret 1, spans.foldl (fun w s => s.row :: w) []) ∧
      (spans.map ProcWatch.Span.row).Perm [{
        label := [], traceId := bytes "0102", spanId := bytes "03", parentSpanId := []
        name := bytes "GET /", serviceName := bytes "shop", scopeName := bytes "http"
        kind := some (bytes "SERVER"), statusCode := some (bytes "ERROR"), statusMessage := []
        startNs := 10, endNs := 25, durationNs := 15 }] :=
  otlpDecodeTraces_encode encodes_shop fits_shop (by decide +kernel) (fun _ _ => rfl) []

end Otlp

end ProcWatch

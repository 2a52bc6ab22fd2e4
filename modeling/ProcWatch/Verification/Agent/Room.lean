import ProcWatch.Model.AgentRequests
import ProcWatch.Verification.Lines.RoundTrip
import ProcWatch.Verification.Otlp.Emitted

/-! # Room for the escaped fields of a spill line -/

namespace ProcWatch

open CLib Otlp

/-! ## Size of an escaped text -/

/-- Bytes that `pw_json_escape` writes for one byte. -/
def escapedSize (b : Byte) : ℕ :=
  if b ∈ [0x5c, 0x22, 0x0a, 0x0d, 0x09] then 2 else if b < 0x20 then 6 else 1

def escapedLength (s : Bytes) : ℕ :=
  (s.map escapedSize).sum

theorem length_escapeByte (b : Byte) : (escapeByte b).length = escapedSize b := by
  unfold escapeByte escapeRep escapedSize
  split_ifs with h1 h2 h3 h4 h5 h6 <;> simp_all

theorem length_escapeAll (s : Bytes) : (escapeAll s).length = escapedLength s := by
  induction s with
  | nil => rfl
  | cons b s ih =>
      rw [escapeAll_cons, List.length_append, length_escapeByte, ih, escapedLength, escapedLength,
        List.map_cons, List.sum_cons]

theorem pwJsonEscape_ne_none_iff {cap : ℕ} (hcap : 0 < cap) {s : Bytes} (h0 : (0 : Byte) ∉ s) :
    pwJsonEscape cap s ≠ none ↔ escapedLength s < cap := by
  rw [pwJsonEscape_eq hcap, cstr_of_nulFree h0, length_escapeAll]
  split <;> simp_all

theorem escapedLength_of_plain {s : Bytes} (h : ∀ b ∈ s, Plain b) : escapedLength s = s.length := by
  rw [← length_escapeAll]
  induction s with
  | nil => rfl
  | cons b s ih =>
      rw [escapeAll_cons, List.length_append, escapeByte_of_plain (h b (by simp)),
        ih fun c hc => h c (by simp [hc])]
      simp [Nat.add_comm]

/-! ## Records that reach the writers -/

/-- What the sinks hand to their writers, and `handle_procmetrics` to its own. -/
inductive Handed : AgentRecord → Prop where
  | metric (body after : Bytes)
      (hlabel : validateIdentifier (strBuf body after "label" 100 []).val = true) :
      Handed (.metric (procMetricOf body after (strBuf body after "label" 100 [])))
  | otelMetric {data : Bytes} {p : MetricPoint} (hp : p ∈ emitted otlpDecodeMetrics data)
      (hlabel : validateIdentifier p.label.val = true) : Handed (.otelMetric p)
  | span {data : Bytes} {s : Span} (hs : s ∈ emitted otlpDecodeTraces data)
      (hlabel : validateIdentifier s.label.val = true) : Handed (.span s)

theorem Handed.label_valid {r : AgentRecord} (h : Handed r) :
    validateIdentifier r.label.val = true := by
  cases h with
  | metric body after hlabel => exact hlabel
  | otelMetric hp hlabel => exact hlabel
  | span hs hlabel => exact hlabel

/-- The texts of a span that the decoder itself makes up. -/
structure OwnTexts (s : Span) : Prop where
  traceId : ∃ b, s.traceId = pwToHex 33 b
  spanId : ∃ b, s.spanId = pwToHex 17 b
  parentSpanId : ∃ b, s.parentSpanId = pwToHex 17 b
  kind : ∃ v, s.kind = some (spanKindName v)
  statusCode : ∃ v, s.statusCode = some (statusCodeName v)

theorem ownTexts_statusStep {s : Span} (h : OwnTexts s) (f : Wire.Field) :
    OwnTexts (statusStep s f) := by
  unfold statusStep
  split
  · exact ⟨h.traceId, h.spanId, h.parentSpanId, h.kind, h.statusCode⟩
  · exact ⟨h.traceId, h.spanId, h.parentSpanId, h.kind, _, rfl⟩
  · exact h

theorem ownTexts_spanStep {x : Span × Attrs 8192} (h : OwnTexts x.1) (f : Wire.Field) :
    OwnTexts (spanStep x f).1 := by
  unfold spanStep
  split
  · exact ⟨⟨_, rfl⟩, h.spanId, h.parentSpanId, h.kind, h.statusCode⟩
  · exact ⟨h.traceId, ⟨_, rfl⟩, h.parentSpanId, h.kind, h.statusCode⟩
  · exact ⟨h.traceId, h.spanId, ⟨_, rfl⟩, h.kind, h.statusCode⟩
  · exact ⟨h.traceId, h.spanId, h.parentSpanId, h.kind, h.statusCode⟩
  · exact ⟨h.traceId, h.spanId, h.parentSpanId, ⟨_, rfl⟩, h.statusCode⟩
  · exact ⟨h.traceId, h.spanId, h.parentSpanId, h.kind, h.statusCode⟩
  · exact ⟨h.traceId, h.spanId, h.parentSpanId, h.kind, h.statusCode⟩
  · exact h
  · exact List.foldlRecOn _ _ h fun s hs f _ => ownTexts_statusStep hs f
  · exact h

theorem ownTexts_init (ctx : SpanContext) : OwnTexts (Span.init ctx) where
  traceId := ⟨[], by ext1; rfl⟩
  spanId := ⟨[], by ext1; rfl⟩
  parentSpanId := ⟨[], by ext1; rfl⟩
  kind := ⟨0, rfl⟩
  statusCode := ⟨0, rfl⟩

theorem ownTexts_of_emitted {data : Bytes} {s : Span} (hs : s ∈ emitted otlpDecodeTraces data) :
    OwnTexts s := by
  refine forall_emitted_traces ?_ data s hs
  intro r ctx s hread
  rw [readSpanMessage_eq_some hread]
  have h : OwnTexts ((pbFields r).1.foldl spanStep (spanStart ctx)).1 :=
    List.foldlRecOn (motive := fun x : Span × Attrs 8192 => OwnTexts x.1) _ _ (ownTexts_init ctx)
      fun x hx f _ => ownTexts_spanStep hx f
  exact ⟨h.traceId, h.spanId, h.parentSpanId, h.kind, h.statusCode⟩

theorem metricType_of_emitted {data : Bytes} {p : MetricPoint}
    (hp : p ∈ emitted otlpDecodeMetrics data) : ∃ kind, p.metricType = some (Container.name kind) := by
  refine forall_emitted_metrics (P := fun p => ∃ kind, p.metricType = some (Container.name kind))
    ?_ data p hp
  intro ctx m kind r p hread
  obtain ⟨x, hx, rfl⟩ := readPoint_eq_some hread
  rw [hx]
  refine ⟨kind, ?_⟩
  refine List.foldlRecOn (motive := fun x : MetricPoint × Attrs 2048 => x.1.metricType = some kind.name) _ _ rfl ?_
  intro x hx f _
  split
  · unfold histogramPointStep
    split <;> exact hx
  · unfold numberPointStep
    split <;> exact hx

/-! ## Fields that may not fit -/

/-- Keys of the fields that hold what a sender says. -/
def AgentRecord.openKeys : AgentRecord → List Bytes
  | metric _ => [bytes "service", bytes "container_id", bytes "pod", bytes "pid", bytes "comm",
      bytes "runtime"]
  | otelMetric _ => [bytes "service_name", bytes "scope_name", bytes "pid", bytes "metric_name",
      bytes "description", bytes "unit", bytes "attributes"]
  | span _ => [bytes "name", bytes "service_name", bytes "scope_name", bytes "status_message",
      bytes "attributes"]

theorem fits_label {r : AgentRecord} (h : Handed r) : escapedLength r.label.val < 200 := by
  have hlen := length_lt_of_validateIdentifier h.label_valid
  rw [escapedLength_of_plain (plain_of_validateIdentifier h.label_valid)]
  omega

theorem fits_schema (schema : Identifier) : escapedLength schema.val < 100 := by
  rw [escapedLength_of_plain (plain_of_validateIdentifier schema.valid)]
  exact (length_lt_of_validateIdentifier schema.valid).2

theorem fits_ts (p : ℕ) (d : Double) : escapedLength (bounded 64 (Double.fmtF p d)) < 64 := by
  have hnum : Double.NumText (bounded 64 (Double.fmtF p d)) :=
    (Double.numText_fmtF p d).sublist (List.take_sublist _ _)
  have hlen := Spilled.length_bounded_le 64 (Double.fmtF p d)
  rw [escapedLength_of_plain fun b hb => plain_of_isNumText (hnum b hb)]
  omega

theorem plain_hexText (src : Bytes) : ∀ b ∈ hexText src, Plain b := by
  intro b hb
  obtain ⟨c, -, hc⟩ := List.mem_flatMap.mp hb
  have hlt := c.toNat_lt
  simp only [List.mem_cons, List.not_mem_nil, or_false] at hc
  rcases hc with rfl | rfl
  · exact plain_hexDigit (by omega)
  · exact plain_hexDigit (by omega)

theorem fits_hex {cap : ℕ} [NeZero cap] {s : CStr cap} (h : ∃ b, s = pwToHex cap b) {room : ℕ}
    (hroom : cap ≤ room) : escapedLength s.val < room := by
  obtain ⟨b, rfl⟩ := h
  have hlt := (pwToHex cap b).length_lt
  have hplain : ∀ x ∈ (pwToHex cap b).val, Plain x := plain_hexText _
  rw [escapedLength_of_plain hplain]
  omega

theorem fits_kind {kind : Option (CStr 40)} (h : ∃ v, kind = some (spanKindName v)) :
    escapedLength (orText kind (bytes "INTERNAL")) < 40 := by
  obtain ⟨v, rfl⟩ := h
  simp only [orText, spanKindName]
  split_ifs <;> decide

theorem fits_statusCode {code : Option (CStr 40)} (h : ∃ v, code = some (statusCodeName v)) :
    escapedLength (orText code (bytes "UNSET")) < 40 := by
  obtain ⟨v, rfl⟩ := h
  simp only [orText, statusCodeName]
  split_ifs <;> decide

theorem fits_metricType {type : Option (CStr 16)} (h : ∃ kind, type = some (Container.name kind)) :
    escapedLength (orText type (bytes "gauge")) < 32 := by
  obtain ⟨kind, rfl⟩ := h
  cases kind <;> decide

/-- Every other field fits. -/
theorem fits_of_notMem_openKeys {schema : Identifier} {r : AgentRecord} (h : Handed r)
    {f : Spilled.Field} (hf : f ∈ (Spilled.agent schema r).fields) (hkey : f.key ∉ r.openKeys) :
    escapedLength f.text < f.escapeCap := by
  have hlabel := fits_label h
  cases h with
  | metric body after _ =>
      simp only [Spilled.fields, List.mem_cons, List.not_mem_nil, or_false] at hf
      rcases hf with rfl | rfl | rfl | rfl | rfl | rfl | rfl | rfl
      · exact fits_schema schema
      · exact hlabel
      all_goals simp [AgentRecord.openKeys] at hkey
  | otelMetric hp _ =>
      simp only [Spilled.fields, List.mem_cons, List.not_mem_nil, or_false] at hf
      rcases hf with rfl | rfl | rfl | rfl | rfl | rfl | rfl | rfl | rfl | rfl | rfl
      · exact fits_schema schema
      · exact hlabel
      · exact fits_ts 9 _
      · simp [AgentRecord.openKeys] at hkey
      · simp [AgentRecord.openKeys] at hkey
      · simp [AgentRecord.openKeys] at hkey
      · simp [AgentRecord.openKeys] at hkey
      · exact fits_metricType (metricType_of_emitted hp)
      all_goals simp [AgentRecord.openKeys] at hkey
  | span hs _ =>
      have hown := ownTexts_of_emitted hs
      simp only [Spilled.fields, List.mem_cons, List.not_mem_nil, or_false] at hf
      rcases hf with rfl | rfl | rfl | rfl | rfl | rfl | rfl | rfl | rfl | rfl | rfl | rfl | rfl
      · exact fits_schema schema
      · exact hlabel
      · exact fits_ts 6 _
      · exact fits_hex hown.traceId (show 33 ≤ 80 by decide)
      · exact fits_hex hown.spanId (show 17 ≤ 40 by decide)
      · exact fits_hex hown.parentSpanId (show 17 ≤ 40 by decide)
      · simp [AgentRecord.openKeys] at hkey
      · exact fits_kind hown.kind
      · simp [AgentRecord.openKeys] at hkey
      · simp [AgentRecord.openKeys] at hkey
      · exact fits_statusCode hown.statusCode
      all_goals simp [AgentRecord.openKeys] at hkey

theorem escapeCap_pos {r : Spilled} {f : Spilled.Field} (hf : f ∈ r.fields) : 0 < f.escapeCap := by
  rcases r with ⟨schema, m | p | x⟩ | x
  all_goals
    revert f
    simp [Spilled.fields]

/-- Nothing is blanked in the line of a record exactly where each field a sender has filled is,
once escaped, shorter than its buffer. -/
theorem escapesAll_iff (schema : Identifier) {r : AgentRecord} (h : Handed r) :
    (∀ f ∈ (Spilled.agent schema r).fields, pwJsonEscape f.escapeCap f.text ≠ none) ↔
      ∀ f ∈ (Spilled.agent schema r).fields, f.key ∈ r.openKeys →
        escapedLength f.text < f.escapeCap := by
  constructor
  · intro hall f hf _
    exact (pwJsonEscape_ne_none_iff (escapeCap_pos hf) (Spilled.nulFree_text hf)).mp (hall f hf)
  · intro hopen f hf
    rw [pwJsonEscape_ne_none_iff (escapeCap_pos hf) (Spilled.nulFree_text hf)]
    by_cases hkey : f.key ∈ r.openKeys
    · exact hopen f hf hkey
    · exact fits_of_notMem_openKeys h hf hkey

/-- The record of a `/v1/procmetrics` body of label `a`, with so many bytes 1 as its runtime. -/
def runtimeBody (n : ℕ) : Bytes :=
  bytes "\x7b\"label\":\"a\",\"runtime\":\"" ++ List.replicate n 0x01 ++ bytes "\"\x7d"

def runtimeRecord (n : ℕ) : AgentRecord :=
  .metric (procMetricOf (runtimeBody n) [0] (strBuf (runtimeBody n) [0] "label" 100 []))

theorem escapesAll_iff_one :
    (∀ f ∈ (Spilled.agent DEFAULT_SCHEMA (runtimeRecord 1)).fields,
        pwJsonEscape f.escapeCap f.text ≠ none) ↔
      ∀ f ∈ (Spilled.agent DEFAULT_SCHEMA (runtimeRecord 1)).fields,
        f.key ∈ (runtimeRecord 1).openKeys → escapedLength f.text < f.escapeCap :=
  escapesAll_iff DEFAULT_SCHEMA (.metric _ _ (by decide +kernel))

/-- Eleven control bytes take 66 bytes of the 64 there are. -/
theorem not_forall_escapesAll :
    ¬ ∀ (schema : Identifier) (r : AgentRecord), Handed r →
      ∀ f ∈ (Spilled.agent schema r).fields, pwJsonEscape f.escapeCap f.text ≠ none := by
  intro h
  have hruntime := h DEFAULT_SCHEMA (runtimeRecord 11) (.metric _ _ (by decide +kernel))
    ⟨bytes "runtime", (strBuf (runtimeBody 11) [0] "runtime" 32 (bytes "other")).val, 64, 32⟩
    (by simp [runtimeRecord, procMetricOf, readProcMetric, Spilled.fields, orText])
  exact hruntime (by decide +kernel)

end ProcWatch

import ProcWatch.Verification.Lines.WellFormed

/-! # Reading the fields of a spill line back -/

namespace ProcWatch

open CLib

namespace Spilled

/-! ## The string fields -/

/-- A string member of a line: the text it holds, the buffer it is escaped into, and the
buffer its reader copies it to. -/
structure Field where
  key : Bytes
  text : Bytes
  escapeCap : ℕ
  readCap : ℕ

/-- Every string member of a line that some reader asks for, and the schema. -/
def fields : Spilled → List Field
  | agent schema (.metric m) =>
      [⟨bytes "schema", schema.val, 100, 100⟩,
        ⟨bytes "label", m.label.val, 200, 100⟩,
        ⟨bytes "service", orText m.service [], 512, 256⟩,
        ⟨bytes "container_id", orText m.containerId [], 160, 80⟩,
        ⟨bytes "pod", orText m.pod [], 512, 256⟩,
        ⟨bytes "pid", orText m.pid [], 160, 80⟩,
        ⟨bytes "comm", orText m.comm [], 128, 64⟩,
        ⟨bytes "runtime", orText m.runtime (bytes "other"), 64, 32⟩]
  | agent schema (.otelMetric p) =>
      [⟨bytes "schema", schema.val, 100, 100⟩,
        ⟨bytes "label", p.label.val, 200, 100⟩,
        ⟨bytes "ts", bounded 64 (Double.fmtF 9 (seconds p.timeNs)), 64, 64⟩,
        ⟨bytes "service_name", p.serviceName.val, 512, 256⟩,
        ⟨bytes "scope_name", p.scopeName.val, 512, 256⟩,
        ⟨bytes "pid", p.pidKey.val, 160, 64⟩,
        ⟨bytes "metric_name", p.metricName.val, 512, 256⟩,
        ⟨bytes "metric_type", orText p.metricType (bytes "gauge"), 32, 16⟩,
        ⟨bytes "description", p.description.val, 512, 256⟩,
        ⟨bytes "unit", p.unit.val, 128, 64⟩,
        ⟨bytes "attributes", orNonempty p.attributesJson.val (bytes "\x7b\x7d"), 2200, 2048⟩]
  | agent schema (.span s) =>
      [⟨bytes "schema", schema.val, 100, 100⟩,
        ⟨bytes "label", s.label.val, 200, 100⟩,
        ⟨bytes "ts", bounded 64 (Double.fmtF 6 (seconds s.timeNs)), 64, 64⟩,
        ⟨bytes "trace_id", s.traceId.val, 80, 33⟩,
        ⟨bytes "span_id", s.spanId.val, 40, 17⟩,
        ⟨bytes "parent_span_id", s.parentSpanId.val, 40, 17⟩,
        ⟨bytes "name", s.name.val, 512, 512⟩,
        ⟨bytes "kind", orText s.kind (bytes "INTERNAL"), 40, 40⟩,
        ⟨bytes "service_name", s.serviceName.val, 512, 256⟩,
        ⟨bytes "scope_name", s.scopeName.val, 512, 256⟩,
        ⟨bytes "status_code", orText s.statusCode (bytes "UNSET"), 40, 40⟩,
        ⟨bytes "status_message", s.statusMessage.val, 512, 512⟩,
        ⟨bytes "attributes", orNonempty s.attributesJson.val (bytes "\x7b\x7d"), 8192, 8192⟩]
  | sample x => [⟨bytes "pid", x.pid.val, 256, 128⟩]

/-- The reader of the program that replays the line. -/
def readField : Spilled → Bytes → Field → Bytes → Bool × Bytes
  | agent _ _, line, f, out => jsonStr line [0] f.key f.readCap out
  | sample _, line, f, out => jsonStrField line f.key f.readCap out

theorem escaped_schema (schema : Identifier) : escaped 100 schema.val = schema.val :=
  escaped_of_plain (plain_of_validateIdentifier schema.valid)
    (length_lt_of_validateIdentifier schema.valid).2

theorem escaped_ts (p : ℕ) (d : Double) :
    escaped 64 (bounded 64 (Double.fmtF p d)) = bounded 64 (Double.fmtF p d) := by
  have hnum : Double.NumText (bounded 64 (Double.fmtF p d)) :=
    (Double.numText_fmtF p d).sublist (List.take_sublist _ _)
  have hlen := length_bounded_le 64 (Double.fmtF p d)
  exact escaped_of_plain (fun b hb => plain_of_isNumText (hnum b hb)) (by omega)

/-- Each field is a member of its line, written escaped. -/
theorem mem_members_of_mem_fields {r : Spilled} {f : Field} (hf : f ∈ r.fields) :
    .str f.key (escaped f.escapeCap f.text) ∈ r.members := by
  rcases r with ⟨schema, m | p | x⟩ | x
  all_goals
    simp only [fields, List.mem_cons, List.not_mem_nil, or_false] at hf
    simp only [members, AgentRecord.members, metricMembers, otelMetricMembers, spanMembers,
      sampleMembers, List.mem_cons]
  · rcases hf with rfl | rfl | rfl | rfl | rfl | rfl | rfl | rfl
    all_goals simp only [escaped_schema, true_or, or_true]
  · rcases hf with rfl | rfl | rfl | rfl | rfl | rfl | rfl | rfl | rfl | rfl | rfl
    all_goals simp only [escaped_schema, escaped_ts, true_or, or_true]
  · rcases hf with rfl | rfl | rfl | rfl | rfl | rfl | rfl | rfl | rfl | rfl | rfl | rfl | rfl
    all_goals simp only [escaped_schema, escaped_ts, true_or, or_true]
  · subst hf
    simp only [true_or, or_true]

theorem nulFree_orText {cap : ℕ} (p : Option (CStr cap)) {fallback : Bytes}
    (h : (0 : Byte) ∉ fallback) : (0 : Byte) ∉ orText p fallback := by
  cases p with
  | none => exact h
  | some s => exact s.nulFree

theorem nulFree_orNonempty {s fallback : Bytes} (hs : (0 : Byte) ∉ s)
    (h : (0 : Byte) ∉ fallback) : (0 : Byte) ∉ orNonempty s fallback := by
  unfold orNonempty
  split
  · exact h
  · exact hs

theorem nulFree_of_plain {s : Bytes} (h : ∀ b ∈ s, Plain b) : (0 : Byte) ∉ s :=
  fun h0 => absurd (h 0 h0).1 (by decide)

theorem nulFree_ts (p : ℕ) (d : Double) : (0 : Byte) ∉ bounded 64 (Double.fmtF p d) := by
  have hnum : Double.NumText (bounded 64 (Double.fmtF p d)) :=
    (Double.numText_fmtF p d).sublist (List.take_sublist _ _)
  exact nulFree_of_plain fun b hb => plain_of_isNumText (hnum b hb)

theorem nulFree_text {r : Spilled} {f : Field} (hf : f ∈ r.fields) : (0 : Byte) ∉ f.text := by
  have hschema (schema : Identifier) : (0 : Byte) ∉ schema.val :=
    nulFree_of_plain (plain_of_validateIdentifier schema.valid)
  rcases r with ⟨schema, m | p | x⟩ | x
  all_goals simp only [fields, List.mem_cons, List.not_mem_nil, or_false] at hf
  · rcases hf with rfl | rfl | rfl | rfl | rfl | rfl | rfl | rfl
    · exact hschema schema
    · exact m.label.nulFree
    · exact nulFree_orText _ (by simp)
    · exact nulFree_orText _ (by simp)
    · exact nulFree_orText _ (by simp)
    · exact nulFree_orText _ (by simp)
    · exact nulFree_orText _ (by simp)
    · exact nulFree_orText _ (by decide)
  · rcases hf with rfl | rfl | rfl | rfl | rfl | rfl | rfl | rfl | rfl | rfl | rfl
    · exact hschema schema
    · exact p.label.nulFree
    · exact nulFree_ts 9 _
    · exact p.serviceName.nulFree
    · exact p.scopeName.nulFree
    · exact p.pidKey.nulFree
    · exact p.metricName.nulFree
    · exact nulFree_orText _ (by decide)
    · exact p.description.nulFree
    · exact p.unit.nulFree
    · exact nulFree_orNonempty p.attributesJson.nulFree (by decide)
  · rcases hf with rfl | rfl | rfl | rfl | rfl | rfl | rfl | rfl | rfl | rfl | rfl | rfl | rfl
    · exact hschema schema
    · exact x.label.nulFree
    · exact nulFree_ts 6 _
    · exact x.traceId.nulFree
    · exact x.spanId.nulFree
    · exact x.parentSpanId.nulFree
    · exact x.name.nulFree
    · exact nulFree_orText _ (by decide)
    · exact x.serviceName.nulFree
    · exact x.scopeName.nulFree
    · exact nulFree_orText _ (by decide)
    · exact x.statusMessage.nulFree
    · exact nulFree_orNonempty x.attributesJson.nulFree (by decide)
  · subst hf
    exact x.pid.nulFree

/-! ## Reading back -/

/-- A field whose escape fits is read as the bytes that the copy loop makes of it. -/
theorem readField_eq {r : Spilled} {l : Bytes} {f : Field} (hl : r.line = some l)
    (hf : f ∈ r.fields) (hesc : pwJsonEscape f.escapeCap f.text ≠ none) (out : Bytes) :
    r.readField l f out = (true, (f.text.flatMap readBack).take (f.readCap - 1)) := by
  obtain ⟨e, he⟩ := Option.ne_none_iff_exists'.mp hesc
  have hm := mem_members_of_mem_fields hf
  have hall : escaped f.escapeCap f.text = escapeAll f.text := by
    rw [escaped, he]
    exact ((pwJsonEscape_eq_some_iff (nulFree_text hf)).mp he).1
  rw [hall] at hm
  have hk : ShortKey f.key := r.shortKeys f.key (List.mem_map_of_mem hm)
  have hobj := r.lineMembers.readableObject
  rw [line_eq_object hl]
  cases r with
  | agent schema r =>
      obtain ⟨rest, hread⟩ := jsonStr_object hobj hk hm [0] f.readCap out
      have hnul : (0 : Byte) ∉ (f.text.flatMap readBack).take (f.readCap - 1) := fun h0 =>
        absurd (le_of_mem_flatMap_readBack 0 (List.mem_of_mem_take h0)) (by decide)
      rw [readField, hread, unescape_escapeAll_quote, cstr_of_nulFree hnul]
  | sample x =>
      obtain ⟨rest, hread⟩ := jsonStrField_object hobj hk hm f.readCap out
      rw [readField, hread, unescape_escapeAll_quote]

/-- A field is read back exactly when it holds no control byte, whatever the others hold. -/
theorem readField_eq_text_iff {r : Spilled} {l : Bytes} {f : Field} (hl : r.line = some l)
    (hf : f ∈ r.fields) (hesc : pwJsonEscape f.escapeCap f.text ≠ none)
    (hlen : f.text.length < f.readCap) (out : Bytes) :
    r.readField l f out = (true, f.text) ↔ ∀ b ∈ f.text, 0x20 ≤ b := by
  rw [readField_eq hl hf hesc, ← take_flatMap_readBack_eq_iff (Nat.le_sub_one_of_lt hlen)]
  simp

/-! ## A field that does not survive -/

theorem length_procwatch : (bytes "procwatch").length < 100 := by decide

theorem nulFree_procwatch : (0 : Byte) ∉ bytes "procwatch" := by decide

/-- A process metric of label `procwatch` with the given `comm`. -/
def metricOfComm (comm : CStr 64) : ProcMetric where
  label := ⟨bytes "procwatch", length_procwatch, nulFree_procwatch⟩
  service := none
  containerId := none
  pod := none
  pid := none
  comm := some comm
  runtime := none
  cpu := Double.ofNat 0
  rss := 0
  threads := 1

def commField (comm : CStr 64) : Field :=
  ⟨bytes "comm", comm.val, 128, 64⟩

theorem commField_mem (schema : Identifier) (comm : CStr 64) :
    commField comm ∈ fields (.agent schema (.metric (metricOfComm comm))) := by
  simp [metricOfComm, commField, fields, orText]

theorem readField_eq_text_iff_sh :
    readField (.agent DEFAULT_SCHEMA (.metric (metricOfComm ⟨bytes "sh", by decide, by decide⟩)))
        (metricLine DEFAULT_SCHEMA (metricOfComm ⟨bytes "sh", by decide, by decide⟩))
        (commField ⟨bytes "sh", by decide, by decide⟩) [] = (true, bytes "sh") ↔
      ∀ b ∈ bytes "sh", 0x20 ≤ b :=
  readField_eq_text_iff rfl (commField_mem DEFAULT_SCHEMA _) (by decide +kernel) (by decide) []

/-- A line feed in `comm` is read back as the letter n. -/
theorem not_forall_readField_eq_text :
    ¬ ∀ (r : Spilled) (l : Bytes) (f : Field), r.line = some l → f ∈ r.fields →
      pwJsonEscape f.escapeCap f.text ≠ none → f.text.length < f.readCap →
      ∀ out, r.readField l f out = (true, f.text) := by
  intro h
  let comm : CStr 64 := ⟨[0x61, 0x0a], by decide, by decide⟩
  have hf := commField_mem DEFAULT_SCHEMA comm
  have hesc : pwJsonEscape 128 comm.val ≠ none := by decide +kernel
  have hread := h _ _ _ rfl hf hesc (by decide) []
  rw [readField_eq rfl hf hesc] at hread
  exact absurd hread (by decide +kernel)

end Spilled

end ProcWatch

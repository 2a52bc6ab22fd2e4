import ProcWatch.Model.SpillLine
import ProcWatch.Verification.Lines.Extract

/-! # Spill lines are complete, printable and readable by key -/

namespace ProcWatch

open CLib

/-! ## Members of a line -/

/-- A printable value that is closed off by its quotes. -/
def CleanValue : Member → Prop
  | .str _ text => QuoteSafe text ∧ ∀ b ∈ text, 0x20 ≤ b
  | .num _ text => (0x22 : Byte) ∉ text ∧ ∀ b ∈ text, 0x20 ≤ b

/-- The members of a line: distinct short keys and clean values. -/
structure LineMembers (ms : List Member) : Prop where
  shortKeys : ∀ key ∈ ms.map Member.key, ShortKey key
  nodup : (ms.map Member.key).Nodup
  clean : ∀ m ∈ ms, CleanValue m

theorem IsKey.printable {key : Bytes} (h : IsKey key) : ∀ b ∈ key, 0x20 ≤ b := by
  intro b hb
  by_contra hlt
  have hfalse : (isAlnum b || b == 0x5f) = false := by
    have hlt := UInt8.not_le.mp hlt
    simp only [isAlnum, isDigit, Bool.or_eq_false_iff, Bool.and_eq_false_iff, decide_eq_false_iff_not,
      beq_eq_false_iff_ne]
    grind
  exact h.not_mem hfalse hb

theorem render_printable {m : Member} (hk : IsKey m.key) (hv : CleanValue m) :
    ∀ b ∈ m.render, 0x20 ≤ b := by
  have hkey := IsKey.printable hk
  intro b hb
  rw [Member.render] at hb
  cases m with
  | str key text =>
      simp only [Member.key, Member.value, List.mem_append, List.mem_cons, List.not_mem_nil,
        or_false] at hb hkey
      rcases hb with ((rfl | hb) | rfl) | rfl | (rfl | hb) | rfl
      all_goals first | decide | exact hkey b hb | exact hv.2 b hb
  | num key text =>
      simp only [Member.key, Member.value, List.mem_append, List.mem_cons, List.not_mem_nil,
        or_false] at hb hkey
      rcases hb with ((rfl | hb) | rfl) | rfl | hb
      all_goals first | decide | exact hkey b hb | exact hv.2 b hb

namespace LineMembers

variable {ms : List Member}

theorem isKey (h : LineMembers ms) {m : Member} (hm : m ∈ ms) : IsKey m.key :=
  (h.shortKeys m.key (List.mem_map_of_mem hm)).isKey

theorem wf (h : LineMembers ms) {m : Member} (hm : m ∈ ms) : m.WF := by
  refine ⟨h.isKey hm, ?_⟩
  have hv := h.clean m hm
  cases m <;> exact hv.1

/-- No control byte: in particular no NUL and no line end. -/
theorem object_printable (h : LineMembers ms) : ∀ b ∈ object ms, 0x20 ≤ b := by
  intro b hb
  rcases mem_object hb with rfl | rfl | rfl | ⟨m, hm, hb⟩
  · decide
  · decide
  · decide
  · exact render_printable (h.isKey hm) (h.clean m hm) b hb

theorem readableObject (h : LineMembers ms) : ReadableObject ms where
  wf := fun _ hm => h.wf hm
  nodup := h.nodup
  nulFree := fun h0 => absurd (h.object_printable 0 h0) (by decide)

end LineMembers

/-! ## The values that the writers print -/

theorem cleanValue_escaped (key : Bytes) (outCap : ℕ) (s : Bytes) :
    CleanValue (.str key (escaped outCap s)) :=
  ⟨quoteSafe_escaped outCap s, le_of_mem_escaped⟩

/-- Text without quotes, backslashes or control bytes can stand in a line as it is. -/
theorem cleanValue_raw (key : Bytes) {text : Bytes} (h : ∀ b ∈ text, Plain b) :
    CleanValue (.str key text) :=
  ⟨quoteSafe_of_noQuote fun hq => (h _ hq).2.1 rfl, fun b hb => (h b hb).1⟩

theorem plain_of_isNumText {b : Byte} (h : Double.isNumText b = true) : Plain b := by
  simp only [Double.isNumText, isDigit, Bool.or_eq_true, Bool.and_eq_true, decide_eq_true_eq,
    List.contains_eq_mem, List.mem_cons, List.not_mem_nil, or_false] at h
  unfold Plain
  rcases h with ⟨hlo, hhi⟩ | rfl | rfl | rfl | rfl | rfl | rfl | rfl | rfl
  · grind
  all_goals decide

theorem cleanValue_num (key : Bytes) {text : Bytes} (h : Double.NumText text) :
    CleanValue (.num key text) := by
  have hp : ∀ b ∈ text, Plain b := fun b hb => plain_of_isNumText (h b hb)
  exact ⟨fun hq => (hp _ hq).2.1 rfl, fun b hb => (hp b hb).1⟩

theorem plain_of_isIdentifierByte {b : Byte} (h : (isAlnum b || b == 0x5f) = true) : Plain b := by
  simp only [isAlnum, isDigit, Bool.or_eq_true, Bool.and_eq_true, decide_eq_true_eq,
    beq_iff_eq] at h
  unfold Plain
  rcases h with ((⟨hlo, hhi⟩ | ⟨hlo, hhi⟩) | ⟨hlo, hhi⟩) | rfl
  · grind
  · grind
  · grind
  · decide

theorem plain_of_validateIdentifier {s : Bytes} (h : validateIdentifier s = true) :
    ∀ b ∈ s, Plain b := by
  simp only [validateIdentifier] at h
  split at h
  · cases h
  · exact fun b hb => plain_of_isIdentifierByte (List.all_eq_true.mp h b hb)

theorem length_lt_of_validateIdentifier {s : Bytes} (h : validateIdentifier s = true) :
    0 < s.length ∧ s.length < 100 := by
  simp only [validateIdentifier] at h
  split at h
  · cases h
  · omega

/-! ## The four writers -/

/-- A record on its way to the spill file: of `agentd` under its schema, or of `procwatch`. -/
inductive Spilled where
  | agent (schema : Identifier) (r : AgentRecord)
  | sample (x : Sample)

namespace Spilled

/-- The line that is appended, unless `spill_sample` gives up. -/
def line : Spilled → Option Bytes
  | agent schema r => some (r.line schema)
  | sample x => sampleLine x

def members : Spilled → List Member
  | agent schema r => r.members schema
  | sample x => sampleMembers (escaped 256 x.pid.val) x

/-- Size of the `char line[]` that the writer formats into. -/
def lineCap : Spilled → ℕ
  | agent _ (.metric _) => 2048
  | agent _ (.otelMetric _) => 8192
  | agent _ (.span _) => 16384
  | sample _ => 512

theorem shortKeys (r : Spilled) : ∀ key ∈ r.members.map Member.key, ShortKey key := by
  rcases r with ⟨schema, m | p | x⟩ | x
  all_goals
    simp only [members, AgentRecord.members, metricMembers, otelMetricMembers, spanMembers,
      sampleMembers, List.map_cons, List.map_nil, Member.key, bytes, String.reduceToList,
      Char.reduceToNat, UInt8.reduceOfNat]
    decide +kernel

theorem nodup (r : Spilled) : (r.members.map Member.key).Nodup := by
  rcases r with ⟨schema, m | p | x⟩ | x
  all_goals
    simp only [members, AgentRecord.members, metricMembers, otelMetricMembers, spanMembers,
      sampleMembers, List.map_cons, List.map_nil, Member.key, bytes, String.reduceToList,
      Char.reduceToNat, UInt8.reduceOfNat]
    decide +kernel

theorem cleanValue_kind {text : Bytes} (h : ∀ b ∈ text, (isAlnum b || b == 0x5f) = true) :
    CleanValue (.str (bytes "k") text) :=
  cleanValue_raw _ fun b hb => plain_of_isIdentifierByte (h b hb)

theorem cleanValue_schema (schema : Identifier) :
    CleanValue (.str (bytes "schema") schema.val) :=
  cleanValue_raw _ (plain_of_validateIdentifier schema.valid)

theorem cleanValue_ts (p : ℕ) (d : Double) :
    CleanValue (.str (bytes "ts") (bounded 64 (Double.fmtF p d))) := by
  have hnum : Double.NumText (bounded 64 (Double.fmtF p d)) :=
    (Double.numText_fmtF p d).sublist (List.take_sublist _ _)
  exact cleanValue_raw _ fun b hb => plain_of_isNumText (hnum b hb)

theorem clean (r : Spilled) : ∀ m ∈ r.members, CleanValue m := by
  rcases r with ⟨schema, m | p | x⟩ | x
  all_goals
    simp only [members, AgentRecord.members, metricMembers, otelMetricMembers, spanMembers,
      sampleMembers, List.forall_mem_cons, List.not_mem_nil, false_imp_iff, implies_true, and_true]
  · refine ⟨cleanValue_kind (by decide +kernel), cleanValue_schema schema, ?_⟩
    exact ⟨cleanValue_escaped _ _ _, cleanValue_escaped _ _ _, cleanValue_escaped _ _ _,
      cleanValue_escaped _ _ _, cleanValue_escaped _ _ _, cleanValue_escaped _ _ _,
      cleanValue_escaped _ _ _, cleanValue_num _ (Double.numText_fmtG _ _),
      cleanValue_num _ (Double.numText_decimalInt _), cleanValue_num _ (Double.numText_decimalInt _)⟩
  · refine ⟨cleanValue_kind (by decide +kernel), cleanValue_schema schema, cleanValue_escaped _ _ _,
      cleanValue_ts _ _, ?_⟩
    exact ⟨cleanValue_escaped _ _ _, cleanValue_escaped _ _ _, cleanValue_escaped _ _ _,
      cleanValue_escaped _ _ _, cleanValue_escaped _ _ _, cleanValue_escaped _ _ _,
      cleanValue_escaped _ _ _, cleanValue_num _ (Double.numText_fmtG _ _),
      cleanValue_num _ (Double.numText_decimalInt _), cleanValue_escaped _ _ _⟩
  · refine ⟨cleanValue_kind (by decide +kernel), cleanValue_schema schema, cleanValue_escaped _ _ _,
      cleanValue_ts _ _, ?_⟩
    exact ⟨cleanValue_escaped _ _ _, cleanValue_escaped _ _ _, cleanValue_escaped _ _ _,
      cleanValue_escaped _ _ _, cleanValue_escaped _ _ _, cleanValue_escaped _ _ _,
      cleanValue_escaped _ _ _, cleanValue_num _ (Double.numText_decimalInt _),
      cleanValue_escaped _ _ _, cleanValue_escaped _ _ _, cleanValue_escaped _ _ _⟩
  · exact ⟨cleanValue_kind (by decide +kernel), cleanValue_escaped _ _ _,
      cleanValue_num _ (Double.numText_fmtG _ _), cleanValue_num _ (Double.numText_decimalInt _)⟩

theorem lineMembers (r : Spilled) : LineMembers r.members :=
  ⟨r.shortKeys, r.nodup, r.clean⟩

/-! ## No line is cut off -/

theorem length_escaped_le (outCap : ℕ) (hcap : 0 < outCap) (s : Bytes) :
    (escaped outCap s).length ≤ outCap - 1 := by
  have := length_escaped_lt hcap s
  omega

theorem length_bounded_le (cap : ℕ) (s : Bytes) : (bounded cap s).length ≤ cap - 1 :=
  List.length_take_le _ _

/-- The buffers of the escaped fields bound the line below the writer's line buffer. -/
theorem length_object_lt (r : Spilled) : (object r.members).length < r.lineCap := by
  rcases r with ⟨schema, m | p | x⟩ | x
  all_goals
    simp only [members, AgentRecord.members, metricMembers, otelMetricMembers, spanMembers,
      sampleMembers, lineCap, length_object_cons, List.map_cons, List.map_nil, List.sum_cons,
      List.sum_nil, Member.render, Member.key, Member.value, List.length_append, List.length_cons,
      List.length_nil, length_bytes, String.reduceToList]
  · have hschema := (length_lt_of_validateIdentifier schema.valid).2
    have h1 := length_escaped_le 200 (by decide) m.label.val
    have h2 := length_escaped_le 512 (by decide) (orText m.service [])
    have h3 := length_escaped_le 160 (by decide) (orText m.containerId [])
    have h4 := length_escaped_le 512 (by decide) (orText m.pod [])
    have h5 := length_escaped_le 160 (by decide) (orText m.pid [])
    have h6 := length_escaped_le 128 (by decide) (orText m.comm [])
    have h7 := length_escaped_le 64 (by decide) (orText m.runtime (bytes "other"))
    have h8 := Double.length_fmtG_le (p := 10) (by decide) m.cpu
    have h9 := length_decimalInt_int64_le m.rss
    have h10 := length_decimalInt_int64_le m.threads
    omega
  · have hschema := (length_lt_of_validateIdentifier schema.valid).2
    have h1 := length_escaped_le 200 (by decide) p.label.val
    have h2 := length_bounded_le 64 (Double.fmtF 9 (seconds p.timeNs))
    have h3 := length_escaped_le 512 (by decide) p.serviceName.val
    have h4 := length_escaped_le 512 (by decide) p.scopeName.val
    have h5 := length_escaped_le 160 (by decide) p.pidKey.val
    have h6 := length_escaped_le 512 (by decide) p.metricName.val
    have h7 := length_escaped_le 32 (by decide) (orText p.metricType (bytes "gauge"))
    have h8 := length_escaped_le 512 (by decide) p.description.val
    have h9 := length_escaped_le 128 (by decide) p.unit.val
    have h10 := Double.length_fmtG_le (p := 17) (by decide) p.value
    have h11 := length_decimalInt_int64_le p.count
    have h12 := length_escaped_le 2200 (by decide)
      (orNonempty p.attributesJson.val (bytes "\x7b\x7d"))
    omega
  · have hschema := (length_lt_of_validateIdentifier schema.valid).2
    have h1 := length_escaped_le 200 (by decide) x.label.val
    have h2 := length_bounded_le 64 (Double.fmtF 6 (seconds x.timeNs))
    have h3 := length_escaped_le 80 (by decide) x.traceId.val
    have h4 := length_escaped_le 40 (by decide) x.spanId.val
    have h5 := length_escaped_le 40 (by decide) x.parentSpanId.val
    have h6 := length_escaped_le 512 (by decide) x.name.val
    have h7 := length_escaped_le 40 (by decide) (orText x.kind (bytes "INTERNAL"))
    have h8 := length_escaped_le 512 (by decide) x.serviceName.val
    have h9 := length_escaped_le 512 (by decide) x.scopeName.val
    have h10 := length_decimalInt_int64_le x.durationNs
    have h11 := length_escaped_le 40 (by decide) (orText x.statusCode (bytes "UNSET"))
    have h12 := length_escaped_le 512 (by decide) x.statusMessage.val
    have h13 := length_escaped_le 8192 (by decide)
      (orNonempty x.attributesJson.val (bytes "\x7b\x7d"))
    omega
  · have h1 := length_escaped_le 256 (by decide) x.pid.val
    have h2 := Double.length_fmtG_le (p := 10) (by decide) x.cpu
    have h3 := length_decimalInt_int64_le x.rss
    omega

theorem line_eq_object {r : Spilled} {l : Bytes} (h : r.line = some l) : l = object r.members := by
  have hlen := r.length_object_lt
  rcases r with ⟨schema, m | p | x⟩ | x
  · exact (Option.some.inj h).symm.trans (bounded_of_length_lt hlen)
  · exact (Option.some.inj h).symm.trans (bounded_of_length_lt hlen)
  · exact (Option.some.inj h).symm.trans (bounded_of_length_lt hlen)
  · obtain ⟨epid, he, hl⟩ := Option.map_eq_some_iff.mp h
    have hepid : escaped 256 x.pid.val = epid := by simp [escaped, he]
    rw [← hl, bounded_of_length_lt, members, hepid]
    simpa only [members, hepid, lineCap] using hlen

end Spilled

end ProcWatch

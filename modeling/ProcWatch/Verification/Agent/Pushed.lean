import ProcWatch.Library.Rounding
import ProcWatch.Model.AgentRequests
import ProcWatch.Verification.Http.Clients
import ProcWatch.Verification.Lines.WellFormed

/-! # The record of a pushed sample -/

namespace ProcWatch

open CLib Member

/-! ## Texts between quotes -/

/-- Text that stands for itself between quotes. -/
def Quotable (s : Bytes) : Prop :=
  (0x22 : Byte) ∉ s ∧ (0x5c : Byte) ∉ s

instance (s : Bytes) : Decidable (Quotable s) :=
  inferInstanceAs (Decidable (_ ∧ _))

theorem unescape_quotable {s : Bytes} (h : Quotable s) (rest : Bytes) :
    unescape (s ++ 0x22 :: rest) = s := by
  induction s with
  | nil => exact unescape_quote rest
  | cons b s ih =>
      obtain ⟨hquote, hslash⟩ := h
      simp only [List.mem_cons, not_or] at hquote hslash
      have hrest := ih ⟨hquote.2, hslash.2⟩
      cases htail : s ++ 0x22 :: rest with
      | nil => simp at htail
      | cons c t =>
          rw [htail] at hrest
          rw [List.cons_append, htail, unescape, if_neg (Ne.symm hquote.1), if_neg (Ne.symm hslash.1),
            hrest]

theorem quotable_of_numText {s : Bytes} (h : Double.NumText s) : Quotable s :=
  ⟨fun hb => absurd (h _ hb) (by decide), fun hb => absurd (h _ hb) (by decide)⟩

theorem not_isBlank_of_numText {s : Bytes} (h : Double.NumText s) : ∀ b ∈ s, isBlank b = false := by
  intro b hb
  have hplain := plain_of_isNumText (h b hb)
  rw [isBlank, Bool.or_eq_false_iff, beq_eq_false_iff_ne, beq_eq_false_iff_ne]
  constructor
  · rintro rfl
    exact absurd (h _ hb) (by decide)
  · rintro rfl
    exact absurd hplain.1 (by decide)

/-! ## Fields of a body -/

namespace ProcSample

/-- A sample whose texts stand for themselves and whose counts a `double` can hold. -/
structure Sendable (s : ProcSample) : Prop where
  label : pwLabelValid s.label.val = true
  service : Quotable s.service.val
  comm : Quotable s.comm.val
  runtime : Quotable s.runtime.val
  pod : Quotable s.pod.val
  containerId : Quotable s.containerId.val
  pidKey : Quotable s.pidKey.val
  rssKb : s.rssKb.toInt.natAbs < 2 ^ 53
  threads : s.threads.toInt.natAbs < 2 ^ 53

/-- The record that is made of a sample. -/
def received (s : ProcSample) : ProcMetric where
  label := s.label
  service := some
    (CStr.copy 256 (orNonempty s.service.val (orNonempty s.comm.val (bytes "unknown"))))
  containerId := some s.containerId
  pod := some s.pod
  pid := some (CStr.copy 80 s.pidField)
  comm := some s.comm
  runtime := some s.runtime
  cpu := Double.reread 6 s.cpuPct
  rss := s.rssKb
  threads := s.threads

theorem pidField_ne_nil (s : ProcSample) : s.pidField ≠ [] := by
  rw [pidField]
  split
  · assumption
  · obtain ⟨b, t, ht, -⟩ := head_decimalInt s.pid.toInt
    rw [ht]
    exact List.cons_ne_nil b t

theorem pidField_lt (s : ProcSample) : s.pidField.length < 64 := by
  rw [pidField]
  split
  · exact s.pidKey.length_lt
  · have hlo := s.pid.le_toInt
    have hhi := s.pid.toInt_lt
    have hlen : (decimalInt s.pid.toInt).length ≤ 10 + 1 :=
      length_decimalInt_le (by decide) (by omega)
    omega

theorem nulFree_pidField (s : ProcSample) : (0 : Byte) ∉ s.pidField := by
  rw [pidField]
  split
  · exact s.pidKey.nulFree
  · exact nulFree_decimalInt _

variable {s : ProcSample} (h : s.Sendable)
include h

theorem quotable_label : Quotable s.label.val := by
  have hvalid := h.label
  rw [pwLabelValid] at hvalid
  split at hvalid
  · cases hvalid
  · have hplain (b : Byte) (hb : b ∈ s.label.val) : Plain b :=
      plain_of_isIdentifierByte (List.all_eq_true.mp hvalid b hb)
    exact ⟨fun hb => (hplain _ hb).2.1 rfl, fun hb => (hplain _ hb).2.2 rfl⟩

theorem quotable_pidField : Quotable s.pidField := by
  rw [pidField]
  split
  · exact h.pidKey
  · exact quotable_of_numText (Double.numText_decimalInt _)

theorem readableObject_pushMembers : ReadableObject (pushMembers s) where
  wf := by
    have hstr {key t : Bytes} (hkey : IsKey key) (ht : Quotable t) : (str key t).WF :=
      ⟨hkey, quoteSafe_of_noQuote ht.1⟩
    have hnum {key t : Bytes} (hkey : IsKey key) (ht : Double.NumText t) : (num key t).WF :=
      ⟨hkey, (quotable_of_numText ht).1⟩
    simp only [pushMembers, List.forall_mem_cons, List.not_mem_nil, false_imp_iff, implies_true,
      and_true]
    exact ⟨hstr (by decide +kernel) (quotable_label h), hstr (by decide +kernel) h.service,
      hstr (by decide +kernel) (quotable_pidField h), hstr (by decide +kernel) h.comm,
      hnum (by decide +kernel) (Double.numText_fmtF 6 s.cpuPct),
      hnum (by decide +kernel) (Double.numText_decimalInt _),
      hnum (by decide +kernel) (Double.numText_decimalInt _), hstr (by decide +kernel) h.runtime,
      hstr (by decide +kernel) h.pod, hstr (by decide +kernel) h.containerId⟩
  nodup := by
    show ([bytes "label", bytes "service", bytes "pid", bytes "comm", bytes "cpu_pct",
      bytes "rss_kb", bytes "threads", bytes "runtime", bytes "pod",
      bytes "container_id"] : List Bytes).Nodup
    decide
  nulFree := nulFree_pushBody s

/-- A text member is read as it was written. -/
theorem jsonStr_pushBody {key text : Bytes} (hk : ShortKey key) (hm : .str key text ∈ pushMembers s)
    (htext : Quotable text) (hnul : (0 : Byte) ∉ text) {cap : ℕ} (hcap : text.length < cap)
    (after out : Bytes) : jsonStr (pushBody s) after key cap out = (true, text) := by
  obtain ⟨rest, hread⟩ := jsonStr_object (readableObject_pushMembers h) hk hm after cap out
  rw [pushBody, hread, unescape_quotable htext, List.take_of_length_le (by omega),
    cstr_of_nulFree hnul]

theorem strBuf_pushBody {key : String} {cap : ℕ} [NeZero cap] {text : CStr cap}
    (hk : ShortKey (bytes key)) (hm : .str (bytes key) text.val ∈ pushMembers s)
    (htext : Quotable text.val) (after initial : Bytes) :
    strBuf (pushBody s) after key cap initial = text := by
  rw [strBuf, jsonStr_pushBody h hk hm htext text.nulFree text.length_lt]
  ext1
  exact CStr.copy_val_of_fits text.nulFree text.length_lt

/-- A number member is handed to `strtod` up to what ends it. -/
theorem numVar_pushBody {key : String} {text : Bytes} {d : Double} (hk : ShortKey (bytes key))
    (hm : .num (bytes key) text ∈ pushMembers s) (htext : Double.NumText text)
    (hd : ∀ t, Double.Stops t → Double.strtod (text ++ t) = some d) (after : Bytes) (initial : ℕ) :
    numVar (pushBody s) after key initial = d := by
  obtain ⟨t, rest, ht, hread⟩ := jsonNum_object (readableObject_pushMembers h) hk hm
    (not_isBlank_of_numText htext) after (Double.ofNat initial)
  have hstops : Double.Stops (t :: rest) := by
    intro b hb
    obtain rfl : t = b := by simpa using hb
    exact ht
  rw [numVar, pushBody, hread d (hd _ hstops)]

theorem toInt64_numVar {key : String} {n : Int64} (hk : ShortKey (bytes key))
    (hm : .num (bytes key) (decimalInt n.toInt) ∈ pushMembers s) (hn : n.toInt.natAbs < 2 ^ 53)
    (after : Bytes) : toInt64 (numVar (pushBody s) after key 0) = n := by
  rw [numVar_pushBody h hk hm (Double.numText_decimalInt _)
    (fun t ht => Double.strtod_decimalInt (by omega) ht) after 0, toInt64,
    Double.toSigned_ofInt (by decide) hn, Int64.ofInt_toInt]

theorem readPidKey_pushBody (after : Bytes) :
    (readPidKey (pushBody s) after).val = s.pidField := by
  have hlen : s.pidField.length < 80 := s.pidField_lt.trans (by decide)
  have hread : jsonStr (pushBody s) after (bytes "pid") 80 [] = (true, s.pidField) :=
    jsonStr_pushBody h (by decide +kernel) (by simp [pushMembers]) (quotable_pidField h)
      s.nulFree_pidField hlen after []
  rw [readPidKey]
  simp only [hread, if_true]
  exact CStr.copy_val_of_fits s.nulFree_pidField hlen

theorem readProcMetric_pushBody (after : Bytes) :
    readProcMetric (pushBody s) after "cpu_pct" "rss_kb" s.label =
      { s.received with service := some s.service } := by
  have hservice : strBuf (pushBody s) after "service" 256 [] = s.service :=
    strBuf_pushBody h (by decide +kernel) (by simp [pushMembers]) h.service after []
  have hcontainer : strBuf (pushBody s) after "container_id" 80 [] = s.containerId :=
    strBuf_pushBody h (by decide +kernel) (by simp [pushMembers]) h.containerId after []
  have hpod : strBuf (pushBody s) after "pod" 256 [] = s.pod :=
    strBuf_pushBody h (by decide +kernel) (by simp [pushMembers]) h.pod after []
  have hcomm : strBuf (pushBody s) after "comm" 64 [] = s.comm :=
    strBuf_pushBody h (by decide +kernel) (by simp [pushMembers]) h.comm after []
  have hruntime : strBuf (pushBody s) after "runtime" 32 (bytes "other") = s.runtime :=
    strBuf_pushBody h (by decide +kernel) (by simp [pushMembers]) h.runtime after (bytes "other")
  have hpid : orNonempty (readPidKey (pushBody s) after).val (bytes "unknown") = s.pidField := by
    rw [readPidKey_pushBody h, orNonempty, if_neg s.pidField_ne_nil]
  have hcpu : numVar (pushBody s) after "cpu_pct" 0 = Double.reread 6 s.cpuPct :=
    numVar_pushBody h (by decide +kernel) (by simp [pushMembers]) (Double.numText_fmtF 6 s.cpuPct)
      (fun t => Double.strtod_fmtF 6 s.cpuPct) after 0
  have hrss : toInt64 (numVar (pushBody s) after "rss_kb" 0) = s.rssKb :=
    toInt64_numVar h (by decide +kernel) (by simp [pushMembers]) h.rssKb after
  have hthreads : toInt64 (numVar (pushBody s) after "threads" 0) = s.threads :=
    toInt64_numVar h (by decide +kernel) (by simp [pushMembers]) h.threads after
  rw [readProcMetric, hservice, hcontainer, hpod, hcomm, hruntime, hpid, hcpu, hrss, hthreads]
  rfl

/-- Sender and receiver accept the same labels. -/
theorem validateIdentifier_label : validateIdentifier s.label.val = true :=
  h.label

theorem label_pushBody (after : Bytes) :
    strBuf (pushBody s) after "label" 100 [] = s.label ∧
      jsonStr (pushBody s) after (bytes "label") 100 [] = (true, s.label.val) :=
  ⟨strBuf_pushBody h (by decide +kernel) (by simp [pushMembers]) (quotable_label h) after [],
    jsonStr_pushBody h (by decide +kernel) (by simp [pushMembers]) (quotable_label h)
      s.label.nulFree s.label.length_lt after []⟩

theorem procMetricOf_pushBody (after : Bytes) :
    procMetricOf (pushBody s) after s.label = s.received := by
  rw [procMetricOf, readProcMetric_pushBody h]
  rfl

/-- The body of a sample is stored as the record of the sample, whatever memory follows it. -/
theorem onRequest_pushBody (path after : Bytes) :
    onRequest ⟨.procmetrics, path, pushBody s, after⟩ = writeMetric s.received := by
  obtain ⟨hlabel, hread⟩ := label_pushBody h after
  rw [onRequest, if_pos rfl, handleProcmetrics]
  simp only [hlabel, hread, validateIdentifier_label h, procMetricOf_pushBody h, Bool.not_true,
    Bool.false_eq_true, if_false]

end ProcSample

end ProcWatch

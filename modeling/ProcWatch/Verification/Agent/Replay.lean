import ProcWatch.Verification.Agent.Inserts
import ProcWatch.Verification.Lines.RoundTrip

/-! # Replaying the lines that the writers spill -/

namespace ProcWatch

open CLib

/-! ## The marker of a line -/

/-- How a line of each kind begins, up to the value of its second member. -/
def lineMarker : Kind → Bytes
  | .procs => bytes "\x7b\"k\":\"metric\",\"schema\":\""
  | .spans => bytes "\x7b\"k\":\"span\",\"schema\":\""
  | .otelMetrics => bytes "\x7b\"k\":\"otelmetric\",\"schema\":\""

theorem spilled_line (schema : Identifier) (r : AgentRecord) :
    (Spilled.agent schema r).line = some (r.line schema) := rfl

theorem line_eq_object (schema : Identifier) (r : AgentRecord) :
    r.line schema = object (r.members schema) :=
  Spilled.line_eq_object (spilled_line schema r)

theorem nulFree_line (schema : Identifier) (r : AgentRecord) : (0 : Byte) ∉ r.line schema := by
  rw [line_eq_object]
  exact (Spilled.agent schema r).lineMembers.readableObject.nulFree

theorem lineMarker_isPrefix (schema : Identifier) (r : AgentRecord) :
    lineMarker r.kind <+: r.line schema := by
  rw [line_eq_object]
  cases r with
  | metric m => exact ⟨_, rfl⟩
  | otelMetric p => exact ⟨_, rfl⟩
  | span s => exact ⟨_, rfl⟩

/-- Comparing no more bytes than a known beginning has. -/
theorem strncmpEq_of_isPrefix {start line pat : Bytes} {n : ℕ} (h : start <+: line)
    (h0 : (0 : Byte) ∉ line) (hn : n ≤ start.length) :
    strncmpEq line pat n = (start.take n == (cstr pat).take n) := by
  obtain ⟨t, rfl⟩ := h
  rw [strncmpEq, cstr_of_nulFree h0, List.take_append_of_le_length hn]

/-- The branch that `replay_line` takes: none for an OTLP data point, whose marker is compared
over one byte too many. -/
theorem replayLine_line (schema : Identifier) (r : AgentRecord) {w : AgentWorld}
    (h : connOk w.conn = true) :
    replayLine (r.line schema) w =
      match r.kind with
      | .procs => replayRecord (r.line schema) (fun label =>
          dbInsertMetricLabeled (readProcMetric (r.line schema) [0] "cpu" "rss" label)) w
      | .spans => replayRecord (r.line schema) (fun label =>
          dbInsertSpan (readSpan (r.line schema) [0] label)) w
      | .otelMetrics => (.ret 0, w) := by
  have hcmp (pat : Bytes) (n : ℕ) (hn : n ≤ 20) : strncmpEq (r.line schema) pat n =
      ((lineMarker r.kind).take n == (cstr pat).take n) :=
    strncmpEq_of_isPrefix (lineMarker_isPrefix schema r) (nulFree_line schema r)
      (hn.trans (by cases r.kind <;> decide))
  simp only [replayLine, Prog.bind_apply, Prog.get, h, Bool.not_true, Bool.false_eq_true, if_false,
    hcmp _ 13 (by decide), hcmp _ 11 (by decide), hcmp _ 18 (by decide)]
  cases r.kind with
  | procs => rw [if_pos (by decide +kernel)]
  | spans => rw [if_neg (by decide +kernel), if_pos (by decide +kernel)]
  | otelMetrics =>
      rw [if_neg (by decide +kernel), if_neg (by decide +kernel), if_neg (by decide +kernel)]
      rfl

/-! ## The label of a line -/

theorem jsonStr_label (schema : Identifier) (r : AgentRecord)
    (hlabel : validateIdentifier r.label.val = true) (out : Bytes) :
    jsonStr (r.line schema) [0] (bytes "label") 100 out = (true, r.label.val) := by
  have hplain := plain_of_validateIdentifier hlabel
  have hlt := r.label.length_lt
  have hesc : pwJsonEscape 200 r.label.val ≠ none := by
    have hself : escaped 200 r.label.val = r.label.val := escaped_of_plain hplain (by omega)
    intro hnone
    rw [escaped, hnone] at hself
    have := (length_lt_of_validateIdentifier hlabel).1
    rw [← hself] at this
    exact absurd this (by decide)
  have hf : (⟨bytes "label", r.label.val, 200, 100⟩ : Spilled.Field) ∈
      (Spilled.agent schema r).fields := by
    cases r <;> simp [Spilled.fields, AgentRecord.label]
  have hread := Spilled.readField_eq (spilled_line schema r) hf hesc out
  have hroom : r.label.val.length ≤ 100 - 1 := by omega
  rw [Spilled.readField, (take_flatMap_readBack_eq_iff hroom).mpr fun b hb => (hplain b hb).1]
    at hread
  exact hread

theorem strBuf_label (schema : Identifier) (r : AgentRecord)
    (hlabel : validateIdentifier r.label.val = true) :
    strBuf (r.line schema) [0] "label" 100 [] = r.label := by
  have hval : (strBuf (r.line schema) [0] "label" 100 []).val = r.label.val := by
    rw [strBuf, jsonStr_label schema r hlabel]
    exact CStr.copy_val_of_fits r.label.nulFree r.label.length_lt
  exact CStr.ext hval

/-! ## One insert per line -/

/-- Replaying the line returns 0 after one insert, through the statement of the kind and label
and into their table. -/
def InsertsOnce (w : AgentWorld) (line : Bytes) (kind : Kind) (label : Bytes) : Prop :=
  ∃ vals w', replayLine line w = (.ret 0, w') ∧ inserted w'.events = inserted w.events ++
    [⟨stmtName kind label, recordTarget w.user.schema.val kind label, vals⟩]

/-- A line with a valid label is inserted once, unless the label cache has no room. -/
theorem wp_replayRecord_healthy {line : Bytes} {label : CStr 100} {w : AgentWorld} (kind : Kind)
    (vals : CStr 100 → List (Option Bytes)) (h : Healthy w)
    (hw : AgentSession w) (hcache : CacheCurrent w)
    (hread : jsonStr line [0] (bytes "label") 100 [] = (true, label.val))
    (hlabel : validateIdentifier label.val = true) :
    Prog.wp (replayRecord line fun l => insertKind kind l.val (vals l))
      (fun rc w' => (rc = 0 ∧ CacheRoom label.val w ∧ inserted w'.events = inserted w.events ++
          [⟨stmtName kind label.val, recordTarget w.user.schema.val kind label.val, vals label⟩]) ∨
        (rc = -1 ∧ ¬ CacheRoom label.val w))
      (fun _ => False) w := by
  have hbuf : strBuf line [0] "label" 100 [] = label := by
    refine CStr.ext ?_
    rw [strBuf, hread]
    exact CStr.copy_val_of_fits label.nulFree label.length_lt
  have hkeep := keeps_dbEnsureLabel w.user.schema.val label.val w
  simp only [replayRecord, hbuf, hread, hlabel, Bool.not_true, Bool.false_eq_true, if_false,
    Prog.wp_bind, Prog.wp_get]
  rw [Prog.wp_iff_run]
  have hrun := Prog.wp_iff_run.mp (wp_dbEnsureLabel_healthy h hlabel w.user.schema.valid hcache)
  refine ⟨?_, hrun.2⟩
  intro rc w₁ hw₁
  rw [hw₁] at hkeep
  rcases hrun.1 rc w₁ hw₁ with ⟨rfl, hroom, h₁, hready⟩ | ⟨rfl, hfull, rfl⟩
  · rw [if_neg (by simp), Prog.wp_bind]
    refine Prog.wp_mono (wp_insertKind_healthy kind (vals label) h₁ (hkeep.agentSession hw) hready) ?_
      fun _ => id
    rintro rc w₂ ⟨rfl, -, -, hins⟩
    rw [hkeep.inserted_eq (fun _ _ => id), show w₁.user.schema = w.user.schema from hkeep.user]
      at hins
    exact Or.inl ⟨rfl, hroom, hins⟩
  · rw [if_pos (by decide)]
    exact Or.inr ⟨rfl, hfull⟩

/-- Over a healthy connection, a line that `agentd` spilled is inserted once exactly when it is
not an OTLP data point and the label cache has room for its label. -/
theorem insertsOnce_iff (schema : Identifier) (r : AgentRecord)
    (hlabel : validateIdentifier r.label.val = true) {w : AgentWorld} (h : Healthy w)
    (hw : AgentSession w) (hcache : CacheCurrent w) :
    InsertsOnce w (r.line schema) r.kind r.label.val ↔
      r.kind ≠ .otelMetrics ∧ CacheRoom r.label.val w := by
  have hread := jsonStr_label schema r hlabel []
  have hline := replayLine_line schema r h.connOk
  have hsplit (kind : Kind) (vals : CStr 100 → List (Option Bytes)) (hkind : kind ≠ .otelMetrics)
      (hrun : replayLine (r.line schema) w =
        replayRecord (r.line schema) (fun l => insertKind kind l.val (vals l)) w) :
      InsertsOnce w (r.line schema) kind r.label.val ↔
        kind ≠ .otelMetrics ∧ CacheRoom r.label.val w := by
    have hwp := wp_replayRecord_healthy kind vals h hw hcache hread hlabel
    rw [InsertsOnce, hrun]
    rw [Prog.wp] at hwp
    constructor
    · rintro ⟨vals', w', hw', -⟩
      rw [hw'] at hwp
      rcases hwp with ⟨-, hroom, -⟩ | ⟨hrc, -⟩
      · exact ⟨hkind, hroom⟩
      · exact absurd hrc (by decide)
    · rintro ⟨-, hroom⟩
      cases hres : replayRecord (r.line schema) (fun l => insertKind kind l.val (vals l)) w with
      | mk o w' =>
          rw [hres] at hwp
          cases o with
          | exit => exact hwp.elim
          | ret rc =>
              rcases hwp with ⟨rfl, -, hins⟩ | ⟨-, hfull⟩
              · exact ⟨vals r.label, w', rfl, hins⟩
              · exact absurd hroom hfull
  cases r with
  | metric m => exact hsplit .procs _ (by decide) hline
  | span s => exact hsplit .spans _ (by decide) hline
  | otelMetric p =>
      refine ⟨?_, fun h => absurd rfl h.1⟩
      rintro ⟨vals, w', hw', hins⟩
      rw [hline] at hw'
      obtain ⟨-, rfl⟩ := Prod.mk.inj hw'
      have hlen := congrArg List.length hins
      simp at hlen

/-! ## Concrete worlds -/

/-- Surroundings in which everything succeeds and the clock stands still. -/
def obligingEnv : Env where
  reply _ _ _ := .done true
  connect _ := true
  reset _ := true
  now _ := 1
  file _ := ⟨false, true, true, 0⟩

/-- An agent of the default schema right after it connected. -/
def connectedAgent (env : Env) (files : Files) : AgentWorld where
  env := env
  tick := 0
  files := files
  conn := some Session.fresh
  online := true
  lastReconnectTry := 0
  spilled := 0
  flushed := 0
  spillDropped := 0
  user := ⟨DEFAULT_SCHEMA, []⟩
  events := []

theorem healthy_connectedAgent (files : Files) : Healthy (connectedAgent obligingEnv files) :=
  ⟨fun _ _ _ => ⟨true, rfl⟩, rfl⟩

theorem agentSession_connectedAgent (env : Env) (files : Files) :
    AgentSession (connectedAgent env files) := by
  rintro c ⟨⟩
  simp [SessionFor, Session.fresh]

theorem cacheCurrent_connectedAgent (env : Env) (files : Files) :
    CacheCurrent (connectedAgent env files) := by
  simp [CacheCurrent, connectedAgent]

/-- A gauge of label `procwatch` with the value zero. -/
def plainPoint : MetricPoint where
  label := ⟨bytes "procwatch", Spilled.length_procwatch, Spilled.nulFree_procwatch⟩
  serviceName := ⟨[], by decide, by simp⟩
  scopeName := ⟨[], by decide, by simp⟩
  pidKey := ⟨[], by decide, by simp⟩
  metricName := ⟨bytes "up", by decide, by decide⟩
  description := ⟨[], by decide, by simp⟩
  unit := ⟨[], by decide, by simp⟩
  metricType := none
  value := Double.ofNat 0
  count := 1
  timeNs := 0
  attributesJson := ⟨[], by decide, by simp⟩

theorem insertsOnce_iff_metric :
    InsertsOnce (connectedAgent obligingEnv ⟨none, none, none⟩)
        (AgentRecord.line DEFAULT_SCHEMA
          (.metric (Spilled.metricOfComm ⟨bytes "sh", by decide, by decide⟩)))
        .procs (bytes "procwatch") ↔
      Kind.procs ≠ .otelMetrics ∧
        CacheRoom (bytes "procwatch") (connectedAgent obligingEnv ⟨none, none, none⟩) :=
  insertsOnce_iff DEFAULT_SCHEMA (.metric (Spilled.metricOfComm ⟨bytes "sh", by decide, by decide⟩))
    (by decide +kernel) (healthy_connectedAgent _) (agentSession_connectedAgent _ _)
    (cacheCurrent_connectedAgent _ _)

/-- The line of an OTLP data point is consumed without an insert. -/
theorem not_forall_insertsOnce :
    ¬ ∀ (schema : Identifier) (r : AgentRecord) (w : AgentWorld),
      validateIdentifier r.label.val = true → Healthy w → AgentSession w → CacheCurrent w →
      InsertsOnce w (r.line schema) r.kind r.label.val := by
  intro h
  let w := connectedAgent obligingEnv ⟨none, none, none⟩
  obtain ⟨vals, w', hrun, hins⟩ := h DEFAULT_SCHEMA (.otelMetric plainPoint) w (by decide +kernel)
    (healthy_connectedAgent _) (agentSession_connectedAgent _ _) (cacheCurrent_connectedAgent _ _)
  rw [replayLine_line DEFAULT_SCHEMA (.otelMetric plainPoint) rfl] at hrun
  obtain ⟨-, rfl⟩ := Prod.mk.inj hrun
  have hlen := congrArg List.length hins
  simp at hlen

end ProcWatch

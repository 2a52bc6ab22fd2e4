import ProcWatch.Model.AgentMain
import ProcWatch.Verification.Agent.Replay
import ProcWatch.Verification.Agent.Writes
import ProcWatch.Verification.Store.Books

/-! # The books of `agentd` -/

namespace ProcWatch

open CLib

/-! ## Reading a line and inserting its record -/

/-- The record that `replay_line` reads from a line. -/
def lineRecord? (line : Bytes) : Option AgentRecord :=
  let label := strBuf line [0] "label" 100 []
  if (jsonStr line [0] (bytes "label") 100 []).1 && validateIdentifier label.val then
    if strncmpEq line (bytes "\x7b\"k\":\"metric\"") 13 then
      some (.metric (readProcMetric line [0] "cpu" "rss" label))
    else if strncmpEq line (bytes "\x7b\"k\":\"span\"") 11 then
      some (.span (readSpan line [0] label))
    else if strncmpEq line (bytes "\x7b\"k\":\"otelmetric\"") 18 then
      some (.otelMetric (readMetricPoint line [0] label))
    else none
  else none

/-- `db_ensure_label` and then the insert. -/
def ensureInsert (r : AgentRecord) : Agent ℤ := do
  let w ← Prog.get
  if (← dbEnsureLabel w.user.schema.val r.label.val) ≠ 0 then return -1
  else if (← insertKind r.kind r.label.val r.vals) ≠ 0 then return -1
  else return 0

/-- A replay parses the line first and works with the database afterwards. -/
theorem replayLine_eq (line : Bytes) :
    replayLine line = (do
      let w ← Prog.get
      if !connOk w.conn then return -1
      else
        match lineRecord? line with
        | none => return 0
        | some r => ensureInsert r) := by
  rw [replayLine]
  congr 1
  funext w
  simp only [replayRecord, lineRecord?]
  cases hfound : (jsonStr line [0] (bytes "label") 100 []).1 with
  | false => simp
  | true =>
      cases hvalid : validateIdentifier (strBuf line [0] "label" 100 []).val with
      | false => simp
      | true =>
          simp only [Bool.not_true, Bool.false_eq_true, if_false, Bool.and_self, if_true]
          split
          · rfl
          · split
            · rfl
            · split
              · rfl
              · split
                · rfl
                · rfl

/-! ## The terms of the agent -/

/-- The agent is one of `schema`, and its session is, too. -/
def agentTerms (schema : Identifier) : Terms AgentState where
  user u := u.schema = schema
  session := SessionFor schema.val
  fresh := by simp [SessionFor, Session.fresh]

def agentTrade (schema : Identifier) : Trade AgentRecord where
  row r := r.rowOf schema r.vals
  line r := some (r.line schema)
  read line := (lineRecord? line).map fun r => r.rowOf schema r.vals
  rowless r := r.kind = .otelMetrics

variable {schema : Identifier} {w : AgentWorld}

/-- Statements for the schema. -/
theorem Issues.hold {P : Stmt → Prop} {w w' : AgentWorld} (h : Issues P SameSchema w w')
    (hP : ∀ name target, P (.prepare name target) →
      ∃ kind label, name = stmtName kind label ∧ target = recordTarget schema.val kind label)
    (hw : (agentTerms schema).Hold w) : (agentTerms schema).Hold w' :=
  ⟨Eq.trans h.user hw.user, h.sessionFor hP hw.session⟩

/-- What the insert of a record sends. -/
theorem wp_insertKind_sent (hw : (agentTerms schema).Hold w) (r : AgentRecord) :
    Prog.wp (insertKind r.kind r.label.val r.vals)
      (fun rc w' => (agentTerms schema).Hold w' ∧
        Sent (if rc = 0 then [(agentTrade schema).row r] else []) w w')
      (fun _ => True) w := by
  have hnone : Prog.wp (return -1 : Agent ℤ) (fun rc w' => (agentTerms schema).Hold w' ∧
      Sent (if rc = 0 then [(agentTrade schema).row r] else []) w w') (fun _ => True) w :=
    ⟨hw, sent_of_eq rfl rfl⟩
  have hkeeps := (keeps_insertKind r.kind r.label.val r.vals).wp w
  have hsent : Prog.wp (insertKind r.kind r.label.val r.vals)
      (fun rc w' => Sent (if rc = 0 then [(agentTrade schema).row r] else []) w w')
      (fun _ => True) w := by
    rw [insertKind, Prog.wp_bind, Prog.wp_get]
    split
    · exact hnone.2
    · cases hfind : findLabel w.user.labels r.label.val with
      | none => exact hnone.2
      | some e =>
          dsimp only
          split
          · have hlabel := findLabel_label hfind
            have hname : e.stmt r.kind = stmtName r.kind r.label.val := by rw [e.stmt_eq, hlabel]
            rw [hname]
            exact wp_execInsert_sent _ fun c t hc ht => (hw.session c hc).target_eq ht
          · exact hnone.2
  refine Prog.wp_mono (Prog.wp_and hkeeps hsent) (fun rc w' h => ⟨?_, h.2⟩) fun _ _ => trivial
  refine ⟨?_, h.1.sessionFor (fun name target hnot => absurd rfl (hnot name target)) hw.session⟩
  exact h.1.user ▸ hw.user

theorem labelStmt_prepares {schema label : Bytes} (name : Bytes) (target : Target)
    (h : LabelStmt schema label (.prepare name target)) :
    ∃ kind label, name = stmtName kind label ∧ target = recordTarget schema kind label :=
  h.prepares

theorem wp_dbEnsureLabel_sent (hw : (agentTerms schema).Hold w) (label : Bytes) :
    Prog.wp (dbEnsureLabel w.user.schema.val label)
      (fun _ w' => (agentTerms schema).Hold w' ∧ Sent [] w w') (fun _ => True) w := by
  refine Prog.wp_mono ((keeps_dbEnsureLabel _ label).wp w) (fun rc w' h => ?_) fun _ _ => trivial
  rw [show w.user.schema = schema from hw.user] at h
  exact ⟨h.hold labelStmt_prepares hw, h.sent fun _ _ => id⟩

theorem wp_ensureInsert_sent (hw : (agentTerms schema).Hold w) (r : AgentRecord) :
    Prog.wp (ensureInsert r)
      (fun rc w' => (agentTerms schema).Hold w' ∧
        Sent (if rc = 0 then [(agentTrade schema).row r] else []) w w')
      (fun _ => True) w := by
  rw [ensureInsert, Prog.wp_bind, Prog.wp_get, Prog.wp_bind]
  refine Prog.wp_mono (wp_dbEnsureLabel_sent hw _) (fun rc w₁ h₁ => ?_) fun _ => id
  by_cases hrc : rc = 0
  · rw [if_neg (not_not.mpr hrc), Prog.wp_bind]
    refine Prog.wp_mono (wp_insertKind_sent h₁.1 r) (fun rc' w₂ h₂ => ?_) fun _ => id
    have hsent := h₁.2.trans h₂.2
    by_cases hrc' : rc' = 0
    · rw [if_pos hrc'] at hsent
      rw [if_neg (not_not.mpr hrc')]
      exact ⟨h₂.1, hsent⟩
    · rw [if_neg hrc'] at hsent
      rw [if_pos hrc']
      exact ⟨h₂.1, hsent⟩
  · rw [if_pos hrc]
    exact h₁

/-! ## Replayed lines -/

theorem inserts_replayLine :
    Inserts (agentTrade schema).read (agentTerms schema).Hold replayLine := by
  intro line w hw
  rw [replayLine_eq, Prog.wp_bind, Prog.wp_get]
  split
  · exact ⟨hw, sent_of_eq rfl rfl⟩
  · rw [agentTrade]
    dsimp only
    cases lineRecord? line with
    | none => exact ⟨hw, sent_of_eq rfl rfl⟩
    | some r => exact wp_ensureInsert_sent hw r

theorem callback_replayLine : Callback replayLine := by
  intro line
  rw [replayLine_eq]
  refine Prog.keeps_bind Prog.keeps_get fun w => ?_
  split
  · exact Prog.keeps_pure (-1)
  · cases lineRecord? line with
    | none => exact Prog.keeps_pure 0
    | some r =>
        refine Prog.keeps_bind Prog.keeps_get fun w => ?_
        refine Prog.keeps_bind ((keeps_dbEnsureLabel _ _).mono fun _ _ => Issues.spills) fun rc => ?_
        split
        · exact Prog.keeps_pure (-1)
        · refine Prog.keeps_bind ((keeps_insertKind _ _ _).mono fun _ _ => Issues.spills) fun rc => ?_
          split
          · exact Prog.keeps_pure (-1)
          · exact Prog.keeps_pure 0

/-! ## Records -/

theorem wp_tryInsert_sent (hw : (agentTerms schema).Hold w) (r : AgentRecord) :
    Prog.wp (tryInsert r.label.val (insertKind r.kind r.label.val r.vals))
      (fun ok w' => (agentTerms schema).Hold w' ∧
        Sent (if ok = true then [(agentTrade schema).row r] else []) w w')
      (fun _ => True) w := by
  rw [tryInsert, Prog.wp_bind, Prog.wp_get]
  split
  · exact ⟨hw, sent_of_eq rfl rfl⟩
  · rw [Prog.wp_bind]
    refine Prog.wp_mono (wp_dbEnsureLabel_sent hw _) (fun rc w₁ h₁ => ?_) fun _ => id
    split
    · exact h₁
    · rw [Prog.wp_bind]
      refine Prog.wp_mono (wp_insertKind_sent h₁.1 r) (fun rc' w₂ h₂ => ?_) fun _ => id
      rw [Prog.wp_pure]
      refine ⟨h₂.1, ?_⟩
      simpa only [decide_eq_true_eq, List.nil_append] using h₁.2.trans h₂.2

theorem wholeLine_line (schema : Identifier) (r : AgentRecord) : WholeLine (r.line schema) :=
  (completeLine (spilled_line schema r)).wholeLine

/-- A record is inserted, or else it is spilled. -/
theorem tallies_put (r : AgentRecord) :
    Prog.Tallies (books (agentTrade schema)) (agentTerms schema).Hold [r]
      (fun _ => (agentTerms schema).Hold) r.put := by
  intro w hw
  rw [AgentRecord.put, Prog.wp_bind]
  refine Prog.wp_mono (wp_tryInsert_sent hw r) (fun inserted w₁ h₁ => ?_) fun _ => id
  cases inserted with
  | true => exact ⟨h₁.1, h₁.2.entry rfl⟩
  | false =>
      simp only [Bool.false_eq_true, if_false, markOffline, setOnline, dbLabelCacheReset, setLabels,
        Prog.wp_bind, Prog.wp_modify, Prog.wp_get]
      have hline : (agentTrade schema).line r = some (r.line schema) := rfl
      have hschema : w₁.user.schema = schema := h₁.1.user
      rw [hschema]
      refine Prog.wp_mono (wp_pwDbBufSpill_books (wholeLine_line schema r) hline _) ?_ fun _ => id
      intro rc w₂ h₂
      have hhold : (agentTerms schema).Hold w₂ :=
        ⟨congrArg AgentState.schema h₂.1.user, fun c hc => h₁.1.session c (h₂.1.conn.symm.trans hc)⟩
      have hquiet : (books (agentTrade schema)).entry [] w _ :=
        (⟨h₁.2.files, h₁.2.events⟩ : Sent [] w _).entry rfl
      exact ⟨hhold, (books (agentTrade schema)).append hquiet h₂.2⟩

theorem tallies_serveRequests (reqs : List HttpRequest) :
    Prog.Tallies (books (agentTrade schema)) (agentTerms schema).Hold
      (reqs.flatMap HttpRequest.records) (fun _ => (agentTerms schema).Hold) (serveRequests reqs) := by
  induction reqs with
  | nil => exact Prog.tallies_pure ()
  | cons req reqs ih =>
      obtain ⟨rc, hrc⟩ := onRequest_eq req
      rw [serveRequests, hrc, List.flatMap_cons, Prog.bind_assoc]
      exact Prog.tallies_bind (Prog.tallies_forEach tallies_put _) fun _ => ih

/-! ## The loop -/

section Loop

variable {α : Type} {m : Agent α}

/-- Commands and nothing else. -/
theorem tallies_of_execs
    (h : Prog.Keeps (Issues (fun s => ∃ c, s = .exec c) SameSchema) m) :
    Prog.Tallies (books (agentTrade schema)) (agentTerms schema).Hold []
      (fun _ => (agentTerms schema).Hold) m := by
  refine tallies_of_sent fun w hw => Prog.wp_mono (h.wp w) (fun _ w' h' => ?_) fun _ _ => trivial
  refine ⟨h'.hold ?_ hw, h'.sent ?_⟩
  · rintro name target ⟨c, hc⟩
    cases hc
  · rintro name vals ⟨c, hc⟩
    cases hc

theorem tallies_agentSetUp :
    Prog.Tallies (books (agentTrade schema)) (agentTerms schema).Hold []
      (fun _ => (agentTerms schema).Hold) agentSetUp := by
  have hexec (c : Command) : ∃ c', Stmt.exec c = .exec c' := ⟨c, rfl⟩
  refine tallies_of_execs (Prog.keeps_bind Prog.keeps_get fun w => ?_)
  exact Prog.keeps_bind (keeps_dbEnsureSchema hexec _) fun _ =>
    Prog.keeps_bind (keeps_execWarn hexec _) fun _ => keeps_dbEnsureDropInactiveJob hexec _

theorem tallies_setUp_flush :
    Prog.Tallies (books (agentTrade schema)) (agentTerms schema).Hold []
      (fun _ => (agentTerms schema).Hold) (do
        agentSetUp
        let _ ← pwDbBufFlush replayLine : Agent Unit) :=
  Prog.tallies_bind_left tallies_agentSetUp fun _ => Prog.tallies_bind_left
    (tallies_pwDbBufFlush callback_replayLine inserts_replayLine apart_hold fun _ hw => hw.same rfl rfl)
    fun _ => Prog.tallies_pure ()

theorem tallies_agentMaintenance :
    Prog.Tallies (books (agentTrade schema)) (agentTerms schema).Hold []
      (fun _ => (agentTerms schema).Hold) agentMaintenance := by
  refine Prog.tallies_get_bind fun w hw => ?_
  refine Prog.tallies_bind_left (Q := fun _ => (agentTerms schema).Hold) ?_ fun _ => ?_
  · exact (tallies_pwDbBufMaintain callback_replayLine inserts_replayLine).mono
      (fun _ heq => heq ▸ hw) fun _ _ => id
  · refine Prog.tallies_get_bind fun w' hw' => Prog.tallies_ite (fun _ => ?_) fun _ => ?_
    · refine Prog.tallies_bind_left (tallies_of_sent fun w'' heq => ?_) fun _ => tallies_setUp_flush
      subst heq
      exact ⟨⟨hw'.user, hw'.session⟩, sent_of_eq rfl rfl⟩
    · exact (Prog.tallies_pure ()).mono (fun _ heq => heq ▸ hw') fun _ _ => id

theorem tallies_now {P : AgentWorld → Prop} (hP : Apart P) :
    Prog.Tallies (books (agentTrade schema)) P [] (fun _ => P) (ask fun env n => env.now n) :=
  tallies_of_sent fun w hw => ⟨hP w _ ⟨rfl, rfl, rfl⟩ hw, sent_of_eq rfl rfl⟩

theorem tallies_agentLoop (turns : List (List HttpRequest)) (nextMaintain : ℤ) :
    Prog.Tallies (books (agentTrade schema)) (agentTerms schema).Hold
      (turns.flatten.flatMap HttpRequest.records) (fun _ => (agentTerms schema).Hold)
      (agentLoop turns nextMaintain) := by
  induction turns generalizing nextMaintain with
  | nil => exact Prog.tallies_pure ()
  | cons reqs turns ih =>
      rw [List.flatten_cons, List.flatMap_append]
      refine Prog.tallies_bind (tallies_serveRequests reqs) fun _ => ?_
      refine Prog.tallies_bind_left (tallies_now apart_hold) fun now => ?_
      exact Prog.tallies_ite
        (fun _ => Prog.tallies_bind_left tallies_agentMaintenance fun _ => ih _) fun _ => ih _

theorem tallies_agentStartup :
    Prog.Tallies (books (agentTrade schema)) (fun w => w.user.schema = schema) []
      (fun _ => (agentTerms schema).Hold) agentStartup := by
  refine Prog.tallies_bind_left (tallies_pwDbBufInit (t := agentTerms schema)) fun _ => ?_
  refine Prog.tallies_get_bind fun w hw => Prog.tallies_ite (fun _ => ?_) fun _ => ?_
  · exact tallies_setUp_flush.mono (fun _ heq => heq ▸ hw) fun _ _ => id
  · exact (Prog.tallies_pure ()).mono (fun _ heq => heq ▸ hw) fun _ _ => id

theorem tallies_agentMain (turns : List (List HttpRequest)) :
    Prog.Tallies (books (agentTrade schema)) (fun w => w.user.schema = schema)
      (turns.flatten.flatMap HttpRequest.records) (fun _ => (agentTerms schema).Hold)
      (agentMain true turns) := by
  refine Prog.tallies_bind_left tallies_agentStartup fun _ => ?_
  refine Prog.tallies_bind_left (tallies_now apart_hold) fun now => ?_
  have hend : Prog.Tallies (books (agentTrade schema)) (agentTerms schema).Hold []
      (fun _ => (agentTerms schema).Hold) (do
        let _ ← pwDbBufMaintain replayLine
        return 0 : Agent ℤ) :=
    Prog.tallies_bind_left (tallies_pwDbBufMaintain callback_replayLine inserts_replayLine) fun _ =>
      Prog.tallies_pure 0
  simpa using Prog.tallies_bind (tallies_agentLoop turns (now + 1)) fun _ => hend

end Loop

/-! ## Whole runs -/

/-- What is read from the line of a record: nothing if it is an OTLP data point. -/
theorem lineRecord?_line {r : AgentRecord} (hlabel : validateIdentifier r.label.val = true) :
    (r.kind = .otelMetrics ∧ lineRecord? (r.line schema) = none) ∨
      r.kind ≠ .otelMetrics ∧ ∃ r', lineRecord? (r.line schema) = some r' ∧ r'.kind = r.kind ∧
        r'.label = r.label := by
  have hcmp (pat : Bytes) (n : ℕ) (hn : n ≤ 20) : strncmpEq (r.line schema) pat n =
      ((lineMarker r.kind).take n == (cstr pat).take n) :=
    strncmpEq_of_isPrefix (lineMarker_isPrefix schema r) (nulFree_line schema r)
      (hn.trans (by cases r.kind <;> decide))
  have hread := jsonStr_label schema r hlabel []
  have hbuf := strBuf_label schema r hlabel
  simp only [lineRecord?, hread, hbuf, hlabel, Bool.and_self, if_true, hcmp _ 13 (by decide),
    hcmp _ 11 (by decide), hcmp _ 18 (by decide)]
  cases hkind : r.kind with
  | procs =>
      rw [if_pos (by decide)]
      exact .inr ⟨by decide, _, rfl, rfl, rfl⟩
  | spans =>
      rw [if_neg (by decide), if_pos (by decide)]
      exact .inr ⟨by decide, _, rfl, rfl, rfl⟩
  | otelMetrics =>
      rw [if_neg (by decide), if_neg (by decide), if_neg (by decide)]
      exact .inl ⟨rfl, rfl⟩

theorem sound_of_labeled {r : AgentRecord} (h : r.labeled = true) : (agentTrade schema).Sound r where
  line := Option.some_ne_none _
  rowless := by
    intro hrowless line hline
    obtain rfl := Option.some.inj hline
    rw [agentTrade] at hrowless ⊢
    cases @lineRecord?_line schema r h with
    | inl hnone => simp [hnone.2]
    | inr hsome => exact absurd (of_decide_eq_true hrowless) hsome.1
  reread := by
    intro hrowless
    rw [agentTrade] at hrowless
    cases @lineRecord?_line schema r h with
    | inl hnone => exact absurd hnone.1 (of_decide_eq_false hrowless)
    | inr hsome =>
        obtain ⟨-, r', hread, hkind, hlabel⟩ := hsome
        refine ⟨r'.rowOf schema r'.vals, r.line schema, rfl, ?_, ?_, ?_⟩
        · exact congrArg (Option.map fun r => r.rowOf schema r.vals) hread
        · simp [agentTrade, AgentRecord.rowOf, hkind, hlabel]
        · simp [agentTrade, AgentRecord.rowOf, hkind, hlabel]

theorem labeled_records (req : HttpRequest) : ∀ r ∈ req.records, r.labeled = true := by
  intro r hr
  rw [HttpRequest.records] at hr
  split at hr
  · dsimp only at hr
    split at hr
    · next hvalid =>
        obtain rfl := List.mem_singleton.mp hr
        exact (Bool.and_eq_true_iff.mp hvalid).2
    · cases hr
  · exact (List.mem_filter.mp hr).2
  · exact (List.mem_filter.mp hr).2
  · cases hr

/-- A sample of the label `shop`. -/
def shopRequest : HttpRequest where
  signal := .procmetrics
  path := bytes "/v1/procmetrics"
  body := bytes "\x7b\"label\":\"shop\"\x7d"
  after := [0]

/-- A gauge and a sample that were spilled before. -/
def shopSpilled : List AgentRecord :=
  [.otelMetric plainPoint, .metric (Spilled.metricOfComm (CStr.copy 64 (bytes "sh")))]

def shopLines : List Bytes :=
  shopSpilled.map (AgentRecord.line DEFAULT_SCHEMA)

/-- An agent that starts over these lines, is handed the sample, and stops. -/
def shopRun : Outcome ℤ × AgentWorld :=
  agentMain true [[shopRequest]] (connectedAgent obligingEnv ⟨some (unlines shopLines), none, none⟩)

end ProcWatch

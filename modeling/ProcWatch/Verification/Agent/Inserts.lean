import ProcWatch.Model.Agent
import ProcWatch.Verification.Agent.Labels

/-! # Inserted rows and the sessions they go through -/

namespace ProcWatch

open CLib

/-! ## Rows in the record of events -/

/-- A row that the database accepted: the statement, its target and the values. -/
structure InsertedRow where
  stmt : Bytes
  target : Target
  vals : List (Option Bytes)
  deriving DecidableEq

def Event.insertedRow? : Event → Option InsertedRow
  | .sql (.execPrepared name vals) (some target) (.done _) => some ⟨name, target, vals⟩
  | _ => none

def inserted (es : List Event) : List InsertedRow :=
  es.filterMap Event.insertedRow?

theorem inserted_append (es es' : List Event) : inserted (es ++ es') = inserted es ++ inserted es' :=
  List.filterMap_append

/-- Statements other than inserts insert nothing. -/
theorem Issues.inserted_eq {σ : Type} {P : Stmt → Prop} {U : σ → σ → Prop} {w w' : World σ}
    (h : Issues P U w w') (hP : ∀ name vals, ¬ P (.execPrepared name vals)) :
    inserted w'.events = inserted w.events := by
  obtain ⟨es, hes, hsql⟩ := h.events
  have hnil : inserted es = [] := by
    refine List.filterMap_eq_nil_iff.mpr fun e he => ?_
    obtain ⟨s, known, r, rfl, hs⟩ := hsql e he
    cases s with
    | exec c => rfl
    | prepare name target => rfl
    | execPrepared name vals => exact absurd hs (hP name vals)
  rw [hes, inserted_append, hnil, List.append_nil]

/-! ## Sessions of one schema -/

/-- The row a kind and label of a schema go to. -/
def recordTarget (schema : Bytes) (kind : Kind) (label : Bytes) : Target :=
  ⟨.record kind, schema, tableName kind label⟩

/-- Every statement of the session inserts into the table of its kind and label in `schema`. -/
def SessionFor (schema : Bytes) (c : Session) : Prop :=
  ∀ x ∈ c.prepared, ∃ kind label, x = (stmtName kind label, recordTarget schema kind label)

/-- A statement name leads to the table of its kind and label, even where labels share it. -/
theorem SessionFor.target_eq {schema : Bytes} {c : Session} (h : SessionFor schema c) {kind : Kind}
    {label : Bytes} {t : Target} (ht : c.target? (stmtName kind label) = some t) :
    t = recordTarget schema kind label := by
  obtain ⟨l₁, l₂, heq, -⟩ := List.lookup_eq_some_iff.mp ht
  obtain ⟨kind', label', hx⟩ := h (stmtName kind label, t) (by simp [heq])
  obtain ⟨hname, rfl⟩ := Prod.mk.inj hx
  obtain rfl := kind_eq_of_stmtName_eq hname
  rw [recordTarget, recordTarget, tableName_eq_of_stmtName_eq hname]

/-- Statements that prepare inserts of the schema only leave a session of the schema. -/
theorem Issues.sessionFor {P : Stmt → Prop} {U : AgentState → AgentState → Prop}
    {w w' : AgentWorld} (h : Issues P U w w') {schema : Bytes}
    (hP : ∀ name target, P (.prepare name target) →
      ∃ kind label, name = stmtName kind label ∧ target = recordTarget schema kind label)
    (hw : ∀ c, w.conn = some c → SessionFor schema c) :
    ∀ c, w'.conn = some c → SessionFor schema c := by
  intro c' hc'
  cases hc : w.conn with
  | none => simp [h.noConn hc] at hc'
  | some c =>
      obtain ⟨c₁, hc₁, hext⟩ := h.session c hc
      obtain rfl := Option.some.inj (hc₁.symm.trans hc')
      obtain ⟨new, hnew, hprepared⟩ := hext.prepared
      intro x hx
      rw [hnew] at hx
      cases List.mem_append.mp hx with
      | inl hx =>
          obtain ⟨kind, label, hname, htarget⟩ := hP x.1 x.2 (hprepared x hx)
          exact ⟨kind, label, Prod.ext hname htarget⟩
      | inr hx => exact hw c hc x hx

theorem LabelStmt.prepares {schema label name : Bytes} {target : Target}
    (h : LabelStmt schema label (.prepare name target)) :
    ∃ kind label, name = stmtName kind label ∧ target = recordTarget schema kind label := by
  obtain ⟨kind, hname, htarget⟩ := h
  exact ⟨kind, label, hname, htarget⟩

/-- The session of an agent serves the agent's schema. -/
def AgentSession (w : AgentWorld) : Prop :=
  ∀ c, w.conn = some c → SessionFor w.user.schema.val c

theorem Issues.agentSession {w w' : AgentWorld} {label : Bytes}
    (h : Issues (LabelStmt w.user.schema.val label) SameSchema w w') (hw : AgentSession w) :
    AgentSession w' := by
  intro c hc
  rw [show w'.user.schema = w.user.schema from h.user]
  exact h.sessionFor (fun _ _ => LabelStmt.prepares) hw c hc

/-! ## The insert over a healthy connection -/

/-- With the label ready, the row goes in, through the label's statement into its table. -/
theorem wp_insertKind_healthy (kind : Kind) {label : Bytes} (vals : List (Option Bytes))
    {w : AgentWorld} (h : Healthy w) (hw : AgentSession w) (hlabel : LabelReady label w) :
    Prog.wp (insertKind kind label vals)
      (fun rc w' => rc = 0 ∧ Healthy w' ∧ w'.user = w.user ∧ inserted w'.events =
        inserted w.events ++
          [⟨stmtName kind label, recordTarget w.user.schema.val kind label, vals⟩])
      (fun _ => False) w := by
  obtain ⟨e, he, hready⟩ := hlabel.entry
  obtain rfl := findLabel_label he
  obtain ⟨c, t, hc, ht⟩ := hlabel.stmts kind
  simp only [insertKind, Prog.wp_bind, Prog.wp_get, h.connOk, Bool.not_true, Bool.false_eq_true,
    if_false, he, hready, if_true, execInsert, e.stmt_eq]
  refine Prog.wp_mono (wp_issue_healthy h) ?_ fun _ => id
  rintro r w' ⟨h', c', found, hc', hok, rfl, -, huser, hevents⟩
  obtain rfl := Option.some.inj (hc.symm.trans hc')
  have hans : (c.answer (.execPrepared (stmtName kind e.label) vals) (.done found)).1 =
      .done found := by
    simp [Session.answer, hok, ht]
  have hknown : Stmt.known (.execPrepared (stmtName kind e.label) vals) c = some t := ht
  rw [hans] at hevents ⊢
  refine ⟨rfl, h', huser, ?_⟩
  rw [hevents, inserted_append, hknown, (hw c hc).target_eq ht]
  rfl

end ProcWatch

import ProcWatch.Model.Database

/-! # What sending statements can change -/

namespace ProcWatch

open CLib

variable {σ : Type}

/-! ## Statements allowed by a predicate -/

/-- A session before and after statements in `P`: preparing adds names, nothing drops one. -/
structure Extends (P : Stmt → Prop) (c c' : Session) : Prop where
  prepared : ∃ new, c'.prepared = new ++ c.prepared ∧ ∀ x ∈ new, P (.prepare x.1 x.2)
  dead : c.ok = false → c'.ok = false

/-- Only the clock of questions, the session, the record of statements and, as far as `U`
allows, the state behind `user` change. -/
structure Issues (P : Stmt → Prop) (U : σ → σ → Prop) (w w' : World σ) : Prop where
  frame : w' = { w with tick := w'.tick, conn := w'.conn, events := w'.events, user := w'.user }
  user : U w.user w'.user
  noConn : w.conn = none → w'.conn = none
  session : ∀ c, w.conn = some c → ∃ c', w'.conn = some c' ∧ Extends P c c'
  events : ∃ es, w'.events = w.events ++ es ∧ ∀ e ∈ es, ∃ s known r, e = .sql s known r ∧ P s

variable {P : Stmt → Prop} {U : σ → σ → Prop} [IsPreorder σ U]

theorem Extends.refl (c : Session) : Extends P c c :=
  ⟨⟨[], rfl, by simp⟩, id⟩

theorem Extends.trans {c c' c'' : Session} (h : Extends P c c') (h' : Extends P c' c'') :
    Extends P c c'' := by
  obtain ⟨new, hnew, hP⟩ := h.prepared
  obtain ⟨new', hnew', hP'⟩ := h'.prepared
  refine ⟨⟨new' ++ new, by rw [hnew', hnew, List.append_assoc], ?_⟩, h'.dead ∘ h.dead⟩
  intro x hx
  rcases List.mem_append.mp hx with hx | hx
  · exact hP' x hx
  · exact hP x hx

theorem Issues.refl (w : World σ) : Issues P U w w :=
  ⟨rfl, refl_of U _, id, fun c hc => ⟨c, hc, Extends.refl c⟩, [], by simp, by simp⟩

theorem Issues.trans {w w' w'' : World σ} (h : Issues P U w w') (h' : Issues P U w' w'') :
    Issues P U w w'' := by
  obtain ⟨es, hes, hP⟩ := h.events
  obtain ⟨es', hes', hP'⟩ := h'.events
  refine ⟨by rw [h'.frame, h.frame], trans_of U h.user h'.user, h'.noConn ∘ h.noConn, ?_,
    es ++ es', ?_, ?_⟩
  · intro c hc
    obtain ⟨c', hc', hext⟩ := h.session c hc
    obtain ⟨c'', hc'', hext'⟩ := h'.session c' hc'
    exact ⟨c'', hc'', hext.trans hext'⟩
  · rw [hes', hes, List.append_assoc]
  · intro e he
    rcases List.mem_append.mp he with he | he
    · exact hP e he
    · exact hP' e he

instance : IsPreorder (World σ) (Issues P U) where
  refl := Issues.refl
  trans := fun _ _ _ => Issues.trans

theorem extends_answer {c : Session} {s : Stmt} {r : Reply} (h : P s) :
    Extends P c (c.answer s r).2 := by
  unfold Session.answer
  split
  · exact Extends.refl c
  · rename_i hok
    have halive : c.ok = true := by simpa using hok
    split
    · exact ⟨⟨[], rfl, by simp⟩, fun hd => by simp [halive] at hd⟩
    · exact Extends.refl c
    · exact Extends.refl c
    · split
      · exact ⟨⟨[_], rfl, by simpa using h⟩, id⟩
      · exact Extends.refl c
    · split <;> exact Extends.refl c

/-! ## One statement -/

theorem issue_of_none {s : Stmt} {w : World σ} (hc : w.conn = none) :
    (issue s : Code σ Reply) w = (.ret .lost, w) := by
  simp [issue, Prog.bind_apply, Prog.get, hc, Prog.pure_apply]

theorem issue_of_some {s : Stmt} {w : World σ} {c : Session} (hc : w.conn = some c) :
    (issue s : Code σ Reply) w =
      let answered := c.answer s (w.env.reply w.tick c s)
      (.ret answered.1,
        { w with
          tick := w.tick + 1
          conn := some answered.2
          events := w.events ++ [.sql s (s.known c) answered.1] }) := by
  simp [issue, Prog.bind_apply, Prog.get, hc, Prog.pure_apply, ask, Prog.modify, record]

theorem keeps_issue {s : Stmt} (h : P s) : Prog.Keeps (Issues P U) (issue s : Code σ Reply) := by
  intro w
  cases hc : w.conn with
  | none =>
      rw [issue_of_none hc]
      exact Issues.refl w
  | some c =>
      rw [issue_of_some hc]
      refine ⟨by simp, refl_of U _, by simp [hc], ?_, [_], rfl, ?_⟩
      · intro c' hc'
        obtain rfl := Option.some.inj (hc.symm.trans hc')
        exact ⟨_, rfl, extends_answer h⟩
      · simp only [List.mem_singleton, forall_eq]
        exact ⟨s, _, _, rfl, h⟩

/-! ## Programs that only send statements -/

section Keeps

variable (hexec : ∀ c, P (.exec c))

include hexec

theorem keeps_exec (c : Command) : Prog.Keeps (Issues P U) (exec c : Code σ Reply) :=
  keeps_issue (hexec c)

theorem keeps_execOrExit (c : Command) : Prog.Keeps (Issues P U) (execOrExit c : Code σ Bool) := by
  refine Prog.keeps_bind (keeps_exec hexec c) fun r => ?_
  cases r with
  | done found => exact Prog.keeps_pure found
  | refused => exact Prog.keeps_exit
  | lost => exact Prog.keeps_exit

theorem keeps_execWarn (c : Command) : Prog.Keeps (Issues P U) (execWarn c : Code σ Unit) :=
  Prog.keeps_bind (keeps_exec hexec c) fun _ => Prog.keeps_pure ()

theorem keeps_dbEnsureSchema (schema : Bytes) :
    Prog.Keeps (Issues P U) (dbEnsureSchema schema : Code σ Unit) :=
  Prog.keeps_bind (keeps_execOrExit hexec _) fun _ => keeps_execWarn hexec _

theorem keeps_trackNewTable (schema table : Bytes) :
    Prog.Keeps (Issues P U) (trackNewTable schema table : Code σ Unit) := by
  refine Prog.keeps_bind ?_ fun _ => Prog.keeps_bind ?_ fun _ => ?_
  · exact Prog.keeps_bind (keeps_execOrExit hexec _) fun _ =>
      Prog.keeps_bind (keeps_execOrExit hexec _) fun _ =>
        Prog.keeps_bind (keeps_execOrExit hexec _) fun _ => Prog.keeps_pure ()
  · exact Prog.keeps_bind (keeps_execOrExit hexec _) fun _ => Prog.keeps_pure ()
  · exact Prog.keeps_bind (keeps_execWarn hexec _) fun _ =>
      Prog.keeps_bind (keeps_execWarn hexec _) fun _ => keeps_execWarn hexec _

theorem keeps_hypertableAndRetention (schema table : Bytes) :
    Prog.Keeps (Issues P U) (hypertableAndRetention schema table : Code σ Unit) :=
  Prog.keeps_bind (keeps_execWarn hexec _) fun _ =>
    Prog.keeps_bind (keeps_execWarn hexec _) fun _ => keeps_execWarn hexec _

theorem keeps_dbEnsureTable (schema table : Bytes) :
    Prog.Keeps (Issues P U) (dbEnsureTable schema table : Code σ Unit) := by
  refine Prog.keeps_bind (keeps_execOrExit hexec _) fun existedBefore => ?_
  refine Prog.keeps_bind (keeps_dbEnsureSchema hexec _) fun _ => ?_
  refine Prog.keeps_bind (keeps_execWarn hexec _) fun _ => ?_
  refine Prog.keeps_bind (keeps_execOrExit hexec _) fun _ => ?_
  refine Prog.keeps_bind (keeps_hypertableAndRetention hexec _ _) fun _ => ?_
  refine Prog.keeps_bind (keeps_execOrExit hexec _) fun existedAfter => ?_
  split
  · exact keeps_trackNewTable hexec schema table
  · exact Prog.keeps_pure ()

theorem keeps_dbEnsureDropInactiveJob (schema : Bytes) :
    Prog.Keeps (Issues P U) (dbEnsureDropInactiveJob schema : Code σ Unit) := by
  refine Prog.keeps_bind (keeps_exec hexec _) fun r => ?_
  rcases r with (_ | _) | _ | _
  · refine Prog.keeps_bind (keeps_exec hexec _) fun r => ?_
    cases r with
    | done found => exact keeps_execWarn hexec _
    | refused => exact Prog.keeps_pure ()
    | lost => exact Prog.keeps_pure ()
  · exact keeps_execWarn hexec _
  · exact Prog.keeps_pure ()
  · exact Prog.keeps_pure ()

end Keeps

/-! ## A connection on which every statement succeeds -/

/-- The connection is up and the surroundings refuse no statement. -/
structure Healthy (w : World σ) : Prop where
  replies : ∀ n c s, ∃ found, w.env.reply n c s = .done found
  connOk : connOk w.conn = true

/-- Over a healthy connection the program returns and leaves it healthy. -/
def Succeeds {α : Type} (m : Code σ α) : Prop :=
  ∀ w, Healthy w → Prog.wp m (fun _ w' => Healthy w') (fun _ => False) w

section Succeeds

variable {α β : Type}

theorem succeeds_pure (a : α) : Succeeds (Pure.pure a : Code σ α) :=
  fun _ h => h

theorem succeeds_bind {m : Code σ α} {f : α → Code σ β} (hm : Succeeds m)
    (hf : ∀ a, Succeeds (f a)) : Succeeds (m >>= f) := by
  intro w h
  rw [Prog.wp_bind]
  exact Prog.wp_mono (hm w h) (fun a w' h' => hf a w' h') (fun _ => id)

theorem Healthy.exists_session {w : World σ} (h : Healthy w) : ∃ c, w.conn = some c ∧ c.ok = true := by
  have hok := h.connOk
  cases hc : w.conn with
  | none => simp [ProcWatch.connOk, hc] at hok
  | some c => exact ⟨c, rfl, by simpa [ProcWatch.connOk, hc] using hok⟩

/-- The session stays up under a reply that is not a lost connection. -/
theorem answer_done_ok {c : Session} {s : Stmt} {found : Bool} (h : c.ok = true) :
    (c.answer s (.done found)).2.ok = true := by
  cases s with
  | exec c' => simp [Session.answer, h]
  | prepare name target =>
      by_cases hn : c.target? name = none <;> simp [Session.answer, h, hn]
  | execPrepared name vals =>
      by_cases hn : c.target? name = none <;> simp [Session.answer, h, hn]

/-- A successful or repeated `PREPARE` leaves the name known. -/
theorem answer_prepare_target {c : Session} {name : Bytes} {target : Target} {found : Bool}
    (h : c.ok = true) : ∃ t, (c.answer (.prepare name target) (.done found)).2.target? name = some t := by
  by_cases hn : c.target? name = none
  · have hans : c.answer (.prepare name target) (.done found) =
        (.done found, { c with prepared := (name, target) :: c.prepared }) := by
      simp [Session.answer, h, hn]
    exact ⟨target, by simp [hans, Session.target?]⟩
  · obtain ⟨t, ht⟩ := Option.ne_none_iff_exists'.mp hn
    exact ⟨t, by simp [Session.answer, h, ht]⟩

/-- A statement over a healthy connection is answered with success, as far as the session
knows the name it runs and does not know the name it defines. -/
theorem wp_issue_healthy {s : Stmt} {w : World σ} (h : Healthy w) :
    Prog.wp (issue s) (fun r w' => Healthy w' ∧ ∃ c found, w.conn = some c ∧ c.ok = true ∧
      r = (c.answer s (.done found)).1 ∧ w'.conn = some (c.answer s (.done found)).2 ∧
      w'.user = w.user ∧ w'.events = w.events ++ [.sql s (s.known c) r]) (fun _ => False) w := by
  obtain ⟨c, hc, hok⟩ := h.exists_session
  obtain ⟨found, hfound⟩ := h.replies w.tick c s
  rw [Prog.wp, issue_of_some hc, hfound]
  refine ⟨⟨h.replies, ?_⟩, c, found, hc, hok, rfl, rfl, rfl, rfl⟩
  exact answer_done_ok hok

theorem succeeds_issue (s : Stmt) : Succeeds (issue s : Code σ Reply) :=
  fun _ h => Prog.wp_mono (wp_issue_healthy h) (fun _ _ h' => h'.1) fun _ => id

theorem succeeds_execOrExit (c : Command) : Succeeds (execOrExit c : Code σ Bool) := by
  intro w h
  rw [execOrExit, Prog.wp_bind]
  refine Prog.wp_mono (wp_issue_healthy h) ?_ fun _ => id
  rintro r w' ⟨h', c', found, -, hok, rfl, -⟩
  simpa [Session.answer, hok] using h'

theorem succeeds_execWarn (c : Command) : Succeeds (execWarn c : Code σ Unit) :=
  succeeds_bind (succeeds_issue _) fun _ => succeeds_pure ()

theorem succeeds_dbEnsureSchema (schema : Bytes) : Succeeds (dbEnsureSchema schema : Code σ Unit) :=
  succeeds_bind (succeeds_execOrExit _) fun _ => succeeds_execWarn _

theorem succeeds_trackNewTable (schema table : Bytes) :
    Succeeds (trackNewTable schema table : Code σ Unit) := by
  refine succeeds_bind ?_ fun _ => succeeds_bind ?_ fun _ => ?_
  · exact succeeds_bind (succeeds_execOrExit _) fun _ =>
      succeeds_bind (succeeds_execOrExit _) fun _ =>
        succeeds_bind (succeeds_execOrExit _) fun _ => succeeds_pure ()
  · exact succeeds_bind (succeeds_execOrExit _) fun _ => succeeds_pure ()
  · exact succeeds_bind (succeeds_execWarn _) fun _ =>
      succeeds_bind (succeeds_execWarn _) fun _ => succeeds_execWarn _

theorem succeeds_hypertableAndRetention (schema table : Bytes) :
    Succeeds (hypertableAndRetention schema table : Code σ Unit) :=
  succeeds_bind (succeeds_execWarn _) fun _ =>
    succeeds_bind (succeeds_execWarn _) fun _ => succeeds_execWarn _

/-- A run over a healthy connection, with what it keeps. -/
theorem Succeeds.exists_run {m : Code σ α} {R : World σ → World σ → Prop} (hm : Succeeds m)
    (hR : Prog.Keeps R m) {w : World σ} (h : Healthy w) :
    ∃ a w', m w = (.ret a, w') ∧ Healthy w' ∧ R w w' := by
  have hwp := hm w h
  have hkeep := hR w
  rw [Prog.wp] at hwp
  cases hrun : m w with
  | mk o w' =>
      rw [hrun] at hwp hkeep
      cases o with
      | ret a => exact ⟨a, w', rfl, hwp, hkeep⟩
      | exit => exact hwp.elim

theorem Succeeds.wp {m : Code σ α} {R : World σ → World σ → Prop} (hm : Succeeds m)
    (hR : Prog.Keeps R m) {w : World σ} (h : Healthy w) :
    Prog.wp m (fun _ w' => Healthy w' ∧ R w w') (fun _ => False) w := by
  obtain ⟨a, w', hrun, h', hkeep⟩ := hm.exists_run hR h
  rw [Prog.wp, hrun]
  exact ⟨h', hkeep⟩

end Succeeds

end ProcWatch

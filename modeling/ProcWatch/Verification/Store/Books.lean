import ProcWatch.Library.Ledger
import ProcWatch.Verification.Agent.Inserts
import ProcWatch.Verification.Store.Filing
import ProcWatch.Verification.Store.Runs

/-! # Books of what was written, spilled and replayed -/

namespace ProcWatch

open CLib

variable {σ ρ α : Type}

/-! ## Entries -/

/-- The row of a record, the line that is spilled in its stead, the row of a line, and the records
whose lines are replayed without one. -/
structure Trade (ρ : Type) where
  row : ρ → InsertedRow
  line : ρ → Option Bytes
  read : Bytes → Option InsertedRow
  rowless : ρ → Bool

/-- A replay makes this row of the line of a record: through the record's statement and into its
table. -/
def Trade.Rereads (T : Trade ρ) (r : ρ) (row : InsertedRow) : Prop :=
  ∃ line, T.line r = some line ∧ T.read line = some row ∧ row.stmt = (T.row r).stmt ∧
    row.target = (T.row r).target

/-- The record has a line, and the line has a row unless the record is one of those without. -/
structure Trade.Sound (T : Trade ρ) (r : ρ) : Prop where
  line : T.line r ≠ none
  rowless : T.rowless r = true → ∀ line ∈ T.line r, T.read line = none
  reread : T.rowless r = false → ∃ row, T.Rereads r row

/-- Where no file operation failed, each record was inserted or else spilled; every other row
is that of a line replayed; and the spill file is a queue of its lines. -/
structure Settled (T : Trade ρ) (rs : List ρ) (es : List Event) (f f' : Files) : Prop where
  rows : ∃ direct spilled, Dealt rs direct spilled ∧ spilledLines es = spilled.filterMap T.line ∧
    (inserted es).Perm (direct.map T.row ++ (consumedLines es).filterMap T.read)
  stock : ∀ ls, Holds f.spill ls → ∃ left, ls ++ spilledLines es = consumedLines es ++ left ∧
    Holds f'.spill left

theorem Settled.append {T : Trade ρ} {rs rs' : List ρ} {es es' : List Event} {f f' f'' : Files}
    (h : Settled T rs es f f') (h' : Settled T rs' es' f' f'') :
    Settled T (rs ++ rs') (es ++ es') f f'' where
  rows := by
    obtain ⟨direct, spilled, hdealt, hspilled, hrows⟩ := h.rows
    obtain ⟨direct', spilled', hdealt', hspilled', hrows'⟩ := h'.rows
    refine ⟨direct ++ direct', spilled ++ spilled', hdealt.append hdealt', ?_, ?_⟩
    · rw [spilledLines_append, hspilled, hspilled', List.filterMap_append]
    · rw [inserted_append, consumedLines_append, List.filterMap_append, List.map_append]
      refine (hrows.append hrows').trans ?_
      simp only [List.append_assoc]
      exact (List.perm_append_comm_assoc _ _ _).append_left _
  stock := by
    intro ls hls
    obtain ⟨left, heq, hleft⟩ := h.stock ls hls
    obtain ⟨left', heq', hleft'⟩ := h'.stock left hleft
    refine ⟨left', ?_, hleft'⟩
    rw [spilledLines_append, consumedLines_append, ← List.append_assoc, heq, List.append_assoc, heq',
      List.append_assoc]

/-- The lines of the records. -/
def Trade.Lines (T : Trade ρ) (rs : List ρ) (ls : List Bytes) : Prop :=
  List.Forall₂ (fun r line => T.line r = some line) rs ls

/-- Each record was inserted or else spilled. The records `old`, whose lines the spill file held,
and behind them those spilled were replayed in order, up to those whose lines it holds now. The
rows inserted are those of the records inserted at once and those that are read from the lines
replayed, one for each record but the rowless ones. -/
structure Accounted (T : Trade ρ) (old rs : List ρ) (es : List Event) (spill : Option Bytes) :
    Prop where
  accounts : ∃ direct spilled replayed left rows lines, Dealt rs direct spilled ∧
    old ++ spilled = replayed ++ left ∧ T.Lines left lines ∧ Holds spill lines ∧
    List.Forall₂ T.Rereads (replayed.filter fun r => !T.rowless r) rows ∧
    (inserted es).Perm (direct.map T.row ++ rows)

section Accounted

variable {T : Trade ρ} {rs : List ρ} {ls : List Bytes}

theorem Trade.Lines.exists_line (h : T.Lines rs ls) {r : ρ} (hr : r ∈ rs) :
    ∃ line, T.line r = some line := by
  unfold Trade.Lines at h
  induction h with
  | nil => cases hr
  | cons hline _ ih =>
      cases List.mem_cons.mp hr with
      | inl heq => exact ⟨_, heq ▸ hline⟩
      | inr hr => exact ih hr

theorem lines_filterMap (h : ∀ r ∈ rs, T.Sound r) : T.Lines rs (rs.filterMap T.line) := by
  induction rs with
  | nil => exact .nil
  | cons r rs ih =>
      obtain ⟨line, hline⟩ := Option.ne_none_iff_exists'.mp (h r List.mem_cons_self).line
      rw [List.filterMap_cons_some hline]
      exact .cons hline (ih fun r' hr' => h r' (List.mem_cons_of_mem r hr'))

/-- The rows of replayed lines, record by record. -/
theorem rereads_of_lines (h : T.Lines rs ls) (hsound : ∀ r ∈ rs, T.Sound r) :
    List.Forall₂ T.Rereads (rs.filter fun r => !T.rowless r) (ls.filterMap T.read) := by
  unfold Trade.Lines at h
  induction h with
  | nil => exact .nil
  | @cons r line rs ls hline _ ih =>
      have hrest := ih fun r' hr' => hsound r' (List.mem_cons_of_mem r hr')
      have hr := hsound r List.mem_cons_self
      cases hrowless : T.rowless r with
      | true =>
          rw [List.filter_cons_of_neg (by simp [hrowless]),
            List.filterMap_cons_none (hr.rowless hrowless line hline)]
          exact hrest
      | false =>
          obtain ⟨row, line', hline', hread, hsame⟩ := hr.reread hrowless
          obtain rfl := Option.some.inj (hline.symm.trans hline')
          rw [List.filter_cons_of_pos (by simp [hrowless]), List.filterMap_cons_some hread]
          exact .cons ⟨line, hline, hread, hsame⟩ hrest

/-- Where all records are sound, none goes missing. -/
theorem Settled.accounted {es : List Event} {f f' : Files} (h : Settled T rs es f f')
    (hrs : ∀ r ∈ rs, T.Sound r) {old : List ρ} (hold : ∀ r ∈ old, T.Sound r)
    (hlines : T.Lines old ls) (hls : Holds f.spill ls) : Accounted T old rs es f'.spill := by
  obtain ⟨direct, spilled, hdealt, hspilled, hrows⟩ := h.rows
  obtain ⟨left, hleft, hholds⟩ := h.stock ls hls
  have hsubset := hdealt.right_subset
  have hsound : ∀ r ∈ old ++ spilled, T.Sound r := by
    intro r hr
    cases List.mem_append.mp hr with
    | inl hr => exact hold r hr
    | inr hr => exact hrs r (hsubset hr)
  have hall : T.Lines (old ++ spilled) (consumedLines es ++ left) := by
    rw [← hleft, hspilled]
    exact List.rel_append hlines (lines_filterMap fun r hr => hrs r (hsubset hr))
  refine ⟨direct, spilled, (old ++ spilled).take (consumedLines es).length,
    (old ++ spilled).drop (consumedLines es).length, (consumedLines es).filterMap T.read, left,
    hdealt, (List.take_append_drop _ _).symm, List.forall₂_drop_append _ _ _ hall, hholds, ?_, hrows⟩
  exact rereads_of_lines (List.forall₂_take_append _ _ _ hall)
    fun r hr => hsound r (List.mem_of_mem_take hr)

end Accounted

/-- The books of the records handled between two worlds. -/
def books (T : Trade ρ) : Ledger (World σ) ρ where
  entry rs w w' := ∃ es, w'.events = w.events ++ es ∧ (AllOk es → Settled T rs es w.files w'.files)
  nil w := by
    refine ⟨[], (List.append_nil _).symm, fun _ => ⟨⟨[], [], .nil, rfl, .nil⟩, fun ls hls => ?_⟩⟩
    exact ⟨ls, List.append_nil ls, hls⟩
  append := by
    rintro rs rs' w w' w'' ⟨es, hes, h⟩ ⟨es', hes', h'⟩
    refine ⟨es ++ es', by rw [hes', hes, List.append_assoc], fun hok => ?_⟩
    exact (h (allOk_append.mp hok).1).append (h' (allOk_append.mp hok).2)

/-! ## Steps away from the store -/

/-- These rows were inserted, and nothing was spilled or replayed. -/
structure Sent (rows : List InsertedRow) (w w' : World σ) : Prop where
  files : w'.files = w.files
  events : ∃ es, w'.events = w.events ++ es ∧ inserted es = rows ∧ spilledLines es = [] ∧
    replays es = []

theorem Sent.trans {rows rows' : List InsertedRow} {w w' w'' : World σ} (h : Sent rows w w')
    (h' : Sent rows' w' w'') : Sent (rows ++ rows') w w'' := by
  obtain ⟨es, hes, hrows, hspilled, hreplays⟩ := h.events
  obtain ⟨es', hes', hrows', hspilled', hreplays'⟩ := h'.events
  refine ⟨h'.files.trans h.files, es ++ es', by rw [hes', hes, List.append_assoc], ?_, ?_, ?_⟩
  · rw [inserted_append, hrows, hrows']
  · rw [spilledLines_append, hspilled, hspilled', List.append_nil]
  · rw [replays_append, hreplays, hreplays', List.append_nil]

theorem sent_of_eq {w w' : World σ} (hfiles : w'.files = w.files) (hes : w'.events = w.events) :
    Sent [] w w' :=
  ⟨hfiles, [], by rw [hes, List.append_nil], rfl, rfl, rfl⟩

/-- Statements other than inserts. -/
theorem Issues.sent {P : Stmt → Prop} {U : σ → σ → Prop} {w w' : World σ} (h : Issues P U w w')
    (hP : ∀ name vals, ¬ P (.execPrepared name vals)) : Sent [] w w' := by
  obtain ⟨es, hes, hsql⟩ := h.events
  refine ⟨by rw [h.frame], es, hes, ?_, ?_, ?_⟩
  · have hnone := h.inserted_eq hP
    rw [hes, inserted_append] at hnone
    exact List.append_cancel_left (hnone.trans (List.append_nil _).symm)
  · refine List.filterMap_eq_nil_iff.mpr fun e he => ?_
    obtain ⟨s, known, r, rfl, -⟩ := hsql e he
    rfl
  · refine List.filterMap_eq_nil_iff.mpr fun e he => ?_
    obtain ⟨s, known, r, rfl, -⟩ := hsql e he
    rfl

variable {T : Trade ρ}

theorem Sent.entry {w w' : World σ} {rows : List InsertedRow} (h : Sent rows w w') {rs : List ρ}
    (hrows : rows = rs.map T.row) : (books T).entry rs w w' := by
  obtain ⟨es, hes, hins, hspilled, hreplays⟩ := h.events
  have hconsumed : consumedLines es = [] := by rw [consumedLines, hreplays]; rfl
  refine ⟨es, hes, fun _ => ⟨⟨rs, [], .allLeft rs, hspilled, ?_⟩, fun ls hls => ⟨ls, ?_, ?_⟩⟩⟩
  · rw [hins, hrows, hconsumed]
    simp
  · rw [hspilled, hconsumed, List.append_nil, List.nil_append]
  · rwa [h.files]

/-- A session runs the names only that it knows. -/
theorem target?_of_answer_done {c : Session} {name : Bytes} {vals : List (Option Bytes)} {r : Reply}
    {found : Bool} (h : (c.answer (.execPrepared name vals) r).1 = .done found) :
    ∃ t, c.target? name = some t := by
  refine Option.ne_none_iff_exists'.mp fun hnone => ?_
  unfold Session.answer at h
  split at h
  · cases h
  · cases r with
    | done found => simp [hnone] at h
    | refused => cases h
    | lost => cases h

/-- A record that is not inserted and has no line. -/
theorem Sent.entry_lineless {w w' : World σ} (h : Sent [] w w') {r : ρ} (hr : T.line r = none) :
    (books T).entry [r] w w' := by
  obtain ⟨es, hes, hins, hspilled, hreplays⟩ := h.events
  have hconsumed : consumedLines es = [] := by rw [consumedLines, hreplays]; rfl
  refine ⟨es, hes, fun _ => ⟨⟨[], [r], .right r .nil, ?_, ?_⟩, fun ls hls => ⟨ls, ?_, ?_⟩⟩⟩
  · rw [hspilled, List.filterMap_cons_none hr]
    rfl
  · rw [hins, hconsumed]
    exact .nil
  · rw [hspilled, hconsumed, List.append_nil, List.nil_append]
  · rwa [h.files]

/-- An insert returns 0 exactly where the row went in. -/
theorem wp_execInsert_sent {name : Bytes} {target : Target} (vals : List (Option Bytes))
    {w : World σ} (hw : ∀ c t, w.conn = some c → c.target? name = some t → t = target) :
    Prog.wp (execInsert name vals)
      (fun rc w' => Sent (if rc = 0 then [⟨name, target, vals⟩] else []) w w') (fun _ => True) w := by
  rw [execInsert, Prog.wp_bind]
  cases hc : w.conn with
  | none =>
      rw [Prog.wp, issue_of_none hc]
      exact sent_of_eq rfl rfl
  | some c =>
      let s : Stmt := .execPrepared name vals
      have hsql (r : Reply) (hr : r = .refused ∨ r = .lost) (w' : World σ)
          (hfiles : w'.files = w.files)
          (hes : w'.events = w.events ++ [.sql s (s.known c) r]) : Sent [] w w' := by
        refine ⟨hfiles, _, hes, ?_, rfl, rfl⟩
        rcases hr with rfl | rfl
        · cases s.known c <;> rfl
        · cases s.known c <;> rfl
      rw [Prog.wp, issue_of_some hc]
      cases hr : c.answer s (w.env.reply w.tick c s) with
      | mk r c' =>
          cases r with
          | refused => exact hsql .refused (Or.inl rfl) _ rfl rfl
          | lost => exact hsql .lost (Or.inr rfl) _ rfl rfl
          | done found =>
              obtain ⟨t, ht⟩ := target?_of_answer_done (congrArg Prod.fst hr)
              have hknown : Stmt.known s c = some target := (hw c t hc ht) ▸ ht
              refine ⟨rfl, [.sql s (s.known c) (.done found)], rfl, ?_, rfl, rfl⟩
              rw [hknown]
              rfl

/-! ## Spilling -/

/-- The spill of a record, where it has a line. -/
theorem wp_pwDbBufSpill_books {line : Bytes} (hline : WholeLine line) {r : ρ}
    (hr : T.line r = some line) (w : World σ) :
    Prog.wp (pwDbBufSpill line) (fun _ w' => Beside w w' ∧ (books T).entry [r] w w')
      (fun _ => True) w := by
  have hcstr : cstr line ++ [0x0a] = unlines [line] := by
    simp [unlines, hline.oneLine.cstr_eq]
  -- where the line did not get into the file, some operation failed
  have hdropped (w' : World σ) (es : List Event) (hb : Beside w w')
      (hes : w'.events = w.events ++ es) (op : FileOp) (o : FileOutcome)
      (hmem : .file op o ∈ es) (ho : o ≠ .ok) : Beside w w' ∧ (books T).entry [r] w w' :=
    ⟨hb, es, hes, fun hok => absurd (hok op o hmem) ho⟩
  apply wp_pwDbBufSpill trivial fun _ => trivial
  · refine ⟨⟨rfl, rfl, rfl⟩, [.file (.openAppend .spill) .ok, .file (.write .spill) .ok,
      .spilled line true], by simp, fun _ => ⟨⟨[], [r], .right r .nil, ?_, ?_⟩, fun ls hls => ?_⟩⟩
    · simp [spilledLines, hr]
    · exact .nil
    · refine ⟨ls ++ [line], rfl, hls.append ?_ (by simpa using hline)⟩
      simp [Files.set, hcstr]
  · exact hdropped _ [.file (.openAppend .spill) .failed, .spilled line false] ⟨rfl, rfl, rfl⟩
      (by simp) (.openAppend .spill) .failed (by simp) (by decide)
  · intro closed left
    exact hdropped _ [.file (.openAppend .spill) .ok,
      .file (.write .spill) (uncleanWrite left closed), .spilled line false] ⟨rfl, rfl, rfl⟩
      (by simp) (.write .spill) _ (by simp) (uncleanWrite_ne_ok left closed)

/-! ## A flush -/

/-- A callback that only sends statements. -/
theorem Issues.spills {P : Stmt → Prop} {U : σ → σ → Prop} {w w' : World σ}
    (h : Issues P U w w') : Spills w w' := by
  obtain ⟨es, hes, hsql⟩ := h.events
  have hfiles : w'.files = w.files := by rw [h.frame]
  have hnone : spilledLines es = [] := by
    refine List.filterMap_eq_nil_iff.mpr fun e he => ?_
    obtain ⟨s, known, r, rfl, -⟩ := hsql e he
    rfl
  refine ⟨es, hes, fun e he => ?_, by rw [h.frame], by rw [hfiles], by rw [hfiles], fun _ => ?_⟩
  · obtain ⟨s, known, r, rfl, -⟩ := hsql e he
    trivial
  · rw [hnone, hfiles]
    exact .refl _

/-- The rows inserted are those of the lines replayed, and nothing is spilled. -/
def delivered (read : Bytes → Option InsertedRow) : Course (World σ) where
  going w w' := ∃ es, w'.events = w.events ++ es ∧ spilledLines es = [] ∧
    inserted es = (consumedLines es).filterMap read
  ending _ _ := True
  refl w := ⟨[], (List.append_nil _).symm, rfl, rfl⟩
  trans := by
    rintro w w' w'' ⟨es, hes, hspilled, hrows⟩ ⟨es', hes', hspilled', hrows'⟩
    refine ⟨es ++ es', by rw [hes', hes, List.append_assoc], ?_, ?_⟩
    · rw [spilledLines_append, hspilled, hspilled', List.append_nil]
    · rw [inserted_append, consumedLines_append, List.filterMap_append, hrows, hrows']
  after := fun _ _ => trivial

theorem takesFiles_delivered (read : Bytes → Option InsertedRow) :
    TakesFiles (delivered read : Course (World σ)) where
  going := by
    rintro w w' ⟨-, es, hes, hfiled⟩
    have hnone {β : Type} (f : Event → Option β) (hf : ∀ op o, f (.file op o) = none) :
        es.filterMap f = [] := by
      refine List.filterMap_eq_nil_iff.mpr fun e he => ?_
      obtain ⟨op, o, -, rfl⟩ := exists_of_filed (hfiled e he)
      exact hf op o
    have hspilled : spilledLines es = [] := hnone _ fun _ _ => rfl
    have hins : inserted es = [] := hnone _ fun _ _ => rfl
    have hreplays : replays es = [] := hnone _ fun _ _ => rfl
    refine ⟨es, hes, hspilled, ?_⟩
    rw [hins, consumedLines, hreplays]
    rfl
  ending := fun _ _ _ => trivial

/-- A callback that inserts the row of a line exactly where it returns 0. -/
def Inserts (read : Bytes → Option InsertedRow) (P : World σ → Prop) (fn : Bytes → Code σ ℤ) :
    Prop :=
  ∀ line w, P w → Prog.wp (fn line)
    (fun rc w' => P w' ∧ Sent (if rc = 0 then (read line).toList else []) w w') (fun _ => True) w

variable {P : World σ → Prop} {fn : Bytes → Code σ ℤ}

theorem Inserts.replayCall {read : Bytes → Option InsertedRow} (h : Inserts read P fn)
    (hP : Apart P) (line : Bytes) :
    Prog.Ends (delivered read) P (fun _ => P) (replayCall fn line) := by
  intro w hw
  rw [ProcWatch.replayCall, Prog.wp_bind]
  refine Prog.wp_mono (h line w hw) (fun rc w' hw' => ?_) fun _ => id
  obtain ⟨es, hes, hrows, hspilled, hreplays⟩ := hw'.2.events
  refine ⟨⟨es ++ [.replayed line rc], ?_, ?_, ?_⟩, hP w' _ ⟨rfl, rfl, rfl⟩ hw'.1⟩
  · exact (congrArg (· ++ [Event.replayed line rc]) hes).trans (List.append_assoc _ _ _)
  · rw [spilledLines_append, hspilled]
    rfl
  · have hconsumed : consumedLines es = [] := by rw [consumedLines, hreplays]; rfl
    rw [inserted_append, consumedLines_append, hrows, hconsumed]
    by_cases hrc : rc = 0
    · have hone : consumedLines [.replayed line rc] = [line] := by simp [consumedLines, hrc, replays]
      have hnone : inserted [.replayed line rc] = [] := rfl
      rw [if_pos hrc, hone, hnone, List.append_nil, List.nil_append]
      cases hread : read line with
      | none => rw [List.filterMap_cons_none hread]; rfl
      | some row => rw [List.filterMap_cons_some hread]; rfl
    · have hzero : consumedLines [.replayed line rc] = [] := by simp [consumedLines, hrc, replays]
      rw [if_neg hrc, hzero]
      rfl

/-- A flush handles no new record. -/
theorem tallies_pwDbBufFlush (hfn : Callback fn) (hins : Inserts T.read P fn) (hP : Apart P)
    (hoff : ∀ w, P w → P { w with online := false }) :
    Prog.Tallies (books T) P [] (fun _ => P) (pwDbBufFlush fn) := by
  have hends : Prog.Ends (delivered T.read) P (fun _ => P) (pwDbBufFlush fn) :=
    ends_pwDbBufFlush (takesFiles_delivered _) hP (hins.replayCall hP) (fun _ hw _ _ => hw)
      (fun _ => id) fun w hw => ⟨(delivered T.read).refl w, hoff w hw⟩
  intro w hw
  refine Prog.wp_iff_run.mpr ⟨fun rc w' hrun => ?_, fun _ _ => trivial⟩
  obtain ⟨⟨es, hes, hspilled, hrows⟩, hw'⟩ := (Prog.wp_iff_run.mp (hends w hw)).1 rc w' hrun
  refine ⟨hw', es, hes, fun hok => ⟨⟨[], [], .nil, hspilled, by rw [hrows]; rfl⟩, fun ls hls => ?_⟩⟩
  obtain ⟨more, hmore, hholds⟩ := (FlushReturns.of_run hfn hls hrun hes).inOrder hok
  refine ⟨more, ?_, ?_⟩
  · rw [hspilled, List.append_nil, hmore]
  · rwa [hspilled, List.append_nil] at hholds

/-! ## Upkeep of the connection -/

/-- What has to be true of the state behind `user` and of the session. -/
structure Terms (σ : Type) where
  user : σ → Prop
  session : Session → Prop
  fresh : session Session.fresh

structure Terms.Hold (t : Terms σ) (w : World σ) : Prop where
  user : t.user w.user
  session : ∀ c, w.conn = some c → t.session c

section Upkeep

variable {t : Terms σ}

theorem Terms.Hold.same {w w' : World σ} (h : t.Hold w) (hconn : w'.conn = w.conn)
    (huser : w'.user = w.user) : t.Hold w' :=
  ⟨huser ▸ h.user, hconn ▸ h.session⟩

theorem apart_hold : Apart t.Hold :=
  fun _ _ hb h => h.same hb.conn hb.user

/-- A new session, or none. -/
theorem Terms.Hold.renewed {w w' : World σ} (h : t.user w.user) (huser : w'.user = w.user)
    (hconn : w'.conn = none ∨ w'.conn = some Session.fresh) : t.Hold w' := by
  refine ⟨huser ▸ h, fun c hc => ?_⟩
  cases hconn with
  | inl hnone =>
      rw [hnone] at hc
      cases hc
  | inr hfresh =>
      rw [hfresh] at hc
      obtain rfl := Option.some.inj hc
      exact t.fresh

variable {P : World σ → Prop} {Q : α → World σ → Prop}

/-- A program that neither inserts nor touches the store. -/
theorem tallies_of_sent {m : Code σ α}
    (h : ∀ w, P w → Prog.wp m (fun a w' => Q a w' ∧ Sent [] w w') (fun _ => True) w) :
    Prog.Tallies (books T) P [] Q m :=
  fun w hw => Prog.wp_mono (h w hw) (fun _ _ h' => ⟨h'.1, h'.2.entry rfl⟩) fun _ => id

theorem sent_connected {w w' : World σ} (hfiles : w'.files = w.files)
    (hes : w'.events = w.events ++ [.connected]) : Sent [] w w' :=
  ⟨hfiles, [.connected], hes, rfl, rfl, rfl⟩

/-- An attempt to connect leaves nothing or a new session. -/
theorem wp_dbConnect_sent (w : World σ) :
    Prog.wp (dbConnect : Code σ (Option Session))
      (fun conn w' => (conn = none ∨ conn = some Session.fresh) ∧ w'.user = w.user ∧ Sent [] w w')
      (fun _ => True) w := by
  simp only [dbConnect, ask, record, Prog.wp_bind, Prog.wp_get, Prog.wp_modify, Prog.wp_pure,
    Prog.wp_ite]
  exact ⟨fun _ => ⟨Or.inr trivial, trivial, sent_connected rfl rfl⟩,
    fun _ => ⟨Or.inl trivial, trivial, sent_of_eq rfl rfl⟩⟩

theorem wp_dbReconnect_sent {w : World σ} (hw : t.Hold w) :
    Prog.wp (dbReconnect : Code σ Bool) (fun _ w' => t.Hold w' ∧ Sent [] w w') (fun _ => True) w := by
  have hnew (w₁ : World σ) (huser : w₁.user = w.user) (hsent : Sent [] w w₁) :
      Prog.wp (dbReconnectNew : Code σ Bool) (fun _ w' => t.Hold w' ∧ Sent [] w w')
        (fun _ => True) w₁ := by
    rw [dbReconnectNew, Prog.wp_bind]
    refine Prog.wp_mono (wp_dbConnect_sent w₁) (fun conn w₂ h => ?_) fun _ => id
    simp only [setConn, Prog.wp_bind, Prog.wp_modify, Prog.wp_pure]
    exact ⟨.renewed hw.user (h.2.1.trans huser) h.1, hsent.trans (h.2.2.trans (sent_of_eq rfl rfl))⟩
  rw [dbReconnect, Prog.wp_bind, Prog.wp_get]
  cases hconn : w.conn with
  | none => exact hnew w rfl (sent_of_eq rfl rfl)
  | some c =>
      simp only [ask, setConn, record, Prog.wp_ite, Prog.wp_bind, Prog.wp_get, Prog.wp_modify,
        Prog.wp_pure]
      refine ⟨fun _ => ⟨hw, sent_of_eq rfl rfl⟩, fun _ => ⟨fun _ => ?_, fun _ => ?_⟩⟩
      · exact ⟨.renewed hw.user rfl (Or.inr rfl), sent_connected rfl rfl⟩
      · exact hnew _ rfl (sent_of_eq rfl rfl)

theorem wp_pwDbBufEnsure_sent {w : World σ} (hw : t.Hold w) :
    Prog.wp (pwDbBufEnsure : Code σ Bool) (fun _ w' => t.Hold w' ∧ Sent [] w w') (fun _ => True) w := by
  simp only [pwDbBufEnsure, setOnline, ask, Prog.wp_bind, Prog.wp_get, Prog.wp_ite, Prog.wp_modify,
    Prog.wp_pure]
  refine ⟨fun _ => ?_, fun _ => ⟨fun _ => ?_, fun _ => ?_⟩⟩
  · exact ⟨hw.same rfl rfl, sent_of_eq rfl rfl⟩
  · exact ⟨hw.same rfl rfl, sent_of_eq rfl rfl⟩
  · refine Prog.wp_mono (wp_dbReconnect_sent (hw.same rfl rfl)) (fun up w' h => ?_) fun _ => id
    have hsent : Sent [] w w' := ⟨h.2.files, h.2.events⟩
    exact ⟨fun _ => ⟨h.1.same rfl rfl, hsent.trans (sent_of_eq rfl rfl)⟩, fun _ => ⟨h.1, hsent⟩⟩

theorem tallies_pwDbBufMaintain (hfn : Callback fn) (hins : Inserts T.read t.Hold fn) :
    Prog.Tallies (books T) t.Hold [] (fun _ => t.Hold) (pwDbBufMaintain fn) :=
  Prog.tallies_bind_left (tallies_of_sent fun _ hw => wp_pwDbBufEnsure_sent hw) fun _ =>
    Prog.tallies_ite
      (fun _ => tallies_pwDbBufFlush hfn hins apart_hold fun _ hw => hw.same rfl rfl)
      fun _ => Prog.tallies_pure 0

theorem tallies_pwDbBufInit :
    Prog.Tallies (books T) (fun w => t.user w.user) [] (fun _ => t.Hold)
      (pwDbBufInit : Code σ Unit) := by
  refine tallies_of_sent fun w hw => ?_
  rw [pwDbBufInit, Prog.wp_bind]
  refine Prog.wp_mono (wp_dbConnect_sent w) (fun conn w₁ h => ?_) fun _ => id
  simp only [setConn, setOnline, Prog.wp_bind, Prog.wp_modify]
  exact ⟨.renewed hw h.2.1 h.1, h.2.2.trans (sent_of_eq rfl rfl)⟩

end Upkeep

end ProcWatch

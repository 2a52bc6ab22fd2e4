import ProcWatch.Verification.Store.Flush

/-! # Runs over one spill file

Calls of `pw_db_buf_spill` and `pw_db_buf_flush` in any order, whatever other code does in
between, and processes that die in a flush and are started again.
-/

namespace ProcWatch

open CLib Relation

variable {σ : Type}

/-! ## Steps and runs -/

/-- Events of code that does not touch the store. -/
def Elsewhere : Event → Prop
  | .spilled _ _ => False
  | .replayed _ _ => False
  | .file _ _ => False
  | _ => True

/-- What the file operations of a spill, of a flush that returns, and of a flush in which the
process dies are allowed to do. -/
structure Faults where
  spill : List Event → Prop
  flush : List Event → Prop
  crash : List Event → Prop

inductive StoreStep (F : Faults) (w w' : World σ) : Prop where
  | spill (line : Bytes) (rc : ℤ) (es : List Event) (hline : WholeLine line)
      (hrun : pwDbBufSpill line w = (.ret rc, w')) (hes : w'.events = w.events ++ es)
      (hfaults : F.spill es)
  | flush (fn : Bytes → Code σ ℤ) (rc : ℤ) (es : List Event) (hfn : Callback fn)
      (hrun : pwDbBufFlush fn w = (.ret rc, w')) (hes : w'.events = w.events ++ es)
      (hfaults : F.flush es)
  | elsewhere (es : List Event) (hother : ∀ e ∈ es, Elsewhere e) (hfiles : w'.files = w.files)
      (hflushed : w'.flushed = w.flushed) (hes : w'.events = w.events ++ es)
  /-- Another process starts on the files that the dead one left. -/
  | restart (fn : Bytes → Code σ ℤ) (w₁ : World σ) (es : List Event) (hfn : Callback fn)
      (hrun : pwDbBufFlush fn w = (.exit, w₁)) (hfiles : w'.files = w₁.files)
      (hevents : w'.events = w₁.events) (hes : w₁.events = w.events ++ es) (hfaults : F.crash es)

def StoreRun (F : Faults) : World σ → World σ → Prop :=
  ReflTransGen (StoreStep F)

/-- No files yet, and nothing on record. -/
structure FreshStore (w : World σ) : Prop where
  files : w.files = ⟨none, none, none⟩
  events : w.events = []
  flushed : w.flushed = 0

def anyEvents (_ : List Event) : Prop := True

def never (_ : List Event) : Prop := False

/-- No file operation fails and nobody dies. -/
def noFaults : Faults :=
  ⟨AllOk, AllOk, never⟩

/-- Any file operation of a flush may fail. -/
def flushFaults : Faults :=
  ⟨AllOk, anyEvents, never⟩

def benignFaults : Faults :=
  ⟨AllOk, Benign, never⟩

/-- The process may die anywhere in a flush; until then every operation succeeds. -/
def Death (es : List Event) : Prop :=
  ∀ op o, Event.file op o ∈ es → o = .ok ∨ o = .died

def crashFaults : Faults :=
  ⟨AllOk, AllOk, Death⟩

def cleanCrashFaults : Faults :=
  ⟨AllOk, AllOk, CleanDeath⟩

/-! ## What a run keeps -/

/-- The lines spilled so far: those gone from the store, then those the spill file holds. -/
structure Stored (w : World σ) (gone ls : List Bytes) : Prop where
  holds : Holds w.files.spill ls
  spilled : spilledLines w.events = gone ++ ls

theorem Stored.storedLines_eq {w : World σ} {gone ls : List Bytes} (h : Stored w gone ls) :
    storedLines w.files.spill = ls :=
  h.holds.storedLines_eq

theorem FreshStore.stored {w : World σ} (h : FreshStore w) : Stored w [] [] := by
  refine ⟨?_, by simp [h.events, spilledLines]⟩
  rw [h.files]
  exact Holds.none

theorem spilledLines_elsewhere {es : List Event} (h : ∀ e ∈ es, Elsewhere e) :
    spilledLines es = [] := by
  apply List.filterMap_eq_nil_iff.mpr
  intro e he
  have := h e he
  cases e <;> simp_all [Elsewhere]

theorem replays_elsewhere {es : List Event} (h : ∀ e ∈ es, Elsewhere e) : replays es = [] := by
  apply List.filterMap_eq_nil_iff.mpr
  intro e he
  have := h e he
  cases e <;> simp_all [Elsewhere]

/-- A spill that returned, by the events it added. -/
theorem spillsBy_of_run {line : Bytes} {w w' : World σ} {rc : ℤ} {es : List Event}
    (hline : WholeLine line) (hrun : pwDbBufSpill line w = (.ret rc, w'))
    (hes : w'.events = w.events ++ es) : SpillsBy es w w' := by
  have h : Spills w (pwDbBufSpill line w).2 := keeps_pwDbBufSpill hline w
  rw [hrun] at h
  obtain ⟨es', hes'⟩ := h
  have : es = es' := List.append_cancel_left (hes.symm.trans hes'.events)
  rwa [this]

theorem FlushReturns.of_run {fn : Bytes → Code σ ℤ} {w w' : World σ} {rc : ℤ} {es : List Event}
    {ls : List Bytes} (hfn : Callback fn) (h : Holds w.files.spill ls)
    (hrun : pwDbBufFlush fn w = (.ret rc, w')) (hes : w'.events = w.events ++ es) :
    FlushReturns ls w es rc w' := by
  obtain ⟨es', hes'⟩ := (Prog.wp_iff_run.mp (wp_pwDbBufFlush hfn h)).1 rc w' hrun
  have : es = es' := List.append_cancel_left (hes.symm.trans hes'.events)
  rwa [this]

theorem FlushDies.of_run {fn : Bytes → Code σ ℤ} {w w' : World σ} {es : List Event}
    {ls : List Bytes} (hfn : Callback fn) (h : Holds w.files.spill ls)
    (hrun : pwDbBufFlush fn w = (.exit, w')) (hes : w'.events = w.events ++ es) :
    FlushDies ls w es w' := by
  obtain ⟨es', hes'⟩ := (Prog.wp_iff_run.mp (wp_pwDbBufFlush hfn h)).2 w' hrun
  have : es = es' := List.append_cancel_left (hes.symm.trans hes'.events)
  rwa [this]

theorem SpillsBy.stored {w w' : World σ} {es : List Event} {gone ls : List Bytes}
    (h : SpillsBy es w w') (hmild : Mild es) (hst : Stored w gone ls) :
    Stored w' gone (ls ++ spilledLines es) where
  holds := hst.holds.appended (h.spill hmild)
  spilled := by rw [h.events, spilledLines_append, hst.spilled, List.append_assoc]

theorem SpillsBy.consumedLines_eq {w w' : World σ} {es : List Event} (h : SpillsBy es w w') :
    consumedLines w'.events = consumedLines w.events := by
  rw [h.events, consumedLines_append, consumedLines, consumedLines, replays_aside h.aside]
  simp

/-- A flush that kept the rest of the lines moves the consumed ones to those gone. -/
theorem Kept.stored {w : World σ} (w' : World σ) {es : List Event} {gone ls : List Bytes}
    (h : Kept ls es w'.files) (hes : w'.events = w.events ++ es) (hst : Stored w gone ls) :
    ∃ more, Stored w' (gone ++ consumedLines es) more := by
  obtain ⟨more, hls, hholds⟩ := h
  refine ⟨more ++ spilledLines es, hholds, ?_⟩
  rw [hes, spilledLines_append, hst.spilled, hls]
  simp

/-- Other code keeps the store and its record. -/
theorem Stored.elsewhere {w w' : World σ} {es : List Event} {gone ls : List Bytes}
    (hst : Stored w gone ls) (hother : ∀ e ∈ es, Elsewhere e) (hfiles : w'.files = w.files)
    (hes : w'.events = w.events ++ es) : Stored w' gone ls where
  holds := by rw [hfiles]; exact hst.holds
  spilled := by rw [hes, spilledLines_append, spilledLines_elsewhere hother, hst.spilled]; simp

theorem consumedLines_elsewhere {es : List Event} (h : ∀ e ∈ es, Elsewhere e) :
    consumedLines es = [] := by
  rw [consumedLines, replays_elsewhere h]
  rfl

/-! ## Without faults -/

/-- A queue: the lines consumed and then those in the spill file are the lines spilled, with a
line that was refused last still in front. -/
structure Fifo (w : World σ) : Prop where
  inOrder : consumedLines w.events ++ storedLines w.files.spill = spilledLines w.events
  refusedFirst : ∀ l rc, (replays w.events).getLast? = some (l, rc) → rc ≠ 0 →
    (storedLines w.files.spill).head? = some l
  flushing : w.files.flushing = none
  rest : w.files.rest = none
  flushed : w.flushed = (consumedLines w.events).length

/-- `Fifo`, with the stored lines in the form in which a flush finds them. -/
structure Queue (w : World σ) (ls : List Bytes) : Prop where
  stored : Stored w (consumedLines w.events) ls
  refusedFirst : ∀ l rc, (replays w.events).getLast? = some (l, rc) → rc ≠ 0 → ls.head? = some l
  flushing : w.files.flushing = none
  rest : w.files.rest = none
  flushed : w.flushed = (consumedLines w.events).length

theorem Queue.fifo {w : World σ} {ls : List Bytes} (h : Queue w ls) : Fifo w where
  inOrder := by rw [h.stored.storedLines_eq, h.stored.spilled]
  refusedFirst := by simpa [h.stored.storedLines_eq] using h.refusedFirst
  flushing := h.flushing
  rest := h.rest
  flushed := h.flushed

theorem FreshStore.queue {w : World σ} (h : FreshStore w) : Queue w [] where
  stored := by simpa [h.events, consumedLines, replays] using h.stored
  refusedFirst := by simp [h.events, replays]
  flushing := by rw [h.files]
  rest := by rw [h.files]
  flushed := by simp [h.events, h.flushed, consumedLines, replays]

theorem SpillsBy.queue {w w' : World σ} {es : List Event} {ls : List Bytes}
    (h : SpillsBy es w w') (hok : AllOk es) (hq : Queue w ls) :
    Queue w' (ls ++ spilledLines es) where
  stored := by
    rw [h.consumedLines_eq]
    exact h.stored hok.benign.mild hq.stored
  refusedFirst := by
    intro l rc hlast hrc
    rw [h.events, replays_append, replays_aside h.aside, List.append_nil] at hlast
    simp [hq.refusedFirst l rc hlast hrc]
  flushing := h.flushing.trans hq.flushing
  rest := h.rest.trans hq.rest
  flushed := by rw [h.flushed, hq.flushed, h.consumedLines_eq]

/-- The last line a flush offered is first of those it kept, if it was refused. -/
theorem Offered.head? {ls more : List Bytes} {es : List Event} (h : Offered ls es)
    (hls : ls = consumedLines es ++ more) {l : Bytes} {rc : ℤ}
    (hlast : (replays es).getLast? = some (l, rc)) (hrc : rc ≠ 0) : more.head? = some l := by
  obtain ⟨done, more', refused, hsplit, haccepts, hfirst⟩ := h
  rw [haccepts.consumedLines_eq] at hls
  have hmore : more = more' := List.append_cancel_left (hls.symm.trans hsplit)
  cases haccepts with
  | all hrs =>
      rw [hrs, List.getLast?_map, Option.map_eq_some_iff] at hlast
      obtain ⟨_, _, hpair⟩ := hlast
      exact absurd (Prod.mk.inj hpair).2.symm hrc
  | refused m rc' _ hrs =>
      rw [hrs, List.getLast?_concat, Option.some.injEq, Prod.mk.injEq] at hlast
      rw [hmore, ← hlast.1]
      exact hfirst m rfl

theorem FlushReturns.queue {w w' : World σ} {es : List Event} {ls : List Bytes} {rc : ℤ}
    (h : FlushReturns ls w es rc w') (hok : AllOk es) (hq : Queue w ls) : ∃ ls', Queue w' ls' := by
  obtain ⟨more, hls, hholds⟩ := h.inOrder hok
  have hconsumed : consumedLines w'.events = consumedLines w.events ++ consumedLines es := by
    rw [h.events, consumedLines_append]
  refine ⟨more ++ spilledLines es, ⟨hholds, ?_⟩, ?_, ?_, ?_, ?_⟩
  · rw [hconsumed, h.events, spilledLines_append, hq.stored.spilled, hls]
    simp
  · intro l rc' hlast hrc'
    rw [h.events, replays_append, List.getLast?_append] at hlast
    cases hown : (replays es).getLast? with
    | none =>
        have hnone : consumedLines es = [] := by
          rw [consumedLines, List.getLast?_eq_none_iff.mp hown]
          rfl
        rw [hown, Option.none_or] at hlast
        have hfirst := hq.refusedFirst l rc' hlast hrc'
        rw [hls, hnone, List.nil_append] at hfirst
        simp [hfirst]
    | some r =>
        rw [hown, Option.some_or] at hlast
        have hfirst := h.offered.head? hls (hown.trans hlast) hrc'
        simp [hfirst]
  · exact (h.clean hok hq.flushing hq.rest).1
  · exact (h.clean hok hq.flushing hq.rest).2
  · rw [h.flushed, hq.flushed, hconsumed, List.length_append]

theorem StoreStep.queue {w w' : World σ} (h : StoreStep noFaults w w') {ls : List Bytes}
    (hq : Queue w ls) : ∃ ls', Queue w' ls' := by
  cases h with
  | spill line rc es hline hrun hes hok =>
      exact ⟨_, (spillsBy_of_run hline hrun hes).queue hok hq⟩
  | flush fn rc es hfn hrun hes hok =>
      exact (FlushReturns.of_run hfn hq.stored.holds hrun hes).queue hok hq
  | elsewhere es hother hfiles hflushed hes =>
      have hconsumed : consumedLines w'.events = consumedLines w.events := by
        rw [hes, consumedLines_append, consumedLines_elsewhere hother, List.append_nil]
      refine ⟨ls, ?_, ?_, by rw [hfiles, hq.flushing], by rw [hfiles, hq.rest], ?_⟩
      · rw [hconsumed]
        exact hq.stored.elsewhere hother hfiles hes
      · rw [hes, replays_append, replays_elsewhere hother, List.append_nil]
        exact hq.refusedFirst
      · rw [hflushed, hq.flushed, hconsumed]
  | restart fn w₁ es hfn hrun hfiles hevents hes hdead => exact hdead.elim

/-- As long as no file operation fails the store is a queue. -/
theorem fifo_of_run {w₀ w : World σ} (h₀ : FreshStore w₀) (hrun : StoreRun noFaults w₀ w) :
    Fifo w := by
  have hqueue : ∃ ls, Queue w ls := by
    induction hrun with
    | refl => exact ⟨[], h₀.queue⟩
    | tail _ hstep ih =>
        obtain ⟨ls, hls⟩ := ih
        exact hstep.queue hls
  obtain ⟨ls, hls⟩ := hqueue
  exact hls.fifo

/-- A connected process on an unused spill path, by how its file operations go. -/
def unusedStore (file : ℕ → FileAnswer) : World Unit where
  env := ⟨fun _ _ _ => .done true, fun _ => true, fun _ => true, fun _ => 1, file⟩
  tick := 0
  files := ⟨none, none, none⟩
  conn := some Session.fresh
  online := true
  lastReconnectTry := 0
  spilled := 0
  flushed := 0
  spillDropped := 0
  user := ()
  events := []

theorem freshStore_unusedStore (file : ℕ → FileAnswer) : FreshStore (unusedStore file) :=
  ⟨rfl, rfl, rfl⟩

/-- The line `x` spilled in an unused store. -/
def spilledX (file : ℕ → FileAnswer) : World Unit :=
  (pwDbBufSpill [0x78] (unusedStore file)).2

/-- A callback that answers the same to every line. -/
def answering (rc : ℤ) (_ : Bytes) : Code Unit ℤ :=
  return rc

theorem callback_answering (rc : ℤ) : Callback (answering rc) :=
  fun _ => Prog.keeps_pure rc

def smooth (_ : ℕ) : FileAnswer :=
  ⟨false, true, true, 0⟩

theorem allOk_of_all {es : List Event}
    (h : es.all fun | .file _ o => decide (o = .ok) | _ => true) : AllOk es := by
  intro op o he
  simpa using List.all_eq_true.mp h _ he

theorem wholeLine_x : WholeLine [0x78] := by
  decide +kernel

theorem storeRun_spilledX {F : Faults} (hF : F.spill = AllOk) {file : ℕ → FileAnswer}
    (hrun : (pwDbBufSpill [0x78] (unusedStore file)).1 = .ret 0)
    (hes : (spilledX file).events = [.file (.openAppend .spill) .ok, .file (.write .spill) .ok,
      .spilled [0x78] true]) : StoreRun F (unusedStore file) (spilledX file) :=
  .single (.spill [0x78] 0 _ wholeLine_x (Prog.eq_of_outcome hrun) hes
    (hF ▸ allOk_of_all (by decide)))

theorem storeStep_flush {F : Faults} {fn : Bytes → Code σ ℤ} (hfn : Callback fn) {w : World σ}
    {rc : ℤ} {es : List Event} (hflush : (pwDbBufFlush fn w).1 = .ret rc ∧
      (pwDbBufFlush fn w).2.events = w.events ++ es) (hfaults : F.flush es) :
    StoreStep F w (pwDbBufFlush fn w).2 :=
  .flush fn rc es hfn (Prog.eq_of_outcome hflush.1) hflush.2 hfaults

theorem pwDbBufFlush_refused :
    (pwDbBufFlush (answering 1) (spilledX smooth)).1 = .ret 1 ∧
      (pwDbBufFlush (answering 1) (spilledX smooth)).2.events = (spilledX smooth).events ++
        [.file (.rename .spill .flushing) .ok, .file (.openRead .flushing) .ok,
          .replayed [0x78] 1, .file (.openWrite .rest) .ok, .file (.write .rest) .ok,
          .file (.openRead .spill) .ok, .file (.openAppend .rest) .ok, .file (.unlink .spill) .ok,
          .file (.rename .rest .spill) .ok, .file (.unlink .flushing) .ok] := by
  decide +kernel

theorem fifo_of_run_refused : Fifo (pwDbBufFlush (answering 1) (spilledX smooth)).2 := by
  apply fifo_of_run (freshStore_unusedStore smooth)
  exact (storeRun_spilledX rfl rfl rfl).tail
    (storeStep_flush (callback_answering 1) pwDbBufFlush_refused (allOk_of_all rfl))

/-! ## With faults -/

/-- A line was spilled, nobody consumed it, and it is in none of the files. -/
structure Lost (w : World σ) (line : Bytes) : Prop where
  spilled : line ∈ spilledLines w.events
  unconsumed : line ∉ consumedLines w.events
  nowhere : ∀ p, line ∉ storedLines (w.files.get p)

/-- Every flush hands the stored lines to its callback from the first one on. Over a live
connection and without a failure it leaves a line out only behind a refusal. -/
def OffersStored (w : World σ) : Prop :=
  ∀ fn, Callback fn → ∀ rc w', pwDbBufFlush fn w = (.ret rc, w') →
    ∃ es, w'.events = w.events ++ es ∧ Offered (storedLines w.files.spill) es ∧
      (AllOk es → w.online = true → connOk w.conn = true →
        consumedLines es = storedLines w.files.spill ∨ ∃ l r, (l, r) ∈ replays es ∧ r ≠ 0)

/-- All lines that were not consumed are in the spill file, in order, and get offered. -/
structure SafeStore (w : World σ) : Prop where
  kept : ∃ gone, spilledLines w.events = gone ++ storedLines w.files.spill ∧
    gone.Sublist (consumedLines w.events)
  offers : OffersStored w

theorem SafeStore.not_lost {w : World σ} (h : SafeStore w) (line : Bytes) : ¬ Lost w line := by
  intro hlost
  obtain ⟨gone, hspilled, hgone⟩ := h.kept
  have hmem := hlost.spilled
  rw [hspilled, List.mem_append] at hmem
  cases hmem with
  | inl hmem => exact hlost.unconsumed (hgone.subset hmem)
  | inr hmem => exact hlost.nowhere .spill hmem

theorem Stored.offers {w : World σ} {gone ls : List Bytes} (h : Stored w gone ls) :
    OffersStored w := by
  intro fn hfn rc w' hrun
  obtain ⟨es, hes⟩ := (Prog.wp_iff_run.mp (wp_pwDbBufFlush hfn h.holds)).1 rc w' hrun
  rw [h.storedLines_eq]
  refine ⟨es, hes.events, hes.offered, fun hok hon hconn => ?_⟩
  cases hes.prompt hok hon hconn with
  | inl hrc => exact .inl (hes.complete hrc)
  | inr hrefused => exact .inr hrefused

theorem Stored.safe {w : World σ} {gone ls : List Bytes} (h : Stored w gone ls)
    (hgone : gone.Sublist (consumedLines w.events)) : SafeStore w where
  kept := ⟨gone, by rw [h.storedLines_eq, h.spilled], hgone⟩
  offers := h.offers

theorem StoreStep.benign {w w' : World σ} (h : StoreStep benignFaults w w') {gone ls : List Bytes}
    (hst : Stored w gone ls) (hgone : gone.Sublist (consumedLines w.events)) :
    ∃ gone' ls', Stored w' gone' ls' ∧ gone'.Sublist (consumedLines w'.events) := by
  cases h with
  | spill line rc es hline hrun hes hok =>
      have hspills := spillsBy_of_run hline hrun hes
      refine ⟨gone, _, hspills.stored hok.benign.mild hst, ?_⟩
      rwa [hspills.consumedLines_eq]
  | flush fn rc es hfn hrun hes hbenign =>
      have hflush := FlushReturns.of_run hfn hst.holds hrun hes
      have hconsumed : consumedLines w'.events = consumedLines w.events ++ consumedLines es := by
        rw [hes, consumedLines_append]
      cases hflush.kept hbenign with
      | inl hkept =>
          obtain ⟨more, hmore⟩ := hkept.stored w' hes hst
          refine ⟨_, more, hmore, ?_⟩
          rw [hconsumed]
          exact hgone.append_right _
      | inr hback =>
          -- the claim is back as it was: what was consumed of it will be offered once more
          obtain ⟨hholds, hnone⟩ := hback
          refine ⟨gone, ls, ⟨hholds, ?_⟩, ?_⟩
          · rw [hes, spilledLines_append, hnone, List.append_nil, hst.spilled]
          · rw [hconsumed]
            exact hgone.trans (List.sublist_append_left _ _)
  | elsewhere es hother hfiles hflushed hes =>
      refine ⟨gone, ls, hst.elsewhere hother hfiles hes, ?_⟩
      rwa [hes, consumedLines_append, consumedLines_elsewhere hother, List.append_nil]
  | restart fn w₁ es hfn hrun hfiles hevents hes hdead => exact hdead.elim

/-- Failures that cost no line in one flush cost none in a run: what is renamed back to the spill
file gets there, a failed append leaves nothing, `fclose` reports what `.rest` misses, and where
the remainder is not written nothing was spilled meanwhile. -/
theorem safeStore_of_run {w₀ w : World σ} (h₀ : FreshStore w₀)
    (hrun : StoreRun benignFaults w₀ w) : SafeStore w := by
  have hstored : ∃ gone ls, Stored w gone ls ∧ gone.Sublist (consumedLines w.events) := by
    induction hrun with
    | refl => exact ⟨[], [], h₀.stored, List.nil_sublist _⟩
    | tail _ hstep ih =>
        obtain ⟨gone, ls, hst, hgone⟩ := ih
        exact hstep.benign hst hgone
  obtain ⟨gone, ls, hst, hgone⟩ := hstored
  exact hst.safe hgone

/-- The operation number `n` fails. -/
def failing (bad : List ℕ) (n : ℕ) : FileAnswer :=
  ⟨false, decide (n ∉ bad), true, 0⟩

theorem benign_of_all {es : List Event} (h : es.all fun | .file op o => harmless op o | _ => true) :
    Benign es where
  mild := by
    intro op o he
    exact .inl (by simpa using List.all_eq_true.mp h _ he)
  alone := by
    intro op o he hrest
    have hharmless : harmless op o = true := by simpa using List.all_eq_true.mp h _ he
    simp [restFailure_of_harmless hharmless] at hrest

theorem wholeLine_y : WholeLine [0x79] := by
  decide +kernel

/-- A callback that spills the line `y` and refuses. -/
def spillingY (_ : Bytes) : Code Unit ℤ := do
  let _ ← pwDbBufSpill [0x79]
  return 1

theorem callback_spillingY : Callback spillingY :=
  fun _ => Prog.keeps_bind (keeps_pwDbBufSpill wholeLine_y) fun _ => Prog.keeps_pure 1

/-- The line `x` behind a flush whose claim cannot be opened and is put back. -/
def backX : World Unit :=
  (pwDbBufFlush (answering 0) (spilledX (failing [3, 8]))).2

/-- Another flush, during which a line cannot be written to the spill file. -/
def unwrittenY : World Unit :=
  (pwDbBufFlush spillingY backX).2

theorem pwDbBufFlush_backX :
    (pwDbBufFlush (answering 0) (spilledX (failing [3, 8]))).1 = .ret (-1) ∧
      backX.events = (spilledX (failing [3, 8])).events ++ [.file (.rename .spill .flushing) .ok,
        .file (.openRead .flushing) .failed, .file (.rename .flushing .spill) .ok] := by
  decide +kernel

theorem pwDbBufFlush_unwrittenY :
    (pwDbBufFlush spillingY backX).1 = .ret 1 ∧
      unwrittenY.events = backX.events ++ [.file (.rename .spill .flushing) .ok,
        .file (.openRead .flushing) .ok, .file (.openAppend .spill) .ok,
        .file (.write .spill) (.unwritten false), .spilled [0x79] false, .replayed [0x78] 1,
        .file (.openWrite .rest) .ok, .file (.write .rest) .ok, .file (.openRead .spill) .ok,
        .file (.openAppend .rest) .ok, .file (.write .rest) .ok, .file (.unlink .spill) .ok,
        .file (.rename .rest .spill) .ok, .file (.unlink .flushing) .ok] := by
  decide +kernel

theorem safeStore_of_run_unwritten : SafeStore unwrittenY := by
  apply safeStore_of_run (freshStore_unusedStore (failing [3, 8]))
  refine ReflTransGen.tail (b := backX) ?_
    (storeStep_flush callback_spillingY pwDbBufFlush_unwrittenY (benign_of_all rfl))
  exact (storeRun_spilledX rfl rfl rfl).tail
    (storeStep_flush (callback_answering 0) pwDbBufFlush_backX (benign_of_all rfl))

/-- A claim can be neither opened nor put back, and the next flush takes it for a leftover. -/
theorem not_forall_flushFaults_not_lost :
    ¬ ∀ w₀ w : World Unit, FreshStore w₀ → StoreRun flushFaults w₀ w → ∀ line, ¬ Lost w line := by
  intro h
  let w₁ := spilledX (failing [3, 4])
  let w₂ := (pwDbBufFlush (answering 0) w₁).2
  let w₃ := (pwDbBufFlush (answering 0) w₂).2
  have hclaim : (pwDbBufFlush (answering 0) w₁).1 = .ret (-1) ∧
      w₂.events = w₁.events ++ [.file (.rename .spill .flushing) .ok,
        .file (.openRead .flushing) .failed, .file (.rename .flushing .spill) .failed] := by
    decide +kernel
  have hdiscard : (pwDbBufFlush (answering 0) w₂).1 = .ret 0 ∧
      w₃.events = w₂.events ++ [.file (.rename .spill .flushing) .ok,
        .file (.unlink .flushing) .ok, .file (.unlink .rest) .ok] := by
    decide +kernel
  have hlost : [0x78] ∈ spilledLines w₃.events ∧ [0x78] ∉ consumedLines w₃.events ∧
      ∀ p ∈ [.spill, .flushing, .rest], [0x78] ∉ storedLines (w₃.files.get p) := by
    decide +kernel
  apply h (unusedStore (failing [3, 4])) w₃ (freshStore_unusedStore _)
    (((storeRun_spilledX rfl rfl rfl).tail
      (storeStep_flush (callback_answering 0) hclaim trivial)).tail
      (storeStep_flush (callback_answering 0) hdiscard trivial)) [0x78]
  exact ⟨hlost.1, hlost.2.1, fun p => hlost.2.2 p (by cases p <;> simp)⟩

/-! ## With crashes -/

theorem StoreStep.cleanCrash {w w' : World σ} (h : StoreStep cleanCrashFaults w w')
    {ls : List Bytes} (hst : Stored w (consumedLines w.events) ls) :
    ∃ ls', Stored w' (consumedLines w'.events) ls' := by
  cases h with
  | spill line rc es hline hrun hes hok =>
      have hspills := spillsBy_of_run hline hrun hes
      rw [hspills.consumedLines_eq]
      exact ⟨_, hspills.stored hok.benign.mild hst⟩
  | flush fn rc es hfn hrun hes hok =>
      rw [hes, consumedLines_append]
      exact ((FlushReturns.of_run hfn hst.holds hrun hes).inOrder hok).stored w' hes hst
  | elsewhere es hother hfiles hflushed hes =>
      refine ⟨ls, ?_⟩
      rw [hes, consumedLines_append, consumedLines_elsewhere hother, List.append_nil]
      exact hst.elsewhere hother hfiles hes
  | restart fn w₁ es hfn hrun hfiles hevents hes hdead =>
      have hkept := (FlushDies.of_run hfn hst.holds hrun hes).kept hdead
      rw [← hfiles] at hkept
      rw [hevents, hes, consumedLines_append]
      exact hkept.stored w' (hevents.trans hes) hst

/-- Deaths at the claiming rename, or behind the last operation that matters, cost nothing. -/
theorem safeStore_of_crashes {w₀ w : World σ} (h₀ : FreshStore w₀)
    (hrun : StoreRun cleanCrashFaults w₀ w) :
    consumedLines w.events ++ storedLines w.files.spill = spilledLines w.events ∧
      OffersStored w := by
  have hstored : ∃ ls, Stored w (consumedLines w.events) ls := by
    induction hrun with
    | refl =>
        have hnone : consumedLines ([] : List Event) = [] := rfl
        exact ⟨[], by simpa [h₀.events, hnone] using h₀.stored⟩
    | tail _ hstep ih =>
        obtain ⟨ls, hst⟩ := ih
        exact hstep.cleanCrash hst
  obtain ⟨ls, hst⟩ := hstored
  exact ⟨by rw [hst.storedLines_eq, hst.spilled], hst.offers⟩

/-- The process dies at the operation number `n`. -/
def dying (n : ℕ) (k : ℕ) : FileAnswer :=
  ⟨decide (k = n), true, true, 0⟩

/-- Another process on the files the dead one left. -/
def restarted (w : World Unit) : World Unit :=
  { w with env := (unusedStore smooth).env, flushed := 0 }

/-- A flush in which the process dies at its operation number `n` of the run. -/
def deadStore (n : ℕ) : World Unit :=
  (pwDbBufFlush (answering 0) (spilledX (dying n))).2

theorem storeStep_restarted {F : Faults} {n : ℕ} {es : List Event}
    (hdead : (pwDbBufFlush (answering 0) (spilledX (dying n))).1 = .exit ∧
      (deadStore n).events = (spilledX (dying n)).events ++ es) (hfaults : F.crash es) :
    StoreStep F (spilledX (dying n)) (restarted (deadStore n)) :=
  .restart (answering 0) (deadStore n) es (callback_answering 0) (Prog.eq_of_outcome hdead.1) rfl
    rfl hdead.2 hfaults

theorem pwDbBufFlush_drained :
    (pwDbBufFlush (answering 0) (spilledX (dying 4))).1 = .exit ∧
      (deadStore 4).events = (spilledX (dying 4)).events ++
        [.file (.rename .spill .flushing) .ok, .file (.openRead .flushing) .ok,
          .replayed [0x78] 0, .file (.unlink .flushing) .died] := by
  decide +kernel

/-- Death at the removal of a drained claim. -/
theorem safeStore_of_crashes_drained :
    consumedLines (restarted (deadStore 4)).events ++
        storedLines (restarted (deadStore 4)).files.spill =
      spilledLines (restarted (deadStore 4)).events ∧ OffersStored (restarted (deadStore 4)) := by
  apply safeStore_of_crashes (freshStore_unusedStore (dying 4))
  exact (storeRun_spilledX rfl rfl rfl).tail (storeStep_restarted pwDbBufFlush_drained
    ⟨[.file (.rename .spill .flushing) .ok, .file (.openRead .flushing) .ok, .replayed [0x78] 0],
      .unlink .flushing, rfl, allOk_of_all rfl, rfl⟩)

/-- Death between the claim and its opening: the next flush takes the claim for a leftover. -/
theorem not_forall_crashFaults_not_lost :
    ¬ ∀ w₀ w : World Unit, FreshStore w₀ → StoreRun crashFaults w₀ w → ∀ line, ¬ Lost w line := by
  intro h
  let w₁ := restarted (deadStore 3)
  let w₂ := (pwDbBufFlush (answering 0) w₁).2
  have hdead : (pwDbBufFlush (answering 0) (spilledX (dying 3))).1 = .exit ∧
      (deadStore 3).events = (spilledX (dying 3)).events ++
        [.file (.rename .spill .flushing) .ok, .file (.openRead .flushing) .died] := by
    decide +kernel
  have hdiscard : (pwDbBufFlush (answering 0) w₁).1 = .ret 0 ∧
      w₂.events = w₁.events ++ [.file (.rename .spill .flushing) .ok,
        .file (.unlink .flushing) .ok, .file (.unlink .rest) .ok] := by
    decide +kernel
  have hlost : [0x78] ∈ spilledLines w₂.events ∧ [0x78] ∉ consumedLines w₂.events ∧
      ∀ p ∈ [.spill, .flushing, .rest], [0x78] ∉ storedLines (w₂.files.get p) := by
    decide +kernel
  have hdeath : Death [.file (.rename .spill .flushing) .ok, .file (.openRead .flushing) .died] := by
    intro op o he
    simp only [List.mem_cons, Event.file.injEq, List.not_mem_nil, or_false] at he
    rcases he with ⟨-, rfl⟩ | ⟨-, rfl⟩ <;> decide
  apply h (unusedStore (dying 3)) w₂ (freshStore_unusedStore _)
    (((storeRun_spilledX rfl rfl rfl).tail (storeStep_restarted hdead hdeath)).tail
      (storeStep_flush (callback_answering 0) hdiscard (allOk_of_all rfl))) [0x78]
  exact ⟨hlost.1, hlost.2.1, fun p => hlost.2.2 p (by cases p <;> simp)⟩

end ProcWatch

import ProcWatch.Verification.Store.Trace

/-! # What a flush does to the store -/

namespace ProcWatch

open CLib

variable {σ : Type}

/-! ## Spilling -/

/-- Events of code that neither flushes nor touches a file but to spill. -/
def Aside : Event → Prop
  | .replayed _ _ => False
  | .file op _ => op = .openAppend .spill ∨ op = .write .spill
  | _ => True

theorem replays_aside {es : List Event} (h : ∀ e ∈ es, Aside e) : replays es = [] := by
  apply List.filterMap_eq_nil_iff.mpr
  intro e he
  have := h e he
  cases e <;> simp_all [Aside]

/-- The lines `ls`, each complete, follow what a file held. -/
structure Appended (content content' : Option Bytes) (ls : List Bytes) : Prop where
  text : content'.getD [] = content.getD [] ++ unlines ls
  whole : ∀ l ∈ ls, WholeLine l

theorem Appended.refl (content : Option Bytes) : Appended content content [] :=
  ⟨by simp [unlines], by simp⟩

theorem Appended.trans {c c' c'' : Option Bytes} {ls ls' : List Bytes} (h : Appended c c' ls)
    (h' : Appended c' c'' ls') : Appended c c'' (ls ++ ls') := by
  refine ⟨by rw [h'.text, h.text, unlines_append, List.append_assoc], ?_⟩
  intro l hl
  cases List.mem_append.mp hl with
  | inl hl => exact h.whole l hl
  | inr hl => exact h'.whole l hl

theorem Holds.appended {c c' : Option Bytes} {ls more : List Bytes} (h : Holds c ls)
    (h' : Appended c c' more) : Holds c' (ls ++ more) :=
  h.append h'.text h'.whole

/-- The events `es` were added, and nothing happened to the store but that the lines they
record as spilled went into the spill file. -/
structure SpillsBy (es : List Event) (w w' : World σ) : Prop where
  events : w'.events = w.events ++ es
  aside : ∀ e ∈ es, Aside e
  flushed : w'.flushed = w.flushed
  flushing : w'.files.flushing = w.files.flushing
  rest : w'.files.rest = w.files.rest
  spill : Mild es → Appended w.files.spill w'.files.spill (spilledLines es)

def Spills (w w' : World σ) : Prop :=
  ∃ es, SpillsBy es w w'

theorem SpillsBy.trans {es es' : List Event} {w w' w'' : World σ} (h : SpillsBy es w w')
    (h' : SpillsBy es' w' w'') : SpillsBy (es ++ es') w w'' where
  events := by rw [h'.events, h.events, List.append_assoc]
  aside := by
    intro e he
    cases List.mem_append.mp he with
    | inl he => exact h.aside e he
    | inr he => exact h'.aside e he
  flushed := h'.flushed.trans h.flushed
  flushing := h'.flushing.trans h.flushing
  rest := h'.rest.trans h.rest
  spill := by
    intro hmild
    obtain ⟨hes, hes'⟩ := mild_append.mp hmild
    rw [spilledLines_append]
    exact (h.spill hes).trans (h'.spill hes')

instance : IsPreorder (World σ) Spills where
  refl := fun w => ⟨[], by simp, by simp, rfl, rfl, rfl, fun _ => Appended.refl _⟩
  trans := fun _ _ _ ⟨es, h⟩ ⟨es', h'⟩ => ⟨es ++ es', h.trans h'⟩

/-- A callback that leaves the store alone but for whole lines it may spill. -/
def Callback (fn : Bytes → Code σ ℤ) : Prop :=
  ∀ line, Prog.Keeps Spills (fn line)

theorem keeps_of_wp {α : Type} {R : World σ → World σ → Prop} {m : Code σ α}
    (h : ∀ w, Prog.wp m (fun _ w' => R w w') (fun w' => R w w') w) : Prog.Keeps R m := by
  intro w
  have hw := h w
  rw [Prog.wp] at hw
  cases hm : m w with
  | mk o w' =>
      rw [hm] at hw
      cases o <;> exact hw

theorem keeps_pwDbBufSpill {line : Bytes} (h : WholeLine line) :
    Prog.Keeps Spills (pwDbBufSpill line : Code σ ℤ) := by
  apply keeps_of_wp
  intro w
  have hcstr : cstr line ++ [0x0a] = unlines [line] := by
    simp [unlines, h.oneLine.cstr_eq]
  have hopen (o : FileOutcome) : Aside (.file (.openAppend .spill) o) := .inl rfl
  have hwrite (o : FileOutcome) : Aside (.file (.write .spill) o) := .inr rfl
  have hspilled (ok : Bool) : Aside (.spilled line ok) := trivial
  apply wp_pwDbBufSpill
  · exact ⟨[.file (.openAppend .spill) .died], rfl, by simp [hopen], rfl, rfl, rfl,
      fun _ => Appended.refl _⟩
  · intro left
    exact ⟨[.file (.openAppend .spill) .ok, .file (.write .spill) .died], by simp,
      by simp [hopen, hwrite], rfl, rfl, rfl, fun hmild => absurd hmild
        (not_mild_of_mem (.write .spill) .died (by simp) ⟨rfl, rfl⟩)⟩
  · refine ⟨[.file (.openAppend .spill) .ok, .file (.write .spill) .ok, .spilled line true],
      by simp, by simp [hopen, hwrite, hspilled], rfl, rfl, rfl, fun _ => ⟨?_, ?_⟩⟩
    · simp [Files.set, hcstr, spilledLines]
    · simpa [spilledLines] using h
  · exact ⟨[.file (.openAppend .spill) .failed, .spilled line false], by simp,
      by simp [hopen, hspilled], rfl, rfl, rfl, fun _ => Appended.refl _⟩
  · intro closed left
    refine ⟨[.file (.openAppend .spill) .ok, .file (.write .spill) (uncleanWrite left closed),
      .spilled line false], by simp, by simp [hopen, hwrite, hspilled], rfl, rfl, rfl,
      fun hmild => ?_⟩
    have hleft : left = [] := eq_nil_of_harmless (mild_file.mp (mild_file.mp hmild).2).1
    exact ⟨by simp [Files.set, hleft, spilledLines, unlines], by simp [spilledLines]⟩

/-! ## The loop over the claimed lines -/

theorem not_cleanDeath_of_aside {es : List Event} (h : ∀ e ∈ es, Aside e) : ¬ CleanDeath es := by
  rintro ⟨before, op, rfl, -, hsafe⟩
  have hop : op = .openAppend .spill ∨ op = .write .spill := h (.file op .died) (by simp)
  rcases hop with rfl | rfl <;> simp [safePoint] at hsafe

/-- How the loop over the claimed lines `ls` ends, with the events `es`. -/
inductive LoopResult (ls : List Bytes) (es : List Event) (f f' : Files) : Drain → Prop where
  | drained (haccepts : Accepts ls (replays es) none)
      (hspill : Mild es → Appended f.spill f'.spill (spilledLines es)) :
      LoopResult ls es f f' .drained
  | stopped (done : List Bytes) (l : Bytes) (more : List Bytes) (hsplit : ls = done ++ l :: more)
      (haccepts : Accepts done (replays es) (some l))
      (hspill : Mild es → Appended f.spill f'.spill (spilledLines es))
      (hrest : Mild es → f'.rest = some (unlines (l :: more))) :
      LoopResult ls es f f' .stopped
  | failed (done : List Bytes) (l : Bytes) (more : List Bytes) (hsplit : ls = done ++ l :: more)
      (haccepts : Accepts done (replays es) (some l))
      (hfailure : ∃ op o, Event.file op o ∈ es ∧ restFailure op o = true)
      (hback : Mild es → f'.spill = f.flushing) :
      LoopResult ls es f f' .failed

/-- What became of a refused line `l`, offered in `w`, and the lines `more` behind it. -/
def RestWritten (l : Bytes) (more : List Bytes) (w : World σ) (r : Drain) (w' : World σ) : Prop :=
  ∃ es, w'.events = w.events ++ es ∧ w'.flushed = w.flushed ∧ replays es = [] ∧
    spilledLines es = [] ∧
    (r = .stopped ∧ w'.files.spill = w.files.spill ∧
        (Mild es → w'.files.rest = some (unlines (l :: more))) ∨
      r = .failed ∧ (∃ op o, Event.file op o ∈ es ∧ restFailure op o = true) ∧
        (Mild es → w'.files.spill = w.files.flushing))

/-- The remainder cannot be written, and the claim is put back. -/
theorem wp_abandonRest {l : Bytes} {more : List Bytes} {w w₁ : World σ} {c : Bytes}
    {o : FileOutcome} (ho : restFailure (.write .rest) o = true)
    (hclaim : w.files.flushing = some c ∧ w₁.files.flushing = some c)
    (hevents : w₁.events = w.events ++ [.file (.openWrite .rest) .ok, .file (.write .rest) o])
    (hflushed : w₁.flushed = w.flushed) :
    Prog.wp (do
        let _ ← rename .flushing .spill
        unlink .rest
        return .failed)
      (RestWritten l more w)
      (fun w' => ∃ es, w'.events = w.events ++ es ∧ ¬ CleanDeath es) w₁ := by
  have hnot : o ≠ .ok := by
    rintro rfl
    simp [restFailure] at ho
  have hfailure (es : List Event) : ∃ op o', Event.file op o' ∈
      .file (.openWrite .rest) .ok :: .file (.write .rest) o :: es ∧ restFailure op o' = true :=
    ⟨.write .rest, o, by simp, ho⟩
  simp only [Prog.wp_bind]
  apply wp_rename
  · exact ⟨[.file (.openWrite .rest) .ok, .file (.write .rest) o,
      .file (.rename .flushing .spill) .died], by simp [hevents],
      not_cleanDeath_of_exposed (by rfl) [_, _]⟩
  · intro hnone
    simp [Files.get, hclaim.2] at hnone
  · intro content hcontent
    have hback : content = c := by
      simpa [Files.get, hclaim.2] using hcontent.symm
    apply wp_unlink
    · exact ⟨[.file (.openWrite .rest) .ok, .file (.write .rest) o,
        .file (.rename .flushing .spill) .ok, .file (.unlink .rest) .died], by simp [hevents],
        not_cleanDeath_of_mem [_, _, _] (.write .rest) o (by simp) hnot⟩
    · exact ⟨[.file (.openWrite .rest) .ok, .file (.write .rest) o,
        .file (.rename .flushing .spill) .ok, .file (.unlink .rest) .ok], by simp [hevents],
        hflushed, rfl, rfl, .inr ⟨rfl, hfailure _, fun _ => by simp [Files.set, hback, hclaim.1]⟩⟩
    · exact ⟨[.file (.openWrite .rest) .ok, .file (.write .rest) o,
        .file (.rename .flushing .spill) .ok, .file (.unlink .rest) .failed], by simp [hevents],
        hflushed, rfl, rfl, .inr ⟨rfl, hfailure _, fun _ => by simp [Files.set, hback, hclaim.1]⟩⟩
  · intro content _
    have hlost (es : List Event) : ¬ Mild (.file (.openWrite .rest) .ok ::
        .file (.write .rest) o :: .file (.rename .flushing .spill) .failed :: es) :=
      not_mild_of_mem (.rename .flushing .spill) .failed (by simp) ⟨rfl, rfl⟩
    apply wp_unlink
    · exact ⟨[.file (.openWrite .rest) .ok, .file (.write .rest) o,
        .file (.rename .flushing .spill) .failed, .file (.unlink .rest) .died], by simp [hevents],
        not_cleanDeath_of_mem [_, _, _] (.write .rest) o (by simp) hnot⟩
    · exact ⟨[.file (.openWrite .rest) .ok, .file (.write .rest) o,
        .file (.rename .flushing .spill) .failed, .file (.unlink .rest) .ok], by simp [hevents],
        hflushed, rfl, rfl, .inr ⟨rfl, hfailure _, fun hmild => absurd hmild (hlost _)⟩⟩
    · exact ⟨[.file (.openWrite .rest) .ok, .file (.write .rest) o,
        .file (.rename .flushing .spill) .failed, .file (.unlink .rest) .failed],
        by simp [hevents], hflushed, rfl, rfl,
        .inr ⟨rfl, hfailure _, fun hmild => absurd hmild (hlost _)⟩⟩

theorem wp_writeRest {l : Bytes} {more : List Bytes} (hl : WholeLine l) {w : World σ} {c : Bytes}
    (hclaim : w.files.flushing = some c) :
    Prog.wp (writeRest l (more.map (· ++ [0x0a])) : Code σ Drain)
      (RestWritten l more w)
      (fun w' => ∃ es, w'.events = w.events ++ es ∧ ¬ CleanDeath es) w := by
  have htext : cstr l ++ 0x0a :: (more.map (· ++ [0x0a])).flatten = unlines (l :: more) := by
    rw [hl.oneLine.cstr_eq, unlines_cons, unlines_eq_flatten]
  simp only [writeRest, Prog.wp_bind, htext]
  apply wp_openWrite
  · exact ⟨[.file (.openWrite .rest) .died], rfl, not_cleanDeath_of_exposed (by rfl) []⟩
  · simp only [if_true, Prog.wp_bind]
    apply wp_writeClose
    · intro k
      exact ⟨[.file (.openWrite .rest) .ok, .file (.write .rest) .died], by simp,
        not_cleanDeath_of_exposed (by rfl) [_]⟩
    · simp only [if_true, Prog.wp_pure]
      exact ⟨[.file (.openWrite .rest) .ok, .file (.write .rest) .ok], by simp, rfl, rfl, rfl,
        .inl ⟨rfl, rfl, fun _ => by simp [Files.set, Files.get]⟩⟩
    · intro wrote closed left _ _
      cases closed with
      | false =>
          simp only [Bool.false_eq_true, if_false]
          exact wp_abandonRest (restFailure_uncleanWrite left) ⟨hclaim, hclaim⟩
            (by simp) rfl
      | true =>
          simp only [if_true, Prog.wp_pure]
          refine ⟨[.file (.openWrite .rest) .ok, .file (.write .rest) (uncleanWrite left true)],
            by simp, rfl, rfl, rfl, .inl ⟨rfl, rfl, fun hmild => ?_⟩⟩
          exact absurd hmild (not_mild_of_mem (.write .rest) _ (by simp) (lost_uncleanWrite left))
  · have hfailure (es : List Event) : ∃ op o,
        Event.file op o ∈ .file (.openWrite .rest) .failed :: es ∧ restFailure op o = true :=
      ⟨.openWrite .rest, .failed, by simp, rfl⟩
    simp only [Bool.false_eq_true, if_false, Prog.wp_bind]
    apply wp_rename
    · exact ⟨[.file (.openWrite .rest) .failed, .file (.rename .flushing .spill) .died], by simp,
        not_cleanDeath_of_exposed (by rfl) [_]⟩
    · intro hnone
      simp [Files.get, hclaim] at hnone
    · intro content hcontent
      have hback : content = c := by
        simpa [Files.get, hclaim] using hcontent.symm
      exact ⟨[.file (.openWrite .rest) .failed, .file (.rename .flushing .spill) .ok], by simp, rfl,
        rfl, rfl, .inr ⟨rfl, hfailure _, fun _ => by simp [Files.set, hback, hclaim]⟩⟩
    · intro content _
      refine ⟨[.file (.openWrite .rest) .failed, .file (.rename .flushing .spill) .failed], by simp,
        rfl, rfl, rfl, .inr ⟨rfl, hfailure _, fun hmild => ?_⟩⟩
      exact absurd hmild (not_mild_of_mem (.rename .flushing .spill) .failed (by simp) ⟨rfl, rfl⟩)

/-- The callback and the record of its answer. -/
theorem LoopResult.consume {l : Bytes} {ls : List Bytes} {es es' : List Event}
    {w w₁ : World σ} {f' : Files} {r : Drain} (hcall : SpillsBy es w w₁)
    (h : LoopResult ls es' w₁.files f' r) :
    LoopResult (l :: ls) (es ++ .replayed l 0 :: es') w.files f' r := by
  have hreplays : replays (es ++ .replayed l 0 :: es') = (l, 0) :: replays es' := by
    simp [replays_aside hcall.aside]
  have hspilled : spilledLines (es ++ .replayed l 0 :: es') =
      spilledLines es ++ spilledLines es' := by
    simp
  have hmild (hm : Mild (es ++ .replayed l 0 :: es')) : Mild es ∧ Mild es' := by
    simpa [mild_append, mild_replayed] using hm
  have happended (hspill : Mild es' → Appended w₁.files.spill f'.spill (spilledLines es')) :
      Mild (es ++ .replayed l 0 :: es') → Appended w.files.spill f'.spill
        (spilledLines (es ++ .replayed l 0 :: es')) := by
    intro hm
    rw [hspilled]
    exact (hcall.spill (hmild hm).1).trans (hspill (hmild hm).2)
  cases h with
  | drained haccepts hspill =>
      exact .drained (hreplays ▸ haccepts.cons l) (happended hspill)
  | stopped done m more hsplit haccepts hspill hrest =>
      exact .stopped (l :: done) m more (by rw [hsplit]; rfl) (hreplays ▸ haccepts.cons l)
        (happended hspill) fun hm => hrest (hmild hm).2
  | failed done m more hsplit haccepts hfailure hback =>
      obtain ⟨op, o, hop, hfail⟩ := hfailure
      refine .failed (l :: done) m more (by rw [hsplit]; rfl) (hreplays ▸ haccepts.cons l)
        ⟨op, o, by simp [hop], hfail⟩ fun hm => ?_
      rw [hback (hmild hm).2, hcall.flushing]

/-- Offering the claimed lines one after the other, until one is refused. -/
theorem wp_flushLoop {fn : Bytes → Code σ ℤ} (hfn : Callback fn) {ls : List Bytes}
    (hls : ∀ l ∈ ls, WholeLine l) {w : World σ} {c : Bytes}
    (hclaim : w.files.flushing = some c) :
    Prog.wp (flushLoop fn (ls.map (· ++ [0x0a])))
      (fun r w' => ∃ es, w'.events = w.events ++ es ∧
        w'.flushed = w.flushed + (consumedLines es).length ∧ LoopResult ls es w.files w'.files r)
      (fun w' => ∃ es, w'.events = w.events ++ es ∧ ¬ CleanDeath es) w := by
  induction ls generalizing w with
  | nil =>
      exact ⟨[], by simp, rfl, .drained (.all rfl) fun _ => Appended.refl _⟩
  | cons l ls ih =>
      have hl : WholeLine l := hls l (by simp)
      rw [List.map_cons, flushLoop]
      simp only [stripEol_line hl.oneLine, hl.ne_nil, if_false, Prog.wp_bind, record]
      refine Prog.wp_mono ((hfn l).wp w) ?_ ?_
      · intro rc w₁ hw₁
        obtain ⟨es, hes⟩ := hw₁
        have hnone := replays_aside hes.aside
        simp only [Prog.wp_modify]
        by_cases hrc : rc = 0
        · rw [if_pos hrc, hrc]
          simp only [Prog.wp_bind, Prog.wp_modify]
          refine Prog.wp_mono (ih (fun m hm => hls m (by simp [hm])) (hes.flushing.trans hclaim))
            ?_ ?_
          · intro r w' hw'
            obtain ⟨es', hes', hflushed, hresult⟩ := hw'
            refine ⟨es ++ .replayed l 0 :: es', by simp [hes', hes.events], ?_, ?_⟩
            · have hcount : consumedLines (es ++ .replayed l 0 :: es') = l :: consumedLines es' := by
                simp [consumedLines, hnone]
              have hstep : w'.flushed = w₁.flushed + 1 + (consumedLines es').length := hflushed
              rw [hstep, hcount, List.length_cons, hes.flushed]
              omega
            · exact LoopResult.consume hes hresult
          · intro w' hw'
            obtain ⟨es', hes', hunclean⟩ := hw'
            refine ⟨(es ++ [.replayed l 0]) ++ es', by simp [hes', hes.events], ?_⟩
            intro hdeath
            cases hdeath.append_cases with
            | inl h => exact hunclean h.1
            | inr h => exact not_cleanDeath_concat (by simp) h.2
        · rw [if_neg hrc]
          refine Prog.wp_mono (wp_writeRest hl (hes.flushing.trans hclaim)) ?_ ?_
          · intro r w' hw'
            obtain ⟨es', hes', hflushed, hrs, hsp, hcase⟩ := hw'
            have haccepts : Accepts [] (replays (es ++ .replayed l rc :: es')) (some l) :=
              .refused l rc hrc (by simp [hnone, hrs])
            have hspilled : spilledLines (es ++ .replayed l rc :: es') = spilledLines es := by
              simpa using hsp
            have hmild (hm : Mild (es ++ .replayed l rc :: es')) : Mild es ∧ Mild es' := by
              simpa [mild_append, mild_replayed] using hm
            refine ⟨es ++ .replayed l rc :: es', by simp [hes', hes.events], ?_, ?_⟩
            · rw [hflushed, haccepts.consumedLines_eq, hes.flushed]
              rfl
            · rcases hcase with ⟨rfl, hspill, hrest⟩ | ⟨rfl, hfailure, hback⟩
              · refine .stopped [] l ls rfl haccepts ?_ fun hm => hrest (hmild hm).2
                intro hm
                rw [hspilled, hspill]
                exact hes.spill (hmild hm).1
              · obtain ⟨op, o, hop, hfail⟩ := hfailure
                refine .failed [] l ls rfl haccepts ⟨op, o, by simp [hop], hfail⟩ fun hm => ?_
                rw [hback (hmild hm).2]
                exact hes.flushing
          · intro w' hw'
            obtain ⟨es', hes', hunclean⟩ := hw'
            refine ⟨(es ++ [.replayed l rc]) ++ es', by simp [hes', hes.events], ?_⟩
            intro hdeath
            cases hdeath.append_cases with
            | inl h => exact hunclean h.1
            | inr h => exact not_cleanDeath_concat (by simp) h.2
      · intro w' hw'
        obtain ⟨es, hes⟩ := hw'
        exact ⟨es, hes.events, not_cleanDeath_of_aside hes.aside⟩

/-! ## Putting the kept lines back -/

/-- Events of the flush's own file operations. -/
structure OwnEvents (es : List Event) : Prop where
  spilled : spilledLines es = []
  replayed : replays es = []

theorem OwnEvents.append {es es' : List Event} (h : OwnEvents es) (h' : OwnEvents es') :
    OwnEvents (es ++ es') :=
  ⟨by simp [h.spilled, h'.spilled], by simp [h.replayed, h'.replayed]⟩

theorem OwnEvents.consumed {es : List Event} (h : OwnEvents es) : consumedLines es = [] := by
  simp [consumedLines, h.replayed]

/-- Lines spilled meanwhile are safe from these events: there are none, or writing the remainder
met no failure. -/
def Spares (es : List Event) (added : List Bytes) : Prop :=
  added = [] ∨ ∀ op o, Event.file op o ∈ es → restFailure op o = false

theorem Spares.of_append {es es' : List Event} {added : List Bytes}
    (h : Spares (es ++ es') added) : Spares es added ∧ Spares es' added := by
  cases h with
  | inl h => exact ⟨.inl h, .inl h⟩
  | inr h =>
      exact ⟨.inr fun op o ho => h op o (by simp [ho]), .inr fun op o ho => h op o (by simp [ho])⟩

theorem Spares.eq_nil {es : List Event} {added : List Bytes} (op : FileOp) (o : FileOutcome)
    (h : Spares es added) (hmem : .file op o ∈ es) (hfail : restFailure op o = true) :
    added = [] := by
  cases h with
  | inl h => exact h
  | inr h => simp [h op o hmem] at hfail

theorem eq_nil_of_unlines {ls : List Bytes} (h : unlines ls = []) : ls = [] := by
  cases ls with
  | nil => rfl
  | cons l ls => simp [unlines] at h

/-- Copying leaves the kept lines followed by those spilled meanwhile. -/
theorem wp_appendSpill (w : World σ) :
    Prog.wp (appendSpill : Code σ Unit)
      (fun _ w' => ∃ es, w'.events = w.events ++ es ∧ w'.flushed = w.flushed ∧ OwnEvents es ∧
        w'.files.spill = w.files.spill ∧ w'.files.flushing = w.files.flushing ∧
        ∀ kept added, w.files.rest = some (unlines kept) →
          w.files.spill.getD [] = unlines added → Mild es → Spares es added →
          w'.files.rest = some (unlines (kept ++ added)))
      (fun w' => ∃ es, w'.events = w.events ++ es ∧ es ≠ [] ∧ ¬ CleanDeath es) w := by
  simp only [appendSpill, Prog.wp_bind]
  apply wp_openRead
  · exact ⟨[.file (.openRead .spill) .died], rfl, by simp,
      not_cleanDeath_of_exposed (by rfl) []⟩
  · apply wp_openAppend
    · exact ⟨[.file (.openRead .spill) .ok, .file (.openAppend .rest) .died], by simp, by simp,
        not_cleanDeath_of_exposed (by rfl) [_]⟩
    · simp only [if_true]
      cases hcur : w.files.get .spill with
      | none =>
          refine ⟨[.file (.openRead .spill) .ok, .file (.openAppend .rest) .ok], by simp, rfl,
            ⟨rfl, rfl⟩, rfl, rfl, ?_⟩
          intro kept added hrest hspill _ _
          have hnone : w.files.spill = none := hcur
          have hadded : added = [] := eq_nil_of_unlines (by rw [← hspill, hnone]; rfl)
          simp [Files.set, Files.get, hrest, hadded]
      | some content =>
          have hsome : w.files.spill = some content := hcur
          simp only [Prog.wp_bind]
          apply wp_writeClose
          · intro k
            exact ⟨[.file (.openRead .spill) .ok, .file (.openAppend .rest) .ok,
              .file (.write .rest) .died], by simp, by simp, not_cleanDeath_of_exposed (by rfl) [_, _]⟩
          · refine ⟨[.file (.openRead .spill) .ok, .file (.openAppend .rest) .ok,
              .file (.write .rest) .ok], by simp, rfl, ⟨rfl, rfl⟩, rfl, rfl, ?_⟩
            intro kept added hrest hspill _ _
            have hcontent : content = unlines added := by simpa [hsome] using hspill
            simp [Files.set, Files.get, hrest, hcontent, unlines_append]
          · intro wrote closed left _ hpart
            refine ⟨[.file (.openRead .spill) .ok, .file (.openAppend .rest) .ok,
              .file (.write .rest) (uncleanWrite left closed)], by simp, rfl, ⟨rfl, rfl⟩, rfl, rfl,
              ?_⟩
            intro kept added hrest hspill hmild hspares
            cases closed with
            | false =>
                have hadded := hspares.eq_nil (.write .rest) (uncleanWrite left false) (by simp)
                  (restFailure_uncleanWrite left)
                have hcontent : content = [] := by simpa [hsome, hadded, unlines] using hspill
                have hleft : left = [] := List.prefix_nil.mp (hcontent ▸ hpart)
                simp [Files.set, Files.get, hrest, hadded, hleft]
            | true =>
                exact absurd hmild
                  (not_mild_of_mem (.write .rest) _ (by simp) (lost_uncleanWrite left))
    · refine ⟨[.file (.openRead .spill) .ok, .file (.openAppend .rest) .failed], by simp, rfl,
        ⟨rfl, rfl⟩, rfl, rfl, ?_⟩
      intro kept added hrest _ _ hspares
      have hadded := hspares.eq_nil (.openAppend .rest) .failed (by simp) rfl
      simp [hrest, hadded]
  · apply wp_openAppend
    · exact ⟨[.file (.openRead .spill) .failed, .file (.openAppend .rest) .died], by simp, by simp,
        not_cleanDeath_of_exposed (by rfl) [_]⟩
    · refine ⟨[.file (.openRead .spill) .failed, .file (.openAppend .rest) .ok], by simp, rfl,
        ⟨rfl, rfl⟩, rfl, rfl, ?_⟩
      intro kept added hrest _ _ hspares
      have hadded := hspares.eq_nil (.openRead .spill) .failed (by simp) rfl
      simp [Files.set, Files.get, hrest, hadded]
    · refine ⟨[.file (.openRead .spill) .failed, .file (.openAppend .rest) .failed], by simp, rfl,
        ⟨rfl, rfl⟩, rfl, rfl, ?_⟩
      intro kept added hrest _ _ hspares
      have hadded := hspares.eq_nil (.openRead .spill) .failed (by simp) rfl
      simp [hrest, hadded]

theorem AllOk.spares {es : List Event} (h : AllOk es) (added : List Bytes) : Spares es added := by
  refine .inr fun op o ho => ?_
  rw [h op o ho]
  cases op <;> simp [restFailure]

/-- The remainder is the spill file from the renaming on. -/
theorem wp_installRest (w : World σ) :
    Prog.wp (installRest : Code σ ℤ)
      (fun rc w' => ∃ es, w'.events = w.events ++ es ∧ w'.flushed = w.flushed ∧ OwnEvents es ∧
        rc ≠ 0 ∧ ∀ c, w.files.rest = some c → Mild es → w'.files.spill = some c ∧
          (AllOk es → w'.files.flushing = none ∧ w'.files.rest = none))
      (fun w' => ∃ es, w'.events = w.events ++ es ∧ es ≠ [] ∧ OwnEvents es ∧
        ∀ c, w.files.rest = some c → CleanDeath es → w'.files.spill = some c) w := by
  simp only [installRest, Prog.wp_bind]
  apply wp_rename
  · refine ⟨[.file (.rename .rest .spill) .died], rfl, by simp, ⟨rfl, rfl⟩, ?_⟩
    intro c _ hdeath
    exact absurd hdeath (not_cleanDeath_of_exposed (by rfl) [])
  · intro hnone o _
    refine ⟨[.file (.rename .rest .spill) o], rfl, rfl, ⟨rfl, rfl⟩, by decide, ?_⟩
    intro c hc
    simp [Files.get, hc] at hnone
  · intro content hcontent
    have hnow (c : Bytes) (hc : w.files.rest = some c) : content = c := by
      simpa [Files.get, hc] using hcontent.symm
    simp only [Prog.wp_bind]
    apply wp_unlink
    · refine ⟨[.file (.rename .rest .spill) .ok, .file (.unlink .flushing) .died], by simp,
        by simp, ⟨rfl, rfl⟩, ?_⟩
      intro c hc _
      simp [Files.set, hnow c hc]
    · refine ⟨[.file (.rename .rest .spill) .ok, .file (.unlink .flushing) .ok], by simp, rfl,
        ⟨rfl, rfl⟩, by decide, ?_⟩
      intro c hc _
      simp [Files.set, hnow c hc]
    · refine ⟨[.file (.rename .rest .spill) .ok, .file (.unlink .flushing) .failed], by simp, rfl,
        ⟨rfl, rfl⟩, by decide, ?_⟩
      intro c hc _
      refine ⟨by simp [Files.set, hnow c hc], fun hok => ?_⟩
      exact absurd (hok (.unlink .flushing) .failed (by simp)) (by decide)
  · intro content _
    refine ⟨[.file (.rename .rest .spill) .failed], rfl, rfl, ⟨rfl, rfl⟩, by decide, ?_⟩
    intro c _ hmild
    exact absurd hmild (not_mild_of_mem (.rename .rest .spill) .failed (by simp) ⟨rfl, rfl⟩)

/-- After restoring from `w`: the kept lines and those spilled meanwhile are in the spill file. -/
def RestoreReturns (w : World σ) (rc : ℤ) (w' : World σ) : Prop :=
  ∃ es, w'.events = w.events ++ es ∧ w'.flushed = w.flushed ∧ OwnEvents es ∧ rc ≠ 0 ∧
    ∀ kept added, w.files.rest = some (unlines kept) → w.files.spill.getD [] = unlines added →
      Mild es → Spares es added → w'.files.spill = some (unlines (kept ++ added)) ∧
        (AllOk es → w'.files.flushing = none ∧ w'.files.rest = none)

/-- So they are when the process dies once that is done. -/
def RestoreDies (w w' : World σ) : Prop :=
  ∃ es, w'.events = w.events ++ es ∧ es ≠ [] ∧
    ∀ kept added, w.files.rest = some (unlines kept) → w.files.spill.getD [] = unlines added →
      CleanDeath es → OwnEvents es ∧ w'.files.spill = some (unlines (kept ++ added))

/-- The last steps do so once the lines spilled meanwhile are copied. -/
theorem wp_installRest_of_appended (o : FileOutcome) {w w₁ : World σ} {es : List Event}
    (hown : OwnEvents es)
    (hrest : ∀ kept added, w.files.rest = some (unlines kept) →
      w.files.spill.getD [] = unlines added → Mild es → Spares es added →
      w₁.files.rest = some (unlines (kept ++ added)))
    (hevents : w₁.events = w.events ++ (es ++ [.file (.unlink .spill) o]))
    (hflushed : w₁.flushed = w.flushed) :
    Prog.wp (installRest : Code σ ℤ) (RestoreReturns w) (RestoreDies w) w₁ := by
  refine Prog.wp_mono (wp_installRest w₁) ?_ ?_
  · intro rc w' hw'
    obtain ⟨es', hes', hflushed', hown', hrc, hspill'⟩ := hw'
    refine ⟨es ++ [.file (.unlink .spill) o] ++ es', by rw [hes', hevents, List.append_assoc],
      hflushed'.trans hflushed, (hown.append ⟨rfl, rfl⟩).append hown', hrc, ?_⟩
    intro kept added hkept hadded hmild hspares
    obtain ⟨hfront, hback⟩ := mild_append.mp hmild
    have hnow := hrest kept added hkept hadded (mild_append.mp hfront).1
      hspares.of_append.1.of_append.1
    obtain ⟨hsp, hclean⟩ := hspill' _ hnow hback
    exact ⟨hsp, fun hok => hclean (allOk_append.mp hok).2⟩
  · intro w' hw'
    obtain ⟨es', hes', hne, hown', hspill'⟩ := hw'
    refine ⟨es ++ [.file (.unlink .spill) o] ++ es', by rw [hes', hevents, List.append_assoc],
      by simp, ?_⟩
    intro kept added hkept hadded hdeath
    refine ⟨(hown.append ⟨rfl, rfl⟩).append hown', ?_⟩
    obtain ⟨hdeath', hfront⟩ := hdeath.of_append hne
    have hok := (allOk_append.mp hfront).1
    exact hspill' _ (hrest kept added hkept hadded hok.benign.mild (hok.spares added)) hdeath'

theorem wp_restore (w : World σ) :
    Prog.wp (restore : Code σ ℤ) (RestoreReturns w) (RestoreDies w) w := by
  simp only [restore, Prog.wp_bind]
  refine Prog.wp_mono (wp_appendSpill w) ?_ ?_
  · intro _ w₁ hw₁
    obtain ⟨es, hes, hflushed, hown, hspill, hflushing, hrest⟩ := hw₁
    apply wp_unlink
    · refine ⟨es ++ [.file (.unlink .spill) .died], by simp [hes], by simp, ?_⟩
      intro kept added _ _ hdeath
      exact absurd hdeath (not_cleanDeath_of_exposed (by rfl) es)
    · exact wp_installRest_of_appended .ok hown hrest (by simp [hes]) hflushed
    · exact wp_installRest_of_appended .failed hown hrest (by simp [hes]) hflushed
  · intro w' hw'
    obtain ⟨es, hes, hne, hunclean⟩ := hw'
    exact ⟨es, hes, hne, fun _ _ _ _ hdeath => absurd hdeath hunclean⟩

theorem wp_discardClaim (w : World σ) :
    Prog.wp (discardClaim : Code σ ℤ)
      (fun rc w' => rc = 0 ∧ ∃ es, w'.events = w.events ++ es ∧ w'.flushed = w.flushed ∧
        OwnEvents es ∧ w'.files.spill = w.files.spill ∧
        (AllOk es → w'.files.flushing = none ∧ w'.files.rest = none))
      (fun w' => ∃ es, w'.events = w.events ++ es ∧ es ≠ [] ∧ OwnEvents es ∧
        w'.files.spill = w.files.spill) w := by
  have hfailed (op : FileOp) (es : List Event) (hmem : Event.file op .failed ∈ es)
      {P : Prop} : AllOk es → P :=
    fun hok => absurd (hok op .failed hmem) (by decide)
  simp only [discardClaim, Prog.wp_bind]
  apply wp_unlink
  · exact ⟨[.file (.unlink .flushing) .died], rfl, by simp, ⟨rfl, rfl⟩, rfl⟩
  · apply wp_unlink
    · exact ⟨[.file (.unlink .flushing) .ok, .file (.unlink .rest) .died], by simp, by simp,
        ⟨rfl, rfl⟩, rfl⟩
    · exact ⟨rfl, [.file (.unlink .flushing) .ok, .file (.unlink .rest) .ok], by simp, rfl,
        ⟨rfl, rfl⟩, rfl, fun _ => ⟨rfl, rfl⟩⟩
    · exact ⟨rfl, [.file (.unlink .flushing) .ok, .file (.unlink .rest) .failed], by simp, rfl,
        ⟨rfl, rfl⟩, rfl, hfailed (.unlink .rest) _ (by simp)⟩
  · apply wp_unlink
    · exact ⟨[.file (.unlink .flushing) .failed, .file (.unlink .rest) .died], by simp, by simp,
        ⟨rfl, rfl⟩, rfl⟩
    · exact ⟨rfl, [.file (.unlink .flushing) .failed, .file (.unlink .rest) .ok], by simp, rfl,
        ⟨rfl, rfl⟩, rfl, hfailed (.unlink .flushing) _ (by simp)⟩
    · exact ⟨rfl, [.file (.unlink .flushing) .failed, .file (.unlink .rest) .failed], by simp, rfl,
        ⟨rfl, rfl⟩, rfl, hfailed (.unlink .flushing) _ (by simp)⟩

/-! ## A whole flush -/

/-- The callback is called with the stored lines `ls` from the first one on, until it refuses. -/
def Offered (ls : List Bytes) (es : List Event) : Prop :=
  ∃ done more refused, ls = done ++ more ∧ Accepts done (replays es) refused ∧
    ∀ l ∈ refused, more.head? = some l

/-- The stored lines that were not consumed are in the spill file, in front of those spilled
meanwhile. -/
def Kept (ls : List Bytes) (es : List Event) (f' : Files) : Prop :=
  ∃ more, ls = consumedLines es ++ more ∧ Holds f'.spill (more ++ spilledLines es)

/-- A flush that found the lines `ls` in the spill file and returned. Where writing the
remainder failed it may have put the whole claim back. -/
structure FlushReturns (ls : List Bytes) (w : World σ) (es : List Event) (rc : ℤ)
    (w' : World σ) : Prop where
  events : w'.events = w.events ++ es
  flushed : w'.flushed = w.flushed + (consumedLines es).length
  offered : Offered ls es
  complete : rc = 0 → consumedLines es = ls
  kept : Benign es → Kept ls es w'.files ∨ Holds w'.files.spill ls ∧ spilledLines es = []
  inOrder : AllOk es → Kept ls es w'.files
  clean : AllOk es → w.files.flushing = none → w.files.rest = none →
    w'.files.flushing = none ∧ w'.files.rest = none
  prompt : AllOk es → w.online = true → connOk w.conn = true →
    rc = 0 ∨ ∃ l r, (l, r) ∈ replays es ∧ r ≠ 0

/-- A flush in which the process died. -/
structure FlushDies (ls : List Bytes) (w : World σ) (es : List Event) (w' : World σ) : Prop where
  events : w'.events = w.events ++ es
  kept : CleanDeath es → Kept ls es w'.files

/-- Nothing happened to the store. -/
theorem FlushReturns.idle {ls : List Bytes} {w w' : World σ} {es : List Event} {rc : ℤ}
    (h : Holds w.files.spill ls) (hevents : w'.events = w.events ++ es) (hown : OwnEvents es)
    (hflushed : w'.flushed = w.flushed) (hfiles : w'.files = w.files) (hrc : rc ≠ 0)
    (hprompt : AllOk es → w.online = true → connOk w.conn ≠ true) :
    FlushReturns ls w es rc w' := by
  have hkept : Kept ls es w'.files :=
    ⟨ls, by simp [hown.consumed], by simpa [hfiles, hown.spilled] using h⟩
  exact ⟨hevents, by simp [hflushed, hown.consumed],
    ⟨[], ls, none, rfl, .all (by rw [hown.replayed]; rfl), by simp⟩,
    fun h0 => absurd h0 hrc, fun _ => .inl hkept, fun _ => hkept,
    fun _ h₁ h₂ => by rw [hfiles]; exact ⟨h₁, h₂⟩,
    fun hok hon hconn => absurd hconn (hprompt hok hon)⟩

/-- Own events of the flush in front of what is known of the rest of it. -/
theorem FlushReturns.after (es : List Event) {ls : List Bytes} {w w₁ w' : World σ}
    {es' : List Event} {rc : ℤ} (h : FlushReturns ls w₁ es' rc w')
    (hclean : AllOk es' → w'.files.flushing = none ∧ w'.files.rest = none)
    (hevents : w₁.events = w.events ++ es) (hown : OwnEvents es)
    (hflushed : w₁.flushed = w.flushed) (hlive : w₁.online = w.online ∧ w₁.conn = w.conn) :
    FlushReturns ls w (es ++ es') rc w' where
  events := by rw [h.events, hevents, List.append_assoc]
  flushed := by rw [h.flushed, hflushed, consumedLines_append, hown.consumed, List.nil_append]
  offered := by simpa [Offered, hown.replayed] using h.offered
  complete := by simpa [hown.consumed] using h.complete
  kept := by
    intro hb
    have hb' : Benign es' := by
      refine ⟨(mild_append.mp hb.mild).2, fun op o ho hr => ?_⟩
      simpa [hown.spilled] using hb.alone op o (List.mem_append_right es ho) hr
    simpa [Kept, hown.consumed, hown.spilled] using h.kept hb'
  inOrder := by
    intro hok
    simpa [Kept, hown.consumed, hown.spilled] using h.inOrder (allOk_append.mp hok).2
  clean := fun hok _ _ => hclean (allOk_append.mp hok).2
  prompt := by
    intro hok hon hconn
    simpa [hown.replayed] using h.prompt (allOk_append.mp hok).2 (hlive.1.trans hon)
      ((congrArg connOk hlive.2).trans hconn)

theorem FlushDies.after (es : List Event) {ls : List Bytes} {w w₁ w' : World σ}
    {es' : List Event} (hevents : w₁.events = w.events ++ es) (hown : OwnEvents es) (hundead : ¬ CleanDeath es)
    (h : FlushDies ls w₁ es' w') : FlushDies ls w (es ++ es') w' where
  events := by rw [h.events, hevents, List.append_assoc]
  kept := by
    intro hdeath
    cases hdeath.append_cases with
    | inl hd => simpa [Kept, hown.consumed, hown.spilled] using h.kept hd.1
    | inr hd => exact absurd hd.2 hundead

/-- The steps behind a claim that was opened, in a world where the spill file is gone. -/
theorem wp_flushClaim {fn : Bytes → Code σ ℤ} (hfn : Callback fn) {ls : List Bytes}
    (hls : ∀ l ∈ ls, WholeLine l) {w : World σ} (hspill : w.files.spill = none)
    (hclaim : w.files.flushing = some (unlines ls)) :
    Prog.wp (do
        match ← flushLoop fn (getlines (unlines ls)) with
        | .failed => return (-1 : ℤ)
        | .stopped => restore
        | .drained => discardClaim)
      (fun rc w' => ∃ es, FlushReturns ls w es rc w' ∧
        (AllOk es → w'.files.flushing = none ∧ w'.files.rest = none))
      (fun w' => ∃ es, FlushDies ls w es w') w := by
  rw [getlines_unlines hls, Prog.wp_bind]
  refine Prog.wp_mono (wp_flushLoop hfn hls hclaim) ?_ ?_
  · intro r w₁ hw₁
    obtain ⟨es, hes, hflushed, hloop⟩ := hw₁
    cases hloop with
    | drained haccepts happ =>
        have hconsumed := haccepts.consumedLines_eq
        have hkept (hm : Mild es) : Holds w₁.files.spill (spilledLines es) :=
          ⟨by simpa [hspill] using (happ hm).text, (happ hm).whole⟩
        refine Prog.wp_mono (wp_discardClaim w₁) ?_ ?_
        · intro rc w' hw'
          obtain ⟨rfl, es', hes', hflushed', hown, hspill', hclean⟩ := hw'
          have hcs : consumedLines (es ++ es') = ls := by simp [hown.consumed, hconsumed]
          have hacc : Accepts ls (replays (es ++ es')) none := by
            simpa [hown.replayed] using haccepts
          have hk (hm : Mild es) : Kept ls (es ++ es') w'.files :=
            ⟨[], by simp [hcs], by simpa [hspill', hown.spilled] using hkept hm⟩
          have hc (hok : AllOk (es ++ es')) := hclean (allOk_append.mp hok).2
          exact ⟨es ++ es', ⟨by simp [hes', hes], by rw [hflushed', hflushed, hcs, hconsumed],
            ⟨ls, [], none, by simp, hacc, by simp⟩, fun _ => hcs,
            fun hb => .inl (hk (mild_append.mp hb.mild).1),
            fun hok => hk (allOk_append.mp hok).1.benign.mild, fun hok _ _ => hc hok,
            fun _ _ _ => .inl rfl⟩, hc⟩
        · intro w' hw'
          obtain ⟨es', hes', hne, hown, hspill'⟩ := hw'
          refine ⟨es ++ es', by simp [hes', hes], fun hdeath => ?_⟩
          have hm : Mild es := (hdeath.of_append hne).2.benign.mild
          exact ⟨[], by simp [hown.consumed, hconsumed],
            by simpa [hspill', hown.spilled] using hkept hm⟩
    | stopped done l more hsplit haccepts happ hrest =>
        have hconsumed := haccepts.consumedLines_eq
        have hlines : ∀ m ∈ l :: more, WholeLine m :=
          fun m hm => hls m (hsplit ▸ List.mem_append_right _ hm)
        have htext (hm : Mild es) : w₁.files.spill.getD [] = unlines (spilledLines es) := by
          simpa [hspill] using (happ hm).text
        have hwhole (hm : Mild es) : ∀ m ∈ (l :: more) ++ spilledLines es, WholeLine m := by
          intro m hmem
          cases List.mem_append.mp hmem with
          | inl h => exact hlines m h
          | inr h => exact (happ hm).whole m h
        refine Prog.wp_mono (wp_restore w₁) ?_ ?_
        · intro rc w' hw'
          obtain ⟨es', hes', hflushed', hown, hrc, hback⟩ := hw'
          have hcs : consumedLines (es ++ es') = done := by simp [hown.consumed, hconsumed]
          have hacc : Accepts done (replays (es ++ es')) (some l) := by
            simpa [hown.replayed] using haccepts
          have hk (hm : Mild es) (hm' : Mild es') (hs : Spares es' (spilledLines es)) :
              Kept ls (es ++ es') w'.files := by
            refine ⟨l :: more, by rw [hcs, hsplit], ?_, ?_⟩
            · rw [(hback _ _ (hrest hm) (htext hm) hm' hs).1]
              simp [hown.spilled]
            · simpa [hown.spilled] using hwhole hm
          have hc (hok : AllOk (es ++ es')) : w'.files.flushing = none ∧ w'.files.rest = none := by
            obtain ⟨hok₁, hok₂⟩ := allOk_append.mp hok
            exact (hback _ _ (hrest hok₁.benign.mild) (htext hok₁.benign.mild) hok₂.benign.mild
              (hok₂.spares _)).2 hok₂
          refine ⟨es ++ es', ⟨by simp [hes', hes], by rw [hflushed', hflushed, hcs, hconsumed],
            ⟨done, l :: more, some l, hsplit, hacc, by simp⟩,
            fun h0 => absurd h0 hrc, fun hb => .inl ?_, fun hok => ?_, fun hok _ _ => hc hok,
            fun _ _ _ => .inr ⟨l, hacc.refused_mem⟩⟩, hc⟩
          · obtain ⟨hm, hm'⟩ := mild_append.mp hb.mild
            refine hk hm hm' ?_
            by_cases hr : ∀ op o, Event.file op o ∈ es' → restFailure op o = false
            · exact .inr hr
            · push Not at hr
              obtain ⟨op, o, ho, hfail⟩ := hr
              have := hb.alone op o (List.mem_append_right es ho) (by simpa using hfail)
              exact .inl (by simpa [hown.spilled] using this)
          · obtain ⟨hok₁, hok₂⟩ := allOk_append.mp hok
            exact hk hok₁.benign.mild hok₂.benign.mild (hok₂.spares _)
        · intro w' hw'
          obtain ⟨es', hes', hne, hback⟩ := hw'
          refine ⟨es ++ es', by simp [hes', hes], fun hdeath => ?_⟩
          obtain ⟨hdeath', hok⟩ := hdeath.of_append hne
          have hm := hok.benign.mild
          obtain ⟨hown, hnow⟩ := hback _ _ (hrest hm) (htext hm) hdeath'
          refine ⟨l :: more, by simp [hown.consumed, hconsumed, ← hsplit], ?_, ?_⟩
          · rw [hnow]
            simp [hown.spilled]
          · simpa [hown.spilled] using hwhole hm
    | failed done l more hsplit haccepts hfailure hback =>
        obtain ⟨op, o, ho, hfail⟩ := hfailure
        have hnot : ¬ AllOk es := by
          intro hok
          rw [hok op o ho] at hfail
          cases op <;> simp [restFailure] at hfail
        refine ⟨es, ⟨hes, hflushed, ⟨done, l :: more, some l, hsplit, haccepts, by simp⟩,
          fun h0 => absurd h0 (by decide), fun hb => .inr ⟨⟨?_, hls⟩, hb.alone op o ho hfail⟩,
          fun hok => absurd hok hnot, fun hok => absurd hok hnot, fun hok => absurd hok hnot⟩,
          fun hok => absurd hok hnot⟩
        rw [hback hb.mild, hclaim]
        rfl
  · intro w' hw'
    obtain ⟨es, hes, hunclean⟩ := hw'
    exact ⟨es, hes, fun hdeath => absurd hdeath hunclean⟩

/-- A claim that was made, in a world whose spill file is gone. -/
theorem FlushReturns.putBack (es : List Event) {ls : List Bytes} {w w' : World σ}
    (hevents : w'.events = w.events ++ es) (hown : OwnEvents es)
    (hflushed : w'.flushed = w.flushed) (hfailed : ∃ op, Event.file op .failed ∈ es)
    (hback : Mild es → Holds w'.files.spill ls) : FlushReturns ls w es (-1) w' := by
  have hnot : ¬ AllOk es := by
    intro hok
    obtain ⟨op, hop⟩ := hfailed
    exact absurd (hok op .failed hop) (by decide)
  exact ⟨hevents, by simp [hflushed, hown.consumed],
    ⟨[], ls, none, rfl, .all (by rw [hown.replayed]; rfl), by simp⟩,
    fun h0 => absurd h0 (by decide), fun hb => .inr ⟨hback hb.mild, hown.spilled⟩,
    fun hok => absurd hok hnot, fun hok => absurd hok hnot, fun hok => absurd hok hnot⟩

/-- What a flush does, whatever happens to its file operations. -/
theorem wp_pwDbBufFlush {fn : Bytes → Code σ ℤ} (hfn : Callback fn) {ls : List Bytes}
    {w : World σ} (h : Holds w.files.spill ls) :
    Prog.wp (pwDbBufFlush fn) (fun rc w' => ∃ es, FlushReturns ls w es rc w')
      (fun w' => ∃ es, FlushDies ls w es w') w := by
  have hidle (hdown : w.online = true → connOk w.conn ≠ true) :
      Prog.wp (return (-1) : Code σ ℤ) (fun rc w' => ∃ es, FlushReturns ls w es rc w')
        (fun w' => ∃ es, FlushDies ls w es w') w :=
    ⟨[], .idle h (by simp) ⟨rfl, rfl⟩ rfl rfl (by decide) fun _ => hdown⟩
  simp only [pwDbBufFlush, Prog.wp_bind, Prog.wp_get]
  cases hon : w.online with
  | false => exact hidle (by simp [hon])
  | true =>
      cases hconn : w.conn with
      | none => exact hidle (by simp [hconn, connOk])
      | some c =>
          simp only [Prog.wp_ite, Prog.wp_bind, Prog.wp_modify, Prog.wp_pure]
          refine ⟨fun hdown => ⟨[], .idle h (by simp) ⟨rfl, rfl⟩ rfl rfl (by decide) ?_⟩,
            fun _ => ?_⟩
          · intro _ _
            simpa [hconn, connOk] using hdown
          apply wp_rename
          · exact ⟨[.file (.rename .spill .flushing) .died], rfl,
              fun _ => ⟨ls, rfl, by simpa [spilledLines] using h⟩⟩
          · intro hnone o ho
            have hnil : ls = [] := eq_nil_of_unlines (by
              rw [← h.text, show w.files.spill = none from hnone]
              rfl)
            have hlost : w.files.spill = none := hnone
            refine Prog.wp_mono (wp_discardClaim _) ?_ ?_
            · intro rc w' hw'
              obtain ⟨rfl, es, hes, hflushed, hown, hspill, hclean⟩ := hw'
              have hown' : OwnEvents ([.file (.rename .spill .flushing) o] ++ es) :=
                OwnEvents.append ⟨rfl, rfl⟩ hown
              have hkept : Kept ls ([.file (.rename .spill .flushing) o] ++ es) w'.files := by
                refine ⟨[], by simp [hown.consumed, hnil], ?_⟩
                simpa [hspill, hlost, hown.spilled] using Holds.none
              have hc (hok : AllOk ([.file (.rename .spill .flushing) o] ++ es)) :=
                hclean (allOk_append.mp hok).2
              exact ⟨[.file (.rename .spill .flushing) o] ++ es, by simpa using hes,
                by simpa [hown.consumed] using hflushed,
                ⟨[], [], none, hnil, .all (by rw [hown'.replayed]; rfl), by simp⟩,
                fun _ => by rw [hown'.consumed, hnil], fun _ => .inl hkept, fun _ => hkept,
                fun hok _ _ => hc hok, fun _ _ _ => .inl rfl⟩
            · intro w' hw'
              obtain ⟨es, hes, hne, hown, hspill⟩ := hw'
              refine ⟨[.file (.rename .spill .flushing) o] ++ es, by simpa using hes, fun _ => ?_⟩
              refine ⟨[], by simp [hown.consumed, hnil], ?_⟩
              simpa [hspill, hlost, hown.spilled] using Holds.none
          · intro content hcontent
            have hspill : w.files.spill = some content := hcontent
            have htext : content = unlines ls := by simpa [hspill] using h.text
            simp only [Prog.wp_bind]
            apply wp_openRead
            · exact ⟨[.file (.rename .spill .flushing) .ok, .file (.openRead .flushing) .died],
                by simp, fun hdeath => absurd hdeath (not_cleanDeath_of_exposed (by rfl) [_])⟩
            · simp only [World.put_files, World.after_files, Files.get, Files.set, htext]
              refine Prog.wp_mono (wp_flushClaim hfn h.whole (by rfl) (by rfl)) ?_ ?_
              · intro rc w' hw'
                obtain ⟨es, hreturns, hclean⟩ := hw'
                exact ⟨_, hreturns.after [.file (.rename .spill .flushing) .ok,
                  .file (.openRead .flushing) .ok] hclean (by simp) ⟨rfl, rfl⟩ rfl ⟨rfl, rfl⟩⟩
              · intro w' hw'
                obtain ⟨es, hdies⟩ := hw'
                have hundead : ¬ CleanDeath ([.file (.rename .spill .flushing) .ok] ++
                    [.file (.openRead .flushing) .ok]) :=
                  not_cleanDeath_concat (by simp)
                exact ⟨_, hdies.after _ (by simp) ⟨rfl, rfl⟩ hundead⟩
            · simp only [Prog.wp_bind]
              apply wp_rename
              · exact ⟨[.file (.rename .spill .flushing) .ok, .file (.openRead .flushing) .failed,
                  .file (.rename .flushing .spill) .died], by simp,
                  fun hdeath => absurd hdeath (not_cleanDeath_of_exposed (by rfl) [_, _])⟩
              · intro hnone
                simp [Files.get, Files.set] at hnone
              · intro content' hcontent'
                have hsame : content = content' := by
                  simpa [Files.get, Files.set] using hcontent'
                refine ⟨_, .putBack [.file (.rename .spill .flushing) .ok,
                  .file (.openRead .flushing) .failed, .file (.rename .flushing .spill) .ok]
                  (by simp) ⟨rfl, rfl⟩ rfl ⟨.openRead .flushing, by simp⟩ fun _ => ?_⟩
                exact ⟨by simp [Files.set, ← hsame, htext], h.whole⟩
              · intro content' _
                refine ⟨_, .putBack [.file (.rename .spill .flushing) .ok,
                  .file (.openRead .flushing) .failed, .file (.rename .flushing .spill) .failed]
                  (by simp) ⟨rfl, rfl⟩ rfl ⟨.openRead .flushing, by simp⟩ fun hmild => ?_⟩
                exact absurd hmild
                  (not_mild_of_mem (.rename .flushing .spill) .failed (by simp) ⟨rfl, rfl⟩)
          · intro content _
            refine ⟨[.file (.rename .spill .flushing) .failed],
              .idle h rfl ⟨rfl, rfl⟩ rfl rfl (by decide) fun hok => ?_⟩
            exact absurd (hok (.rename .spill .flushing) .failed (by simp)) (by decide)

end ProcWatch

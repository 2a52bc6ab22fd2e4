import ProcWatch.Verification.Store.Lines

/-! # File operations and what they leave on record -/

namespace ProcWatch

open CLib

variable {σ : Type}

/-! ## Reading a trace -/

def spilledLines (es : List Event) : List Bytes :=
  es.filterMap fun
    | .spilled line true => some line
    | _ => none

/-- The calls of a replay callback, with their return codes. -/
def replays (es : List Event) : List (Bytes × ℤ) :=
  es.filterMap fun
    | .replayed line rc => some (line, rc)
    | _ => none

/-- The lines for which the callback returned 0. -/
def consumedLines (es : List Event) : List Bytes :=
  ((replays es).filter fun r => r.2 = 0).map Prod.fst

@[simp]
theorem spilledLines_append (es es' : List Event) :
    spilledLines (es ++ es') = spilledLines es ++ spilledLines es' :=
  List.filterMap_append

@[simp]
theorem replays_append (es es' : List Event) : replays (es ++ es') = replays es ++ replays es' :=
  List.filterMap_append

@[simp]
theorem consumedLines_append (es es' : List Event) :
    consumedLines (es ++ es') = consumedLines es ++ consumedLines es' := by
  simp [consumedLines]

@[simp]
theorem spilledLines_file (op : FileOp) (o : FileOutcome) (es : List Event) :
    spilledLines (.file op o :: es) = spilledLines es := rfl

@[simp]
theorem replays_file (op : FileOp) (o : FileOutcome) (es : List Event) :
    replays (.file op o :: es) = replays es := rfl

@[simp]
theorem consumedLines_file (op : FileOp) (o : FileOutcome) (es : List Event) :
    consumedLines (.file op o :: es) = consumedLines es := rfl

@[simp]
theorem spilledLines_replayed (line : Bytes) (rc : ℤ) (es : List Event) :
    spilledLines (.replayed line rc :: es) = spilledLines es := rfl

@[simp]
theorem replays_replayed (line : Bytes) (rc : ℤ) (es : List Event) :
    replays (.replayed line rc :: es) = (line, rc) :: replays es := rfl

/-- The callback accepts the lines `done` and then, if at all, is called once more and refuses. -/
inductive Accepts (done : List Bytes) (rs : List (Bytes × ℤ)) : Option Bytes → Prop where
  | all (h : rs = done.map (·, 0)) : Accepts done rs none
  | refused (l : Bytes) (rc : ℤ) (hrc : rc ≠ 0) (h : rs = done.map (·, 0) ++ [(l, rc)]) :
      Accepts done rs (some l)

theorem Accepts.consumedLines_eq {done : List Bytes} {es : List Event} {refused : Option Bytes}
    (h : Accepts done (replays es) refused) : consumedLines es = done := by
  have hzero : (done.map fun l => (l, (0 : ℤ))).filter (fun r => r.2 = 0) = done.map (·, 0) := by
    simp [List.filter_eq_self]
  have hfst : (done.map fun l => (l, (0 : ℤ))).map Prod.fst = done := by
    simp [List.map_map, Function.comp_def]
  rw [consumedLines]
  cases h with
  | all h => rw [h, hzero, hfst]
  | refused l rc hrc h =>
      have hlast : [(l, rc)].filter (fun r => r.2 = 0) = [] := by simp [hrc]
      rw [h, List.filter_append, hzero, hlast, List.append_nil, hfst]

theorem Accepts.refused_mem {done : List Bytes} {rs : List (Bytes × ℤ)} {l : Bytes}
    (h : Accepts done rs (some l)) : ∃ r, (l, r) ∈ rs ∧ r ≠ 0 := by
  cases h with
  | refused _ rc hrc h => exact ⟨rc, by simp [h], hrc⟩

theorem Accepts.cons {done : List Bytes} {rs : List (Bytes × ℤ)} {refused : Option Bytes}
    (h : Accepts done rs refused) (l : Bytes) : Accepts (l :: done) ((l, 0) :: rs) refused := by
  cases h with
  | all h => exact .all (by rw [h]; rfl)
  | refused m rc hrc h => exact .refused m rc hrc (by rw [h]; rfl)

/-! ## Outcomes of file operations -/

/-- Outcomes that cost no record: the claim is not made, a leftover is not removed, a claim that
could not be opened is put back, a line that is not spilled leaves nothing in the file. -/
def harmless : FileOp → FileOutcome → Bool
  | _, .ok => true
  | .rename .spill .flushing, .failed => true
  | .unlink _, .failed => true
  | .openRead .flushing, .failed => true
  | .openAppend .spill, .failed => true
  | .write .spill, .unwritten _ => true
  | _, _ => false

/-- Outcomes that cost the lines spilled during the same flush, and nothing else. -/
def restFailure : FileOp → FileOutcome → Bool
  | .openWrite .rest, .failed => true
  | .write .rest, .failed => true
  | .write .rest, .unwritten closed => !closed
  | .openRead .spill, .failed => true
  | .openAppend .rest, .failed => true
  | _, _ => false

theorem restFailure_of_harmless {op : FileOp} {o : FileOutcome} (h : harmless op o = true) :
    restFailure op o = false := by
  rcases op with ⟨_ | _ | _, _ | _ | _⟩ | ⟨_ | _ | _⟩ | ⟨_ | _ | _⟩ | ⟨_ | _ | _⟩ | ⟨_ | _ | _⟩ |
    ⟨_ | _ | _⟩ <;> cases o <;> simp_all [harmless, restFailure]

theorem uncleanWrite_ne_ok (left : Bytes) (closed : Bool) : uncleanWrite left closed ≠ .ok := by
  rw [uncleanWrite]
  split
  · simp
  · cases closed <;> simp

theorem uncleanWrite_ne_died (left : Bytes) (closed : Bool) :
    uncleanWrite left closed ≠ .died := by
  rw [uncleanWrite]
  split
  · simp
  · cases closed <;> simp

/-- An append that is not clean does no harm only if it left nothing. -/
theorem eq_nil_of_harmless {left : Bytes} {closed : Bool}
    (h : harmless (.write .spill) (uncleanWrite left closed) = true ∨
      restFailure (.write .spill) (uncleanWrite left closed) = true) : left = [] := by
  by_contra hleft
  cases closed <;> simp [uncleanWrite, hleft, harmless, restFailure] at h

theorem restFailure_uncleanWrite (left : Bytes) :
    restFailure (.write .rest) (uncleanWrite left false) = true := by
  by_cases hleft : left = [] <;> simp [uncleanWrite, hleft, restFailure]

/-- What `fclose` does not report of the remainder is lost. -/
theorem lost_uncleanWrite (left : Bytes) :
    harmless (.write .rest) (uncleanWrite left true) = false ∧
      restFailure (.write .rest) (uncleanWrite left true) = false := by
  by_cases hleft : left = [] <;> simp [uncleanWrite, hleft, harmless, restFailure]

def AllOk (es : List Event) : Prop :=
  ∀ op o, Event.file op o ∈ es → o = .ok

def Mild (es : List Event) : Prop :=
  ∀ op o, Event.file op o ∈ es → harmless op o = true ∨ restFailure op o = true

/-- No outcome that costs a record: a failure to write the remainder only where nothing was
spilled meanwhile. -/
structure Benign (es : List Event) : Prop where
  mild : Mild es
  alone : ∀ op o, Event.file op o ∈ es → restFailure op o = true → spilledLines es = []

theorem mild_append {es es' : List Event} : Mild (es ++ es') ↔ Mild es ∧ Mild es' := by
  simp only [Mild, List.mem_append]
  constructor
  · exact fun h => ⟨fun op o he => h op o (.inl he), fun op o he => h op o (.inr he)⟩
  · exact fun h op o he => he.elim (h.1 op o) (h.2 op o)

theorem mild_file {op : FileOp} {o : FileOutcome} {es : List Event} :
    Mild (.file op o :: es) ↔ (harmless op o = true ∨ restFailure op o = true) ∧ Mild es := by
  simp only [Mild, List.mem_cons, Event.file.injEq]
  constructor
  · exact fun h => ⟨h op o (.inl ⟨rfl, rfl⟩), fun op' o' he => h op' o' (.inr he)⟩
  · rintro ⟨h, hes⟩ op' o' (⟨rfl, rfl⟩ | he)
    · exact h
    · exact hes op' o' he

theorem mild_replayed {line : Bytes} {rc : ℤ} {es : List Event} :
    Mild (.replayed line rc :: es) ↔ Mild es := by
  simp [Mild]

theorem allOk_append {es es' : List Event} : AllOk (es ++ es') ↔ AllOk es ∧ AllOk es' := by
  simp only [AllOk, List.mem_append]
  constructor
  · exact fun h => ⟨fun op o he => h op o (.inl he), fun op o he => h op o (.inr he)⟩
  · exact fun h op o he => he.elim (h.1 op o) (h.2 op o)

theorem AllOk.benign {es : List Event} (h : AllOk es) : Benign es := by
  constructor
  · intro op o he
    rw [h op o he]
    exact .inl (by cases op <;> simp [harmless])
  · intro op o he hr
    rw [h op o he] at hr
    cases op <;> simp [restFailure] at hr

/-- The operations at whose start the process may die without a record being lost. -/
def safePoint : FileOp → Bool
  | .rename .spill .flushing => true
  | .unlink .flushing => true
  | .unlink .rest => true
  | _ => false

/-- Everything went well until the process died at the start of one of these operations. -/
def CleanDeath (es : List Event) : Prop :=
  ∃ es' op, es = es' ++ [.file op .died] ∧ AllOk es' ∧ safePoint op = true

theorem CleanDeath.append_cases {es es' : List Event} (h : CleanDeath (es ++ es')) :
    CleanDeath es' ∧ AllOk es ∨ es' = [] ∧ CleanDeath es := by
  obtain ⟨before, op, heq, hok, hsafe⟩ := h
  cases List.eq_nil_or_concat es' with
  | inl hnil =>
      rw [hnil, List.append_nil] at heq
      exact .inr ⟨hnil, before, op, heq, hok, hsafe⟩
  | inr hconcat =>
      obtain ⟨front, last, rfl⟩ := hconcat
      rw [List.concat_eq_append] at heq ⊢
      rw [← List.append_assoc] at heq
      obtain ⟨rfl, hlast⟩ := List.append_inj' heq rfl
      obtain ⟨hes, hfront⟩ := allOk_append.mp hok
      exact .inl ⟨⟨front, op, by rw [hlast], hfront, hsafe⟩, hes⟩

theorem CleanDeath.of_append {es es' : List Event} (h : CleanDeath (es ++ es'))
    (hne : es' ≠ []) : CleanDeath es' ∧ AllOk es :=
  h.append_cases.resolve_right fun hnil => hne hnil.1

theorem not_cleanDeath_concat {es : List Event} {e : Event}
    (he : ∀ op, safePoint op = true → e ≠ .file op .died) : ¬ CleanDeath (es ++ [e]) := by
  rintro ⟨before, op, heq, -, hsafe⟩
  obtain ⟨-, hlast⟩ := List.append_inj' heq rfl
  exact he op hsafe (by simpa using hlast)

theorem not_cleanDeath_of_exposed {op : FileOp} (h : safePoint op = false) (es : List Event) :
    ¬ CleanDeath (es ++ [.file op .died]) := by
  apply not_cleanDeath_concat
  intro op' hsafe heq
  obtain ⟨rfl, -⟩ := Event.file.inj heq
  simp [h] at hsafe

theorem not_cleanDeath_of_mem (es : List Event) (op : FileOp) (o : FileOutcome) {op' : FileOp}
    {o' : FileOutcome} (hmem : .file op o ∈ es) (ho : o ≠ .ok) : ¬ CleanDeath (es ++ [.file op' o']) := by
  rintro ⟨before, op'', heq, hok, -⟩
  obtain ⟨rfl, -⟩ := List.append_inj' heq rfl
  exact ho (hok op o hmem)

theorem not_mild_of_mem {es : List Event} (op : FileOp) (o : FileOutcome)
    (hmem : .file op o ∈ es) (h : harmless op o = false ∧ restFailure op o = false) :
    ¬ Mild es := by
  intro hmild
  have := hmild op o hmem
  simp [h] at this

/-! ## Weakest preconditions of file operations -/

/-- The world after a file operation is put on record. -/
def World.after (w : World σ) (op : FileOp) (o : FileOutcome) : World σ :=
  { w with tick := w.tick + 1, events := w.events ++ [.file op o] }

def World.put (w : World σ) (p : Path) (content : Option Bytes) : World σ :=
  { w with files := w.files.set p content }

@[simp]
theorem World.after_files (w : World σ) (op : FileOp) (o : FileOutcome) :
    (w.after op o).files = w.files := rfl

@[simp]
theorem World.after_flushed (w : World σ) (op : FileOp) (o : FileOutcome) :
    (w.after op o).flushed = w.flushed := rfl

@[simp]
theorem World.after_events (w : World σ) (op : FileOp) (o : FileOutcome) :
    (w.after op o).events = w.events ++ [.file op o] := rfl

@[simp]
theorem World.put_files (w : World σ) (p : Path) (content : Option Bytes) :
    (w.put p content).files = w.files.set p content := rfl

@[simp]
theorem World.put_flushed (w : World σ) (p : Path) (content : Option Bytes) :
    (w.put p content).flushed = w.flushed := rfl

@[simp]
theorem World.put_events (w : World σ) (p : Path) (content : Option Bytes) :
    (w.put p content).events = w.events := rfl

section Wp

variable {X : World σ → Prop} {w : World σ}

theorem wp_fileOp {op : FileOp} {Q : Bool → World σ → Prop} (hdied : X (w.after op .died))
    (hok : Q true (w.after op .ok)) (hfailed : Q false (w.after op .failed)) :
    Prog.wp (fileOp op) Q X w := by
  simp only [fileOp, ask, record, Prog.wp_bind, Prog.wp_get, Prog.wp_modify, Prog.wp_pure,
    Prog.wp_ite]
  refine ⟨fun _ => hdied, fun _ => ?_⟩
  cases hans : (w.env.file w.tick).ok with
  | true => simpa [World.after, hans] using hok
  | false => simpa [World.after, hans] using hfailed

theorem wp_unlink {p : Path} {Q : Unit → World σ → Prop} (hdied : X (w.after (.unlink p) .died))
    (hok : Q () ((w.after (.unlink p) .ok).put p none))
    (hfailed : Q () (w.after (.unlink p) .failed)) : Prog.wp (unlink p) Q X w := by
  simp only [unlink, setFile, Prog.wp_bind]
  exact wp_fileOp hdied hok hfailed

theorem wp_rename {src dst : Path} {Q : RenameResult → World σ → Prop}
    (hdied : X (w.after (.rename src dst) .died))
    (henoent : w.files.get src = none → ∀ o, o ≠ .died → Q .enoent (w.after (.rename src dst) o))
    (hok : ∀ content, w.files.get src = some content →
      Q .ok (((w.after (.rename src dst) .ok).put src none).put dst (some content)))
    (hfailed : ∀ content, w.files.get src = some content →
      Q .failed (w.after (.rename src dst) .failed)) : Prog.wp (rename src dst) Q X w := by
  simp only [rename, setFile, Prog.wp_bind, Prog.wp_get]
  apply wp_fileOp hdied
  · simp only [World.after_files]
    cases hsrc : w.files.get src with
    | none => exact henoent hsrc .ok (by decide)
    | some content => exact hok content hsrc
  · simp only [World.after_files]
    cases hsrc : w.files.get src with
    | none => exact henoent hsrc .failed (by decide)
    | some content => exact hfailed content hsrc

theorem wp_openRead {p : Path} {Q : Option Bytes → World σ → Prop}
    (hdied : X (w.after (.openRead p) .died))
    (hok : Q (w.files.get p) (w.after (.openRead p) .ok))
    (hfailed : Q none (w.after (.openRead p) .failed)) : Prog.wp (openRead p) Q X w := by
  simp only [openRead, Prog.wp_bind, Prog.wp_get]
  exact wp_fileOp hdied hok hfailed

theorem wp_openWrite {p : Path} {Q : Bool → World σ → Prop}
    (hdied : X (w.after (.openWrite p) .died))
    (hok : Q true ((w.after (.openWrite p) .ok).put p (some [])))
    (hfailed : Q false (w.after (.openWrite p) .failed)) : Prog.wp (openWrite p) Q X w := by
  simp only [openWrite, setFile, Prog.wp_bind]
  exact wp_fileOp hdied hok hfailed

theorem wp_openAppend {p : Path} {Q : Bool → World σ → Prop}
    (hdied : X (w.after (.openAppend p) .died))
    (hok : Q true ((w.after (.openAppend p) .ok).put p (some ((w.files.get p).getD []))))
    (hfailed : Q false (w.after (.openAppend p) .failed)) : Prog.wp (openAppend p) Q X w := by
  simp only [openAppend, setFile, Prog.wp_bind]
  exact wp_fileOp hdied hok hfailed

theorem wp_writeClose {p : Path} {text : Bytes} {Q : Written → World σ → Prop}
    (hdied : ∀ k, X ((w.after (.write p) .died).put p
      (some ((w.files.get p).getD [] ++ text.take k))))
    (hok : Q ⟨true, true⟩ ((w.after (.write p) .ok).put p
      (some ((w.files.get p).getD [] ++ text))))
    (hunclean : ∀ wrote closed left, (wrote && closed) = false → left <+: text →
      Q ⟨wrote, closed⟩ ((w.after (.write p) (uncleanWrite left closed)).put p
        (some ((w.files.get p).getD [] ++ left)))) : Prog.wp (writeClose p text) Q X w := by
  simp only [writeClose, ask, record, setFile, Prog.wp_bind, Prog.wp_get, Prog.wp_modify,
    Prog.wp_pure, Prog.wp_ite]
  refine ⟨fun _ => hdied _, fun _ => ⟨fun _ => hok, fun hnot => ?_⟩⟩
  exact hunclean _ _ _ (by simpa using hnot) (List.take_prefix _ _)

/-- The world after so much of a line has gone into the spill file. -/
def World.appended (w : World σ) (o : FileOutcome) (left : Bytes) : World σ :=
  { w with
    tick := w.tick + 2
    files := w.files.set .spill (some (w.files.spill.getD [] ++ left))
    events := w.events ++ [.file (.openAppend .spill) .ok] ++ [.file (.write .spill) o] }

/-- The world after a call of `pw_db_buf_spill` is put on record. -/
def World.noted (w : World σ) (line : Bytes) : Bool → World σ
  | true => { w with spilled := w.spilled + 1, events := w.events ++ [.spilled line true] }
  | false =>
      { w with spillDropped := w.spillDropped + 1, events := w.events ++ [.spilled line false] }

/-- A call of `pw_db_buf_spill` appends its line and returns 0, or returns -1 where the file cannot
be opened or the write is not clean. -/
theorem wp_pwDbBufSpill {line : Bytes} {Q : ℤ → World σ → Prop}
    (hdied : X (w.after (.openAppend .spill) .died)) (htorn : ∀ left, X (w.appended .died left))
    (hspilled : Q 0 ((w.appended .ok (cstr line ++ [0x0a])).noted line true))
    (hunopened : Q (-1) ((w.after (.openAppend .spill) .failed).noted line false))
    (hunclean : ∀ closed left,
      Q (-1) ((w.appended (uncleanWrite left closed) left).noted line false)) :
    Prog.wp (pwDbBufSpill line) Q X w := by
  simp only [pwDbBufSpill, dropSpill, record, Prog.wp_bind]
  apply wp_openAppend hdied
  · simp only [if_true, Prog.wp_bind]
    apply wp_writeClose
    · exact fun k => htorn _
    · simp only [Bool.and_self, if_true, Prog.wp_bind, Prog.wp_modify, Prog.wp_pure]
      exact hspilled
    · intro wrote closed left hnot _
      simp only [hnot, Bool.false_eq_true, if_false, Prog.wp_bind, Prog.wp_modify, Prog.wp_pure]
      exact hunclean closed left
  · simp only [Bool.false_eq_true, if_false, Prog.wp_bind, Prog.wp_modify, Prog.wp_pure]
    exact hunopened

end Wp

section Spill

variable (w : World σ) (o : FileOutcome) (left line : Bytes) (ok : Bool)

@[simp]
theorem World.appended_files : (w.appended o left).files =
    w.files.set .spill (some (w.files.spill.getD [] ++ left)) := rfl

@[simp]
theorem World.appended_events : (w.appended o left).events =
    w.events ++ [.file (.openAppend .spill) .ok, .file (.write .spill) o] :=
  List.append_assoc _ _ _

@[simp]
theorem World.noted_files : (w.noted line ok).files = w.files := by
  cases ok <;> rfl

@[simp]
theorem World.noted_events : (w.noted line ok).events = w.events ++ [.spilled line ok] := by
  cases ok <;> rfl

end Spill

end ProcWatch

import ProcWatch.Library.Bytes

/-! # Well-formed UTF-8

The machine that reads UTF-8 byte by byte, with the ranges of the table of well-formed byte
sequences: no overlong forms, no surrogates, nothing above U+10FFFF.
-/

namespace CLib.Utf8

/-- Between two characters, or inside of one: the next byte is from `lo` to `hi`, and `left`
more follow it. -/
inductive State where
  | start
  | inside (left : ℕ) (lo hi : Byte)
  deriving DecidableEq

/-- The state behind the first byte of a longer character. -/
def lead (b : Byte) : Option State :=
  if b < 0xc2 then none
  else if b ≤ 0xdf then some (.inside 0 0x80 0xbf)
  else if b = 0xe0 then some (.inside 1 0xa0 0xbf)
  else if b = 0xed then some (.inside 1 0x80 0x9f)
  else if b ≤ 0xef then some (.inside 1 0x80 0xbf)
  else if b = 0xf0 then some (.inside 2 0x90 0xbf)
  else if b ≤ 0xf3 then some (.inside 2 0x80 0xbf)
  else if b = 0xf4 then some (.inside 2 0x80 0x8f)
  else none

/-- With so many bytes of a character left. -/
def State.owing : ℕ → State
  | 0 => .start
  | left + 1 => .inside left 0x80 0xbf

def State.step : State → Byte → Option State
  | .start, b => if b < 0x80 then some .start else lead b
  | .inside left lo hi, b => if lo ≤ b ∧ b ≤ hi then some (.owing left) else none

def run (st : State) (s : Bytes) : Option State :=
  s.foldlM State.step st

/-- A sequence of whole characters. -/
def WellFormed (s : Bytes) : Prop :=
  run .start s = some .start

instance (s : Bytes) : Decidable (WellFormed s) :=
  inferInstanceAs (Decidable (run .start s = some .start))

theorem run_cons (st : State) (b : Byte) (s : Bytes) :
    run st (b :: s) = (st.step b).bind fun st => run st s := rfl

theorem run_append (st : State) (s t : Bytes) :
    run st (s ++ t) = (run st s).bind fun st => run st t :=
  List.foldlM_append

/-- A byte inside of a character. -/
def IsTail (b : Byte) : Prop :=
  0x80 ≤ b ∧ b ≤ 0xbf

/-- What is behind the first byte of a longer character. -/
theorem lead_cases {b : Byte} {st : State} (h : lead b = some st) :
    ∃ left lo hi, st = .inside left lo hi ∧ left ≤ 2 ∧ 0x80 ≤ lo ∧ hi ≤ 0xbf := by
  unfold lead at h
  split_ifs at h <;>
    · obtain rfl := Option.some.inj h
      exact ⟨_, _, _, rfl, by decide, by decide, by decide⟩

theorem step_inside {left : ℕ} {lo hi b : Byte} {st : State} (hlo : 0x80 ≤ lo) (hhi : hi ≤ 0xbf)
    (h : (State.inside left lo hi).step b = some st) :
    IsTail b ∧ lo ≤ b ∧ st = .owing left := by
  simp only [State.step] at h
  split at h
  · rename_i hb
    exact ⟨⟨UInt8.le_trans hlo hb.1, UInt8.le_trans hb.2 hhi⟩, hb.1, (Option.some.inj h).symm⟩
  · simp at h

/-! ## Text that is cut off -/

/-- Inside of a character, only bytes that are part of its tail are allowed. -/
def State.Bounded : State → Prop
  | .start => True
  | .inside _ lo hi => 0x80 ≤ lo ∧ hi ≤ 0xbf

theorem bounded_owing (left : ℕ) : (State.owing left).Bounded := by
  cases left with
  | zero => trivial
  | succ left => exact ⟨by decide, by decide⟩

theorem bounded_step {st st' : State} {b : Byte} (hst : st.Bounded) (h : st.step b = some st') :
    st'.Bounded := by
  cases st with
  | start =>
      simp only [State.step] at h
      split at h
      · obtain rfl := Option.some.inj h
        trivial
      · obtain ⟨_, lo, hi, rfl, -, hlo, hhi⟩ := lead_cases h
        exact ⟨hlo, hhi⟩
  | inside left lo hi =>
      obtain ⟨-, -, rfl⟩ := step_inside hst.1 hst.2 h
      exact bounded_owing left

theorem bounded_run {st st' : State} {s : Bytes} (hst : st.Bounded) (h : run st s = some st') :
    st'.Bounded := by
  induction s generalizing st with
  | nil => exact Option.some.inj h ▸ hst
  | cons b s ih =>
      rw [run_cons] at h
      obtain ⟨next, hnext, hrun⟩ := Option.bind_eq_some_iff.mp h
      exact ih (bounded_step hst hnext) hrun

/-- No character starts with a byte of a tail. -/
theorem not_isTail_of_start {b : Byte} {st : State} (h : State.start.step b = some st) :
    ¬ IsTail b := by
  have hall : ∀ b : Byte, IsTail b → State.start.step b = none := by
    unfold IsTail
    decide +kernel
  intro hb
  rw [hall b hb] at h
  cases h

/-- What is left of well-formed text is well-formed where no tail of a character is cut off. -/
theorem wellFormed_take_iff {s : Bytes} (h : WellFormed s) (n : ℕ) :
    WellFormed (s.take n) ↔ ¬ IsTail (s.getD n 0) := by
  have hsplit := h
  rw [WellFormed, ← List.take_append_drop n s, run_append] at hsplit
  obtain ⟨st, htake, hdrop⟩ := Option.bind_eq_some_iff.mp hsplit
  have hstart : State.Bounded .start := trivial
  have hst := bounded_run hstart htake
  have hget : s.getD n 0 = (s.drop n).headD 0 := by
    simp [List.getD_eq_getElem?_getD, List.headD_eq_head?_getD]
  rw [hget, WellFormed, htake, Option.some.injEq]
  cases hrest : s.drop n with
  | nil =>
      rw [hrest] at hdrop
      have htail : ¬ IsTail (([] : Bytes).headD 0) := by
        unfold IsTail
        decide
      exact iff_of_true (Option.some.inj hdrop) htail
  | cons b rest =>
      rw [hrest, run_cons] at hdrop
      obtain ⟨st', hstep, -⟩ := Option.bind_eq_some_iff.mp hdrop
      cases st with
      | start => exact iff_of_true rfl (not_isTail_of_start hstep)
      | inside left lo hi =>
          exact iff_of_false (by simp) fun hnot => hnot (step_inside hst.1 hst.2 hstep).1

theorem getD_length_cstr (s : Bytes) : s.getD (cstr s).length 0 = 0 := by
  induction s with
  | nil => rfl
  | cons b s ih =>
      by_cases hb : b = 0
      · rw [cstr, List.takeWhile_cons_of_neg (by simp [hb]), hb]
        rfl
      · rw [cstr, List.takeWhile_cons_of_pos (by simp [hb]), List.length_cons, List.getD_cons_succ]
        exact ih

/-- A NUL is a character of its own. -/
theorem wellFormed_cstr {s : Bytes} (h : WellFormed s) : WellFormed (cstr s) := by
  rw [List.prefix_iff_eq_take.mp (cstr_isPrefix s), wellFormed_take_iff h, getD_length_cstr]
  unfold IsTail
  decide

/-! ## The character at the front -/

/-- How many bytes take the machine back to the start, if they do. -/
def charEnd : State → Bytes → Option ℕ
  | _, [] => none
  | st, b :: s =>
      match st.step b with
      | none => none
      | some .start => some 1
      | some st => (charEnd st s).map (· + 1)

theorem charEnd_cons_of_none {st : State} {b : Byte} (h : st.step b = none) (s : Bytes) :
    charEnd st (b :: s) = none := by
  rw [charEnd, h]

theorem charEnd_cons_of_start {st : State} {b : Byte} (h : st.step b = some .start) (s : Bytes) :
    charEnd st (b :: s) = some 1 := by
  rw [charEnd, h]

theorem charEnd_cons_of_inside {st : State} {b lo hi : Byte} {left : ℕ}
    (h : st.step b = some (.inside left lo hi)) (s : Bytes) :
    charEnd st (b :: s) = (charEnd (.inside left lo hi) s).map (· + 1) := by
  rw [charEnd, h]

theorem charEnd_spec {st : State} {s : Bytes} {n : ℕ} (h : charEnd st s = some n) :
    run st (s.take n) = some .start ∧ 0 < n ∧ n ≤ s.length := by
  induction s generalizing st n with
  | nil => cases h
  | cons b s ih =>
      cases hstep : st.step b with
      | none =>
          rw [charEnd_cons_of_none hstep] at h
          cases h
      | some st' =>
          cases st' with
          | start =>
              rw [charEnd_cons_of_start hstep] at h
              obtain rfl := Option.some.inj h
              refine ⟨?_, by decide, by simp⟩
              rw [List.take_succ_cons, run_cons, hstep]
              rfl
          | inside left lo hi =>
              rw [charEnd_cons_of_inside hstep] at h
              obtain ⟨k, hk, rfl⟩ := Option.map_eq_some_iff.mp h
              obtain ⟨hrun, -, hlen⟩ := ih hk
              refine ⟨?_, by omega, by simpa using hlen⟩
              rw [List.take_succ_cons, run_cons, hstep]
              exact hrun

/-- A run that gets back to the start passes through it at the end of the first character. -/
theorem exists_charEnd {st : State} {s : Bytes} (hne : s ≠ []) (h : run st s = some .start) :
    ∃ n, charEnd st s = some n ∧ run .start (s.drop n) = some .start := by
  induction s generalizing st with
  | nil => exact absurd rfl hne
  | cons b s ih =>
      rw [run_cons] at h
      obtain ⟨st', hstep, hrun⟩ := Option.bind_eq_some_iff.mp h
      cases st' with
      | start => exact ⟨1, charEnd_cons_of_start hstep s, hrun⟩
      | inside left lo hi =>
          have hs : s ≠ [] := by
            rintro rfl
            simp [run] at hrun
          obtain ⟨n, hn, hrest⟩ := ih hs hrun
          exact ⟨n + 1, by rw [charEnd_cons_of_inside hstep, hn]; rfl, hrest⟩

/-! ## Bytes that are part of no character -/

/-- U+FFFD. -/
def replacement : Bytes :=
  [0xef, 0xbf, 0xbd]

/-- Replace each byte that no character starts with or goes on with, for so many bytes. -/
def repairedFrom : ℕ → Bytes → Bytes
  | 0, _ => []
  | _ + 1, [] => []
  | n + 1, b :: s =>
      match charEnd .start (b :: s) with
      | none => replacement ++ repairedFrom n s
      | some k => (b :: s).take k ++ repairedFrom n ((b :: s).drop k)

def repaired (s : Bytes) : Bytes :=
  repairedFrom s.length s

theorem repairedFrom_of_wellFormed {n : ℕ} {s : Bytes} (hn : s.length ≤ n) (h : WellFormed s) :
    repairedFrom n s = s := by
  induction n generalizing s with
  | zero =>
      obtain rfl : s = [] := List.eq_nil_of_length_eq_zero (by omega)
      rfl
  | succ n ih =>
      cases s with
      | nil => rfl
      | cons b s =>
          obtain ⟨k, hk, hrest⟩ := exists_charEnd (by simp) h
          obtain ⟨-, hpos, -⟩ := charEnd_spec hk
          have hlen : ((b :: s).drop k).length ≤ n := by
            simp only [List.length_drop, List.length_cons] at hn ⊢
            omega
          simp only [repairedFrom, hk]
          rw [ih hlen hrest, List.take_append_drop]

/-- Well-formed text stays as it is. -/
theorem repaired_of_wellFormed {s : Bytes} (h : WellFormed s) : repaired s = s :=
  repairedFrom_of_wellFormed le_rfl h

end CLib.Utf8

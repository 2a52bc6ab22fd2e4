import Mathlib

/-! # A reader that takes one frame off its buffer at each read -/

namespace CLib.Frames

variable {α : Type*}

/-- Buffer contents after `j` reads if nothing were taken off. -/
def arrived (buf : List α) (reads : List (List α)) (j : ℕ) : List α :=
  buf ++ (reads.take j).flatten

theorem arrived_cons_succ (buf read : List α) (reads : List (List α)) (j : ℕ) :
    arrived buf (read :: reads) (j + 1) = arrived (buf ++ read) reads j := by
  simp [arrived]

theorem arrived_zero (buf : List α) (reads : List (List α)) : arrived buf reads 0 = buf := by
  simp [arrived]

theorem drop_arrived {buf : List α} {n : ℕ} (h : n ≤ buf.length) (reads : List (List α)) (j : ℕ) :
    (arrived buf reads j).drop n = arrived (buf.drop n) reads j := by
  simp [arrived, List.drop_append_of_le_length h]

theorem isPrefix_arrived {f buf : List α} (h : f <+: buf) (reads : List (List α)) (j : ℕ) :
    f <+: arrived buf reads j :=
  h.trans (List.prefix_append _ _)

theorem arrived_append_of_le (buf : List α) {reads : List (List α)} {j : ℕ} (h : j ≤ reads.length)
    (more : List (List α)) : arrived buf (reads ++ more) j = arrived buf reads j := by
  rw [arrived, arrived, List.take_append_of_le_length h]

theorem arrived_length (reads : List (List α)) : arrived [] reads reads.length = reads.flatten := by
  rw [arrived, List.take_length, List.nil_append]

variable [DecidableEq α]

/-- Number of frames that lie completely in front of `s`. -/
def complete : List (List α) → List α → ℕ
  | [], _ => 0
  | f :: fs, s => if f <+: s then complete fs (s.drop f.length) + 1 else 0

/-- What follows the complete frames. -/
def unfinished : List (List α) → List α → List α
  | [], s => s
  | f :: fs, s => if f <+: s then unfinished fs (s.drop f.length) else s

/-- Frames taken in the course of `reads`: after each read the first frame is taken off
`buf` if it is complete, and the reader gives up on an unfinished one that it refuses. -/
def taken (refuses : List α → List α → Bool) :
    List (List α) → List α → List (List α) → ℕ
  | [], _, _ => 0
  | _ :: _, _, [] => 0
  | f :: fs, buf, read :: reads =>
      if f <+: buf ++ read then taken refuses fs ((buf ++ read).drop f.length) reads + 1
      else if refuses f (buf ++ read) then 0
      else taken refuses (f :: fs) (buf ++ read) reads

/-- The first `m` reads leave time for taking `k` frames: the frames among them that are still
unfinished after some read are no more than the reads that follow it. -/
def InTime (fs : List (List α)) (buf : List α) (reads : List (List α)) (k m : ℕ) : Prop :=
  k ≤ m ∧ ∀ j < m, k ≤ complete fs (arrived buf reads (j + 1)) + (m - (j + 1))

instance (fs : List (List α)) (buf : List α) (reads : List (List α)) (k m : ℕ) :
    Decidable (InTime fs buf reads k m) :=
  inferInstanceAs (Decidable (_ ∧ _))

/-- Read `j` finds every complete frame taken already and leaves an unfinished one that the
reader refuses. -/
def RefusedAt (refuses : List α → List α → Bool) (fs : List (List α)) (buf : List α)
    (reads : List (List α)) (j : ℕ) : Prop :=
  let s := arrived buf reads (j + 1)
  InTime fs buf reads (complete fs s) j ∧
    (fs[complete fs s]?).any (refuses · (unfinished fs s)) = true

instance (refuses : List α → List α → Bool) (fs : List (List α)) (buf : List α)
    (reads : List (List α)) (j : ℕ) : Decidable (RefusedAt refuses fs buf reads j) :=
  inferInstanceAs (Decidable (_ ∧ _))

section Taking

variable {f : List α} {fs : List (List α)} {buf read : List α} {reads : List (List α)}

theorem complete_cons_of_isPrefix (h : f <+: buf) (j : ℕ) :
    complete (f :: fs) (arrived buf reads j) =
      complete fs (arrived (buf.drop f.length) reads j) + 1 := by
  rw [complete, if_pos (isPrefix_arrived h reads j), drop_arrived h.length_le]

theorem complete_cons_of_not_isPrefix (h : ¬ f <+: buf) : complete (f :: fs) buf = 0 := by
  rw [complete, if_neg h]

theorem unfinished_cons_of_isPrefix (h : f <+: buf) (j : ℕ) :
    unfinished (f :: fs) (arrived buf reads j) =
      unfinished fs (arrived (buf.drop f.length) reads j) := by
  rw [unfinished, if_pos (isPrefix_arrived h reads j), drop_arrived h.length_le]

theorem inTime_cons_of_isPrefix (h : f <+: buf ++ read) (k m : ℕ) :
    InTime (f :: fs) buf (read :: reads) (k + 1) (m + 1) ↔
      InTime fs ((buf ++ read).drop f.length) reads k m := by
  simp only [InTime, arrived_cons_succ, complete_cons_of_isPrefix h]
  constructor
  · rintro ⟨hkm, hall⟩
    refine ⟨by omega, fun j hj => ?_⟩
    have := hall (j + 1) (by omega)
    omega
  · rintro ⟨hkm, hall⟩
    refine ⟨by omega, fun j hj => ?_⟩
    cases j with
    | zero => omega
    | succ j =>
        have := hall j (by omega)
        omega

theorem inTime_cons_of_not_isPrefix (h : ¬ f <+: buf ++ read) (k m : ℕ) :
    InTime (f :: fs) buf (read :: reads) k (m + 1) ↔
      InTime (f :: fs) (buf ++ read) reads k m := by
  simp only [InTime, arrived_cons_succ]
  constructor
  · rintro ⟨hkm, hall⟩
    have hfirst := hall 0 (by omega)
    rw [arrived_zero, complete_cons_of_not_isPrefix h] at hfirst
    refine ⟨by omega, fun j hj => ?_⟩
    have := hall (j + 1) (by omega)
    omega
  · rintro ⟨hkm, hall⟩
    refine ⟨by omega, fun j hj => ?_⟩
    cases j with
    | zero => omega
    | succ j =>
        have := hall j (by omega)
        omega

variable {refuses : List α → List α → Bool}

theorem refusedAt_cons_of_isPrefix (h : f <+: buf ++ read) (j : ℕ) :
    RefusedAt refuses (f :: fs) buf (read :: reads) j ↔
      ∃ i, j = i + 1 ∧ RefusedAt refuses fs ((buf ++ read).drop f.length) reads i := by
  simp only [RefusedAt, arrived_cons_succ, complete_cons_of_isPrefix h,
    unfinished_cons_of_isPrefix h, List.getElem?_cons_succ]
  cases j with
  | zero => simp [InTime]
  | succ i => simp [inTime_cons_of_isPrefix h]

theorem refusedAt_cons_of_not_isPrefix (h : ¬ f <+: buf ++ read) (j : ℕ) :
    RefusedAt refuses (f :: fs) buf (read :: reads) j ↔
      (j = 0 ∧ refuses f (buf ++ read) = true) ∨
        ∃ i, j = i + 1 ∧ RefusedAt refuses (f :: fs) (buf ++ read) reads i := by
  simp only [RefusedAt, arrived_cons_succ]
  cases j with
  | zero => simp [arrived_zero, complete_cons_of_not_isPrefix h, InTime, unfinished, h]
  | succ i => simp [inTime_cons_of_not_isPrefix h]

/-- The frames taken by one-a-read are those the reads leave time for, up to the first refusal. -/
theorem le_taken_iff (k : ℕ) :
    k ≤ taken refuses fs buf reads ↔
      InTime fs buf reads k reads.length ∧
        ∀ j < reads.length, RefusedAt refuses fs buf reads j →
          k ≤ complete fs (arrived buf reads (j + 1)) := by
  induction reads generalizing fs buf k with
  | nil => cases fs <;> simp [taken, InTime]
  | cons read reads ih =>
      cases fs with
      | nil =>
          simp only [taken, InTime, complete, RefusedAt, List.length_cons, List.getElem?_nil]
          constructor
          · intro h
            simp [Nat.le_zero.mp h]
          · intro h
            have := h.1.2 reads.length (by omega)
            omega
      | cons f fs =>
          by_cases hf : f <+: buf ++ read
          · rw [taken, if_pos hf]
            cases k with
            | zero => simp [InTime]
            | succ k =>
                simp only [List.length_cons, inTime_cons_of_isPrefix hf, Nat.add_le_add_iff_right,
                  ih, refusedAt_cons_of_isPrefix hf, arrived_cons_succ,
                  complete_cons_of_isPrefix hf]
                apply and_congr_right
                intro _
                constructor
                · rintro h _ hj ⟨i, rfl, hi⟩
                  exact h i (by omega) hi
                · intro h i hi hr
                  exact h (i + 1) (by omega) ⟨i, rfl, hr⟩
          · rw [taken, if_neg hf]
            by_cases hr : refuses f (buf ++ read) = true
            · rw [if_pos hr]
              constructor
              · intro h
                simp [Nat.le_zero.mp h, InTime]
              · intro h
                have := h.2 0 (by simp) ((refusedAt_cons_of_not_isPrefix hf 0).mpr (.inl ⟨rfl, hr⟩))
                rwa [arrived_cons_succ, arrived_zero, complete_cons_of_not_isPrefix hf] at this
            · rw [if_neg hr, ih]
              simp only [List.length_cons, inTime_cons_of_not_isPrefix hf,
                refusedAt_cons_of_not_isPrefix hf, arrived_cons_succ]
              apply and_congr_right
              intro _
              constructor
              · rintro h _ hj (⟨rfl, h0⟩ | ⟨i, rfl, hi⟩)
                · exact absurd h0 hr
                · exact h i (by omega) hi
              · intro h i hi hri
                exact h (i + 1) (by omega) (.inr ⟨i, rfl, hri⟩)

end Taking

/-! ## Frames that begin ahead of the reader -/

/-- Number of frames of which something lies in `s`; what follows the last one counts as another. -/
def begun (fs : List (List α)) (s : List α) : ℕ :=
  complete fs s + if unfinished fs s = [] then 0 else 1

/-- At each read, at most `n` frames begin behind the next one to be taken, if a frame is taken at
every read that finds one complete. -/
def Paced (n : ℕ) (fs reads : List (List α)) : Prop :=
  ∀ i < reads.length, ∃ k, InTime fs [] reads k i ∧
    begun fs (arrived [] reads (i + 1)) ≤ k + (n + 1)

theorem complete_append (fs gs : List (List α)) (s : List α) :
    complete (fs ++ gs) (fs.flatten ++ s) = fs.length + complete gs s := by
  induction fs with
  | nil => simp
  | cons f fs ih =>
      rw [List.cons_append, List.flatten_cons, List.append_assoc, complete,
        if_pos (List.prefix_append _ _), List.drop_left, ih, List.length_cons]
      omega

theorem unfinished_append (fs gs : List (List α)) (s : List α) :
    unfinished (fs ++ gs) (fs.flatten ++ s) = unfinished gs s := by
  induction fs with
  | nil => simp
  | cons f fs ih =>
      rw [List.cons_append, List.flatten_cons, List.append_assoc, unfinished,
        if_pos (List.prefix_append _ _), List.drop_left, ih]

theorem begun_append (fs gs : List (List α)) (s : List α) :
    begun (fs ++ gs) (fs.flatten ++ s) = fs.length + begun gs s := by
  rw [begun, complete_append, unfinished_append, begun, add_assoc]

theorem begun_cons_append (f : List α) (fs : List (List α)) (s : List α) :
    begun (f :: fs) (f ++ s) = begun fs s + 1 := by
  have h := begun_append [f] fs s
  simpa [Nat.add_comm] using h

theorem complete_cons_append (f : List α) (fs : List (List α)) (s : List α) :
    complete (f :: fs) (f ++ s) = complete fs s + 1 := by
  rw [complete, if_pos (List.prefix_append _ _), List.drop_left]

theorem complete_le_length (fs : List (List α)) (s : List α) : complete fs s ≤ fs.length := by
  induction fs generalizing s with
  | nil => exact le_rfl
  | cons f fs ih =>
      rw [complete, List.length_cons]
      split
      · exact Nat.succ_le_succ (ih _)
      · exact Nat.zero_le _

theorem complete_le_append (fs : List (List α)) (s t : List α) :
    complete fs s ≤ complete fs (s ++ t) := by
  induction fs generalizing s with
  | nil => exact le_rfl
  | cons f fs ih =>
      rw [complete]
      split
      · next h =>
          obtain ⟨r, rfl⟩ := h
          rw [List.append_assoc, complete_cons_append, List.drop_left]
          exact Nat.succ_le_succ (ih r)
      · exact Nat.zero_le _

/-- Frames of a limited length, of which one more follows those in `s` or nothing is unfinished. -/
theorem length_le_begun {fs : List (List α)} {n : ℕ} (hsize : ∀ f ∈ fs, f.length ≤ n)
    {s t : List α} (h : s <+: fs.flatten ++ t)
    (hin : complete fs s < fs.length ∨ unfinished fs s = []) : s.length ≤ begun fs s * n := by
  induction fs generalizing s with
  | nil =>
      have hnil : s = [] := hin.resolve_left (Nat.lt_irrefl 0)
      simp [hnil]
  | cons f fs ih =>
      have hf := hsize f (by simp)
      by_cases hp : f <+: s
      · obtain ⟨r, rfl⟩ := hp
        rw [List.flatten_cons, List.append_assoc, List.prefix_append_right_inj] at h
        rw [complete_cons_append, unfinished, if_pos (List.prefix_append _ _), List.drop_left,
          List.length_cons, Nat.add_lt_add_iff_right] at hin
        have hr := ih (fun g hg => hsize g (List.mem_cons_of_mem f hg)) h hin
        rw [begun_cons_append, List.length_append, Nat.succ_mul]
        omega
      · have hshort : s.length ≤ f.length := by
          by_contra hlong
          refine hp (List.prefix_of_prefix_length_le (List.prefix_append f (fs.flatten ++ t)) ?_
            (not_le.mp hlong).le)
          rwa [← List.append_assoc, ← List.flatten_cons]
        rw [begun, complete, if_neg hp, unfinished, if_neg hp]
        by_cases hs : s = []
        · simp [hs]
        · rw [if_neg hs, zero_add, one_mul]
          exact hshort.trans hf

theorem inTime_append_of_le (fs : List (List α)) (buf : List α) {reads : List (List α)} {m : ℕ}
    (h : m ≤ reads.length) (more : List (List α)) (k : ℕ) :
    InTime fs buf (reads ++ more) k m ↔ InTime fs buf reads k m := by
  apply and_congr_right
  intro _
  refine forall₂_congr fun j hj => ?_
  rw [arrived_append_of_le buf (by omega)]

theorem paced_append {n : ℕ} {fs reads more : List (List α)} (h : Paced n fs (reads ++ more)) :
    Paced n fs reads := by
  intro i hi
  obtain ⟨k, hk, hbegun⟩ := h i (by rw [List.length_append]; omega)
  rw [inTime_append_of_le fs [] hi.le] at hk
  rw [arrived_append_of_le [] hi] at hbegun
  exact ⟨k, hk, hbegun⟩

/-- Each read leaves time for one frame more at most. -/
theorem inTime_of_succ {fs reads : List (List α)} {read : List α} {k : ℕ}
    (h : InTime fs [] (reads ++ [read]) (k + 1) (reads.length + 1)) :
    InTime fs [] reads k reads.length := by
  rw [← inTime_append_of_le fs [] le_rfl [read]]
  refine ⟨Nat.le_of_succ_le_succ h.1, fun j hj => ?_⟩
  have := h.2 j (by omega)
  omega

end CLib.Frames

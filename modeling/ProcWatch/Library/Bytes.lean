import Mathlib

/-! # Byte strings, C strings and substring search -/

namespace CLib

abbrev Byte := UInt8

abbrev Bytes := List Byte

/-- The bytes of an ASCII literal. -/
def bytes (s : String) : Bytes :=
  s.toList.map fun c => UInt8.ofNat c.toNat

theorem length_bytes (s : String) : (bytes s).length = s.toList.length :=
  List.length_map _

/-! ## Substring search -/

/-- Offset of the first occurrence of `pat`, as `memmem` reports it. -/
def find {α : Type*} [DecidableEq α] (pat : List α) : List α → Option ℕ
  | [] => if pat = [] then some 0 else none
  | a :: s => if pat <+: a :: s then some 0 else (find pat s).map (· + 1)

section Search

variable {α : Type*} [DecidableEq α]

theorem find_of_isPrefix {pat s : List α} (h : pat <+: s) : find pat s = some 0 := by
  cases s with
  | nil => simp [find, List.prefix_nil.mp h]
  | cons a s => simp [find, h]

theorem find_cons_of_not_isPrefix {pat : List α} {a : α} {s : List α}
    (h : ¬ pat <+: a :: s) : find pat (a :: s) = (find pat s).map (· + 1) := by
  simp [find, h]

/-- A reported offset carries an occurrence, and no earlier offset does. -/
theorem find_spec {pat : List α} :
    ∀ {s : List α} {i : ℕ}, find pat s = some i →
      pat <+: s.drop i ∧ i ≤ s.length ∧ ∀ j < i, ¬ pat <+: s.drop j := by
  intro s
  induction s with
  | nil =>
      intro i h
      by_cases hp : pat = []
      · simp [find, hp] at h
        simp [← h, hp]
      · simp [find, hp] at h
  | cons a s ih =>
      intro i h
      by_cases hp : pat <+: a :: s
      · rw [find_of_isPrefix hp] at h
        obtain rfl := Option.some.inj h
        exact ⟨hp, Nat.zero_le _, fun j hj => absurd hj (Nat.not_lt_zero j)⟩
      · rw [find_cons_of_not_isPrefix hp] at h
        obtain ⟨k, hk, rfl⟩ := Option.map_eq_some_iff.mp h
        obtain ⟨hpre, hlen, hmin⟩ := ih hk
        refine ⟨by simpa using hpre, by simpa using hlen, ?_⟩
        intro j hj
        cases j with
        | zero => simpa using hp
        | succ j => simpa using hmin j (by omega)

/-- The first occurrence is found at the offset where it starts. -/
theorem find_eq_some_of_first {pat : List α} :
    ∀ {s : List α} {i : ℕ}, i ≤ s.length → pat <+: s.drop i →
      (∀ j < i, ¬ pat <+: s.drop j) → find pat s = some i := by
  intro s
  induction s with
  | nil =>
      intro i hi hp _
      obtain rfl : i = 0 := by simpa using hi
      exact find_of_isPrefix (by simpa using hp)
  | cons a s ih =>
      intro i hi hp hmin
      cases i with
      | zero => exact find_of_isPrefix (by simpa using hp)
      | succ i =>
          have h0 : ¬ pat <+: a :: s := by simpa using hmin 0 (Nat.succ_pos i)
          have hrec := ih (i := i) (by simpa using hi) (by simpa using hp)
            (fun j hj => by simpa using hmin (j + 1) (by omega))
          rw [find_cons_of_not_isPrefix h0, hrec]
          rfl

theorem find_eq_none_iff {pat : List α} :
    ∀ {s : List α}, find pat s = none ↔ ∀ i ≤ s.length, ¬ pat <+: s.drop i := by
  intro s
  constructor
  · intro h i hi hp
    induction s generalizing i with
    | nil =>
        obtain rfl : i = 0 := by simpa using hi
        simp [find_of_isPrefix (by simpa using hp : pat <+: [])] at h
    | cons a s ih =>
        by_cases h0 : pat <+: a :: s
        · simp [find_of_isPrefix h0] at h
        · rw [find_cons_of_not_isPrefix h0, Option.map_eq_none_iff] at h
          cases i with
          | zero => exact h0 (by simpa using hp)
          | succ i => exact ih h i (by simpa using hi) (by simpa using hp)
  · intro h
    cases hf : find pat s with
    | none => rfl
    | some i =>
        obtain ⟨hp, hi, _⟩ := find_spec hf
        exact absurd hp (h i hi)

/-- A pattern that does not start anywhere in `pre` is found past it. -/
theorem find_append_of_not_isPrefix {pat pre s : List α}
    (h : ∀ j < pre.length, ¬ pat <+: (pre ++ s).drop j) :
    find pat (pre ++ s) = (find pat s).map (· + pre.length) := by
  induction pre with
  | nil => simp
  | cons a pre ih =>
      have h0 : ¬ pat <+: a :: (pre ++ s) := by simpa using h 0 (by simp)
      have hrec := ih (fun j hj => by simpa using h (j + 1) (by simpa using hj))
      rw [List.cons_append, find_cons_of_not_isPrefix h0, hrec, Option.map_map]
      congr 1

/-- More text behind does not move the first occurrence. -/
theorem find_of_append {pat s : List α} {i : ℕ} (h : find pat s = some i) (t : List α) :
    find pat (s ++ t) = some i := by
  obtain ⟨hp, hi, hmin⟩ := find_spec h
  have hfits : i + pat.length ≤ s.length := by
    have := hp.length_le
    rw [List.length_drop] at this
    omega
  apply find_eq_some_of_first
  · exact hi.trans (by simp)
  · rw [List.drop_append_of_le_length hi]
    exact hp.trans (List.prefix_append _ _)
  · intro j hj hpj
    apply hmin j hj
    rw [List.drop_append_of_le_length (by omega)] at hpj
    exact List.prefix_of_prefix_length_le hpj (List.prefix_append _ _) (by simp; omega)

/-- A text that ends before the first occurrence does has none. -/
theorem find_eq_none_of_isPrefix {pat s t : List α} {i : ℕ} (h : find pat t = some i)
    (hs : s <+: t) (hlen : s.length < i + pat.length) : find pat s = none := by
  cases hf : find pat s with
  | none => rfl
  | some k =>
      obtain ⟨rest, rfl⟩ := hs
      obtain rfl := Option.some.inj ((find_of_append hf rest).symm.trans h)
      have := (find_spec hf).1.length_le
      rw [List.length_drop] at this
      have := (find_spec hf).2.1
      omega

theorem find_eq_none_of_isPrefix_of_none {pat s t : List α} (h : find pat t = none)
    (hs : s <+: t) : find pat s = none := by
  cases hf : find pat s with
  | none => rfl
  | some k =>
      obtain ⟨rest, rfl⟩ := hs
      simp [find_of_append hf rest] at h

end Search

/-! ## C strings -/

/-- The string a pointer into memory denotes: everything before the first NUL. -/
def cstr (s : Bytes) : Bytes :=
  s.takeWhile (· ≠ 0)

theorem cstr_of_nulFree {s : Bytes} (h : (0 : Byte) ∉ s) : cstr s = s := by
  apply List.takeWhile_eq_self_iff.mpr
  intro b hb
  simp only [ne_eq, decide_eq_true_eq]
  rintro rfl
  exact h hb

theorem nulFree_cstr (s : Bytes) : (0 : Byte) ∉ cstr s := by
  intro h
  have := List.mem_takeWhile_imp h
  simp at this

theorem cstr_isPrefix (s : Bytes) : cstr s <+: s :=
  List.takeWhile_prefix _

theorem length_cstr_le (s : Bytes) : (cstr s).length ≤ s.length :=
  (cstr_isPrefix s).length_le

/-- Cutting at a length and cutting at the first NUL commute. -/
theorem cstr_take (n : ℕ) (s : Bytes) : cstr (s.take n) = (cstr s).take n :=
  List.take_takeWhile.symm

/-- A NUL-free pattern occurs at the front of a C string exactly where it occurs in memory. -/
theorem prefix_cstr_iff {pat s : Bytes} (h : (0 : Byte) ∉ pat) :
    pat <+: cstr s ↔ pat <+: s := by
  constructor
  · exact fun hp => hp.trans (cstr_isPrefix s)
  · rintro ⟨t, rfl⟩
    rw [cstr, List.takeWhile_append_of_pos]
    · exact List.prefix_append _ _
    · intro b hb
      simp only [ne_eq, decide_eq_true_eq]
      rintro rfl
      exact h hb

/-- Text without line ends and NUL. -/
def OneLine (s : Bytes) : Prop :=
  ∀ b ∈ s, b ≠ 0 ∧ b ≠ 0x0d ∧ b ≠ 0x0a

instance (s : Bytes) : Decidable (OneLine s) :=
  inferInstanceAs (Decidable (∀ b ∈ s, _))

theorem OneLine.append {s t : Bytes} (hs : OneLine s) (ht : OneLine t) : OneLine (s ++ t) := by
  intro b hb
  cases List.mem_append.mp hb with
  | inl h => exact hs b h
  | inr h => exact ht b h

theorem OneLine.cstr_eq {s : Bytes} (h : OneLine s) : cstr s = s :=
  cstr_of_nulFree fun h0 => (h 0 h0).1 rfl

/-- Contents of a `char[cap]` buffer: NUL-free and short enough for its terminator. -/
@[ext]
structure CStr (cap : ℕ) where
  val : Bytes
  length_lt : val.length < cap
  nulFree : (0 : Byte) ∉ val
  deriving DecidableEq

/-- `snprintf(dst, cap, "%s", s)`. -/
def CStr.copy (cap : ℕ) [NeZero cap] (s : Bytes) : CStr cap where
  val := (cstr s).take (cap - 1)
  length_lt := by
    have := NeZero.pos cap
    simp only [List.length_take]
    omega
  nulFree := fun h => nulFree_cstr s (List.mem_of_mem_take h)

theorem CStr.copy_val {cap : ℕ} [NeZero cap] (s : Bytes) :
    (CStr.copy cap s).val = (cstr s).take (cap - 1) := rfl

/-- A string that fits is copied unchanged. -/
theorem CStr.copy_val_of_fits {cap : ℕ} [NeZero cap] {s : Bytes}
    (h0 : (0 : Byte) ∉ s) (hlen : s.length < cap) : (CStr.copy cap s).val = s := by
  rw [copy_val, cstr_of_nulFree h0, List.take_of_length_le (by omega)]

/-! Sizes of buffers: a definition refers to these instances and carries no proof of its own. -/

instance neZero16 : NeZero 16 := ⟨by decide⟩
instance neZero17 : NeZero 17 := ⟨by decide⟩
instance neZero32 : NeZero 32 := ⟨by decide⟩
instance neZero33 : NeZero 33 := ⟨by decide⟩
instance neZero40 : NeZero 40 := ⟨by decide⟩
instance neZero64 : NeZero 64 := ⟨by decide⟩
instance neZero80 : NeZero 80 := ⟨by decide⟩
instance neZero100 : NeZero 100 := ⟨by decide⟩
instance neZero128 : NeZero 128 := ⟨by decide⟩
instance neZero129 : NeZero 129 := ⟨by decide⟩
instance neZero256 : NeZero 256 := ⟨by decide⟩
instance neZero512 : NeZero 512 := ⟨by decide⟩
instance neZero1024 : NeZero 1024 := ⟨by decide⟩
instance neZero2048 : NeZero 2048 := ⟨by decide⟩
instance neZero8192 : NeZero 8192 := ⟨by decide⟩

/-- `snprintf` output of text `s` into a buffer of `cap` bytes. -/
def bounded (cap : ℕ) (s : Bytes) : Bytes :=
  s.take (cap - 1)

theorem bounded_of_length_lt {cap : ℕ} {s : Bytes} (h : s.length < cap) :
    bounded cap s = s :=
  List.take_of_length_le (by omega)

/-- `strstr`, as the offset of the hit. -/
def strstr (hay pat : Bytes) : Option ℕ :=
  find pat (cstr hay)

/-- `strchr` for a byte other than NUL, as the offset of the hit. -/
def strchr (s : Bytes) (c : Byte) : Option ℕ :=
  (cstr s).findIdx? (· == c)

/-- `strncmp(a, b, n) == 0`. -/
def strncmpEq (a b : Bytes) (n : ℕ) : Bool :=
  (cstr a).take n == (cstr b).take n

end CLib

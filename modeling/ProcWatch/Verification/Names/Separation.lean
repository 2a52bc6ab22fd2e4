import ProcWatch.Model.Names

/-! # Which labels share a table or a statement name -/

namespace ProcWatch

open CLib

/-! ## The two truncations -/

/-- The 80-byte buffer never matters: only the cut at 63 characters does. -/
theorem tableName_eq_take (kind : Kind) (label : Bytes) :
    tableName kind label = (label ++ kind.suffix).take 63 := by
  simp only [tableName, suffixedName]
  split
  · rw [bounded, List.take_take]
    rfl
  · rename_i h
    rw [bounded, List.length_take] at h
    rw [bounded, List.take_of_length_le (by omega), List.take_of_length_le (by omega)]

theorem stmtName_eq_take (kind : Kind) (label : Bytes) :
    stmtName kind label = kind.stmtPrefix ++ label.take (79 - kind.stmtPrefix.length) := by
  have hlen : kind.stmtPrefix.length ≤ 79 := by cases kind <;> decide
  rw [stmtName, bounded, STMT_NAME_MAX, List.take_append,
    List.take_of_length_le (by simpa using hlen)]

theorem take_eq_take_iff_getElem? {α : Type*} (n : ℕ) (xs ys : List α) :
    xs.take n = ys.take n ↔ ∀ i < n, xs[i]? = ys[i]? := by
  constructor
  · intro h i hi
    simpa [List.getElem?_take, hi] using congrArg (·[i]?) h
  · intro h
    apply List.ext_getElem?
    intro i
    by_cases hi : i < n
    · simpa [List.getElem?_take, hi] using h i hi
    · simp [hi]

/-! ## Statement names -/

/-- Statement names of different kinds differ in their fourth character. -/
theorem kind_eq_of_stmtName_eq {k k' : Kind} {l l' : Bytes}
    (h : stmtName k l = stmtName k' l') : k = k' := by
  rw [stmtName_eq_take, stmtName_eq_take] at h
  have h3 := congrArg (·[3]?) h
  cases k <;> cases k' <;> first | rfl | (exfalso; revert h3; simp [Kind.stmtPrefix, bytes])

/-- Two labels with one statement name are equal or agree far beyond 63 characters. -/
theorem label_eq_or_take_eq_of_stmtName_eq {k : Kind} {l l' : Bytes}
    (h : stmtName k l = stmtName k l') :
    l = l' ∨ (63 ≤ l.length ∧ 63 ≤ l'.length ∧ l.take 63 = l'.take 63) := by
  rw [stmtName_eq_take, stmtName_eq_take] at h
  have hn : 63 ≤ 79 - k.stmtPrefix.length := by cases k <;> decide
  generalize 79 - k.stmtPrefix.length = n at h hn
  have htake : l.take n = l'.take n := List.append_cancel_left h
  have hlen := congrArg List.length htake
  rw [List.length_take, List.length_take] at hlen
  by_cases hshort : l.length < n
  · left
    rwa [List.take_of_length_le (by omega), List.take_of_length_le (by omega)] at htake
  · right
    refine ⟨by omega, by omega, ?_⟩
    have h63 := congrArg (List.take 63) htake
    rwa [List.take_take, List.take_take, Nat.min_eq_left hn] at h63

/-- Sharing a statement name means sharing the table as well. -/
theorem tableName_eq_of_stmtName_eq {k k' : Kind} {l l' : Bytes}
    (h : stmtName k l = stmtName k' l') : tableName k l = tableName k' l' := by
  obtain rfl := kind_eq_of_stmtName_eq h
  rcases label_eq_or_take_eq_of_stmtName_eq h with rfl | ⟨hl, hl', htake⟩
  · rfl
  · rw [tableName_eq_take, tableName_eq_take, List.take_append_of_le_length hl,
      List.take_append_of_le_length hl', htake]

/-! ## Separation of tenants -/

/-- The names of two kinds and labels keep them apart. -/
def NamesSeparate (k : Kind) (l : Bytes) (k' : Kind) (l' : Bytes) : Prop :=
  tableName k l ≠ tableName k' l' ∧ stmtName k l ≠ stmtName k' l'

/-- Label and suffix, written one after the other, differ within 63 characters. -/
def DifferWithin63 (k : Kind) (l : Bytes) (k' : Kind) (l' : Bytes) : Prop :=
  ∃ i < 63, (l ++ k.suffix)[i]? ≠ (l' ++ k'.suffix)[i]?

theorem tableName_ne_iff (k k' : Kind) (l l' : Bytes) :
    tableName k l ≠ tableName k' l' ↔ DifferWithin63 k l k' l' := by
  rw [tableName_eq_take, tableName_eq_take, Ne, take_eq_take_iff_getElem?, DifferWithin63]
  push Not
  rfl

/-- Two valid labels, of the same kind or not, are kept apart exactly when label and suffix
differ in one of their first 63 characters. -/
theorem namesSeparate_iff (k k' : Kind) (l l' : Bytes) :
    NamesSeparate k l k' l' ↔ DifferWithin63 k l k' l' := by
  rw [NamesSeparate, tableName_ne_iff]
  refine ⟨And.left, fun h => ⟨h, fun hs => ?_⟩⟩
  exact (tableName_ne_iff k k' l l').mpr h (tableName_eq_of_stmtName_eq hs)

/-- Sixty-three and sixty-four letters share the span table. -/
theorem not_forall_namesSeparate :
    ¬ ∀ (k k' : Kind) (l l' : Bytes), validateIdentifier l = true →
      validateIdentifier l' = true → (k, l) ≠ (k', l') → NamesSeparate k l k' l' := by
  intro h
  have hsep := h .spans .spans (List.replicate 63 0x61) (List.replicate 64 0x61)
    (by decide) (by decide) (by decide)
  exact hsep.1 (by decide)

/-- The third character from the end tells the suffixes apart. -/
theorem kind_eq_of_append_suffix_eq {k k' : Kind} {l l' : Bytes}
    (h : l ++ k.suffix = l' ++ k'.suffix) : k = k' := by
  have h2 := congrArg (fun s => s.reverse[2]?) h
  cases k <;> cases k' <;> first | rfl | (exfalso; revert h2; simp [Kind.suffix, bytes])

/-- Labels of at most 50 characters always separate. -/
theorem namesSeparate_of_short {k k' : Kind} {l l' : Bytes} (hl : l.length ≤ 50)
    (hl' : l'.length ≤ 50) (hne : (k, l) ≠ (k', l')) : NamesSeparate k l k' l' := by
  have hs (k : Kind) : k.suffix.length ≤ 13 := by cases k <;> decide
  have h1 := hs k
  have h2 := hs k'
  rw [namesSeparate_iff, ← tableName_ne_iff, tableName_eq_take, tableName_eq_take,
    List.take_of_length_le (by simp; omega), List.take_of_length_le (by simp; omega)]
  intro h
  obtain rfl := kind_eq_of_append_suffix_eq h
  exact hne (by rw [List.append_cancel_right h])

end ProcWatch

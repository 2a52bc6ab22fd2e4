import ProcWatch.Library.Double

/-! # Doubles whose integral part lies in a range -/

namespace CLib.Double

/-- The number that a finite double stands for. -/
def value (d : Double) : Option ℚ :=
  match d.view with
  | .finite neg m e => some (if neg then -(m * 2 ^ e) else m * 2 ^ e)
  | _ => none

theorem ratio_eq (m : ℕ) (e : ℤ) : ((ratio m e).1 : ℚ) / (ratio m e).2 = m * 2 ^ e := by
  unfold ratio
  split
  · rename_i he
    obtain ⟨k, rfl⟩ := Int.eq_ofNat_of_zero_le he
    simp
  · rename_i he
    obtain ⟨k, hk⟩ := Int.eq_ofNat_of_zero_le (show 0 ≤ -e by omega)
    obtain rfl : e = -(k : ℤ) := by omega
    simp [div_eq_mul_inv]

theorem ratio_pos (m : ℕ) (e : ℤ) : 0 < (ratio m e).2 := by
  unfold ratio
  split
  · exact Nat.one_pos
  · positivity

/-- Division of naturals against division of rationals. -/
theorem div_le_iff_lt {a b n : ℕ} (hb : 0 < b) : a / b ≤ n ↔ (a : ℚ) / b < n + 1 := by
  have hq : (0 : ℚ) < b := by exact_mod_cast hb
  rw [← Nat.lt_succ_iff, Nat.div_lt_iff_lt_mul hb, div_lt_iff₀ hq]
  exact_mod_cast Iff.rfl

/-- The integral part of a double lies in a range around zero exactly where its value lies
strictly between the neighbours of the range. -/
theorem trunc_mem_iff (d : Double) {lo hi : ℤ} (hlo : lo ≤ 0) (hhi : 0 ≤ hi) :
    (∃ n, d.trunc = some n ∧ lo ≤ n ∧ n ≤ hi) ↔
      ∃ q, d.value = some q ∧ (lo - 1 : ℚ) < q ∧ q < hi + 1 := by
  obtain ⟨lo, rfl⟩ : ∃ k : ℕ, lo = -(k : ℤ) := ⟨lo.natAbs, by omega⟩
  obtain ⟨hi, rfl⟩ := Int.eq_ofNat_of_zero_le hhi
  unfold trunc value
  cases d.view with
  | inf neg => simp
  | nan neg => simp
  | finite neg m e =>
      have hpos := ratio_pos m e
      have hq : (0 : ℚ) ≤ m * 2 ^ e := by positivity
      simp only [Option.some.injEq, exists_eq_left', ← ratio_eq]
      have hnonneg : (0 : ℤ) ≤ (ratio m e).1 / (ratio m e).2 := by positivity
      rw [← ratio_eq] at hq
      cases neg with
      | true =>
          have hfit := div_le_iff_lt (a := (ratio m e).1) (n := lo) hpos
          simp only [if_true]
          push_cast
          constructor
          · intro h
            have hle : (ratio m e).1 / (ratio m e).2 ≤ lo := by
              exact_mod_cast neg_le_neg_iff.mp h.1
            have hlt := hfit.mp hle
            exact ⟨by linarith, by linarith [Nat.cast_nonneg (α := ℚ) hi]⟩
          · intro h
            have hle := hfit.mpr (by linarith [h.1])
            exact ⟨by exact_mod_cast neg_le_neg (Int.ofNat_le.mpr hle), by omega⟩
      | false =>
          have hfit := div_le_iff_lt (a := (ratio m e).1) (n := hi) hpos
          simp only [Bool.false_eq_true, if_false]
          push_cast
          constructor
          · intro h
            have hle : (ratio m e).1 / (ratio m e).2 ≤ hi := by exact_mod_cast h.2
            exact ⟨by linarith [Nat.cast_nonneg (α := ℚ) lo], hfit.mp hle⟩
          · intro h
            exact ⟨by omega, by exact_mod_cast hfit.mpr h.2⟩

end CLib.Double

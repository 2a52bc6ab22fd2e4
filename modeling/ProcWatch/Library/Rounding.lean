import ProcWatch.Library.Double

/-! # Doubles read from printed numbers -/

namespace CLib.Double

/-! ## Integers below `2 ^ 53` -/

theorem divRound_one (n : ℕ) : divRound n 1 = n := by
  simp [divRound, Nat.mod_one]

theorem view_ofMagnitude (neg : Bool) {s m : ℕ} (hs : s < 2046) (hlo : 2 ^ 52 ≤ m)
    (hhi : m < 2 ^ 53) :
    (ofMagnitude neg (s * 2 ^ 52 + m)).view = .finite neg m ((s : ℤ) - 1074) := by
  have hsign : (if neg then 2 ^ 63 else 0) = neg.toNat * 2 ^ 63 := by cases neg <;> rfl
  have hneg : neg.toNat ≤ 1 := Bool.toNat_le neg
  have hbits : (ofMagnitude neg (s * 2 ^ 52 + m)).bits.toNat =
      s * 2 ^ 52 + m + neg.toNat * 2 ^ 63 := by
    rw [ofMagnitude, hsign, UInt64.toNat_ofNat']
    omega
  have hsignBit : decide (2 ^ 63 ≤ s * 2 ^ 52 + m + neg.toNat * 2 ^ 63) = neg := by
    cases neg with
    | false =>
        simp only [Bool.toNat_false, zero_mul, add_zero, decide_eq_false_iff_not]
        omega
    | true => simp
  have hexp : (s * 2 ^ 52 + m + neg.toNat * 2 ^ 63) / 2 ^ 52 % 2048 = s + 1 := by omega
  have hfrac : (s * 2 ^ 52 + m + neg.toNat * 2 ^ 63) % 2 ^ 52 = m - 2 ^ 52 := by omega
  rw [view]
  simp only [hbits, hsignBit, hexp, hfrac]
  have hmant : 2 ^ 52 + (m - 2 ^ 52) = m := by omega
  have hscale : ((s + 1 : ℕ) : ℤ) - 1075 = (s : ℤ) - 1074 := by
    push_cast
    omega
  rw [if_neg (by omega), if_neg (by omega), hmant, hscale]

/-- An integer that a mantissa can hold is represented exactly. -/
theorem view_round {n : ℕ} (neg : Bool) (hpos : 0 < n) (h : n < 2 ^ 53) :
    (round neg n 1).view = .finite neg (n * 2 ^ (52 - n.log2)) ((n.log2 : ℤ) - 52) := by
  have hlog : n.log2 < 53 := (Nat.log2_lt hpos.ne').mpr h
  have hself : 2 ^ n.log2 ≤ n := Nat.log2_self_le hpos.ne'
  have hnext : n < 2 ^ (n.log2 + 1) := Nat.lt_log2_self
  have hlo : 2 ^ 52 ≤ n * 2 ^ (52 - n.log2) := by
    calc 2 ^ 52 = 2 ^ n.log2 * 2 ^ (52 - n.log2) := by rw [← pow_add]; congr 1; omega
      _ ≤ n * 2 ^ (52 - n.log2) := Nat.mul_le_mul_right _ hself
  have hhi : n * 2 ^ (52 - n.log2) < 2 ^ 53 := by
    calc n * 2 ^ (52 - n.log2) < 2 ^ (n.log2 + 1) * 2 ^ (52 - n.log2) :=
          Nat.mul_lt_mul_of_pos_right hnext (by positivity)
      _ = 2 ^ 53 := by rw [← pow_add]; congr 1; omega
  have hone : Nat.log2 1 = 0 := by decide
  have hbelow : ¬ n < 2 ^ n.log2 := not_lt.mpr hself
  have hround : round neg n 1 =
      ofMagnitude neg ((n.log2 + 1022) * 2 ^ 52 + n * 2 ^ (52 - n.log2)) := by
    have hexp : max ((n.log2 : ℤ) - 52) (-1074) = (n.log2 : ℤ) - 52 := by omega
    have hoffset : ((n.log2 : ℤ) - 52 + 1074).toNat = n.log2 + 1022 := by omega
    have hscale : (-((n.log2 : ℤ) - 52)).toNat = 52 - n.log2 := by omega
    rw [round, if_neg hpos.ne']
    simp only [hone, Nat.cast_zero, sub_zero, Nat.cast_nonneg, if_true, Int.toNat_natCast, one_mul,
      hbelow, if_false, hexp, hoffset, hscale, divRound_one]
    by_cases hs : (0 : ℤ) ≤ (n.log2 : ℤ) - 52
    · have hfull : n.log2 = 52 := by omega
      simp only [hfull, Nat.cast_ofNat, sub_self, le_refl, if_true, Int.toNat_zero, pow_zero,
        divRound_one, mul_one, tsub_self]
      rw [if_neg (by omega)]
    · rw [if_neg hs, if_neg (by omega)]
  have hexp : ((n.log2 + 1022 : ℕ) : ℤ) - 1074 = (n.log2 : ℤ) - 52 := by
    push_cast
    omega
  rw [hround, view_ofMagnitude neg (by omega) hlo hhi, hexp]

theorem trunc_round {n : ℕ} (neg : Bool) (h : n < 2 ^ 53) :
    (round neg n 1).trunc = some (if neg then -(n : ℤ) else n) := by
  cases Nat.eq_zero_or_pos n with
  | inl hzero =>
      subst hzero
      cases neg <;> decide +kernel
  | inr hpos =>
      have hlog : n.log2 < 53 := (Nat.log2_lt hpos.ne').mpr h
      have hdiv : (ratio (n * 2 ^ (52 - n.log2)) ((n.log2 : ℤ) - 52)).1 /
          (ratio (n * 2 ^ (52 - n.log2)) ((n.log2 : ℤ) - 52)).2 = n := by
        rw [ratio]
        split
        · have hfull : n.log2 = 52 := by omega
          simp [hfull]
        · have hscale : (-((n.log2 : ℤ) - 52)).toNat = 52 - n.log2 := by omega
          rw [hscale]
          exact Nat.mul_div_cancel _ (by positivity)
      rw [trunc, view_round neg hpos h]
      simp only [hdiv]

theorem toSigned_ofInt {n : ℤ} {w : ℕ} (hw : 53 ≤ w) (h : n.natAbs < 2 ^ 53) :
    (ofInt n).toSigned w = n := by
  have hvalue : (if decide (n < 0) then -(n.natAbs : ℤ) else n.natAbs) = n := by
    by_cases hneg : n < 0
    · rw [if_pos (by simpa using hneg)]
      omega
    · rw [if_neg (by simpa using hneg)]
      omega
  have hpow : (2 : ℤ) ^ 53 ≤ 2 ^ w := pow_le_pow_right₀ (by decide) hw
  rw [toSigned, ofInt, trunc_round _ h, hvalue]
  dsimp only
  rw [if_pos]
  omega

/-! ## Numbers with decimals -/

/-- What ends a number. -/
def Stops (t : Bytes) : Prop :=
  ∀ b ∈ t.head?, b = 0x2c ∨ b = 0x7d

theorem Stops.cases {t : Bytes} (h : Stops t) :
    t = [] ∨ ∃ b u, t = b :: u ∧ (b = 0x2c ∨ b = 0x7d) := by
  cases t with
  | nil => exact .inl rfl
  | cons b u => exact .inr ⟨b, u, rfl, h b rfl⟩

theorem Stops.cstr {t : Bytes} (h : Stops t) : Stops (cstr t) := by
  rcases h.cases with rfl | ⟨b, u, rfl, hb⟩
  · exact h
  · have hne : b ≠ 0 := by
      rcases hb with rfl | rfl <;> decide
    intro c hc
    rw [CLib.cstr, List.takeWhile_cons_of_pos (by simpa using hne)] at hc
    obtain rfl : b = c := by simpa using hc
    exact hb

theorem isDigit_bounds {b : Byte} (h : isDigit b = true) :
    b ≠ 0 ∧ isSpace b = false ∧ b ≠ 0x2d ∧ b ≠ 0x2b ∧ lower b = b ∧ b ≠ 0x69 ∧ b ≠ 0x6e ∧
      b ≠ 0x78 ∧ b ≠ 0x2e := by
  revert h b
  decide +kernel

section Fixed

variable {ip fp t : Bytes}

theorem mantissa_fixed (hip : ∀ b ∈ ip, isDigit b = true) (hfp : ∀ b ∈ fp, isDigit b = true)
    (ht : Stops t) : mantissa isDigit (ip ++ (fraction fp ++ t)) = (ip, fp, t) := by
  have hstop : t.takeWhile isDigit = [] ∧ t.dropWhile isDigit = t := by
    rcases ht.cases with rfl | ⟨b, u, rfl, rfl | rfl⟩
    · exact ⟨rfl, rfl⟩
    · exact ⟨rfl, rfl⟩
    · exact ⟨rfl, rfl⟩
  have htail : (fraction fp ++ t).takeWhile isDigit = [] ∧
      (fraction fp ++ t).dropWhile isDigit = fraction fp ++ t := by
    rw [fraction]
    split
    · exact hstop
    · exact ⟨rfl, rfl⟩
  rw [mantissa, List.takeWhile_append_of_pos hip, List.dropWhile_append_of_pos hip, htail.1,
    htail.2, List.append_nil, fraction]
  by_cases hnil : fp = []
  · rw [if_pos hnil, hnil, List.nil_append]
    rcases ht.cases with rfl | ⟨b, u, rfl, rfl | rfl⟩ <;> rfl
  · rw [if_neg hnil, List.cons_append]
    simp only
    rw [List.takeWhile_append_of_pos hfp, List.dropWhile_append_of_pos hfp, hstop.1, hstop.2,
      List.append_nil]

/-- Neither a word nor a hexadecimal number. -/
theorem not_special_fixed (fp : Bytes) (hne : ip ≠ []) (hip : ∀ b ∈ ip, isDigit b = true) (ht : Stops t) :
    ∀ pat ∈ [bytes "inf", bytes "nan", bytes "0x"],
      ¬ pat <+: (ip ++ (fraction fp ++ t)).map lower := by
  intro pat hpat
  obtain ⟨d, ds, rfl⟩ := List.exists_cons_of_ne_nil hne
  obtain ⟨-, -, -, -, hlower, hi, hn, -⟩ := isDigit_bounds (hip d (by simp))
  have hinf : bytes "inf" = [0x69, 0x6e, 0x66] := by decide +kernel
  have hnan : bytes "nan" = [0x6e, 0x61, 0x6e] := by decide +kernel
  have hhex : bytes "0x" = [0x30, 0x78] := by decide +kernel
  have hsecond : ∀ b ∈ (ds ++ (fraction fp ++ t)).head?, lower b ≠ 0x78 := by
    intro b hb
    cases ds with
    | cons d' ds =>
        obtain rfl : d' = b := by simpa using hb
        obtain ⟨-, -, -, -, hlower', -, -, hx, -⟩ := isDigit_bounds (hip d' (by simp))
        rwa [hlower']
    | nil =>
        rw [List.nil_append, fraction] at hb
        split at hb
        · rcases ht.cases with rfl | ⟨c, u, rfl, hc⟩
          · cases hb
          · obtain rfl : c = b := by simpa using hb
            rcases hc with rfl | rfl <;> decide
        · obtain rfl : (0x2e : Byte) = b := by simpa using hb
          decide
  simp only [List.mem_cons, List.not_mem_nil, or_false] at hpat
  rw [List.cons_append, List.map_cons, hlower]
  rcases hpat with rfl | rfl | rfl
  · rw [hinf, List.cons_prefix_cons]
    exact fun h => hi h.1.symm
  · rw [hnan, List.cons_prefix_cons]
    exact fun h => hn h.1.symm
  · rw [hhex, List.cons_prefix_cons]
    rintro ⟨-, h⟩
    cases hrest : ds ++ (fraction fp ++ t) with
    | nil => simp [hrest] at h
    | cons b u =>
        rw [hrest, List.map_cons, List.cons_prefix_cons] at h
        exact hsecond b (by simp [hrest]) h.1.symm

/-- Digits, with or without a fraction, are read up to what ends them. -/
theorem strtod_fixed (neg : Bool) (hne : ip ≠ []) (hip : ∀ b ∈ ip, isDigit b = true)
    (hfp : ∀ b ∈ fp, isDigit b = true) (ht : Stops t) :
    strtod (signText neg ++ (ip ++ (fraction fp ++ t))) =
      some (scale10 neg (digitsVal (ip ++ fp)) (-fp.length)) := by
  have hdigits : ∀ b ∈ signText neg ++ ip ++ fraction fp, b ≠ 0 := by
    intro b hb
    simp only [List.mem_append] at hb
    rcases hb with (hb | hb) | hb
    · cases neg with
      | false => cases hb
      | true =>
          rw [List.mem_singleton.mp hb]
          decide
    · exact (isDigit_bounds (hip b hb)).1
    · rw [fraction] at hb
      split at hb
      · cases hb
      · cases List.mem_cons.mp hb with
        | inl h =>
            rw [h]
            decide
        | inr h => exact (isDigit_bounds (hfp b h)).1
  have hcstr : cstr (signText neg ++ (ip ++ (fraction fp ++ t))) =
      signText neg ++ (ip ++ (fraction fp ++ cstr t)) := by
    have hsplit : signText neg ++ (ip ++ (fraction fp ++ t)) =
        (signText neg ++ ip ++ fraction fp) ++ t := by simp
    rw [hsplit, cstr, List.takeWhile_append_of_pos (by simpa using hdigits)]
    simp [cstr]
  have hstops := ht.cstr
  obtain ⟨d, ds, rfl⟩ := List.exists_cons_of_ne_nil hne
  obtain ⟨-, hspace, hminus, hplus, -⟩ := isDigit_bounds (hip d (by simp))
  have hdrop : (signText neg ++ (d :: ds ++ (fraction fp ++ cstr t))).dropWhile isSpace =
      signText neg ++ (d :: ds ++ (fraction fp ++ cstr t)) := by
    cases neg with
    | false => exact List.dropWhile_cons_of_neg (by simp [hspace])
    | true => exact List.dropWhile_cons_of_neg (by decide)
  have hneg : ((signText neg ++ (d :: ds ++ (fraction fp ++ cstr t))).head? == some 0x2d) = neg := by
    cases neg with
    | false => simpa [signText] using hminus
    | true => rfl
  have hplus' : ((signText neg ++ (d :: ds ++ (fraction fp ++ cstr t))).head? == some 0x2b) =
      false := by
    cases neg with
    | false => simpa [signText] using hplus
    | true => rfl
  have htail : (if neg then (signText neg ++ (d :: ds ++ (fraction fp ++ cstr t))).tail
      else signText neg ++ (d :: ds ++ (fraction fp ++ cstr t))) =
      d :: ds ++ (fraction fp ++ cstr t) := by
    cases neg <;> rfl
  have hexponent : exponentPart 0x65 (cstr t) = 0 := by
    rcases hstops.cases with h | ⟨b, u, h, rfl | rfl⟩ <;> rw [h] <;> rfl
  have hspecial := not_special_fixed fp hne hip hstops
  rw [strtod]
  simp only [hcstr, hdrop, hneg, hplus', Bool.or_false, htail, hspecial (bytes "inf") (by simp),
    hspecial (bytes "nan") (by simp), hspecial (bytes "0x") (by simp), if_false, false_and,
    mantissa_fixed hip hfp hstops, hexponent, zero_sub]
  rw [if_neg (by simp)]

end Fixed

/-! ## Printed numbers -/

theorem digitsVal_replicate_append (k : ℕ) (s : Bytes) :
    digitsVal (List.replicate k 0x30 ++ s) = digitsVal s := by
  induction k with
  | zero => rfl
  | succ k ih =>
      rw [List.replicate_succ, List.cons_append, ← ih]
      simp [digitsVal]

theorem padZeros_decimal (k n : ℕ) : (∀ b ∈ padZeros k (decimal n), isDigit b = true) ∧
    digitsVal (padZeros k (decimal n)) = n ∧ k ≤ (padZeros k (decimal n)).length := by
  refine ⟨?_, ?_, ?_⟩
  · intro b hb
    cases List.mem_append.mp hb with
    | inl hb =>
        rw [(List.mem_replicate.mp hb).2]
        decide
    | inr hb => exact isDigit_of_mem_decimal hb
  · rw [padZeros, digitsVal_replicate_append, digitsVal_decimal]
  · rw [padZeros, List.length_append, List.length_replicate]
    omega

/-- What `strtod` makes of a number that `%.<p>f` printed. -/
def reread (p : ℕ) (d : Double) : Double :=
  match d.view with
  | .finite neg m e => scale10 neg (divRound ((ratio m e).1 * 10 ^ p) (ratio m e).2) (-p)
  | .inf neg => infinity neg
  | .nan neg => quietNaN neg

theorem strtod_inf (neg : Bool) (t : Bytes) :
    strtod (signText neg ++ (bytes "inf" ++ t)) = some (infinity neg) := by
  have hinf : bytes "inf" = [0x69, 0x6e, 0x66] := by decide +kernel
  have hnan : bytes "nan" = [0x6e, 0x61, 0x6e] := by decide +kernel
  rw [strtod, hinf, hnan]
  cases neg <;> simp [signText, cstr, isSpace, lower]

theorem strtod_nan (neg : Bool) (t : Bytes) :
    strtod (signText neg ++ (bytes "nan" ++ t)) = some (quietNaN neg) := by
  have hinf : bytes "inf" = [0x69, 0x6e, 0x66] := by decide +kernel
  have hnan : bytes "nan" = [0x6e, 0x61, 0x6e] := by decide +kernel
  rw [strtod, hinf, hnan]
  cases neg <;> simp [signText, cstr, isSpace, lower]

theorem strtod_fmtF (p : ℕ) (d : Double) {t : Bytes} (ht : Stops t) :
    strtod (fmtF p d ++ t) = some (reread p d) := by
  rw [fmtF, reread]
  cases d.view with
  | inf neg =>
      dsimp only
      rw [List.append_assoc, strtod_inf]
  | nan neg =>
      dsimp only
      rw [List.append_assoc, strtod_nan]
  | finite neg m e =>
      dsimp only
      rw [fixedText]
      generalize divRound ((ratio m e).1 * 10 ^ p) (ratio m e).2 = n
      obtain ⟨hdigits, hvalue, hlen⟩ := padZeros_decimal (p + 1) n
      generalize padZeros (p + 1) (decimal n) = s at hdigits hvalue hlen
      have hne : s.take (s.length - p) ≠ [] := by
        rw [← List.length_pos_iff, List.length_take]
        omega
      have hdrop : (s.drop (s.length - p)).length = p := by
        rw [List.length_drop]
        omega
      rw [List.append_assoc, List.append_assoc,
        strtod_fixed neg hne (fun b hb => hdigits b (List.mem_of_mem_take hb))
          (fun b hb => hdigits b (List.mem_of_mem_drop hb)) ht,
        List.take_append_drop, hvalue, hdrop]

/-- A printed integer is read as the double next to it. -/
theorem strtod_decimalInt {n : ℤ} (h : n.natAbs < 10 ^ 20) {t : Bytes} (ht : Stops t) :
    strtod (decimalInt n ++ t) = some (ofInt n) := by
  have hdecimal : decimalInt n = signText (decide (n < 0)) ++ decimal n.natAbs := by
    cases n with
    | ofNat n => rfl
    | negSucc n =>
        have hneg : decide (Int.negSucc n < 0) = true := by simp
        rw [hneg]
        rfl
  have hlen : (decimal n.natAbs).length ≤ 20 := length_decimal_le (by decide) h
  have hfixed := strtod_fixed (decide (n < 0)) (decimal_ne_nil n.natAbs)
    (fun _ => isDigit_of_mem_decimal) (show ∀ b ∈ ([] : Bytes), isDigit b = true by simp) ht
  simp only [fraction, if_true, List.nil_append, List.append_nil, digitsVal_decimal, List.length_nil,
    Nat.cast_zero, neg_zero] at hfixed
  rw [hdecimal, List.append_assoc, hfixed, scale10]
  by_cases hzero : n.natAbs = 0
  · rw [if_pos (.inl hzero), ofInt, round, if_pos hzero]
  · rw [if_neg (by omega), if_neg (by omega), if_pos le_rfl, ofInt]
    simp

end CLib.Double

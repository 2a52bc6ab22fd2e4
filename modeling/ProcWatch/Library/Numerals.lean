import ProcWatch.Library.Bytes

/-! # Integers as text -/

namespace CLib

/-- `isspace` in the C locale. -/
def isSpace (b : Byte) : Bool :=
  b == 0x20 || (0x09 ≤ b && b ≤ 0x0d)

def isDigit (b : Byte) : Bool :=
  0x30 ≤ b && b ≤ 0x39

/-- `isalnum` in the C locale. -/
def isAlnum (b : Byte) : Bool :=
  isDigit b || (0x41 ≤ b && b ≤ 0x5a) || (0x61 ≤ b && b ≤ 0x7a)

/-! ## Printing -/

/-- Decimal digits of a natural number, as `%llu` prints them. -/
def decimal (n : ℕ) : Bytes :=
  (Nat.toDigits 10 n).map fun c => UInt8.ofNat c.toNat

/-- `%d`, `%ld` and `%lld`. -/
def decimalInt : ℤ → Bytes
  | .ofNat n => decimal n
  | .negSucc n => 0x2d :: decimal (n + 1)

private theorem toNat_of_isDigit {c : Char} (h : c.isDigit = true) :
    48 ≤ c.toNat ∧ c.toNat ≤ 57 := by
  simpa [Char.isDigit, UInt32.le_iff_toNat_le] using h

theorem isDigit_of_mem_decimal {n : ℕ} {b : Byte} (h : b ∈ decimal n) : isDigit b = true := by
  obtain ⟨c, hc, rfl⟩ := List.mem_map.mp h
  obtain ⟨hlo, hhi⟩ := toNat_of_isDigit
    (Nat.isDigit_of_mem_toDigits (b := 10) (by decide) (by decide) hc)
  have hval : (UInt8.ofNat c.toNat).toNat = c.toNat :=
    UInt8.toNat_ofNat_of_lt' (by simp [UInt8.size]; omega)
  simp only [isDigit, Bool.and_eq_true, decide_eq_true_eq, UInt8.le_iff_toNat_le, hval]
  exact ⟨hlo, hhi⟩

theorem mem_decimalInt {n : ℤ} {b : Byte} (h : b ∈ decimalInt n) :
    b = 0x2d ∨ isDigit b = true := by
  cases n with
  | ofNat n => exact .inr (isDigit_of_mem_decimal h)
  | negSucc n =>
      cases List.mem_cons.mp h with
      | inl h => exact .inl h
      | inr h => exact .inr (isDigit_of_mem_decimal h)

theorem decimal_ne_nil (n : ℕ) : decimal n ≠ [] := by
  simp [decimal, Nat.toDigits_ne_nil]

theorem length_decimal_le {n k : ℕ} (hk : 0 < k) (h : n < 10 ^ k) : (decimal n).length ≤ k := by
  rw [decimal, List.length_map]
  exact (Nat.length_toDigits_le_iff (by decide) hk).mpr h

theorem length_decimalInt_le {n : ℤ} {k : ℕ} (hk : 0 < k) (h : n.natAbs < 10 ^ k) :
    (decimalInt n).length ≤ k + 1 := by
  cases n with
  | ofNat n =>
      have := length_decimal_le hk (show n < 10 ^ k from h)
      exact this.trans (Nat.le_succ k)
  | negSucc n => exact Nat.succ_le_succ (length_decimal_le hk h)

theorem length_decimalInt_int64_le (n : Int64) : (decimalInt n.toInt).length ≤ 20 := by
  have hlo := n.le_toInt
  have hhi := n.toInt_lt
  exact length_decimalInt_le (k := 19) (by decide) (by omega)

/-! ## Reading -/

/-- Value of a run of decimal digits. -/
def digitsVal (s : Bytes) : ℕ :=
  s.foldl (fun n b => 10 * n + (b.toNat - 48)) 0

private theorem foldl_digit_bytes (cs : List Char) (m : ℕ) (h : ∀ c ∈ cs, c.isDigit = true) :
    (cs.map fun c => UInt8.ofNat c.toNat).foldl (fun n b => 10 * n + (b.toNat - 48)) m =
      Nat.ofDigitChars 10 cs m := by
  induction cs generalizing m with
  | nil => simp
  | cons c cs ih =>
      obtain ⟨_, hhi⟩ := toNat_of_isDigit (h c (by simp))
      have hval : (UInt8.ofNat c.toNat).toNat = c.toNat :=
        UInt8.toNat_ofNat_of_lt' (by simp [UInt8.size]; omega)
      rw [List.map_cons, List.foldl_cons, Nat.ofDigitChars_cons, hval]
      exact ih _ fun d hd => h d (by simp [hd])

/-- Reading back a printed number gives the number. -/
theorem digitsVal_decimal (n : ℕ) : digitsVal (decimal n) = n := by
  rw [digitsVal, decimal, foldl_digit_bytes]
  · exact Nat.ofDigitChars_ten_toDigits
  · exact fun c hc => Nat.isDigit_of_mem_toDigits (by decide) (by decide) hc

theorem digitsVal_lt {s : Bytes} (h : ∀ b ∈ s, isDigit b = true) :
    digitsVal s < 10 ^ s.length := by
  have hfold (m : ℕ) : s.foldl (fun n b => 10 * n + (b.toNat - 48)) m < (m + 1) * 10 ^ s.length := by
    induction s generalizing m with
    | nil => simp
    | cons b s ih =>
        have hb : b.toNat ≤ 57 := by
          have hdigit := h b (by simp)
          simp only [isDigit, Bool.and_eq_true, decide_eq_true_eq, UInt8.le_iff_toNat_le] at hdigit
          exact hdigit.2
        calc (b :: s).foldl (fun n b => 10 * n + (b.toNat - 48)) m
            < (10 * m + (b.toNat - 48) + 1) * 10 ^ s.length := ih (fun c hc => h c (by simp [hc])) _
          _ ≤ (m + 1) * 10 * 10 ^ s.length := Nat.mul_le_mul_right _ (by omega)
          _ = (m + 1) * 10 ^ (b :: s).length := by rw [List.length_cons, pow_succ]; ring
  simpa [digitsVal] using hfold 0

/-- A printed number has no leading zero. -/
theorem decimal_head (n : ℕ) : decimal n = [0x30] ∨ (decimal n).head? ≠ some 0x30 := by
  cases hn : decimal n with
  | nil => exact absurd hn (decimal_ne_nil n)
  | cons b ds =>
      by_cases hb : b = 0x30
      · cases ds with
        | nil => exact .inl (by rw [hb])
        | cons d ds =>
            have hval : digitsVal (d :: ds) = n := by
              rw [← digitsVal_decimal n, hn, hb]
              rfl
            have hlt : n < 10 ^ (d :: ds).length := by
              rw [← hval]
              exact digitsVal_lt fun c hc => isDigit_of_mem_decimal (n := n) (by simp [hn, hc])
            have hlen := length_decimal_le (by simp) hlt
            rw [hn] at hlen
            simp at hlen
      · exact .inr (by simpa using hb)

/-- `strtoull(s, NULL, 10)` on a 64-bit target: leading space, an optional sign, then
digits; an overflow saturates and a minus sign negates modulo `2 ^ 64`. -/
def strtoull (s : Bytes) : ℕ :=
  let s := (cstr s).dropWhile isSpace
  let neg := s.head? == some 0x2d
  let s := if neg || s.head? == some 0x2b then s.tail else s
  let v := digitsVal (s.takeWhile isDigit)
  if 2 ^ 64 ≤ v then 2 ^ 64 - 1
  else if neg then (2 ^ 64 - v) % 2 ^ 64 else v

private theorem of_isDigit {b : Byte} (h : isDigit b = true) :
    b ≠ 0 ∧ isSpace b = false ∧ b ≠ 0x2d ∧ b ≠ 0x2b := by
  revert h b
  decide +kernel

/-- Digits in front of anything but a digit are read off as their value, up to saturation. -/
theorem strtoull_digits_append {digits t : Bytes} (hne : digits ≠ [])
    (hdigits : ∀ b ∈ digits, isDigit b = true) (ht : ∀ b ∈ t.head?, isDigit b = false) :
    strtoull (digits ++ t) = min (digitsVal digits) (2 ^ 64 - 1) := by
  obtain ⟨d, ds, rfl⟩ := List.exists_cons_of_ne_nil hne
  obtain ⟨_, hspace, hminus, hplus⟩ := of_isDigit (hdigits d (by simp))
  have hcstr : cstr (d :: ds ++ t) = d :: ds ++ cstr t := by
    apply List.takeWhile_append_of_pos
    intro b hb
    simpa using (of_isDigit (hdigits b hb)).1
  have hrest : (cstr t).takeWhile isDigit = [] := by
    cases t with
    | nil => rfl
    | cons b t =>
        have hb := ht b rfl
        by_cases h0 : b = 0 <;> simp [cstr, h0, hb]
  have hread : (d :: ds ++ cstr t).takeWhile isDigit = d :: ds := by
    rw [List.takeWhile_append_of_pos hdigits, hrest, List.append_nil]
  rw [strtoull, hcstr, List.cons_append, List.dropWhile_cons_of_neg (by simp [hspace])]
  simp only [List.head?_cons, Option.some_beq_some, beq_eq_false_iff_ne.mpr hminus,
    beq_eq_false_iff_ne.mpr hplus, Bool.or_self, Bool.false_eq_true, if_false]
  rw [← List.cons_append, hread]
  split <;> omega

/-! ## Where a number is read -/

private def signedValue (neg : Bool) (digits : Bytes) : ℕ :=
  if 2 ^ 64 ≤ digitsVal digits then 2 ^ 64 - 1
  else if neg then (2 ^ 64 - digitsVal digits) % 2 ^ 64 else digitsVal digits

/-- The text behind an optional sign. -/
private def behindSign (s : Bytes) : Bytes :=
  if s.head? == some 0x2d || s.head? == some 0x2b then s.tail else s

/-- The part of `strtoull` behind the leading space. -/
private def afterSpace (s : Bytes) : ℕ :=
  signedValue (s.head? == some 0x2d) ((behindSign s).takeWhile isDigit)

private theorem strtoull_eq (s : Bytes) :
    strtoull s = afterSpace ((cstr s).dropWhile isSpace) := rfl

private theorem takeWhile_isDigit_append {t : Bytes} (ht : ∀ b ∈ t.head?, isDigit b = false)
    (s : Bytes) : (s ++ t).takeWhile isDigit = s.takeWhile isDigit := by
  induction s with
  | nil =>
      cases t with
      | nil => rfl
      | cons b t => simp [ht b rfl]
  | cons b s ih =>
      rw [List.cons_append, List.takeWhile_cons, List.takeWhile_cons, ih]

private theorem afterSpace_append {s t : Bytes} (hs : s ≠ [])
    (ht : ∀ b ∈ t.head?, isDigit b = false) : afterSpace (s ++ t) = afterSpace s := by
  obtain ⟨b, s, rfl⟩ := List.exists_cons_of_ne_nil hs
  have hread : behindSign (b :: s ++ t) = behindSign (b :: s) ++ t := by
    by_cases hsign : (some b == some 0x2d || some b == some 0x2b) = true
    · have hbehind (u : Bytes) : behindSign (b :: u) = u := if_pos hsign
      rw [List.cons_append, hbehind, hbehind]
    · have hbehind (u : Bytes) : behindSign (b :: u) = b :: u := if_neg hsign
      rw [List.cons_append, hbehind, hbehind, List.cons_append]
  rw [afterSpace, afterSpace, hread, takeWhile_isDigit_append ht]
  rfl

private theorem space_ne_nul {b : Byte} (h : isSpace b = true) : b ≠ 0 := by
  rintro rfl
  cases h

/-- Leading space does not matter. -/
theorem strtoull_spaces_append {s : Bytes} (hs : ∀ b ∈ s, isSpace b = true) (t : Bytes) :
    strtoull (s ++ t) = strtoull t := by
  have hcstr : cstr (s ++ t) = s ++ cstr t := by
    apply List.takeWhile_append_of_pos
    intro b hb
    simpa using space_ne_nul (hs b hb)
  rw [strtoull_eq, strtoull_eq, hcstr, List.dropWhile_append_of_pos hs]

/-- Text with something other than space in it is read by itself, unless a digit follows. -/
theorem strtoull_append {s t : Bytes} (h0 : (0 : Byte) ∉ s) (hs : ∃ b ∈ s, isSpace b = false)
    (ht : ∀ b ∈ t.head?, isDigit b = false) : strtoull (s ++ t) = strtoull s := by
  obtain ⟨lead, b, rest, rfl, hlead, hb⟩ :
      ∃ lead b rest, s = lead ++ b :: rest ∧ (∀ c ∈ lead, isSpace c = true) ∧
        isSpace b = false := by
    have hne : s.dropWhile isSpace ≠ [] := by
      rw [ne_eq, List.dropWhile_eq_nil_iff]
      intro hall
      obtain ⟨b, hb, hspace⟩ := hs
      rw [hall b hb] at hspace
      cases hspace
    refine ⟨s.takeWhile isSpace, (s.dropWhile isSpace).head hne, (s.dropWhile isSpace).tail, ?_,
      fun c hc => List.mem_takeWhile_imp hc, ?_⟩
    · rw [List.cons_head_tail, List.takeWhile_append_dropWhile]
    · simpa using List.head_dropWhile_not isSpace hne
  have hrest : (0 : Byte) ∉ b :: rest := fun h => h0 (by simp [h])
  have hcstr : cstr (b :: rest ++ t) = b :: rest ++ cstr t := by
    apply List.takeWhile_append_of_pos
    intro c hc
    have hc0 : c ≠ 0 := fun h => hrest (h ▸ hc)
    simpa using hc0
  have ht' : ∀ c ∈ (cstr t).head?, isDigit c = false := by
    cases t with
    | nil => intro c hc; cases hc
    | cons c t =>
        by_cases hc : c = 0
        · simp [cstr, hc]
        · simpa [cstr, hc] using ht c rfl
  rw [List.append_assoc, strtoull_spaces_append hlead, strtoull_spaces_append hlead, strtoull_eq,
    strtoull_eq, hcstr, cstr_of_nulFree hrest, List.cons_append,
    List.dropWhile_cons_of_neg (by simp [hb]), List.dropWhile_cons_of_neg (by simp [hb]),
    ← List.cons_append, afterSpace_append (by simp) ht']

end CLib

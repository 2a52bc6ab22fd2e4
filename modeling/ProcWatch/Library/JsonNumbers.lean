import ProcWatch.Library.Double
import ProcWatch.Library.JsonText

/-! # Printed numbers are numbers of JSON -/

namespace CLib.Json

/-! ## The parts of a number -/

def AllDigits (s : Bytes) : Prop :=
  ∀ b ∈ s, isDigit b = true

theorem AllDigits.take {s : Bytes} (h : AllDigits s) (n : ℕ) : AllDigits (s.take n) :=
  fun b hb => h b (List.mem_of_mem_take hb)

theorem AllDigits.drop {s : Bytes} (h : AllDigits s) (n : ℕ) : AllDigits (s.drop n) :=
  fun b hb => h b (List.mem_of_mem_drop hb)

theorem allDigits_decimal (n : ℕ) : AllDigits (decimal n) :=
  fun _ hb => isDigit_of_mem_decimal hb

theorem allDigits_zeros (n : ℕ) : AllDigits (List.replicate n 0x30) := by
  intro b hb
  rw [List.eq_of_mem_replicate hb]
  decide

/-- In front of what does not go on with a digit. -/
def NoDigit (rest : Bytes) : Prop :=
  ∀ b ∈ rest.head?, isDigit b = false

theorem skipDigits_append {ds rest : Bytes} (hne : ds ≠ []) (hds : AllDigits ds)
    (hrest : NoDigit rest) : skipDigits (ds ++ rest) = some rest := by
  have htake : rest.takeWhile isDigit = [] ∧ rest.dropWhile isDigit = rest := by
    cases rest with
    | nil => exact ⟨rfl, rfl⟩
    | cons b rest => simp [hrest b rfl]
  rw [skipDigits, List.takeWhile_append_of_pos hds, List.dropWhile_append_of_pos hds, htake.1, htake.2,
    List.append_nil, if_neg hne]

/-- The integer part of a number has no leading zero. -/
structure IntegerPart (s : Bytes) : Prop where
  ne_nil : s ≠ []
  digits : AllDigits s
  head : s = [0x30] ∨ s.head? ≠ some 0x30

theorem skipInteger_append {s rest : Bytes} (h : IntegerPart s) (hrest : NoDigit rest) :
    skipInteger (s ++ rest) = some rest := by
  cases h.head with
  | inl hzero =>
      rw [hzero]
      rfl
  | inr hhead =>
      obtain ⟨b, t, rfl⟩ := List.exists_cons_of_ne_nil h.ne_nil
      rw [skipInteger, if_neg (by simpa using hhead)]
      exact skipDigits_append h.ne_nil h.digits hrest

/-- An exponent, or nothing. -/
inductive ExponentPart : Bytes → Prop where
  | absent : ExponentPart []
  | present {sign : Byte} {ds : Bytes} (hsign : sign = 0x2b ∨ sign = 0x2d) (hne : ds ≠ [])
      (hds : AllDigits ds) : ExponentPart (0x65 :: sign :: ds)

theorem ExponentPart.head_facts {s : Bytes} (h : ExponentPart s) :
    NoDigit s ∧ s.head? ≠ some 0x2e := by
  cases h with
  | absent => simp [NoDigit]
  | present hsign hne hds =>
      refine ⟨?_, by simp⟩
      intro b hb
      obtain rfl := Option.some.inj hb
      decide

theorem skipExponent_part {s : Bytes} (h : ExponentPart s) : skipExponent s = some [] := by
  cases h with
  | absent => rfl
  | @present sign ds hsign hne hds =>
      have hskip : skipDigits (ds ++ []) = some [] := skipDigits_append hne hds (by simp [NoDigit])
      rw [List.append_nil] at hskip
      rw [skipExponent, if_pos (.inl rfl), List.tail_cons, skipSign, if_pos (by simpa using hsign)]
      exact hskip

theorem skipFraction_append {fs rest : Bytes} (hfs : AllDigits fs) (hrest : ExponentPart rest) :
    skipFraction (Double.fraction fs ++ rest) = some rest := by
  obtain ⟨hno, hdot⟩ := hrest.head_facts
  by_cases hnil : fs = []
  · rw [Double.fraction, if_pos hnil, List.nil_append, skipFraction, if_neg hdot]
  · rw [Double.fraction, if_neg hnil, List.cons_append, skipFraction, if_pos List.head?_cons,
      List.tail_cons]
    exact skipDigits_append hnil hfs hno

theorem noDigit_fraction {fs rest : Bytes} (hrest : ExponentPart rest) :
    NoDigit (Double.fraction fs ++ rest) := by
  by_cases hnil : fs = []
  · rw [Double.fraction, if_pos hnil]
    exact hrest.head_facts.1
  · rw [Double.fraction, if_neg hnil]
    intro b hb
    obtain rfl := Option.some.inj hb
    decide

/-- A sign, an integer part, a fraction and an exponent. -/
inductive NumberText : Bytes → Prop where
  | parts (neg : Bool) {int fs exp : Bytes} (hint : IntegerPart int) (hfs : AllDigits fs)
      (hexp : ExponentPart exp) :
      NumberText (Double.signText neg ++ (int ++ (Double.fraction fs ++ exp)))

theorem isNumber_signText (neg : Bool) {s : Bytes} (hs : s.head? ≠ some 0x2d) :
    isNumber (Double.signText neg ++ s) =
      (((skipInteger s).bind skipFraction).bind skipExponent == some []) := by
  cases neg with
  | true => rfl
  | false => simp [isNumber, Double.signText, hs]

theorem IntegerPart.head_ne {int : Bytes} (h : IntegerPart int) (s : Bytes) :
    (int ++ s).head? ≠ some 0x2d := by
  obtain ⟨b, t, rfl⟩ := List.exists_cons_of_ne_nil h.ne_nil
  simpa using (digit_facts (h.digits b (by simp))).2

theorem NumberText.isNumber {t : Bytes} (h : NumberText t) : isNumber t = true := by
  cases h with
  | parts neg hint hfs hexp =>
      rw [isNumber_signText neg (hint.head_ne _), skipInteger_append hint (noDigit_fraction hexp),
        Option.bind_some, skipFraction_append hfs hexp, Option.bind_some, skipExponent_part hexp]
      rfl

theorem numberText_decimalInt (n : ℤ) : NumberText (decimalInt n) := by
  have hint (k : ℕ) : IntegerPart (decimal k) :=
    ⟨decimal_ne_nil k, allDigits_decimal k, decimal_head k⟩
  have hparts (neg : Bool) (k : ℕ) : NumberText (Double.signText neg ++ decimal k) := by
    have h : NumberText (Double.signText neg ++ (decimal k ++ (Double.fraction [] ++ []))) :=
      .parts neg (hint k) (by simp [AllDigits]) .absent
    simpa [Double.fraction] using h
  cases n with
  | ofNat k => exact hparts false k
  | negSucc k => exact hparts true (k + 1)

/-! ## What `%g` prints -/

theorem integerPart_decimal_take (n : ℕ) {k : ℕ} (hk : 0 < k) : IntegerPart ((decimal n).take k) where
  ne_nil := by
    rw [ne_eq, List.take_eq_nil_iff]
    exact fun h => h.elim (by omega) (decimal_ne_nil n)
  digits := (allDigits_decimal n).take k
  head := by
    obtain ⟨k, rfl⟩ : ∃ j, k = j + 1 := ⟨k - 1, by omega⟩
    cases decimal_head n with
    | inl hzero =>
        rw [hzero]
        exact .inl (by simp)
    | inr hhead =>
        refine .inr ?_
        rwa [List.head?_take, if_neg (by omega)]

theorem allDigits_stripZeros {s : Bytes} (h : AllDigits s) : AllDigits (Double.stripZeros s) :=
  fun b hb => h b ((Double.stripZeros_sublist s).subset hb)

theorem stripZeros_ne_nil {b : Byte} {s : Bytes} (hb : b ≠ 0x30) :
    Double.stripZeros (b :: s) ≠ [] := by
  intro hnil
  rw [Double.stripZeros, List.reverse_eq_nil_iff, List.dropWhile_eq_nil_iff] at hnil
  exact hb (by simpa using hnil b (by simp))

theorem le_ceilDiv_mul {num den : ℕ} (hnum : 0 < num) : den ≤ (den + num - 1) / num * num := by
  have hdiv := Nat.div_add_mod (den + num - 1) num
  have hmod := Nat.mod_lt (den + num - 1) hnum
  rw [Nat.mul_comm] at hdiv
  omega

/-- The digits of a positive number below 1 do not round to nothing. -/
theorem divRound_pos {num den : ℕ} (hnum : 0 < num) (hden : 0 < den)
    (hneg : Double.floorLog10 num den < 0) {p : ℕ} (hp : 0 < p) :
    0 < Double.divRound (num * 10 ^ ((p : ℤ) - 1 - Double.floorLog10 num den).toNat) den := by
  have hlt : ¬ den ≤ num := by
    intro hle
    rw [Double.floorLog10, if_pos hle] at hneg
    omega
  rw [Double.floorLog10, if_neg hlt]
  have hexp : ((p : ℤ) - 1 - -(Nat.clog 10 ((den + num - 1) / num) : ℤ)).toNat =
      p - 1 + Nat.clog 10 ((den + num - 1) / num) := by
    omega
  have hpow : (den + num - 1) / num ≤ 10 ^ Nat.clog 10 ((den + num - 1) / num) :=
    Nat.le_pow_clog (by decide) _
  have hge : den ≤ num * 10 ^ (p - 1 + Nat.clog 10 ((den + num - 1) / num)) := by
    calc
      den ≤ (den + num - 1) / num * num := le_ceilDiv_mul hnum
      _ ≤ 10 ^ Nat.clog 10 ((den + num - 1) / num) * num := Nat.mul_le_mul_right _ hpow
      _ ≤ 10 ^ (p - 1 + Nat.clog 10 ((den + num - 1) / num)) * num :=
          Nat.mul_le_mul_right _ (Nat.pow_le_pow_right (by decide) (by omega))
      _ = num * 10 ^ (p - 1 + Nat.clog 10 ((den + num - 1) / num)) := Nat.mul_comm _ _
  have hquot : 0 < num * 10 ^ (p - 1 + Nat.clog 10 ((den + num - 1) / num)) / den :=
    Nat.div_pos hge hden
  rw [hexp, Double.divRound]
  split
  · exact hquot
  · split <;> omega

/-- The layout of the digits of a number that is not 0, or that is not printed below 1. -/
theorem numberText_generalText (neg : Bool) {p n : ℕ} (hp : 0 < p) (x : ℤ)
    (hn : 0 ≤ x ∨ n ≠ 0) :
    NumberText (Double.signText neg ++ Double.generalText p ((decimal n).take p) x) := by
  have hds : AllDigits ((decimal n).take p) := (allDigits_decimal n).take p
  have hfrac (k : ℕ) : AllDigits (Double.stripZeros (((decimal n).take p).drop k)) :=
    allDigits_stripZeros (hds.drop k)
  have hint {k : ℕ} (hk : 0 < k) : IntegerPart (((decimal n).take p).take k) := by
    rw [List.take_take]
    exact integerPart_decimal_take n (by omega)
  unfold Double.generalText
  split
  · have hexp : ExponentPart (0x65 :: (if x < 0 then 0x2d else 0x2b) ::
        Double.padZeros 2 (decimal x.natAbs)) := by
      refine .present ?_ ?_ ?_
      · split
        · exact .inr rfl
        · exact .inl rfl
      · simp [Double.padZeros, decimal_ne_nil]
      · intro b hb
        cases List.mem_append.mp hb with
        | inl hb => exact allDigits_zeros _ b hb
        | inr hb => exact allDigits_decimal _ b hb
    have h := NumberText.parts neg (hint Nat.one_pos) (hfrac 1) hexp
    simpa only [List.append_assoc] using h
  · split
    · have h := NumberText.parts neg (hint (Nat.succ_pos x.toNat)) (hfrac (x.toNat + 1)) .absent
      rwa [List.append_nil] at h
    · rename_i hneg
      have hne : n ≠ 0 := hn.resolve_left hneg
      have hzero : IntegerPart [0x30] := ⟨by simp, by simp [AllDigits, isDigit], .inl rfl⟩
      obtain ⟨b, s, hbs⟩ := List.exists_cons_of_ne_nil (integerPart_decimal_take n hp).ne_nil
      have hb : b ≠ 0x30 := by
        cases decimal_head n with
        | inl hzero =>
            have hval := digitsVal_decimal n
            rw [hzero] at hval
            exact absurd hval.symm hne
        | inr hhead =>
            have htake : ((decimal n).take p).head? = (decimal n).head? := by
              rw [List.head?_take, if_neg (by omega)]
            rw [hbs] at htake
            rintro rfl
            exact hhead htake.symm
      have hstrip : Double.stripZeros ((decimal n).take p) ≠ [] := by
        rw [hbs]
        exact stripZeros_ne_nil hb
      have hfs : AllDigits (List.replicate (x.natAbs - 1) 0x30 ++
          Double.stripZeros ((decimal n).take p)) := by
        intro c hc
        cases List.mem_append.mp hc with
        | inl hc => exact allDigits_zeros _ c hc
        | inr hc => exact allDigits_stripZeros hds c hc
      have h := NumberText.parts neg hzero hfs .absent
      have hpoint : bytes "0." = [0x30, 0x2e] := rfl
      rw [Double.fraction, if_neg (by simp [hstrip]), List.append_nil] at h
      simpa only [hpoint, List.append_assoc, List.cons_append, List.nil_append] using h

/-- `%.<p>g` of a finite value. -/
theorem numberText_fmtG {p : ℕ} (hp : 0 < p) {d : Double} {neg : Bool} {m : ℕ} {e : ℤ}
    (hd : d.view = .finite neg m e) : NumberText (Double.fmtG p d) := by
  rw [Double.fmtG, hd]
  simp only
  split
  · have hint : IntegerPart [0x30] := ⟨by simp, by simp [AllDigits, isDigit], .inl rfl⟩
    have h : NumberText (Double.signText neg ++ ([0x30] ++ (Double.fraction [] ++ []))) :=
      .parts neg hint (by simp [AllDigits]) .absent
    simpa [Double.fraction] using h
  · rename_i hm
    have hnum : 0 < (Double.ratio m e).1 := by
      unfold Double.ratio
      split
      · exact Nat.mul_pos (Nat.pos_of_ne_zero hm) (by positivity)
      · exact Nat.pos_of_ne_zero hm
    have hden : 0 < (Double.ratio m e).2 := by
      unfold Double.ratio
      split
      · exact Nat.one_pos
      · positivity
    rw [Double.sigDigits]
    apply numberText_generalText neg hp
    -- Where the exponent is negative, it was so before the digits were rounded.
    by_cases hneg : Double.floorLog10 (Double.ratio m e).1 (Double.ratio m e).2 < 0
    · refine .inr ?_
      rw [if_pos (by omega)]
      exact (divRound_pos hnum hden hneg hp).ne'
    · refine .inl ?_
      split <;> omega

/-! ## The bytes of a number -/

/-- What a part of the reader of numbers skips. -/
def Skips (s rest : Bytes) : Prop :=
  ∃ front, s = front ++ rest ∧ ∀ b ∈ front, isNumberByte b = true

theorem Skips.trans {s t rest : Bytes} (h : Skips s t) (h' : Skips t rest) : Skips s rest := by
  obtain ⟨front, rfl, hfront⟩ := h
  obtain ⟨front', rfl, hfront'⟩ := h'
  refine ⟨front ++ front', by rw [List.append_assoc], fun b hb => ?_⟩
  cases List.mem_append.mp hb with
  | inl hb => exact hfront b hb
  | inr hb => exact hfront' b hb

theorem skips_refl (s : Bytes) : Skips s s :=
  ⟨[], rfl, by simp⟩

theorem skips_tail {s : Bytes} {b : Byte} (hhead : s.head? = some b) (hb : isNumberByte b = true) :
    Skips s s.tail := by
  cases s with
  | nil => cases hhead
  | cons c s =>
      obtain rfl := Option.some.inj hhead
      exact ⟨[c], rfl, by simpa using hb⟩

theorem skips_digits {s rest : Bytes} (h : skipDigits s = some rest) : Skips s rest := by
  rw [skipDigits] at h
  split at h
  · cases h
  · obtain rfl := Option.some.inj h
    refine ⟨s.takeWhile isDigit, List.takeWhile_append_dropWhile.symm, fun b hb => ?_⟩
    exact (digit_facts (List.mem_takeWhile_imp hb)).1

theorem skips_integer {s rest : Bytes} (h : skipInteger s = some rest) : Skips s rest := by
  rw [skipInteger] at h
  split at h
  · rename_i hzero
    obtain rfl := Option.some.inj h
    exact skips_tail hzero (by decide)
  · exact skips_digits h

theorem skips_fraction {s rest : Bytes} (h : skipFraction s = some rest) : Skips s rest := by
  rw [skipFraction] at h
  split at h
  · rename_i hpoint
    exact (skips_tail hpoint (by decide)).trans (skips_digits h)
  · obtain rfl := Option.some.inj h
    exact skips_refl s

theorem skips_sign (s : Bytes) : Skips s (skipSign s) := by
  rw [skipSign]
  split
  · rename_i hsign
    cases hsign with
    | inl hplus => exact skips_tail hplus (by decide)
    | inr hminus => exact skips_tail hminus (by decide)
  · exact skips_refl s

theorem skips_exponent {s rest : Bytes} (h : skipExponent s = some rest) : Skips s rest := by
  rw [skipExponent] at h
  split at h
  · rename_i hmark
    have htail : Skips s s.tail := by
      cases hmark with
      | inl hlow => exact skips_tail hlow (by decide)
      | inr hhigh => exact skips_tail hhigh (by decide)
    exact (htail.trans (skips_sign _)).trans (skips_digits h)
  · obtain rfl := Option.some.inj h
    exact skips_refl s

theorem numberBytes_of_isNumber {s : Bytes} (h : isNumber s = true) :
    ∀ b ∈ s, isNumberByte b = true := by
  rw [isNumber] at h
  have hend := eq_of_beq h
  obtain ⟨t, hbind, hexponent⟩ := Option.bind_eq_some_iff.mp hend
  obtain ⟨u, hinteger, hfraction⟩ := Option.bind_eq_some_iff.mp hbind
  have hunsigned : Skips s (if s.head? = some 0x2d then s.tail else s) := by
    split
    · rename_i hminus
      exact skips_tail hminus (by decide)
    · exact skips_refl s
  obtain ⟨front, hfront, hall⟩ :=
    ((hunsigned.trans (skips_integer hinteger)).trans (skips_fraction hfraction)).trans
      (skips_exponent hexponent)
  rw [List.append_nil] at hfront
  rw [hfront]
  exact hall

/-- Letters are printed for what is not finite. -/
theorem finite_of_numberBytes {p : ℕ} {d : Double}
    (h : ∀ b ∈ Double.fmtG p d, isNumberByte b = true) : ∃ neg m e, d.view = .finite neg m e := by
  cases hd : d.view with
  | finite neg m e => exact ⟨neg, m, e, rfl⟩
  | inf neg =>
      rw [Double.fmtG, hd] at h
      exact absurd (h 0x6e (List.mem_append_right _ (by decide))) (by decide)
  | nan neg =>
      rw [Double.fmtG, hd] at h
      exact absurd (h 0x6e (List.mem_append_right _ (by decide))) (by decide)

theorem denotes_of_isNumber {t : Bytes} (h : isNumber t = true) : Denotes t (.number t) := by
  cases t with
  | nil => exact absurd h (by decide)
  | cons b s => exact denotes_number (numberBytes_of_isNumber h) h

theorem NumberText.denotes {t : Bytes} (h : NumberText t) : Denotes t (.number t) :=
  denotes_of_isNumber h.isNumber

/-! ## Numbers without anything between them -/

/-- Where a reader stands that has read a number so far. -/
inductive Stage where
  | integer
  | fraction
  | exponent

/-- What goes on as the same number from there. -/
def Stage.goesOn : Stage → Bytes → Bool
  | .integer, s => (skipFraction (s.dropWhile isDigit)).bind skipExponent == some []
  | .fraction, s => skipExponent (s.dropWhile isDigit) == some []
  | .exponent, s => s.dropWhile isDigit == []

/-- The points and the exponents that may still come. -/
def Stage.left : Stage → Bytes
  | .integer => [0x2e, 0x65]
  | .fraction => [0x65]
  | .exponent => []

/-- The points and the exponents in a text. -/
def marks (s : Bytes) : Bytes :=
  s.filter fun b => b == 0x2e || b == 0x65

theorem marks_append (s t : Bytes) : marks (s ++ t) = marks s ++ marks t :=
  List.filter_append s t

theorem marks_of_digits {ds : Bytes} (h : AllDigits ds) : marks ds = [] := by
  have hmark : ∀ b : Byte, isDigit b = true → ¬ (b == 0x2e || b == 0x65) = true := by
    decide +kernel
  rw [marks, List.filter_eq_nil_iff]
  exact fun b hb => hmark b (h b hb)

theorem dropWhile_of_not_digit {b : Byte} (hb : isDigit b = false) (s : Bytes) :
    (b :: s).dropWhile isDigit = b :: s := by
  simp [hb]

theorem goesOn_digits (q : Stage) {ds : Bytes} (hds : AllDigits ds) (s : Bytes) :
    q.goesOn (ds ++ s) = q.goesOn s := by
  cases q <;> rw [Stage.goesOn, Stage.goesOn, List.dropWhile_append_of_pos hds]

theorem goesOn_minus (q : Stage) (s : Bytes) : q.goesOn (0x2d :: s) = false := by
  cases q <;> rw [Stage.goesOn, dropWhile_of_not_digit (by decide)] <;> rfl

theorem skipDigits_append_some {ds : Bytes} (hne : ds ≠ []) (hds : AllDigits ds) (s : Bytes) :
    skipDigits (ds ++ s) = some (s.dropWhile isDigit) := by
  rw [skipDigits, List.takeWhile_append_of_pos hds, List.dropWhile_append_of_pos hds,
    if_neg (by simp [hne])]

theorem goesOn_point (q : Stage) {fs : Bytes} (hne : fs ≠ []) (hfs : AllDigits fs) (s : Bytes) :
    q.goesOn (0x2e :: (fs ++ s)) = true ↔ q = .integer ∧ Stage.fraction.goesOn s = true := by
  have hdrop := dropWhile_of_not_digit (b := 0x2e) (by decide) (fs ++ s)
  cases q with
  | integer =>
      rw [Stage.goesOn, hdrop, skipFraction, if_pos List.head?_cons, List.tail_cons,
        skipDigits_append_some hne hfs, Option.bind_some]
      simp [Stage.goesOn]
  | fraction =>
      rw [Stage.goesOn, hdrop, skipExponent, if_neg (by simp)]
      simp
  | exponent =>
      simp only [Stage.goesOn]
      rw [hdrop]
      simp

theorem goesOn_exponent (q : Stage) {sign : Byte} (hsign : sign = 0x2b ∨ sign = 0x2d)
    {ds : Bytes} (hne : ds ≠ []) (hds : AllDigits ds) (s : Bytes) :
    q.goesOn (0x65 :: sign :: (ds ++ s)) = true ↔
      q ≠ .exponent ∧ Stage.exponent.goesOn s = true := by
  have hdrop := dropWhile_of_not_digit (b := 0x65) (by decide) (sign :: (ds ++ s))
  have hskip : skipExponent (0x65 :: sign :: (ds ++ s)) = some (s.dropWhile isDigit) := by
    rw [skipExponent, if_pos (.inl rfl), List.tail_cons, skipSign, if_pos (by simpa using hsign),
      List.tail_cons, skipDigits_append_some hne hds]
  cases q with
  | integer =>
      rw [Stage.goesOn, hdrop, skipFraction, if_neg (by simp), Option.bind_some, hskip]
      simp [Stage.goesOn]
  | fraction =>
      rw [Stage.goesOn, hdrop, hskip]
      simp [Stage.goesOn]
  | exponent =>
      simp only [Stage.goesOn]
      rw [hdrop]
      simp

/-- More numbers go on as the same one. -/
def GoOn (q : Stage) (ts : List Bytes) : Prop :=
  (∀ t ∈ ts, t.head? ≠ some 0x2d) ∧ (marks ts.flatten).Sublist q.left

theorem goOn_nil (q : Stage) : GoOn q [] := by
  simp [GoOn, marks]

theorem marks_fraction {fs : Bytes} (hfs : AllDigits fs) :
    marks (Double.fraction fs) = if fs = [] then [] else [0x2e] := by
  rw [Double.fraction]
  split
  · rfl
  · have hmarks := marks_of_digits hfs
    rw [marks] at hmarks
    simp [marks, hmarks]

theorem marks_exponent {sign : Byte} (hsign : sign = 0x2b ∨ sign = 0x2d) {ds : Bytes}
    (hds : AllDigits ds) : marks (0x65 :: sign :: ds) = [0x65] := by
  have hmarks := marks_of_digits hds
  rw [marks] at hmarks
  rcases hsign with rfl | rfl <;> simp [marks, hmarks]

/-- Behind an integer part. -/
theorem goesOn_parts {rest : Bytes} {P : Prop}
    (hrest : ∀ q : Stage, q.goesOn rest = true ↔ P ∧ (marks rest).Sublist q.left) {fs exp : Bytes}
    (hfs : AllDigits fs) (hexp : ExponentPart exp) (q : Stage) :
    q.goesOn (Double.fraction fs ++ (exp ++ rest)) = true ↔
      P ∧ (marks (Double.fraction fs ++ (exp ++ rest))).Sublist q.left := by
  have hexponent (q : Stage) : q.goesOn (exp ++ rest) = true ↔
      P ∧ (marks (exp ++ rest)).Sublist q.left := by
    cases hexp with
    | absent => exact hrest q
    | present hsign hne hds =>
        rw [marks_append, marks_exponent hsign hds, List.cons_append, List.cons_append,
          goesOn_exponent q hsign hne hds, hrest]
        cases q with
        | integer => simp [Stage.left, List.sublist_cons_iff]
        | fraction => simp [Stage.left]
        | exponent => simp [Stage.left]
  rw [marks_append, marks_fraction hfs]
  by_cases hne : fs = []
  · rw [Double.fraction, if_pos hne, if_pos hne]
    exact hexponent q
  · rw [Double.fraction, if_neg hne, if_neg hne, List.cons_append, goesOn_point q hne hfs, hexponent]
    cases q with
    | integer => simp [Stage.left]
    | fraction => simp [Stage.left]
    | exponent => simp [Stage.left]

theorem goesOn_flatten {ts : List Bytes} (h : ∀ t ∈ ts, NumberText t) (q : Stage) :
    q.goesOn ts.flatten = true ↔ GoOn q ts := by
  induction ts generalizing q with
  | nil => exact iff_of_true (by cases q <;> rfl) (goOn_nil q)
  | cons t ts ih =>
      have ih := ih fun u hu => h u (List.mem_cons_of_mem _ hu)
      rw [List.flatten_cons]
      cases h t List.mem_cons_self with
      | @parts neg int fs exp hint hfs hexp =>
          rw [GoOn, List.forall_mem_cons, List.flatten_cons]
          cases neg with
          | true =>
              simp only [Double.signText, if_true, List.cons_append]
              simp [goesOn_minus]
          | false =>
              simp only [Double.signText, Bool.false_eq_true, if_false, List.nil_append,
                List.append_assoc]
              rw [goesOn_digits q hint.digits, goesOn_parts ih hfs hexp, marks_append int,
                marks_of_digits hint.digits, List.nil_append, and_assoc]
              exact (and_iff_right (hint.head_ne _)).symm

/-- Some printed numbers make up one number: the first is not zero, no other one has a sign, and
there is at most one point and then at most one exponent in all of them. -/
structure OneNumber (t : Bytes) (ts : List Bytes) : Prop where
  first : t ≠ [0x30] ∧ t ≠ [0x2d, 0x30]
  unsigned : ∀ u ∈ ts, u.head? ≠ some 0x2d
  marks : (marks (t :: ts).flatten).Sublist [0x2e, 0x65]

/-- What may follow a number starts with a digit or a sign. -/
theorem NumberText.head_cases {t : Bytes} (h : NumberText t) :
    ∃ b s, t = b :: s ∧ (b = 0x2d ∨ isDigit b = true) := by
  cases h with
  | parts neg hint hfs hexp =>
      obtain ⟨b, s, rfl⟩ := List.exists_cons_of_ne_nil hint.ne_nil
      cases neg with
      | true => exact ⟨_, _, rfl, .inl rfl⟩
      | false => exact ⟨_, _, rfl, .inr (hint.digits b (by simp))⟩

/-- A zero without a fraction and an exponent does not go on. -/
theorem skipInteger_zero {t : Bytes} (ht : NumberText t) (s : Bytes) :
    ((skipInteger (0x30 :: (t ++ s))).bind skipFraction).bind skipExponent ≠ some [] := by
  have hmarks : ∀ b : Byte, b = 0x2d ∨ isDigit b = true → b ≠ 0x2e ∧ b ≠ 0x65 ∧ b ≠ 0x45 := by
    decide +kernel
  obtain ⟨b, t, rfl, hb⟩ := ht.head_cases
  have hmark := hmarks b hb
  rw [skipInteger, if_pos List.head?_cons, List.tail_cons, Option.bind_some, skipFraction,
    if_neg (by simp [hmark]), Option.bind_some, skipExponent, if_neg (by simp [hmark])]
  simp

/-- Behind any other integer part. -/
theorem skipInteger_goesOn {int s : Bytes} (hint : IntegerPart int)
    (hs : int = [0x30] → NoDigit s) :
    (((skipInteger (int ++ s)).bind skipFraction).bind skipExponent == some []) =
      Stage.integer.goesOn s := by
  have hskip : skipInteger (int ++ s) = some (s.dropWhile isDigit) := by
    by_cases hzero : int = [0x30]
    · have hdrop : s.dropWhile isDigit = s := by
        cases s with
        | nil => rfl
        | cons b s => exact dropWhile_of_not_digit (hs hzero b rfl) s
      rw [hzero, hdrop]
      rfl
    · have hhead := hint.head.resolve_left hzero
      obtain ⟨b, t, rfl⟩ := List.exists_cons_of_ne_nil hint.ne_nil
      rw [skipInteger, if_neg (by simpa using hhead)]
      exact skipDigits_append_some hint.ne_nil hint.digits s
  rw [hskip]
  rfl

theorem marks_signText (neg : Bool) : marks (Double.signText neg) = [] := by
  cases neg <;> rfl

/-- Only a zero is printed without a point, an exponent and any other digit than 0. -/
theorem parts_eq_zero_iff {neg : Bool} {int fs exp : Bytes} (hint : IntegerPart int) :
    Double.signText neg ++ (int ++ (Double.fraction fs ++ exp)) = [0x30] ∨
        Double.signText neg ++ (int ++ (Double.fraction fs ++ exp)) = [0x2d, 0x30] ↔
      int = [0x30] ∧ fs = [] ∧ exp = [] := by
  have hzero : int ++ (Double.fraction fs ++ exp) = [0x30] ↔ int = [0x30] ∧ fs = [] ∧ exp = [] := by
    rw [List.append_eq_singleton_iff, List.append_eq_nil_iff]
    simp [hint.ne_nil, Double.fraction]
  cases neg with
  | true => simpa [Double.signText] using hzero
  | false =>
      have hsign : int ++ (Double.fraction fs ++ exp) ≠ [0x2d, 0x30] := by
        intro heq
        exact hint.head_ne (Double.fraction fs ++ exp) (by rw [heq]; rfl)
      simpa [Double.signText, hsign] using hzero

theorem noDigit_parts {fs exp : Bytes} (hexp : ExponentPart exp) (hne : fs = [] → exp ≠ [])
    (rest : Bytes) : NoDigit (Double.fraction fs ++ (exp ++ rest)) := by
  by_cases hfs : fs = []
  · rw [Double.fraction, if_pos hfs]
    cases hexp with
    | absent => exact absurd rfl (hne hfs)
    | present hsign hds hall => simp [NoDigit, isDigit]
  · rw [Double.fraction, if_neg hfs]
    simp [NoDigit, isDigit]

theorem isNumber_flatten {t u : Bytes} {ts : List Bytes} (h : ∀ v ∈ t :: u :: ts, NumberText v) :
    isNumber (t :: u :: ts).flatten = true ↔ OneNumber t (u :: ts) := by
  have hrest := goesOn_flatten fun v hv => h v (List.mem_cons_of_mem t hv)
  have hu := h u (by simp)
  cases h t List.mem_cons_self with
  | @parts neg int fs exp hint hfs hexp =>
      have hparts := goesOn_parts hrest hfs hexp .integer
      have hzero := @parts_eq_zero_iff neg int fs exp hint
      generalize ht : Double.signText neg ++ (int ++ (Double.fraction fs ++ exp)) = t at hzero
      have hwhole : (t :: u :: ts).flatten = Double.signText neg ++
          (int ++ (Double.fraction fs ++ (exp ++ (u :: ts).flatten))) := by
        rw [List.flatten_cons, ← ht]
        simp only [List.append_assoc]
      have hmarks : marks (t :: u :: ts).flatten =
          marks (Double.fraction fs ++ (exp ++ (u :: ts).flatten)) := by
        rw [hwhole, marks_append, marks_signText, marks_append int, marks_of_digits hint.digits]
        rfl
      rw [hwhole, isNumber_signText neg (hint.head_ne _)]
      by_cases hone : int = [0x30] ∧ fs = [] ∧ exp = []
      · refine iff_of_false ?_ fun hone' => ?_
        · obtain ⟨rfl, rfl, rfl⟩ := hone
          have hstop := skipInteger_zero hu ts.flatten
          simpa [Double.fraction] using hstop
        · exact (hzero.mpr hone).elim hone'.first.1 hone'.first.2
      · have hne := not_or.mp (mt hzero.mp hone)
        have hdigit : int = [0x30] → NoDigit (Double.fraction fs ++ (exp ++ (u :: ts).flatten)) :=
          fun hint => noDigit_parts hexp (not_and.mp (not_and.mp hone hint)) _
        rw [skipInteger_goesOn hint hdigit, hparts, ← hmarks]
        constructor
        · rintro ⟨hsigns, hmark⟩
          exact ⟨hne, hsigns, hmark⟩
        · rintro ⟨-, hsigns, hmark⟩
          exact ⟨hsigns, hmark⟩

end CLib.Json

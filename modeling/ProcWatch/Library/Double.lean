import ProcWatch.Library.Numerals

/-! # IEEE-754 binary64: rounding, `printf` and `strtod`

Arithmetic goes through exact ratios of naturals, so that every operation is one
correctly rounded step.
-/

namespace CLib

/-- A `double`, by its bit pattern. -/
structure Double where
  bits : UInt64
  deriving DecidableEq

namespace Double

/-- What a bit pattern stands for; a finite value is `± mant * 2 ^ exp`. -/
inductive View where
  | finite (neg : Bool) (mant : ℕ) (exp : ℤ)
  | inf (neg : Bool)
  | nan (neg : Bool)
  deriving DecidableEq

def view (d : Double) : View :=
  let w := d.bits.toNat
  let neg := decide (2 ^ 63 ≤ w)
  let e : ℕ := w / 2 ^ 52 % 2048
  let f : ℕ := w % 2 ^ 52
  if e = 2047 then if f = 0 then .inf neg else .nan neg
  else if e = 0 then .finite neg f (-1074)
  else .finite neg (2 ^ 52 + f) (e - 1075)

/-! ## Rounding -/

/-- `num / den` to the nearest natural, ties to even. -/
def divRound (num den : ℕ) : ℕ :=
  let q := num / den
  let r := num % den
  if 2 * r < den then q else if den < 2 * r then q + 1 else q + q % 2

/-- `m * 2 ^ e` as a ratio. -/
def ratio (m : ℕ) (e : ℤ) : ℕ × ℕ :=
  if 0 ≤ e then (m * 2 ^ e.toNat, 1) else (m, 2 ^ (-e).toNat)

def ofMagnitude (neg : Bool) (w : ℕ) : Double :=
  ⟨UInt64.ofNat (w + if neg then 2 ^ 63 else 0)⟩

def infinity (neg : Bool) : Double := ofMagnitude neg (2047 * 2 ^ 52)

def quietNaN (neg : Bool) : Double := ofMagnitude neg (2047 * 2 ^ 52 + 2 ^ 51)

/-- The double nearest to `± num / den`. -/
def round (neg : Bool) (num den : ℕ) : Double :=
  if num = 0 then ofMagnitude neg 0
  else
    let e0 : ℤ := Nat.log2 num - Nat.log2 den
    let below := if 0 ≤ e0 then num < den * 2 ^ e0.toNat else num * 2 ^ (-e0).toNat < den
    let e := if below then e0 - 1 else e0
    let s := max (e - 52) (-1074)
    let m := if 0 ≤ s then divRound num (den * 2 ^ s.toNat)
      else divRound (num * 2 ^ (-s).toNat) den
    -- a mantissa rounded up to `2 ^ 53` carries into the exponent by itself
    let w := (s + 1074).toNat * 2 ^ 52 + m
    if 2047 * 2 ^ 52 ≤ w then infinity neg else ofMagnitude neg w

def ofNat (n : ℕ) : Double := round false n 1

def ofInt (n : ℤ) : Double := round (decide (n < 0)) n.natAbs 1

def mul (a b : Double) : Double :=
  match a.view, b.view with
  | .finite s m e, .finite t n f =>
      let r := ratio (m * n) (e + f)
      round (s != t) r.1 r.2
  | .inf s, .finite t n _ => if n = 0 then quietNaN true else infinity (s != t)
  | .finite s m _, .inf t => if m = 0 then quietNaN true else infinity (s != t)
  | .inf s, .inf t => infinity (s != t)
  | .nan s, _ => quietNaN s
  | _, .nan t => quietNaN t

def div (a b : Double) : Double :=
  match a.view, b.view with
  | .finite s m e, .finite t n f =>
      if n = 0 then if m = 0 then quietNaN true else infinity (s != t)
      else
        let r := ratio m (e - f)
        round (s != t) r.1 (r.2 * n)
  | .inf s, .finite t _ _ => infinity (s != t)
  | .finite s _ _, .inf t => ofMagnitude (s != t) 0
  | .inf _, .inf _ => quietNaN true
  | .nan s, _ => quietNaN s
  | _, .nan t => quietNaN t

/-! ## Conversion to integers -/

/-- Truncation toward zero of a finite value. -/
def trunc (d : Double) : Option ℤ :=
  match d.view with
  | .finite neg m e =>
      let r := ratio m e
      some (if neg then -(r.1 / r.2 : ℕ) else (r.1 / r.2 : ℕ))
  | _ => none

/-- Cast to a signed integer of `w + 1` bits. C defines it in range only; the value elsewhere is
arbitrary. -/
def toSigned (w : ℕ) (d : Double) : ℤ :=
  match d.trunc with
  | some n => if -2 ^ w ≤ n ∧ n < 2 ^ w then n else -2 ^ w
  | none => -2 ^ w

/-- Cast to `uint64_t`, with an arbitrary value where C defines none. -/
def toUInt64 (d : Double) : UInt64 :=
  match d.trunc with
  | some n => if 0 ≤ n ∧ n < 2 ^ 64 then UInt64.ofNat n.toNat else UInt64.ofNat (2 ^ 63)
  | none => UInt64.ofNat (2 ^ 63)

/-! ## `printf` -/

def signText (neg : Bool) : Bytes :=
  if neg then [0x2d] else []

def padZeros (n : ℕ) (s : Bytes) : Bytes :=
  List.replicate (n - s.length) 0x30 ++ s

/-- A fraction part with its point, or nothing when it is empty. -/
def fraction (s : Bytes) : Bytes :=
  if s = [] then [] else 0x2e :: s

/-- `num / den` with `p` decimals. -/
def fixedText (p num den : ℕ) : Bytes :=
  let s := padZeros (p + 1) (decimal (divRound (num * 10 ^ p) den))
  s.take (s.length - p) ++ fraction (s.drop (s.length - p))

/-- `%.<p>f`. -/
def fmtF (p : ℕ) (d : Double) : Bytes :=
  match d.view with
  | .finite neg m e => signText neg ++ fixedText p (ratio m e).1 (ratio m e).2
  | .inf neg => signText neg ++ bytes "inf"
  | .nan neg => signText neg ++ bytes "nan"

/-- The decimal exponent of a positive ratio. -/
def floorLog10 (num den : ℕ) : ℤ :=
  if den ≤ num then Nat.log 10 (num / den) else -(Nat.clog 10 ((den + num - 1) / num) : ℤ)

/-- The first `p` significant digits of a positive ratio and its decimal exponent. -/
def sigDigits (p num den : ℕ) : Bytes × ℤ :=
  let x := floorLog10 num den
  let s := (p : ℤ) - 1 - x
  let n := if 0 ≤ s then divRound (num * 10 ^ s.toNat) den
    else divRound num (den * 10 ^ (-s).toNat)
  let ds := decimal n
  (ds.take p, if p < ds.length then x + 1 else x)

def stripZeros (s : Bytes) : Bytes :=
  (s.reverse.dropWhile (· == 0x30)).reverse

/-- Layout of `p` significant digits `ds` with decimal exponent `x`. -/
def generalText (p : ℕ) (ds : Bytes) (x : ℤ) : Bytes :=
  if x < -4 ∨ p ≤ x then
    ds.take 1 ++ fraction (stripZeros (ds.drop 1)) ++
      0x65 :: (if x < 0 then 0x2d else 0x2b) :: padZeros 2 (decimal x.natAbs)
  else if 0 ≤ x then
    ds.take (x.toNat + 1) ++ fraction (stripZeros (ds.drop (x.toNat + 1)))
  else
    bytes "0." ++ List.replicate (x.natAbs - 1) 0x30 ++ stripZeros ds

/-- `%.<p>g`. -/
def fmtG (p : ℕ) (d : Double) : Bytes :=
  match d.view with
  | .finite neg m e =>
      if m = 0 then signText neg ++ [0x30]
      else
        let r := ratio m e
        let g := sigDigits p r.1 r.2
        signText neg ++ generalText p g.1 g.2
  | .inf neg => signText neg ++ bytes "inf"
  | .nan neg => signText neg ++ bytes "nan"

/-! ## `strtod` -/

def isHexDigit (b : Byte) : Bool :=
  isDigit b || (0x41 ≤ b && b ≤ 0x46) || (0x61 ≤ b && b ≤ 0x66)

def hexVal (s : Bytes) : ℕ :=
  s.foldl (fun n b => 16 * n +
    (if isDigit b then b.toNat - 48 else if b ≤ 0x46 then b.toNat - 55 else b.toNat - 87)) 0

def lower (b : Byte) : Byte :=
  if 0x41 ≤ b && b ≤ 0x5a then b + 0x20 else b

/-- `± m * 10 ^ e`, without building the power of an exponent that decides by itself. -/
def scale10 (neg : Bool) (m : ℕ) (e : ℤ) : Double :=
  let pos := ((decimal m).length : ℤ) + e
  if m = 0 ∨ pos < -330 then ofMagnitude neg 0
  else if 330 < pos then infinity neg
  else if 0 ≤ e then round neg (m * 10 ^ e.toNat) 1 else round neg m (10 ^ (-e).toNat)

/-- `± m * 2 ^ e`, likewise. -/
def scale2 (neg : Bool) (m : ℕ) (e : ℤ) : Double :=
  let pos := (Nat.log2 m : ℤ) + e
  if m = 0 ∨ pos < -1100 then ofMagnitude neg 0
  else if 1100 < pos then infinity neg
  else round neg (ratio m e).1 (ratio m e).2

/-- An exponent `<mark>[sign]digits`, or zero where none follows. -/
def exponentPart (mark : Byte) (s : Bytes) : ℤ :=
  match s with
  | [] => 0
  | c :: s =>
      if lower c = mark then
        let neg := s.head? == some 0x2d
        let s := if neg || s.head? == some 0x2b then s.tail else s
        let v := digitsVal (s.takeWhile isDigit)
        if neg then -v else v
      else 0

/-- Integer part, fraction part and what follows them. -/
def mantissa (digit : Byte → Bool) (s : Bytes) : Bytes × Bytes × Bytes :=
  let ip := s.takeWhile digit
  let rest := s.dropWhile digit
  match rest with
  | 0x2e :: t => (ip, t.takeWhile digit, t.dropWhile digit)
  | _ => (ip, [], rest)

/-- `strtod` on the C string at `s`; `none` where it converts nothing. -/
def strtod (s : Bytes) : Option Double :=
  let s := (cstr s).dropWhile isSpace
  let neg := s.head? == some 0x2d
  let s := if neg || s.head? == some 0x2b then s.tail else s
  let low := s.map lower
  let hex := mantissa isHexDigit (s.drop 2)
  if bytes "inf" <+: low then some (infinity neg)
  else if bytes "nan" <+: low then some (quietNaN neg)
  else if bytes "0x" <+: low ∧ hex.1 ++ hex.2.1 ≠ [] then
    some (scale2 neg (hexVal (hex.1 ++ hex.2.1))
      (exponentPart 0x70 hex.2.2 - 4 * hex.2.1.length))
  else
    let m := mantissa isDigit s
    if m.1 ++ m.2.1 = [] then none
    else some (scale10 neg (digitsVal (m.1 ++ m.2.1)) (exponentPart 0x65 m.2.2 - m.2.1.length))

/-! ## Shape of printed numbers -/

/-- Bytes that can occur in a printed number. -/
def isNumText (b : Byte) : Bool :=
  isDigit b || [0x2e, 0x2d, 0x2b, 0x65, 0x69, 0x6e, 0x66, 0x61].contains b

/-- Text made of number bytes only. -/
def NumText (s : Bytes) : Prop :=
  ∀ b ∈ s, isNumText b = true

instance (s : Bytes) : Decidable (NumText s) :=
  inferInstanceAs (Decidable (∀ b ∈ s, isNumText b = true))

theorem numText_append {s t : Bytes} (hs : NumText s) (ht : NumText t) : NumText (s ++ t) := by
  intro b hb
  rcases List.mem_append.mp hb with hb | hb
  · exact hs b hb
  · exact ht b hb

theorem numText_cons {b : Byte} {s : Bytes} (hb : isNumText b = true) (hs : NumText s) :
    NumText (b :: s) := by
  intro c hc
  rcases List.mem_cons.mp hc with rfl | hc
  · exact hb
  · exact hs c hc

theorem NumText.sublist {s t : Bytes} (ht : NumText t) (h : s.Sublist t) : NumText s :=
  fun b hb => ht b (h.subset hb)

theorem numText_decimal (n : ℕ) : NumText (decimal n) := by
  intro b hb
  simp [isNumText, isDigit_of_mem_decimal hb]

theorem numText_decimalInt (n : ℤ) : NumText (decimalInt n) := by
  cases n with
  | ofNat n => exact numText_decimal n
  | negSucc n => exact numText_cons (by decide) (numText_decimal _)

theorem numText_zeros (n : ℕ) : NumText (List.replicate n 0x30) := by
  intro b hb
  rw [List.eq_of_mem_replicate hb]
  decide

theorem numText_signText (neg : Bool) : NumText (signText neg) := by
  cases neg <;> decide +kernel

theorem numText_fraction {s : Bytes} (hs : NumText s) : NumText (fraction s) := by
  unfold fraction
  split
  · simp [NumText]
  · exact numText_cons (by decide) hs

theorem stripZeros_sublist (s : Bytes) : (stripZeros s).Sublist s := by
  have h := (List.dropWhile_sublist (l := s.reverse) (· == 0x30)).reverse
  simpa [stripZeros] using h

theorem numText_generalText {p : ℕ} {ds : Bytes} {x : ℤ} (hds : NumText ds) :
    NumText (generalText p ds x) := by
  have htake (n : ℕ) : NumText (ds.take n) := hds.sublist (List.take_sublist n ds)
  have hfrac (n : ℕ) : NumText (fraction (stripZeros (ds.drop n))) :=
    numText_fraction (hds.sublist ((stripZeros_sublist _).trans (List.drop_sublist n ds)))
  unfold generalText
  split
  · refine numText_append (numText_append (htake 1) (hfrac 1)) (numText_cons (by decide) ?_)
    refine numText_cons ?_ (numText_append (numText_zeros _) (numText_decimal _))
    split <;> decide
  · split
    · exact numText_append (htake _) (hfrac _)
    · refine numText_append (numText_append ?_ (numText_zeros _)) ?_
      · decide +kernel
      · exact hds.sublist (stripZeros_sublist ds)

/-- `%g` prints number bytes only. -/
theorem numText_fmtG (p : ℕ) (d : Double) : NumText (fmtG p d) := by
  unfold fmtG
  cases d.view with
  | finite neg m e =>
      simp only
      split
      · exact numText_append (numText_signText neg) (by decide +kernel)
      · refine numText_append (numText_signText neg) (numText_generalText ?_)
        exact (numText_decimal _).sublist (List.take_sublist _ _)
  | inf neg => exact numText_append (numText_signText neg) (by decide +kernel)
  | nan neg => exact numText_append (numText_signText neg) (by decide +kernel)

/-- `%f` prints number bytes only. -/
theorem numText_fmtF (p : ℕ) (d : Double) : NumText (fmtF p d) := by
  have hfixed (num den : ℕ) : NumText (fixedText p num den) := by
    have hs := numText_append (numText_zeros (p + 1 - (decimal (divRound (num * 10 ^ p) den)).length))
      (numText_decimal (divRound (num * 10 ^ p) den))
    exact numText_append (hs.sublist (List.take_sublist _ _))
      (numText_fraction (hs.sublist (List.drop_sublist _ _)))
  unfold fmtF
  cases d.view with
  | finite neg m e => exact numText_append (numText_signText neg) (hfixed _ _)
  | inf neg => exact numText_append (numText_signText neg) (by decide +kernel)
  | nan neg => exact numText_append (numText_signText neg) (by decide +kernel)

/-! ## Length of printed numbers -/

theorem view_bounds {d : Double} {neg : Bool} {m : ℕ} {e : ℤ} (h : d.view = .finite neg m e) :
    m < 2 ^ 53 ∧ -1074 ≤ e ∧ e ≤ 971 := by
  have hf : d.bits.toNat % 2 ^ 52 < 2 ^ 52 := Nat.mod_lt _ (by decide)
  have he : d.bits.toNat / 2 ^ 52 % 2048 < 2048 := Nat.mod_lt _ (by decide)
  simp only [view] at h
  split at h
  · split at h <;> cases h
  · split at h
    · obtain ⟨_, rfl, rfl⟩ := View.finite.inj h
      omega
    · obtain ⟨_, rfl, rfl⟩ := View.finite.inj h
      omega

private theorem mul_two_pow_lt {m k a b n : ℕ} (hm : m < 2 ^ a) (hk : k ≤ b)
    (h : 2 ^ (a + b) < n) : m * 2 ^ k < n := by
  refine lt_of_le_of_lt ?_ h
  rw [Nat.pow_add]
  exact Nat.mul_le_mul hm.le (Nat.pow_le_pow_right (by decide) hk)

private theorem ceilDiv_le {num den : ℕ} (hn : 0 < num) (hd : 0 < den) :
    (den + num - 1) / num ≤ den := by
  apply Nat.div_le_of_le_mul
  have : den + num ≤ num * den + 1 := by nlinarith
  omega

/-- The decimal exponent of a nonzero finite double has at most three digits. -/
theorem floorLog10_bounds {d : Double} {neg : Bool} {m : ℕ} {e : ℤ}
    (h : d.view = .finite neg m e) (hm : m ≠ 0) :
    -324 ≤ floorLog10 (ratio m e).1 (ratio m e).2 ∧
      floorLog10 (ratio m e).1 (ratio m e).2 ≤ 308 := by
  obtain ⟨hm53, helo, hehi⟩ := view_bounds h
  have hnum : (ratio m e).1 < 10 ^ 309 := by
    unfold ratio
    split
    · exact mul_two_pow_lt hm53 (show e.toNat ≤ 971 by omega) (by decide +kernel)
    · have : 2 ^ 53 < 10 ^ 309 := by decide +kernel
      exact hm53.trans this
  have hden : (ratio m e).2 ≤ 10 ^ 324 := by
    unfold ratio
    split
    · exact Nat.succ_le_of_lt (by positivity)
    · calc
        2 ^ (-e).toNat ≤ 2 ^ 1074 := Nat.pow_le_pow_right (by decide) (by omega)
        _ ≤ 10 ^ 324 := by decide +kernel
  have hnumPos : 0 < (ratio m e).1 := by
    unfold ratio
    split
    · exact Nat.mul_pos (Nat.pos_of_ne_zero hm) (by positivity)
    · exact Nat.pos_of_ne_zero hm
  have hdenPos : 0 < (ratio m e).2 := by
    unfold ratio
    split
    · exact Nat.one_pos
    · positivity
  unfold floorLog10
  split
  · have hdiv := (Nat.div_le_self (ratio m e).1 (ratio m e).2).trans_lt hnum
    have hlog := Nat.log_lt_of_lt_pow' (by omega) hdiv
    omega
  · have hceil := (ceilDiv_le hnumPos hdenPos).trans hden
    have hclog := Nat.clog_le_of_le_pow hceil
    omega

theorem length_stripZeros_le (s : Bytes) : (stripZeros s).length ≤ s.length :=
  (stripZeros_sublist s).length_le

theorem length_fraction_le (s : Bytes) : (fraction s).length ≤ s.length + 1 := by
  unfold fraction
  split <;> simp

theorem length_generalText_le {p : ℕ} {ds : Bytes} {x : ℤ} (hp : 0 < p) (hds : ds.length ≤ p)
    (hlo : -324 ≤ x) (hhi : x ≤ 309) : (generalText p ds x).length ≤ p + 6 := by
  have hexp : (decimal x.natAbs).length ≤ 3 := length_decimal_le (by decide) (by omega)
  have hfrac (n : ℕ) : (fraction (stripZeros (ds.drop n))).length ≤ ds.length - n + 1 := by
    have h1 := length_fraction_le (stripZeros (ds.drop n))
    have h2 := length_stripZeros_le (ds.drop n)
    rw [List.length_drop] at h2
    omega
  unfold generalText
  split
  · have h1 := hfrac 1
    simp only [List.length_append, List.length_take, List.length_cons, padZeros,
      List.length_replicate]
    omega
  · split
    · have h1 := hfrac (x.toNat + 1)
      simp only [List.length_append, List.length_take]
      omega
    · have h1 := length_stripZeros_le ds
      simp only [List.length_append, List.length_replicate, show (bytes "0.").length = 2 from rfl]
      omega

/-- `%.<p>g` needs at most `p + 7` bytes. -/
theorem length_fmtG_le {p : ℕ} (hp : 0 < p) (d : Double) : (fmtG p d).length ≤ p + 7 := by
  have hsign (neg : Bool) : (signText neg).length ≤ 1 := by cases neg <;> decide
  unfold fmtG
  cases hview : d.view with
  | finite neg m e =>
      have hs := hsign neg
      simp only
      split
      · simp only [List.length_append, List.length_singleton]
        omega
      · rename_i hm
        obtain ⟨hlo, hhi⟩ := floorLog10_bounds hview hm
        have hds : (sigDigits p (ratio m e).1 (ratio m e).2).1.length ≤ p := by simp [sigDigits]
        have hx : -324 ≤ (sigDigits p (ratio m e).1 (ratio m e).2).2 ∧
            (sigDigits p (ratio m e).1 (ratio m e).2).2 ≤ 309 := by
          simp only [sigDigits]
          split <;> omega
        have hg := length_generalText_le hp hds hx.1 hx.2
        rw [List.length_append]
        omega
  | inf neg =>
      have hs := hsign neg
      simp only [List.length_append, show (bytes "inf").length = 3 from rfl]
      omega
  | nan neg =>
      have hs := hsign neg
      simp only [List.length_append, show (bytes "nan").length = 3 from rfl]
      omega

end Double

end CLib

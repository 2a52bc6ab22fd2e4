import ProcWatch.Library.Numerals

/-! # Scanning lines of text

The functions here work on texts without NUL. -/

namespace CLib

/-! ## Reading a file -/

/-- `fgets(line, cap, f)` at the start of a file, `none` at its end. -/
def fgets (cap : ℕ) (file : Bytes) : Option Bytes :=
  if file = [] then none
  else
    let line := file.takeWhile (· ≠ 0x0a)
    let eol := (file.drop line.length).take 1
    some ((line ++ eol).take (cap - 1))

theorem fgets_line {line : Bytes} (hline : (0x0a : Byte) ∉ line) (cap : ℕ) (rest : Bytes) :
    fgets cap (line ++ 0x0a :: rest) = some ((line ++ [0x0a]).take (cap - 1)) := by
  have htake : (line ++ 0x0a :: rest).takeWhile (fun b => decide (b ≠ 0x0a)) = line := by
    rw [List.takeWhile_append_of_pos]
    · simp
    · intro b hb
      have : b ≠ 0x0a := fun h => hline (h ▸ hb)
      simpa using this
  rw [fgets, if_neg (by simp)]
  simp only [htake, List.drop_left]
  rfl

/-- `strrchr(s, c)`, as the offset of the last hit. -/
def strrchr (s : Bytes) (c : Byte) : Option ℕ :=
  (s.reverse.findIdx? (· == c)).map fun i => s.length - 1 - i

theorem strrchr_append {c : Byte} (s : Bytes) {t : Bytes} (ht : c ∉ t) :
    strrchr (s ++ c :: t) c = some s.length := by
  have hnone : t.reverse.findIdx? (· == c) = none := by
    rw [List.findIdx?_eq_none_iff]
    intro b hb
    have : b ≠ c := fun h => ht (h ▸ List.mem_reverse.mp hb)
    simpa using this
  have hfind : (s ++ c :: t).reverse.findIdx? (· == c) = some t.length := by
    rw [List.reverse_append, List.reverse_cons, List.append_assoc, List.findIdx?_append, hnone]
    simp [List.findIdx?_cons]
  rw [strrchr, hfind]
  simp

/-! ## Numbers -/

/-- The number at the start of a text: whether it has a minus sign, its digits' value and the
text behind it. -/
def number (s : Bytes) : Option (Bool × ℕ × Bytes) :=
  let s := s.dropWhile isSpace
  let neg := s.head? == some 0x2d
  let t := if neg || s.head? == some 0x2b then s.tail else s
  let digits := t.takeWhile isDigit
  if digits = [] then none else some (neg, digitsVal digits, t.dropWhile isDigit)

/-- A number as `strtoull` and `%lu` convert it. -/
def unsignedWord (neg : Bool) (v : ℕ) : UInt64 :=
  if 2 ^ 64 ≤ v then UInt64.ofNat (2 ^ 64 - 1)
  else if neg then -UInt64.ofNat v else UInt64.ofNat v

/-- A number as `strtol` and `%ld` convert it. -/
def signedWord (neg : Bool) (v : ℕ) : Int64 :=
  Int64.ofInt (if neg then max (-(v : ℤ)) (-2 ^ 63) else min (v : ℤ) (2 ^ 63 - 1))

/-- `strtoull(p, &end, 10)`, `none` if `end` is `p`. -/
def strtoullEnd (p : Bytes) : Option (UInt64 × Bytes) :=
  (number p).map fun n => (unsignedWord n.1 n.2.1, n.2.2)

/-- `strtol(s, NULL, 10)` -/
def strtol (s : Bytes) : Int64 :=
  match number s with
  | some (neg, v, _) => signedWord neg v
  | none => 0

private theorem of_digit {b : Byte} (h : isDigit b = true) :
    isSpace b = false ∧ b ≠ 0x2d ∧ b ≠ 0x2b := by
  revert h b
  decide +kernel

theorem number_spaces_append {s : Bytes} (hs : ∀ b ∈ s, isSpace b = true) (t : Bytes) :
    number (s ++ t) = number t := by
  rw [number, number, List.dropWhile_append_of_pos hs]

private theorem span_digits {digits t : Bytes} (hdigits : ∀ b ∈ digits, isDigit b = true)
    (ht : ∀ b ∈ t.head?, isDigit b = false) :
    (digits ++ t).takeWhile isDigit = digits ∧ (digits ++ t).dropWhile isDigit = t := by
  have hstop : t.takeWhile isDigit = [] ∧ t.dropWhile isDigit = t := by
    cases t with
    | nil => exact ⟨rfl, rfl⟩
    | cons b t => simp [ht b rfl]
  constructor
  · rw [List.takeWhile_append_of_pos hdigits, hstop.1, List.append_nil]
  · rw [List.dropWhile_append_of_pos hdigits, hstop.2]

theorem number_digits_append {digits t : Bytes} (hne : digits ≠ [])
    (hdigits : ∀ b ∈ digits, isDigit b = true) (ht : ∀ b ∈ t.head?, isDigit b = false) :
    number (digits ++ t) = some (false, digitsVal digits, t) := by
  obtain ⟨d, ds, rfl⟩ := List.exists_cons_of_ne_nil hne
  obtain ⟨hspace, hminus, hplus⟩ := of_digit (hdigits d (by simp))
  obtain ⟨htake, hdrop⟩ := span_digits hdigits ht
  rw [List.cons_append] at htake hdrop ⊢
  rw [number, List.dropWhile_cons_of_neg (by simp [hspace])]
  simp only [List.head?_cons, Option.some_beq_some, beq_eq_false_iff_ne.mpr hminus,
    beq_eq_false_iff_ne.mpr hplus, Bool.or_self, Bool.false_eq_true, if_false, htake, hdrop,
    List.cons_ne_nil]

theorem number_minus_append {digits t : Bytes} (hne : digits ≠ [])
    (hdigits : ∀ b ∈ digits, isDigit b = true) (ht : ∀ b ∈ t.head?, isDigit b = false) :
    number (0x2d :: digits ++ t) = some (true, digitsVal digits, t) := by
  obtain ⟨htake, hdrop⟩ := span_digits hdigits ht
  have hspace : isSpace 0x2d = false := by decide
  rw [number, List.cons_append, List.dropWhile_cons_of_neg (by simp [hspace])]
  simp only [List.head?_cons, Option.some_beq_some, beq_self_eq_true, Bool.true_or, if_true,
    List.tail_cons, htake, hdrop, hne, if_false]

/-- A printed integer is read back, up to the text behind it. -/
theorem number_decimalInt (n : ℤ) {t : Bytes} (ht : ∀ b ∈ t.head?, isDigit b = false) :
    number (decimalInt n ++ t) = some (decide (n < 0), n.natAbs, t) := by
  cases n with
  | ofNat n =>
      have hpos : decide ((Int.ofNat n) < 0) = false := by simp
      rw [hpos]
      exact (number_digits_append (decimal_ne_nil n) (fun b => isDigit_of_mem_decimal) ht).trans
        (by rw [digitsVal_decimal]; rfl)
  | negSucc n =>
      have hneg : decide (Int.negSucc n < 0) = true := by simp
      rw [hneg]
      exact (number_minus_append (decimal_ne_nil (n + 1)) (fun b => isDigit_of_mem_decimal)
        ht).trans (by rw [digitsVal_decimal]; rfl)

theorem decimalInt_injective : decimalInt.Injective := by
  intro m n h
  have hm := number_decimalInt m (t := []) (by simp)
  have hn := number_decimalInt n (t := []) (by simp)
  rw [h, hn] at hm
  simp only [Option.some.injEq, Prod.mk.injEq, decide_eq_decide, and_true] at hm
  omega

/-- No number starts with such a byte. -/
theorem number_eq_none {b : Byte} (hspace : isSpace b = false) (hdigit : isDigit b = false)
    (hminus : b ≠ 0x2d) (hplus : b ≠ 0x2b) (t : Bytes) : number (b :: t) = none := by
  rw [number, List.dropWhile_cons_of_neg (by simp [hspace])]
  simp [beq_eq_false_iff_ne.mpr hminus, beq_eq_false_iff_ne.mpr hplus, hdigit]

theorem unsignedWord_toNat (u : UInt64) : unsignedWord false u.toNat = u := by
  rw [unsignedWord, if_neg u.toNat_lt.not_ge]
  simp

theorem signedWord_toInt (i : Int64) : signedWord (decide (i.toInt < 0)) i.toInt.natAbs = i := by
  have hlo := i.le_toInt
  have hhi := i.toInt_lt
  rw [signedWord]
  by_cases hneg : i.toInt < 0
  · have hval : max (-(i.toInt.natAbs : ℤ)) (-2 ^ 63) = i.toInt := by omega
    simp only [hneg, decide_true, if_true, hval, Int64.ofInt_toInt]
  · have hval : min (i.toInt.natAbs : ℤ) (2 ^ 63 - 1) = i.toInt := by omega
    simp only [hneg, decide_false, Bool.false_eq_true, if_false, hval, Int64.ofInt_toInt]

/-! ## Formats -/

/-- The directives of `sscanf` for one character, white space, `%lu` and `%ld`. -/
inductive Directive where
  | char
  | space
  | unsigned
  | signed
  deriving DecidableEq

/-- `sscanf(s, format, ...)`: the converted items in their order, as 64-bit words. -/
def sscanf : List Directive → Bytes → List UInt64
  | [], _ => []
  | .space :: ds, s => sscanf ds (s.dropWhile isSpace)
  | .char :: ds, s =>
      match s with
      | [] => []
      | b :: s => b.toUInt64 :: sscanf ds s
  | .unsigned :: ds, s =>
      match number s with
      | some (neg, v, rest) => unsignedWord neg v :: sscanf ds rest
      | none => []
  | .signed :: ds, s =>
      match number s with
      | some (neg, v, rest) => (signedWord neg v).toUInt64 :: sscanf ds rest
      | none => []

/-- Directives with white space in front of each. -/
def spaced (ds : List Directive) : List Directive :=
  ds.flatMap fun d => [.space, d]

/-- Integers with a space in front of each. -/
def fieldsText (values : List ℤ) : Bytes :=
  values.flatMap fun n => 0x20 :: decimalInt n

/-- What a directive for a number stores. -/
def Directive.word (d : Directive) (n : ℤ) : UInt64 :=
  match d with
  | .signed => (signedWord (decide (n < 0)) n.natAbs).toUInt64
  | _ => unsignedWord (decide (n < 0)) n.natAbs

theorem head_fieldsText (values : List ℤ) {t : Bytes} (ht : ∀ b ∈ t.head?, isDigit b = false) :
    ∀ b ∈ (fieldsText values ++ t).head?, isDigit b = false := by
  cases values with
  | nil => exact ht
  | cons n values =>
      intro b hb
      obtain rfl : 0x20 = b := by simpa [fieldsText] using hb
      decide

theorem head_decimalInt (n : ℤ) : ∃ b t, decimalInt n = b :: t ∧ isSpace b = false := by
  cases n with
  | ofNat n =>
      obtain ⟨b, t, hbt⟩ := List.exists_cons_of_ne_nil (decimal_ne_nil n)
      refine ⟨b, t, hbt, (of_digit ?_).1⟩
      apply isDigit_of_mem_decimal (n := n)
      simp [hbt]
  | negSucc n => exact ⟨0x2d, decimal (n + 1), rfl, by decide⟩

/-- Numeric directives read the fields in their order. -/
theorem sscanf_fields {ds : List Directive} (hds : ∀ d ∈ ds, d = .unsigned ∨ d = .signed)
    {values : List ℤ} (hlen : values.length = ds.length) {t : Bytes}
    (ht : ∀ b ∈ t.head?, isDigit b = false) :
    sscanf (spaced ds) (fieldsText values ++ t) = List.zipWith Directive.word ds values := by
  induction ds generalizing values with
  | nil => rfl
  | cons d ds ih =>
      cases values with
      | nil => simp at hlen
      | cons n values =>
          have hrest := ih (fun e he => hds e (List.mem_cons_of_mem d he)) (by simpa using hlen)
          obtain ⟨b, s, hbs, hb⟩ := head_decimalInt n
          have hdrop : (fieldsText (n :: values) ++ t).dropWhile isSpace =
              decimalInt n ++ (fieldsText values ++ t) := by
            have hspace : isSpace 0x20 = true := by decide
            rw [fieldsText, List.flatMap_cons, List.cons_append, List.cons_append,
              List.dropWhile_cons_of_pos hspace, hbs, List.cons_append, List.cons_append,
              List.dropWhile_cons_of_neg (by simp [hb])]
            simp [fieldsText]
          have hnumber := number_decimalInt n (head_fieldsText values ht)
          have hsplit : spaced (d :: ds) = .space :: d :: spaced ds := rfl
          rw [hsplit, sscanf, hdrop, List.zipWith_cons_cons]
          cases hds d (by simp) with
          | inl h =>
              subst h
              rw [sscanf, hnumber, ← hrest]
              rfl
          | inr h =>
              subst h
              rw [sscanf, hnumber, ← hrest]
              rfl

/-! ## Tokens -/

/-- What `strtok_r` returns until it returns `NULL`. -/
def tokens (delims : Byte → Bool) (s : Bytes) : List Bytes :=
  (s.splitOnP delims).filter fun t => !t.isEmpty

theorem tokens_append_cons (delims : Byte → Bool) (s t : Bytes) {sep : Byte}
    (hsep : delims sep = true) :
    tokens delims (s ++ sep :: t) = tokens delims s ++ tokens delims t := by
  rw [tokens, List.splitOnP_append_cons s t hsep, List.filter_append]
  rfl

theorem tokens_nil (delims : Byte → Bool) : tokens delims [] = [] := rfl

theorem tokens_of_plain {delims : Byte → Bool} {s : Bytes} (hne : s ≠ [])
    (h : ∀ b ∈ s, delims b = false) : tokens delims s = [s] := by
  rw [tokens, List.splitOnP_eq_singleton h]
  simp [hne]

end CLib

import ProcWatch.Library.Numerals
import ProcWatch.Library.Utf8

/-! # JSON texts

A parser for JSON texts in UTF-8, over bytes, with the whole grammar: white space, numbers with
fractions and exponents, escapes and surrogate pairs.
-/

namespace CLib

/-- Numbers stand as they are written, strings as their UTF-8. -/
inductive Json where
  | null
  | bool (b : Bool)
  | number (text : Bytes)
  | string (s : Bytes)
  | array (vs : List Json)
  | object (ms : List (Bytes × Json))

namespace Json

/-! ## Strings -/

def hexValue (b : Byte) : Option ℕ :=
  if 0x30 ≤ b ∧ b ≤ 0x39 then some (b.toNat - 0x30)
  else if 0x61 ≤ b ∧ b ≤ 0x66 then some (b.toNat - 0x57)
  else if 0x41 ≤ b ∧ b ≤ 0x46 then some (b.toNat - 0x37)
  else none

/-- The UTF-8 of a code point. -/
def utf8 (c : ℕ) : Bytes :=
  if c < 0x80 then [UInt8.ofNat c]
  else if c < 0x800 then [UInt8.ofNat (0xc0 + c / 64), UInt8.ofNat (0x80 + c % 64)]
  else if c < 0x10000 then
    [UInt8.ofNat (0xe0 + c / 4096), UInt8.ofNat (0x80 + c / 64 % 64), UInt8.ofNat (0x80 + c % 64)]
  else [UInt8.ofNat (0xf0 + c / 262144), UInt8.ofNat (0x80 + c / 4096 % 64),
    UInt8.ofNat (0x80 + c / 64 % 64), UInt8.ofNat (0x80 + c % 64)]

/-- What a letter stands for behind a backslash. -/
def simpleEscape (b : Byte) : Option Byte :=
  if b = 0x22 ∨ b = 0x5c ∨ b = 0x2f then some b
  else if b = 0x62 then some 0x08
  else if b = 0x66 then some 0x0c
  else if b = 0x6e then some 0x0a
  else if b = 0x72 then some 0x0d
  else if b = 0x74 then some 0x09
  else none

/-- Where the reader of a string stands; `high` is the first half of a surrogate pair. -/
inductive StringState where
  | plain (st : Utf8.State)
  | escape (high : Option ℕ)
  | hex (high : Option ℕ) (left value : ℕ)
  | pair (high : ℕ)
  deriving DecidableEq

/-- What the four digits of a `\u` escape complete. -/
def unicode (high : Option ℕ) (c : ℕ) : Option (StringState × Bytes) :=
  match high with
  | none =>
      if 0xd800 ≤ c ∧ c < 0xdc00 then some (.pair c, [])
      else if 0xdc00 ≤ c ∧ c < 0xe000 then none
      else some (.plain .start, utf8 c)
  | some h =>
      if 0xdc00 ≤ c ∧ c < 0xe000 then
        some (.plain .start, utf8 (0x10000 + (h - 0xd800) * 1024 + (c - 0xdc00)))
      else none

/-- The state behind a byte of a string, and the bytes of the value that it completes. -/
def StringState.step : StringState → Byte → Option (StringState × Bytes)
  | .plain st, b =>
      if st = .start ∧ b = 0x5c then some (.escape none, [])
      else if b < 0x20 then none
      else (st.step b).map fun st => (.plain st, [b])
  | .escape high, b =>
      if b = 0x75 then some (.hex high 3 0, [])
      else if high = none then (simpleEscape b).map fun c => (.plain .start, [c])
      else none
  | .hex high left value, b =>
      (hexValue b).bind fun d =>
        match left with
        | 0 => unicode high (16 * value + d)
        | left + 1 => some (.hex high left (16 * value + d), [])
  | .pair high, b => if b = 0x5c then some (.escape (some high), []) else none

/-- A string behind its opening quote: its value, and what is behind its closing quote. -/
def readString : StringState → Bytes → Option (Bytes × Bytes)
  | _, [] => none
  | st, b :: s =>
      if st = .plain .start ∧ b = 0x22 then some ([], s)
      else (st.step b).bind fun x => (readString x.1 s).map fun y => (x.2 ++ y.1, y.2)

/-! ## Numbers -/

def isNumberByte (b : Byte) : Bool :=
  isDigit b || b == 0x2b || b == 0x2d || b == 0x2e || b == 0x65 || b == 0x45

/-- One digit or more. -/
def skipDigits (s : Bytes) : Option Bytes :=
  if s.takeWhile isDigit = [] then none else some (s.dropWhile isDigit)

def skipInteger (s : Bytes) : Option Bytes :=
  if s.head? = some 0x30 then some s.tail else skipDigits s

def skipFraction (s : Bytes) : Option Bytes :=
  if s.head? = some 0x2e then skipDigits s.tail else some s

def skipSign (s : Bytes) : Bytes :=
  if s.head? = some 0x2b ∨ s.head? = some 0x2d then s.tail else s

def skipExponent (s : Bytes) : Option Bytes :=
  if s.head? = some 0x65 ∨ s.head? = some 0x45 then skipDigits (skipSign s.tail) else some s

/-- The texts of numbers. -/
def isNumber (s : Bytes) : Bool :=
  let unsigned := if s.head? = some 0x2d then s.tail else s
  ((skipInteger unsigned).bind skipFraction).bind skipExponent == some []

def readNumber (s : Bytes) : Option (Json × Bytes) :=
  if isNumber (s.takeWhile isNumberByte) then
    some (.number (s.takeWhile isNumberByte), s.dropWhile isNumberByte)
  else none

/-! ## Values -/

def isWhite (b : Byte) : Bool :=
  b == 0x20 || b == 0x09 || b == 0x0a || b == 0x0d

def skipWhite (s : Bytes) : Bytes :=
  s.dropWhile isWhite

def readLiteral (text : Bytes) (v : Json) (s : Bytes) : Option (Json × Bytes) :=
  if text.isPrefixOf s then some (v, s.drop text.length) else none

section Sequences

variable {α : Type}

/-- One item or more, separated by commas, and the closing bracket. -/
def readItems (close : Byte) (item : Bytes → Option (α × Bytes)) :
    ℕ → Bytes → Option (List α × Bytes)
  | 0, _ => none
  | n + 1, s =>
      (item s).bind fun x =>
        match skipWhite x.2 with
        | [] => none
        | b :: s =>
            if b = close then some ([x.1], s)
            else if b = 0x2c then
              (readItems close item n (skipWhite s)).map fun y => (x.1 :: y.1, y.2)
            else none

/-- What is behind an opening bracket. -/
def readBracketed (close : Byte) (item : Bytes → Option (α × Bytes)) (n : ℕ) (s : Bytes) :
    Option (List α × Bytes) :=
  match skipWhite s with
  | [] => none
  | b :: s => if b = close then some ([], s) else readItems close item n (b :: s)

end Sequences

def readMember (value : Bytes → Option (Json × Bytes)) (s : Bytes) :
    Option ((Bytes × Json) × Bytes) :=
  match s with
  | [] => none
  | b :: s =>
      if b = 0x22 then
        (readString (.plain .start) s).bind fun key =>
          match skipWhite key.2 with
          | [] => none
          | b :: s =>
              if b = 0x3a then (value (skipWhite s)).map fun v => ((key.1, v.1), v.2) else none
      else none

/-- A value, nested less than `n` deep, and what is behind it. -/
def readValue : ℕ → Bytes → Option (Json × Bytes)
  | 0, _ => none
  | n + 1, s =>
      match s with
      | [] => none
      | b :: s' =>
          if b = 0x22 then (readString (.plain .start) s').map fun x => (.string x.1, x.2)
          else if b = 0x7b then
            (readBracketed 0x7d (readMember (readValue n)) n s').map fun x => (.object x.1, x.2)
          else if b = 0x5b then
            (readBracketed 0x5d (readValue n) n s').map fun x => (.array x.1, x.2)
          else if b = 0x74 then readLiteral (bytes "true") (.bool true) s
          else if b = 0x66 then readLiteral (bytes "false") (.bool false) s
          else if b = 0x6e then readLiteral (bytes "null") .null s
          else readNumber s

/-- The value of a JSON text. -/
def parse (s : Bytes) : Option Json :=
  (readValue s.length (skipWhite s)).bind fun x => if skipWhite x.2 = [] then some x.1 else none

/-! ## Longer input

What a reader accepts in front of other input, it accepts in front of more of it, and with more
depth to spare.
-/

/-- The second reader goes on from everything the first one accepts in front of other input. -/
structure Extends {α : Type} (f f' : Bytes → Option (α × Bytes)) : Prop where
  nil : f [] = none
  append : ∀ ⦃p x rest⦄, f p = some (x, rest) → rest ≠ [] → ∀ t, f' (p ++ t) = some (x, rest ++ t)

theorem dropWhile_append_of_ne_nil {f : Byte → Bool} {p : Bytes} (h : p.dropWhile f ≠ [])
    (t : Bytes) : (p ++ t).dropWhile f = p.dropWhile f ++ t := by
  induction p with
  | nil => simp at h
  | cons b p ih =>
      cases hb : f b with
      | true =>
          simp only [List.dropWhile_cons, hb, if_true] at h
          simp only [List.cons_append, List.dropWhile_cons, hb, if_true]
          exact ih h
      | false => simp [hb]

theorem takeWhile_append_of_ne_nil {f : Byte → Bool} {p : Bytes} (h : p.dropWhile f ≠ [])
    (t : Bytes) : (p ++ t).takeWhile f = p.takeWhile f := by
  induction p with
  | nil => simp at h
  | cons b p ih =>
      cases hb : f b with
      | true =>
          simp only [List.dropWhile_cons, hb, if_true] at h
          simp only [List.cons_append, List.takeWhile_cons, hb, if_true, ih h]
      | false => simp [hb]

theorem skipWhite_append {s s' : Bytes} {b : Byte} (h : skipWhite s = b :: s') (t : Bytes) :
    skipWhite (s ++ t) = b :: (s' ++ t) := by
  have hne : s.dropWhile isWhite ≠ [] := by
    rw [← skipWhite, h]
    simp
  rw [skipWhite, dropWhile_append_of_ne_nil hne, ← skipWhite, h, List.cons_append]

theorem readString_append {st : StringState} {p k rest : Bytes}
    (h : readString st p = some (k, rest)) (t : Bytes) :
    readString st (p ++ t) = some (k, rest ++ t) := by
  induction p generalizing st k with
  | nil => simp [readString] at h
  | cons b p ih =>
      rw [List.cons_append, readString]
      rw [readString] at h
      split at h
      · rename_i hb
        rw [if_pos hb]
        obtain ⟨rfl, rfl⟩ := Prod.mk.inj (Option.some.inj h)
        rfl
      · rename_i hb
        rw [if_neg hb]
        obtain ⟨x, hx, h⟩ := Option.bind_eq_some_iff.mp h
        obtain ⟨y, hy, h⟩ := Option.map_eq_some_iff.mp h
        obtain ⟨rfl, rfl⟩ := Prod.mk.inj h
        rw [hx, Option.bind_some, ih hy, Option.map_some]

theorem readNumber_append {p rest : Bytes} {x : Json} (h : readNumber p = some (x, rest))
    (hrest : rest ≠ []) (t : Bytes) : readNumber (p ++ t) = some (x, rest ++ t) := by
  rw [readNumber] at h
  split at h
  · rename_i hnum
    obtain ⟨rfl, rfl⟩ := Prod.mk.inj (Option.some.inj h)
    rw [readNumber, takeWhile_append_of_ne_nil hrest, dropWhile_append_of_ne_nil hrest, if_pos hnum]
  · simp at h

theorem readLiteral_append {text : Bytes} {v x : Json} {p rest : Bytes}
    (h : readLiteral text v p = some (x, rest)) (t : Bytes) :
    readLiteral text v (p ++ t) = some (x, rest ++ t) := by
  rw [readLiteral] at h
  split at h
  · rename_i hpre
    obtain ⟨rfl, rfl⟩ := Prod.mk.inj (Option.some.inj h)
    obtain ⟨s, rfl⟩ := List.isPrefixOf_iff_prefix.mp hpre
    have hpre' : text.isPrefixOf (text ++ s ++ t) = true :=
      List.isPrefixOf_iff_prefix.mpr ⟨s ++ t, by rw [List.append_assoc]⟩
    rw [readLiteral, if_pos hpre', List.append_assoc, List.drop_left, List.drop_left]
  · simp at h

section Sequences

variable {α : Type} {close : Byte} {item item' : Bytes → Option (α × Bytes)}

/-- Behind an item there is a separator or a bracket, so that items themselves need not be at
the end of the input. -/
theorem readItems_append (hitem : Extends item item') {n m : ℕ} (hnm : n ≤ m) {p rest : Bytes}
    {xs : List α} (h : readItems close item n p = some (xs, rest)) (t : Bytes) :
    readItems close item' m (p ++ t) = some (xs, rest ++ t) := by
  induction n generalizing m p xs with
  | zero => simp [readItems] at h
  | succ n ih =>
      obtain ⟨m, rfl⟩ : ∃ k, m = k + 1 := ⟨m - 1, by omega⟩
      rw [readItems] at h
      obtain ⟨x, hx, h⟩ := Option.bind_eq_some_iff.mp h
      cases hs : skipWhite x.2 with
      | nil => simp [hs] at h
      | cons b s =>
          have hne : x.2 ≠ [] := by
            intro hnil
            simp [hnil, skipWhite] at hs
          rw [readItems, hitem.append hx hne t, Option.bind_some]
          simp only [hs] at h
          simp only [skipWhite_append hs]
          by_cases hclose : b = close
          · rw [if_pos hclose] at h ⊢
            obtain ⟨rfl, rfl⟩ := Prod.mk.inj (Option.some.inj h)
            rfl
          · rw [if_neg hclose] at h ⊢
            by_cases hcomma : b = 0x2c
            · rw [if_pos hcomma] at h ⊢
              obtain ⟨y, hy, h⟩ := Option.map_eq_some_iff.mp h
              obtain ⟨rfl, rfl⟩ := Prod.mk.inj h
              cases hs' : skipWhite s with
              | nil =>
                  rw [hs'] at hy
                  cases n <;> simp [readItems, hitem.nil] at hy
              | cons b' s' =>
                  rw [hs'] at hy
                  rw [skipWhite_append hs', ← List.cons_append, ih (by omega) hy, Option.map_some]
            · simp [hcomma] at h

theorem readBracketed_append (hitem : Extends item item') {n m : ℕ} (hnm : n ≤ m) {p rest : Bytes}
    {xs : List α} (h : readBracketed close item n p = some (xs, rest)) (t : Bytes) :
    readBracketed close item' m (p ++ t) = some (xs, rest ++ t) := by
  rw [readBracketed] at h
  cases hs : skipWhite p with
  | nil => simp [hs] at h
  | cons b s =>
      simp only [hs] at h
      simp only [readBracketed, skipWhite_append hs]
      by_cases hclose : b = close
      · rw [if_pos hclose] at h ⊢
        obtain ⟨rfl, rfl⟩ := Prod.mk.inj (Option.some.inj h)
        rfl
      · rw [if_neg hclose] at h ⊢
        exact readItems_append hitem hnm h t

end Sequences

theorem readMember_extends {value value' : Bytes → Option (Json × Bytes)}
    (hvalue : Extends value value') : Extends (readMember value) (readMember value') where
  nil := rfl
  append := by
    intro p x rest h hrest t
    cases p with
    | nil => simp [readMember] at h
    | cons b p =>
        rw [readMember] at h
        rw [List.cons_append, readMember]
        by_cases hquote : b = 0x22
        · rw [if_pos hquote] at h ⊢
          obtain ⟨key, hkey, h⟩ := Option.bind_eq_some_iff.mp h
          rw [readString_append hkey, Option.bind_some]
          cases hs : skipWhite key.2 with
          | nil => simp [hs] at h
          | cons b s =>
              simp only [hs] at h
              simp only [skipWhite_append hs]
              by_cases hcolon : b = 0x3a
              · rw [if_pos hcolon] at h ⊢
                obtain ⟨v, hv, h⟩ := Option.map_eq_some_iff.mp h
                obtain ⟨rfl, rfl⟩ := Prod.mk.inj h
                cases hs' : skipWhite s with
                | nil =>
                    rw [hs', hvalue.nil] at hv
                    simp at hv
                | cons b' s' =>
                    rw [hs'] at hv
                    rw [skipWhite_append hs', ← List.cons_append, hvalue.append hv hrest,
                      Option.map_some]
              · simp [hcolon] at h
        · simp [hquote] at h

/-- Everything but a number may also be at the end of the input. -/
theorem readValue_append {n m : ℕ} (hnm : n ≤ m) (hvalue : Extends (readValue n) (readValue m))
    {p rest : Bytes} {v : Json} (h : readValue (n + 1) p = some (v, rest))
    (hrest : rest ≠ [] ∨ ∀ text, v ≠ .number text) (t : Bytes) :
    readValue (m + 1) (p ++ t) = some (v, rest ++ t) := by
  cases p with
  | nil => simp [readValue] at h
  | cons b p =>
      rw [readValue] at h
      rw [List.cons_append, readValue]
      by_cases hquote : b = 0x22
      · rw [if_pos hquote] at h ⊢
        obtain ⟨x, hx, h⟩ := Option.map_eq_some_iff.mp h
        obtain ⟨rfl, rfl⟩ := Prod.mk.inj h
        rw [readString_append hx, Option.map_some]
      rw [if_neg hquote] at h ⊢
      by_cases hbrace : b = 0x7b
      · rw [if_pos hbrace] at h ⊢
        obtain ⟨x, hx, h⟩ := Option.map_eq_some_iff.mp h
        obtain ⟨rfl, rfl⟩ := Prod.mk.inj h
        rw [readBracketed_append (readMember_extends hvalue) hnm hx, Option.map_some]
      rw [if_neg hbrace] at h ⊢
      by_cases hbracket : b = 0x5b
      · rw [if_pos hbracket] at h ⊢
        obtain ⟨x, hx, h⟩ := Option.map_eq_some_iff.mp h
        obtain ⟨rfl, rfl⟩ := Prod.mk.inj h
        rw [readBracketed_append hvalue hnm hx, Option.map_some]
      rw [if_neg hbracket] at h ⊢
      by_cases htrue : b = 0x74
      · rw [if_pos htrue] at h ⊢
        exact readLiteral_append h t
      rw [if_neg htrue] at h ⊢
      by_cases hfalse : b = 0x66
      · rw [if_pos hfalse] at h ⊢
        exact readLiteral_append h t
      rw [if_neg hfalse] at h ⊢
      by_cases hnull : b = 0x6e
      · rw [if_pos hnull] at h ⊢
        exact readLiteral_append h t
      rw [if_neg hnull] at h ⊢
      cases hrest with
      | inl hne => exact readNumber_append h hne t
      | inr hnum =>
          rw [readNumber] at h
          split at h
          · obtain ⟨rfl, -⟩ := Prod.mk.inj (Option.some.inj h)
            exact absurd rfl (hnum _)
          · simp at h

theorem readValue_extends {n m : ℕ} (hnm : n ≤ m) : Extends (readValue n) (readValue m) := by
  induction n generalizing m with
  | zero => exact ⟨rfl, fun p x rest h => by simp [readValue] at h⟩
  | succ n ih =>
      obtain ⟨m, rfl⟩ : ∃ k, m = k + 1 := ⟨m - 1, by omega⟩
      refine ⟨rfl, fun p x rest h hne t => ?_⟩
      exact readValue_append (by omega) (ih (by omega)) h (.inl hne) t

end Json

end CLib

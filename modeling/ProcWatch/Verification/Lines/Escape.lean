import ProcWatch.Library.FlatObject
import ProcWatch.Model.Json

/-! # What escaping writes and what the copy loop reads back -/

namespace ProcWatch

open CLib

/-! ## One byte -/

/-- Text written for one byte. -/
def escapeByte (b : Byte) : Bytes :=
  (escapeRep b).getD [b]

/-- Text that the copy loop takes from the escape of one byte: all but a backslash. -/
def readBack (b : Byte) : Bytes :=
  match escapeRep b with
  | some rep => rep.drop 1
  | none => [b]

/-- A printable byte that is neither a quote nor a backslash. -/
def Plain (b : Byte) : Prop :=
  0x20 ≤ b ∧ b ≠ 0x22 ∧ b ≠ 0x5c

theorem plain_hexDigit {n : ℕ} (h : n < 16) : Plain (hexDigit n) := by
  unfold Plain
  interval_cases n <;> decide

/-- Escaping either copies a plain byte or writes a backslash, one byte and plain bytes. -/
theorem escapeByte_cases (b : Byte) :
    (escapeByte b = [b] ∧ readBack b = [b] ∧ Plain b) ∨
      ∃ c tail, escapeByte b = 0x5c :: c :: tail ∧ readBack b = c :: tail ∧
        0x20 ≤ c ∧ (∀ x ∈ tail, Plain x) ∧ (c = b → 0x20 ≤ b ∧ tail = []) := by
  have hlow : b < 0x20 → b.toNat < 32 := fun h => by simpa [UInt8.lt_iff_toNat_lt] using h
  unfold escapeByte readBack escapeRep Plain
  split_ifs with h1 h2 h3 h4 h5 h6
  · exact Or.inr ⟨0x5c, [], by simp [h1]⟩
  · exact Or.inr ⟨0x22, [], by simp [h2]⟩
  · exact Or.inr ⟨0x6e, [], by simp [h3]⟩
  · exact Or.inr ⟨0x72, [], by simp [h4]⟩
  · exact Or.inr ⟨0x74, [], by simp [h5]⟩
  · refine Or.inr ⟨0x75, _, rfl, rfl, by decide, ?_, ?_⟩
    · have hhi := plain_hexDigit (n := b.toNat / 16) (by have := hlow h6; omega)
      have hlo := plain_hexDigit (n := b.toNat % 16) (Nat.mod_lt _ (by decide))
      have h0 : Plain 0x30 := by unfold Plain; decide
      intro x hx
      simp only [List.mem_cons, List.not_mem_nil, or_false] at hx
      rcases hx with rfl | rfl | rfl | rfl
      · exact h0
      · exact h0
      · exact hhi
      · exact hlo
    · rintro rfl
      exact absurd h6 (by decide)
  · refine Or.inl ⟨rfl, rfl, ?_, h2, h1⟩
    exact UInt8.not_lt.mp h6

theorem escapeRep_of_plain {b : Byte} (h : Plain b) : escapeRep b = none := by
  obtain ⟨hlo, hq, hs⟩ := h
  have hlt : ¬ b < 0x20 := UInt8.not_lt.mpr hlo
  have hn : b ≠ 0x0a := by rintro rfl; exact hlt (by decide)
  have hr : b ≠ 0x0d := by rintro rfl; exact hlt (by decide)
  have ht : b ≠ 0x09 := by rintro rfl; exact hlt (by decide)
  simp [escapeRep, hs, hq, hn, hr, ht, hlt]

theorem escapeByte_of_plain {b : Byte} (h : Plain b) : escapeByte b = [b] := by
  rw [escapeByte, escapeRep_of_plain h]
  rfl

/-! ## The escape loop -/

/-- The text written for a whole string. -/
def escapeAll (s : Bytes) : Bytes :=
  s.flatMap escapeByte

@[simp]
theorem escapeAll_nil : escapeAll [] = [] := rfl

@[simp]
theorem escapeAll_cons (b : Byte) (s : Bytes) : escapeAll (b :: s) = escapeByte b ++ escapeAll s :=
  rfl

theorem escapeLoop_cons (outCap : ℕ) (out : Bytes) (b : Byte) (s : Bytes) :
    escapeLoop outCap out (b :: s) =
      if outCap < out.length + (escapeByte b).length + 1 then none
      else escapeLoop outCap (out ++ escapeByte b) s := by
  unfold escapeByte
  cases h : escapeRep b <;> simp only [escapeLoop, h, Option.getD, List.length_singleton]

/-- The loop succeeds exactly when the text and its terminator fit. -/
theorem escapeLoop_eq (outCap : ℕ) (s : Bytes) :
    ∀ out : Bytes, out.length < outCap → escapeLoop outCap out s =
      if (out ++ escapeAll s).length < outCap then some (out ++ escapeAll s) else none := by
  induction s with
  | nil =>
      intro out hout
      simp [escapeLoop, hout]
  | cons b s ih =>
      intro out hout
      rw [escapeLoop_cons]
      split
      · rename_i hlt
        rw [if_neg]
        simp only [escapeAll_cons, List.length_append]
        omega
      · rename_i hfit
        rw [ih (out ++ escapeByte b) (by rw [List.length_append]; omega)]
        simp [List.append_assoc]

theorem pwJsonEscape_eq {outCap : ℕ} (hcap : 0 < outCap) (s : Bytes) :
    pwJsonEscape outCap s =
      if (escapeAll (cstr s)).length < outCap then some (escapeAll (cstr s)) else none := by
  rw [pwJsonEscape, if_neg (by omega), escapeLoop_eq outCap (cstr s) [] (by simpa using hcap)]
  simp

/-- A successful escape of a NUL-free string. -/
theorem pwJsonEscape_eq_some_iff {outCap : ℕ} {s e : Bytes} (h0 : (0 : Byte) ∉ s) :
    pwJsonEscape outCap s = some e ↔ e = escapeAll s ∧ e.length < outCap := by
  by_cases hcap : 0 < outCap
  · rw [pwJsonEscape_eq hcap, cstr_of_nulFree h0]
    constructor
    · intro h
      split at h
      · rename_i hlen
        obtain rfl := Option.some.inj h
        exact ⟨rfl, hlen⟩
      · cases h
    · rintro ⟨rfl, hlen⟩
      rw [if_pos hlen]
  · have hz : outCap = 0 := by omega
    simp [pwJsonEscape, hz]

/-- The buffer after a call holds the escaped text or, where that does not fit, nothing. -/
theorem escaped_eq_or (outCap : ℕ) (s : Bytes) :
    escaped outCap s = escapeAll (cstr s) ∨ escaped outCap s = [] := by
  unfold escaped
  cases h : pwJsonEscape outCap s with
  | none => exact Or.inr rfl
  | some e =>
      by_cases hcap : 0 < outCap
      · rw [pwJsonEscape_eq hcap] at h
        split at h
        · exact Or.inl (Option.some.inj h).symm
        · cases h
      · simp [pwJsonEscape, show outCap = 0 by omega] at h

theorem length_escaped_lt {outCap : ℕ} (hcap : 0 < outCap) (s : Bytes) :
    (escaped outCap s).length < outCap := by
  rw [escaped, pwJsonEscape_eq hcap]
  split
  · assumption
  · simpa using hcap

/-- Plain text that fits escapes to itself. -/
theorem escaped_of_plain {outCap : ℕ} {s : Bytes} (h : ∀ b ∈ s, Plain b)
    (hlen : s.length < outCap) : escaped outCap s = s := by
  have h0 : (0 : Byte) ∉ s := fun hmem => absurd (h 0 hmem).1 (by decide)
  have hall : escapeAll s = s := by
    clear hlen h0
    induction s with
    | nil => rfl
    | cons b s ih =>
        obtain ⟨hb, hs⟩ := List.forall_mem_cons.mp h
        rw [escapeAll_cons, ih hs, escapeByte_of_plain hb]
        rfl
  rw [escaped, (pwJsonEscape_eq_some_iff h0).mpr ⟨hall.symm, hlen⟩]
  rfl

/-! ## Shape of escaped text -/

theorem quoteSafe_escapeAll (s : Bytes) : QuoteSafe (escapeAll s) := by
  have hplain : ∀ (tail rest : Bytes), (∀ x ∈ tail, Plain x) →
      (∀ q : Byte, List.IsChain (fun a b : Byte => b = 0x22 → a = 0x5c) (q :: rest)) →
      ∀ q : Byte, List.IsChain (fun a b : Byte => b = 0x22 → a = 0x5c) (q :: (tail ++ rest)) := by
    intro tail rest htail hrest
    induction tail with
    | nil => exact hrest
    | cons x tail ih =>
        intro q
        refine List.isChain_cons_cons.mpr ⟨fun hx => ?_, ih (fun y hy => htail y (by simp [hy])) x⟩
        exact absurd hx (htail x (by simp)).2.1
  have hchain : ∀ p : Byte,
      List.IsChain (fun a b : Byte => b = 0x22 → a = 0x5c) (p :: escapeAll s) := by
    induction s with
    | nil => exact fun p => List.isChain_singleton p
    | cons b s ih =>
        intro p
        rw [escapeAll_cons]
        rcases escapeByte_cases b with ⟨he, -, hb⟩ | ⟨c, tail, he, -, -, htail, -⟩
        · rw [he]
          exact hplain [b] _ (by simpa using hb) ih p
        · rw [he]
          refine List.isChain_cons_cons.mpr ⟨fun h => absurd h (by decide), ?_⟩
          exact List.isChain_cons_cons.mpr ⟨fun _ => rfl, hplain tail _ htail ih c⟩
  exact hchain 0x22

theorem quoteSafe_escaped (outCap : ℕ) (s : Bytes) : QuoteSafe (escaped outCap s) := by
  rcases escaped_eq_or outCap s with h | h
  · rw [h]
    exact quoteSafe_escapeAll _
  · rw [h]
    exact quoteSafe_of_noQuote (by simp)

/-- Escaped text has no control byte: no NUL and no line end. -/
theorem le_of_mem_escapeAll {s : Bytes} : ∀ b ∈ escapeAll s, 0x20 ≤ b := by
  intro x hx
  obtain ⟨b, -, hxb⟩ := List.mem_flatMap.mp hx
  rcases escapeByte_cases b with ⟨he, -, hb⟩ | ⟨c, tail, he, -, hc, htail, -⟩
  · rw [he, List.mem_singleton] at hxb
    exact hxb ▸ hb.1
  · rw [he] at hxb
    rcases List.mem_cons.mp hxb with rfl | hxb
    · decide
    · rcases List.mem_cons.mp hxb with rfl | hxb
      · exact hc
      · exact (htail x hxb).1

theorem le_of_mem_escaped {outCap : ℕ} {s : Bytes} : ∀ b ∈ escaped outCap s, 0x20 ≤ b := by
  rcases escaped_eq_or outCap s with h | h
  · rw [h]
    exact le_of_mem_escapeAll
  · simp [h]

/-! ## The copy loop -/

/-- The copy loop without its bound. -/
def unescape : Bytes → Bytes
  | [] => []
  | b :: c =>
      if b = 0x22 then []
      else
        match c with
        | [] => [b]
        | b' :: c' => if b = 0x5c then b' :: unescape c' else b :: unescape (b' :: c')

theorem unescapeLoop_eq_take (room : ℕ) (c : Bytes) :
    unescapeLoop room c = (unescape c).take room := by
  induction room generalizing c with
  | zero => simp [unescapeLoop]
  | succ room ih =>
      match c with
      | [] => simp [unescapeLoop, unescape]
      | [b] =>
          by_cases hq : b = 0x22 <;> simp [unescapeLoop, unescape, hq]
      | b :: b' :: c' =>
          by_cases hq : b = 0x22
          · simp [unescapeLoop, unescape, hq]
          · by_cases hs : b = 0x5c <;> simp [unescapeLoop, unescape, hq, hs, ih]

theorem unescape_quote (c : Bytes) : unescape (0x22 :: c) = [] := by
  cases c <;> simp [unescape]

theorem unescape_backslash (b : Byte) (c : Bytes) : unescape (0x5c :: b :: c) = b :: unescape c := by
  simp [unescape]

theorem unescape_plain_append {tail : Bytes} (h : ∀ x ∈ tail, Plain x) (c : Bytes) :
    unescape (tail ++ c) = tail ++ unescape c := by
  induction tail with
  | nil => rfl
  | cons b tail ih =>
      obtain ⟨-, hq, hs⟩ := h b (by simp)
      have hrec := ih (fun x hx => h x (by simp [hx]))
      rw [List.cons_append, List.cons_append, ← hrec]
      cases tail ++ c with
      | nil => simp [unescape, hq]
      | cons b' c' => simp [unescape, hq, hs]

theorem unescape_escapeByte_append (b : Byte) (c : Bytes) :
    unescape (escapeByte b ++ c) = readBack b ++ unescape c := by
  rcases escapeByte_cases b with ⟨he, hr, hb⟩ | ⟨b', tail, he, hr, -, htail, -⟩
  · rw [he, hr]
    exact unescape_plain_append (by simpa using hb) c
  · rw [he, hr, List.cons_append, List.cons_append, unescape_backslash,
      unescape_plain_append htail]
    rfl

/-- Up to the closing quote, the loop reads each byte as `readBack` says. -/
theorem unescape_escapeAll_quote (s rest : Bytes) :
    unescape (escapeAll s ++ 0x22 :: rest) = s.flatMap readBack := by
  induction s with
  | nil => exact unescape_quote rest
  | cons b s ih =>
      rw [escapeAll_cons, List.append_assoc, unescape_escapeByte_append, ih, List.flatMap_cons]

/-- The loop never reads a control byte out of escaped text. -/
theorem le_of_mem_flatMap_readBack {s : Bytes} : ∀ x ∈ s.flatMap readBack, 0x20 ≤ x := by
  intro x hx
  obtain ⟨b, -, hxb⟩ := List.mem_flatMap.mp hx
  rcases escapeByte_cases b with ⟨-, hr, hb⟩ | ⟨c, tail, -, hr, hc, htail, -⟩
  · rw [hr, List.mem_singleton] at hxb
    exact hxb ▸ hb.1
  · rw [hr] at hxb
    rcases List.mem_cons.mp hxb with rfl | hxb
    · exact hc
    · exact (htail x hxb).1

/-! ## When the text survives -/

theorem readBack_of_le {b : Byte} (h : 0x20 ≤ b) : readBack b = [b] := by
  by_cases h1 : b = 0x5c
  · subst h1; rfl
  · by_cases h2 : b = 0x22
    · subst h2; rfl
    · simp [readBack, escapeRep_of_plain ⟨h, h2, h1⟩]

/-- A string without control bytes is read back, and no other is. -/
theorem take_flatMap_readBack_eq_iff {s : Bytes} {room : ℕ} (hlen : s.length ≤ room) :
    (s.flatMap readBack).take room = s ↔ ∀ b ∈ s, 0x20 ≤ b := by
  induction s generalizing room with
  | nil => simp
  | cons b s ih =>
      obtain ⟨room, rfl⟩ : ∃ r, room = r + 1 := ⟨room - 1, by simp at hlen; omega⟩
      have hs : s.length ≤ room := by simpa using hlen
      rw [List.flatMap_cons, List.forall_mem_cons]
      constructor
      · intro h
        have hb : 0x20 ≤ b := by
          rcases escapeByte_cases b with ⟨-, -, hb⟩ | ⟨c, tail, -, hr, -, -, hcb⟩
          · exact hb.1
          · rw [hr, List.cons_append, List.take_succ_cons] at h
            exact (hcb (List.cons.inj h).1).1
        rw [readBack_of_le hb, List.cons_append, List.take_succ_cons] at h
        exact ⟨hb, (ih hs).mp (List.cons.inj h).2⟩
      · rintro ⟨hb, htail⟩
        rw [readBack_of_le hb, List.cons_append, List.take_succ_cons]
        simpa using (ih hs).mpr htail

end ProcWatch

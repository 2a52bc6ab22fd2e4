import ProcWatch.Library.Json

/-! # Texts and the values they denote

Rules that build a text of a value from the texts of its parts, and what becomes of a text that
is cut off.
-/

namespace CLib.Json

/-! ## Texts -/

/-- In front of what cannot belong to a number. -/
def Delimited (rest : Bytes) : Prop :=
  ∀ b ∈ rest.head?, isNumberByte b = false

/-- A text, without white space around it, that is read as a value wherever it stands. -/
structure Denotes (t : Bytes) (v : Json) : Prop where
  start : ∃ b s, t = b :: s ∧ isWhite b = false
  read : ∀ n rest, t.length ≤ n → Delimited rest → readValue n (t ++ rest) = some (v, rest)

theorem skipWhite_of_not_white {b : Byte} (h : isWhite b = false) (s : Bytes) :
    skipWhite (b :: s) = b :: s := by
  simp [skipWhite, h]

theorem Denotes.skipWhite_append {t : Bytes} {v : Json} (h : Denotes t v) (rest : Bytes) :
    skipWhite (t ++ rest) = t ++ rest := by
  obtain ⟨b, s, rfl, hb⟩ := h.start
  exact skipWhite_of_not_white hb (s ++ rest)

theorem Denotes.parse {t : Bytes} {v : Json} (h : Denotes t v) : parse t = some v := by
  have hskip := h.skipWhite_append []
  have hread := h.read t.length [] le_rfl (by simp [Delimited])
  rw [List.append_nil] at hskip hread
  rw [Json.parse, hskip, hread]
  rfl

/-! ## Strings -/

/-- From one state of a string to another, with a part of the value. -/
def Reads (st : StringState) (e : Bytes) (st' : StringState) (out : Bytes) : Prop :=
  ∀ s, readString st (e ++ s) = (readString st' s).map fun y => (out ++ y.1, y.2)

theorem reads_nil (st : StringState) : Reads st [] st [] := by
  intro s
  simp

theorem Reads.append {st st' st'' : StringState} {e e' out out' : Bytes} (h : Reads st e st' out)
    (h' : Reads st' e' st'' out') : Reads st (e ++ e') st'' (out ++ out') := by
  intro s
  rw [List.append_assoc, h, h', Option.map_map]
  simp [Function.comp_def]

theorem reads_step {st st' : StringState} {b : Byte} {out : Bytes}
    (hquote : ¬ (st = .plain .start ∧ b = 0x22)) (h : st.step b = some (st', out)) :
    Reads st [b] st' out := by
  intro s
  rw [List.cons_append, List.nil_append, readString, if_neg hquote, h, Option.bind_some]

/-- The state behind a part of a string, and what that part says. -/
def feed : StringState → Bytes → Option (StringState × Bytes)
  | st, [] => some (st, [])
  | st, b :: e =>
      if st = .plain .start ∧ b = 0x22 then none
      else (st.step b).bind fun x => (feed x.1 e).map fun y => (y.1, x.2 ++ y.2)

theorem reads_of_feed {st st' : StringState} {e out : Bytes} (h : feed st e = some (st', out)) :
    Reads st e st' out := by
  induction e generalizing st out with
  | nil =>
      obtain ⟨rfl, rfl⟩ := Prod.mk.inj (Option.some.inj h)
      exact reads_nil _
  | cons b e ih =>
      rw [feed] at h
      split at h
      · cases h
      · rename_i hquote
        obtain ⟨x, hx, h⟩ := Option.bind_eq_some_iff.mp h
        obtain ⟨y, hy, h⟩ := Option.map_eq_some_iff.mp h
        obtain ⟨rfl, rfl⟩ := Prod.mk.inj h
        exact (reads_step hquote hx).append (ih hy)

theorem plain_of_le {b : Byte} (h : 0x80 ≤ b) : b ≠ 0x22 ∧ b ≠ 0x5c ∧ ¬ b < 0x20 := by
  revert h b
  decide +kernel

/-- Bytes of longer characters are read as they are. -/
theorem reads_run {st st' : Utf8.State} {s : Bytes} (h : Utf8.run st s = some st')
    (hs : ∀ b ∈ s, 0x80 ≤ b) : Reads (.plain st) s (.plain st') s := by
  induction s generalizing st with
  | nil =>
      obtain rfl := Option.some.inj h
      exact reads_nil _
  | cons b s ih =>
      rw [Utf8.run_cons] at h
      obtain ⟨st₁, hstep, hrun⟩ := Option.bind_eq_some_iff.mp h
      have hb : 0x80 ≤ b := hs b (by simp)
      have hne := plain_of_le hb
      have hhead : Reads (.plain st) [b] (.plain st₁) [b] := by
        apply reads_step
        · simp [hne.1]
        · rw [StringState.step, if_neg (by simp [hne.2.1]), if_neg hne.2.2, hstep]
          rfl
      exact hhead.append (ih hrun fun b hb => hs b (by simp [hb]))

/-- What may stand between the quotes of a string. -/
def StringText (e s : Bytes) : Prop :=
  Reads (.plain .start) e (.plain .start) s

theorem StringText.read {e s : Bytes} (h : StringText e s) (rest : Bytes) :
    readString (.plain .start) (e ++ 0x22 :: rest) = some (s, rest) := by
  rw [h]
  simp [readString]

theorem denotes_string {e s : Bytes} (h : StringText e s) :
    Denotes (0x22 :: e ++ [0x22]) (.string s) where
  start := ⟨_, _, rfl, by decide⟩
  read n rest hn _ := by
    obtain ⟨n, rfl⟩ : ∃ k, n = k + 1 := ⟨n - 1, by simp at hn; omega⟩
    simp only [List.cons_append, List.append_assoc, List.nil_append]
    rw [readValue, if_pos rfl, h.read rest, Option.map_some]

/-! ## Literals and numbers -/

theorem readLiteral_self (text : Bytes) (v : Json) (rest : Bytes) :
    readLiteral text v (text ++ rest) = some (v, rest) := by
  have hpre : text.isPrefixOf (text ++ rest) = true :=
    List.isPrefixOf_iff_prefix.mpr (List.prefix_append text rest)
  rw [readLiteral, if_pos hpre, List.drop_left]

theorem denotes_literal {b : Byte} {s : Bytes} {v : Json} (hb : isWhite b = false)
    (h : ∀ n rest, readValue (n + 1) (b :: (s ++ rest)) = readLiteral (b :: s) v (b :: (s ++ rest))) :
    Denotes (b :: s) v where
  start := ⟨b, s, rfl, hb⟩
  read n rest hn _ := by
    obtain ⟨n, rfl⟩ : ∃ k, n = k + 1 := ⟨n - 1, by simp at hn; omega⟩
    rw [List.cons_append, h]
    exact readLiteral_self (b :: s) v rest

theorem denotes_null : Denotes (bytes "null") .null :=
  denotes_literal (by decide) fun _ _ => rfl

theorem denotes_bool (b : Bool) :
    Denotes (if b then bytes "true" else bytes "false") (.bool b) := by
  cases b with
  | false => exact denotes_literal (by decide) fun _ _ => rfl
  | true => exact denotes_literal (by decide) fun _ _ => rfl

theorem numberByte_facts {b : Byte} (h : isNumberByte b = true) :
    isWhite b = false ∧ b ≠ 0x22 ∧ b ≠ 0x7b ∧ b ≠ 0x5b ∧ b ≠ 0x74 ∧ b ≠ 0x66 ∧ b ≠ 0x6e := by
  revert h b
  decide +kernel

theorem denotes_number {b : Byte} {s : Bytes} (hbytes : ∀ c ∈ b :: s, isNumberByte c = true)
    (h : isNumber (b :: s) = true) : Denotes (b :: s) (.number (b :: s)) where
  start := ⟨b, s, rfl, (numberByte_facts (hbytes b (by simp))).1⟩
  read n rest hn hrest := by
    obtain ⟨n, rfl⟩ : ∃ k, n = k + 1 := ⟨n - 1, by simp at hn; omega⟩
    obtain ⟨-, hquote, hbrace, hbracket, htrue, hfalse, hnull⟩ :=
      numberByte_facts (hbytes b (by simp))
    have htake : rest.takeWhile isNumberByte = [] := by
      cases rest with
      | nil => rfl
      | cons c rest => simp [hrest c rfl]
    have hdrop : rest.dropWhile isNumberByte = rest := by
      cases rest with
      | nil => rfl
      | cons c rest => simp [hrest c rfl]
    have hread : readNumber (b :: s ++ rest) = some (.number (b :: s), rest) := by
      rw [readNumber, List.takeWhile_append_of_pos hbytes, List.dropWhile_append_of_pos hbytes, htake,
        hdrop, List.append_nil, if_pos h]
    rw [List.cons_append, readValue, if_neg hquote, if_neg hbrace, if_neg hbracket, if_neg htrue,
      if_neg hfalse, if_neg hnull]
    exact hread

theorem digit_facts {b : Byte} (h : isDigit b = true) : isNumberByte b = true ∧ b ≠ 0x2d := by
  revert h b
  decide +kernel

/-! ## Arrays and objects -/

/-- Texts with commas between them, and in front of the first one unless it is the first. -/
def separated : Bool → List Bytes → Bytes
  | _, [] => []
  | first, t :: ts => (if first then [] else [0x2c]) ++ t ++ separated false ts

section Sequences

variable {α : Type} {close : Byte} {item : Bytes → Option (α × Bytes)}

/-- A text that a reader of items reads as an item. -/
structure ItemText (item : Bytes → Option (α × Bytes)) (t : Bytes) (x : α) : Prop where
  start : ∃ b s, t = b :: s ∧ isWhite b = false
  read : ∀ rest, Delimited rest → item (t ++ rest) = some (x, rest)

theorem length_separated_tail (ts : List Bytes) :
    ts.length ≤ (separated false ts).length ∧
      ∀ t ∈ ts, t.length < (separated false ts).length := by
  induction ts with
  | nil => simp
  | cons t ts ih =>
      obtain ⟨hcount, hlen⟩ := ih
      simp only [separated, Bool.false_eq_true, if_false, List.length_append, List.length_cons,
        List.length_nil, List.mem_cons, forall_eq_or_imp]
      refine ⟨by omega, by omega, fun t' ht' => ?_⟩
      have := hlen t' ht'
      omega

theorem readItems_separated (hcomma : close ≠ 0x2c) (hwhite : isWhite close = false)
    (hclose : isNumberByte close = false) {t : Bytes} {ts : List Bytes} {x : α} {xs : List α}
    (ht : ItemText item t x) (hts : List.Forall₂ (ItemText item) ts xs) {n : ℕ}
    (hn : ts.length < n) (rest : Bytes) :
    readItems close item n (t ++ separated false ts ++ close :: rest) = some (x :: xs, rest) := by
  induction hts generalizing t x n with
  | nil =>
      obtain ⟨n, rfl⟩ : ∃ k, n = k + 1 := ⟨n - 1, by simp at hn; omega⟩
      rw [separated, List.append_nil, readItems, ht.read _ (by simp [Delimited, hclose]),
        Option.bind_some]
      simp [skipWhite_of_not_white hwhite]
  | @cons t' x' ts xs ht' _ ih =>
      obtain ⟨n, rfl⟩ : ∃ k, n = k + 1 := ⟨n - 1, by simp at hn; omega⟩
      have hrest := ih ht' (n := n) (by simpa using hn)
      obtain ⟨b, s, hb, hwhite'⟩ := ht'.start
      have hskip : skipWhite (t' ++ separated false ts ++ close :: rest) =
          t' ++ separated false ts ++ close :: rest := by
        rw [hb]
        exact skipWhite_of_not_white hwhite' _
      have hsplit : t ++ separated false (t' :: ts) ++ close :: rest =
          t ++ 0x2c :: (t' ++ separated false ts ++ close :: rest) := by
        simp [separated]
      rw [hsplit, readItems, ht.read _ (by intro b hb; simp at hb; subst hb; decide), Option.bind_some]
      simp only [skipWhite_of_not_white (by decide : isWhite 0x2c = false), if_neg hcomma.symm, if_true]
      rw [hskip, hrest, Option.map_some]

theorem readBracketed_separated (hcomma : close ≠ 0x2c) (hwhite : isWhite close = false)
    (hclose : isNumberByte close = false) {ts : List Bytes} {xs : List α}
    (hts : List.Forall₂ (ItemText item) ts xs)
    (hfirst : ∀ t ∈ ts, t.head? ≠ some close) {n : ℕ} (hn : ts.length ≤ n) (rest : Bytes) :
    readBracketed close item n (separated true ts ++ close :: rest) = some (xs, rest) := by
  cases hts with
  | nil => simp [separated, readBracketed, skipWhite_of_not_white hwhite]
  | @cons t x ts xs ht hts =>
      have hitems := readItems_separated hcomma hwhite hclose ht hts hn rest
      obtain ⟨b, s, rfl, hb⟩ := ht.start
      have hne : b ≠ close := fun h => hfirst (b :: s) (by simp) (by simp [h])
      simp only [separated, if_true, List.nil_append, List.cons_append] at hitems ⊢
      rw [readBracketed, skipWhite_of_not_white hb]
      simp only [if_neg hne]
      exact hitems

end Sequences

theorem forall₂_of_mem {α β : Type} {R S : α → β → Prop} {xs : List α} {ys : List β}
    (h : List.Forall₂ R xs ys) (himp : ∀ x y, x ∈ xs → R x y → S x y) : List.Forall₂ S xs ys := by
  induction h with
  | nil => exact .nil
  | @cons x y xs ys hxy _ ih =>
      exact .cons (himp x y (by simp) hxy) (ih fun x y hx => himp x y (by simp [hx]))

theorem exists_of_forall₂ {α β : Type} {R : α → β → Prop} {xs : List α} {ys : List β}
    (h : List.Forall₂ R xs ys) {x : α} (hx : x ∈ xs) : ∃ y, R x y := by
  induction h with
  | nil => simp at hx
  | @cons x' y xs ys hxy _ ih =>
      cases List.mem_cons.mp hx with
      | inl heq => exact ⟨y, heq ▸ hxy⟩
      | inr hmem => exact ih hmem

theorem forall₂_of_exists {α β : Type} {R : α → β → Prop} {xs : List α}
    (h : ∀ x ∈ xs, ∃ y, R x y) : ∃ ys, List.Forall₂ R xs ys := by
  induction xs with
  | nil => exact ⟨[], .nil⟩
  | cons x xs ih =>
      obtain ⟨y, hy⟩ := h x List.mem_cons_self
      obtain ⟨ys, hys⟩ := ih fun x' hx' => h x' (List.mem_cons_of_mem _ hx')
      exact ⟨y :: ys, .cons hy hys⟩

theorem Denotes.itemText {t : Bytes} {v : Json} (h : Denotes t v) {n : ℕ} (hn : t.length ≤ n) :
    ItemText (readValue n) t v :=
  ⟨h.start, fun rest => h.read n rest hn⟩

/-- No value starts with a closing bracket. -/
theorem Denotes.head_ne {t : Bytes} {v : Json} (h : Denotes t v) : t.head? ≠ some 0x5d := by
  obtain ⟨b, s, rfl, -⟩ := h.start
  intro hb
  obtain rfl : b = 0x5d := by simpa using hb
  have hread := h.read _ [] le_rfl (by simp [Delimited])
  have hnone : readValue (0x5d :: s).length (0x5d :: s ++ []) = none := rfl
  rw [hnone] at hread
  simp at hread

theorem length_le_separated (first : Bool) (ts : List Bytes) :
    ∀ t ∈ ts, t.length ≤ (separated first ts).length := by
  cases ts with
  | nil => simp
  | cons t ts =>
      obtain ⟨-, hlen⟩ := length_separated_tail ts
      intro t' ht'
      simp only [separated, List.length_append]
      cases List.mem_cons.mp ht' with
      | inl heq =>
          rw [heq]
          omega
      | inr hmem =>
          have := hlen t' hmem
          omega

theorem count_le_separated (ts : List Bytes) : ts.length ≤ (separated true ts).length + 1 := by
  cases ts with
  | nil => simp
  | cons t ts =>
      have := (length_separated_tail ts).1
      simp only [separated, List.length_append, List.length_cons]
      omega

theorem denotes_array {ts : List Bytes} {vs : List Json} (h : List.Forall₂ Denotes ts vs) :
    Denotes (0x5b :: separated true ts ++ [0x5d]) (.array vs) where
  start := ⟨_, _, rfl, by decide⟩
  read n rest hn _ := by
    obtain ⟨n, rfl⟩ : ∃ k, n = k + 1 := ⟨n - 1, by simp at hn; omega⟩
    simp only [List.length_append, List.length_cons, List.length_nil] at hn
    have hlen : (separated true ts).length ≤ n := by omega
    have hcount : ts.length ≤ n := (count_le_separated ts).trans (by omega)
    have hitems : List.Forall₂ (ItemText (readValue n)) ts vs :=
      forall₂_of_mem h fun t v ht hv => hv.itemText ((length_le_separated true ts t ht).trans hlen)
    have hfirst : ∀ t ∈ ts, t.head? ≠ some 0x5d := by
      intro t ht
      obtain ⟨v, hv⟩ := exists_of_forall₂ h ht
      exact hv.head_ne
    have hread := readBracketed_separated (by decide) (by decide) (by decide) hitems hfirst hcount rest
    simp only [List.cons_append, List.append_assoc, List.nil_append]
    rw [readValue, if_neg (by decide), if_neg (by decide), if_pos rfl, hread, Option.map_some]

/-- The text of a member of an object, with the text of its key. -/
structure MemberDenotes (t : Bytes) (m : Bytes × Json) : Prop where
  split : ∃ e v, t = 0x22 :: e ++ 0x22 :: 0x3a :: v ∧ StringText e m.1 ∧ Denotes v m.2

theorem MemberDenotes.itemText {t : Bytes} {m : Bytes × Json} (h : MemberDenotes t m) {n : ℕ}
    (hn : t.length ≤ n) : ItemText (readMember (readValue n)) t m := by
  obtain ⟨e, v, rfl, hkey, hvalue⟩ := h.split
  refine ⟨⟨_, _, rfl, by decide⟩, fun rest hrest => ?_⟩
  have hlen : v.length ≤ n := by
    simp only [List.length_append, List.length_cons] at hn
    omega
  simp only [List.cons_append, List.append_assoc]
  rw [readMember, if_pos rfl, hkey.read, Option.bind_some]
  simp only [skipWhite_of_not_white (by decide : isWhite 0x3a = false), if_true]
  rw [hvalue.skipWhite_append, hvalue.read n rest hlen hrest, Option.map_some]

theorem denotes_object {ts : List Bytes} {ms : List (Bytes × Json)}
    (h : List.Forall₂ MemberDenotes ts ms) :
    Denotes (0x7b :: separated true ts ++ [0x7d]) (.object ms) where
  start := ⟨_, _, rfl, by decide⟩
  read n rest hn _ := by
    obtain ⟨n, rfl⟩ : ∃ k, n = k + 1 := ⟨n - 1, by simp at hn; omega⟩
    simp only [List.length_append, List.length_cons, List.length_nil] at hn
    have hlen : (separated true ts).length ≤ n := by omega
    have hcount : ts.length ≤ n := (count_le_separated ts).trans (by omega)
    have hitems : List.Forall₂ (ItemText (readMember (readValue n))) ts ms :=
      forall₂_of_mem h fun t m ht hm => hm.itemText ((length_le_separated true ts t ht).trans hlen)
    have hfirst : ∀ t ∈ ts, t.head? ≠ some 0x7d := by
      intro t ht
      obtain ⟨m, hm⟩ := exists_of_forall₂ h ht
      obtain ⟨e, v, rfl, -⟩ := hm.split
      simp
    have hread := readBracketed_separated (by decide) (by decide) (by decide) hitems hfirst hcount rest
    simp only [List.cons_append, List.append_assoc, List.nil_append]
    rw [readValue, if_neg (by decide), if_pos rfl, hread, Option.map_some]

end CLib.Json

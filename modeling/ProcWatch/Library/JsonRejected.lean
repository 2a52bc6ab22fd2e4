import ProcWatch.Library.JsonNumbers

/-! # Texts that denote no value

What a reader leaves of such a text, if anything, cannot go on behind a value. So a part that
is no value keeps the whole from being one.
-/

namespace CLib.Json

/-! ## Texts that are no values -/

/-- In front of what may follow a value. -/
def Closed (rest : Bytes) : Prop :=
  ∀ b ∈ rest.head?, b = 0x2c ∨ b = 0x5d ∨ b = 0x7d

theorem Closed.delimited {rest : Bytes} (h : Closed rest) : Delimited rest := by
  intro b hb
  rcases h b hb with rfl | rfl | rfl <;> decide

/-- A byte that cannot stand behind a value. -/
def Stuck (b : Byte) : Prop :=
  isWhite b = false ∧ b ≠ 0x2c ∧ b ≠ 0x5d ∧ b ≠ 0x7d

instance : DecidablePred Stuck :=
  fun b => inferInstanceAs (Decidable (isWhite b = false ∧ b ≠ 0x2c ∧ b ≠ 0x5d ∧ b ≠ 0x7d))

/-- What is left starts with such a byte. -/
def StuckAt (rest : Bytes) : Prop :=
  ∃ b s, rest = b :: s ∧ Stuck b

/-- A text that is not read as a value in front of anything that may follow one. -/
structure Blocks (t : Bytes) : Prop where
  start : StuckAt t
  read : ∀ n rest v rest', t.length ≤ n → Closed rest →
    readValue n (t ++ rest) = some (v, rest') → StuckAt rest'

theorem StuckAt.skipWhite {rest : Bytes} (h : StuckAt rest) : skipWhite rest = rest := by
  obtain ⟨b, s, rfl, hb⟩ := h
  exact skipWhite_of_not_white hb.1 s

theorem StuckAt.append {s : Bytes} (h : StuckAt s) (t : Bytes) : StuckAt (s ++ t) := by
  obtain ⟨b, s, rfl, hb⟩ := h
  exact ⟨b, s ++ t, rfl, hb⟩

theorem Blocks.parse {t : Bytes} (h : Blocks t) : parse t = none := by
  rw [Json.parse, h.start.skipWhite]
  cases hread : readValue t.length t with
  | none => rfl
  | some x =>
      have hstuck := h.read t.length [] x.1 x.2 le_rfl (by simp [Closed])
        (by rw [List.append_nil, hread])
      have hskip := hstuck.skipWhite
      obtain ⟨b, s, hs, -⟩ := hstuck
      rw [Option.bind_some, hskip, hs]
      rfl

/-- A text that no value starts with. -/
structure Dead (t : Bytes) : Prop where
  start : StuckAt t
  read : ∀ n rest, t.length ≤ n → readValue n (t ++ rest) = none

theorem Dead.blocks {t : Bytes} (h : Dead t) : Blocks t where
  start := h.start
  read := by
    intro n rest v rest' hn _ hread
    rw [h.read n rest hn] at hread
    cases hread

theorem Dead.append {t : Bytes} (h : Dead t) (s : Bytes) : Dead (t ++ s) where
  start := h.start.append s
  read := by
    intro n rest hn
    rw [List.append_assoc]
    exact h.read n (s ++ rest) (by rw [List.length_append] at hn; omega)

section Sequences

variable {α : Type} {close : Byte} {item : Bytes → Option (α × Bytes)}

/-- A text that a reader of items does not read as an item. -/
def ItemBlocks (item : Bytes → Option (α × Bytes)) (t : Bytes) : Prop :=
  ∀ rest x rest', Closed rest → item (t ++ rest) = some (x, rest') → StuckAt rest'

theorem readItems_of_blocks (hclose : close = 0x5d ∨ close = 0x7d) {t : Bytes}
    (ht : ItemBlocks item t) (n : ℕ)
    {rest : Bytes} (hrest : Closed rest) : readItems close item n (t ++ rest) = none := by
  cases n with
  | zero => rfl
  | succ n =>
      rw [readItems]
      cases hitem : item (t ++ rest) with
      | none => rfl
      | some x =>
          obtain ⟨b, s, hs, hwhite, hcomma, hbracket, hbrace⟩ := ht rest x.1 x.2 hrest hitem
          have hne : b ≠ close := by
            rcases hclose with rfl | rfl
            · exact hbracket
            · exact hbrace
          rw [Option.bind_some, hs, skipWhite_of_not_white hwhite]
          simp only [if_neg hne, if_neg hcomma]

/-- Where one of some texts is no item, they are not read up to the bracket. -/
theorem readItems_blocked (hclose : close = 0x5d ∨ close = 0x7d) {t : Bytes} {ts : List Bytes}
    (hts : ∀ u ∈ t :: ts, StuckAt u ∧ ((∃ x, ItemText item u x) ∨ ItemBlocks item u))
    (hblocks : ∃ u ∈ t :: ts, ItemBlocks item u) (n : ℕ) (rest : Bytes) :
    readItems close item n (t ++ separated false ts ++ close :: rest) = none := by
  have hcloses : Closed (close :: rest) := by
    intro b hb
    obtain rfl := Option.some.inj hb
    exact .inr hclose
  have hne : (0x2c : Byte) ≠ close := by
    rcases hclose with rfl | rfl <;> decide
  induction ts generalizing t n with
  | nil =>
      obtain ⟨u, hu, hblocks⟩ := hblocks
      obtain rfl := List.mem_singleton.mp hu
      rw [separated, List.append_nil]
      exact readItems_of_blocks hclose hblocks n hcloses
  | cons t' ts ih =>
      have hsplit : t ++ separated false (t' :: ts) ++ close :: rest =
          t ++ 0x2c :: (t' ++ separated false ts ++ close :: rest) := by
        simp [separated]
      have hcomma : Closed (0x2c :: (t' ++ separated false ts ++ close :: rest)) := by
        intro b hb
        exact .inl (Option.some.inj hb).symm
      rw [hsplit]
      by_cases ht : ItemBlocks item t
      · exact readItems_of_blocks hclose ht n hcomma
      · obtain ⟨x, hx⟩ := (hts t List.mem_cons_self).2.resolve_right ht
        have hrest := ih (t := t') (fun u hu => hts u (List.mem_cons_of_mem _ hu)) (by
          obtain ⟨u, hu, hblocks⟩ := hblocks
          cases List.mem_cons.mp hu with
          | inl heq => exact absurd (heq ▸ hblocks) ht
          | inr hmem => exact ⟨u, hmem, hblocks⟩)
        have hskip := ((hts t' (by simp)).1.append (separated false ts ++ close :: rest)).skipWhite
        cases n with
        | zero => rfl
        | succ n =>
            rw [readItems, hx.read _ hcomma.delimited, Option.bind_some,
              skipWhite_of_not_white (by decide)]
            simp only [if_neg hne, if_true]
            rw [List.append_assoc, hskip, ← List.append_assoc, hrest]
            rfl

/-- The same behind an opening bracket. -/
theorem readBracketed_blocked (hclose : close = 0x5d ∨ close = 0x7d) {ts : List Bytes}
    (hts : ∀ u ∈ ts, StuckAt u ∧ ((∃ x, ItemText item u x) ∨ ItemBlocks item u))
    (hblocks : ∃ u ∈ ts, ItemBlocks item u) (n : ℕ) (rest : Bytes) :
    readBracketed close item n (separated true ts ++ close :: rest) = none := by
  cases ts with
  | nil =>
      obtain ⟨u, hu, -⟩ := hblocks
      cases hu
  | cons t ts =>
      have hitems := readItems_blocked hclose hts hblocks n rest
      obtain ⟨b, s, rfl, hb⟩ := (hts t List.mem_cons_self).1
      have hne : b ≠ close := by
        rcases hclose with rfl | rfl
        · exact hb.2.2.1
        · exact hb.2.2.2
      simp only [separated, if_true, List.nil_append, List.cons_append] at hitems ⊢
      rw [readBracketed, skipWhite_of_not_white hb.1]
      simp only [if_neg hne]
      exact hitems

end Sequences

theorem Denotes.stuckAt {t : Bytes} {v : Json} (h : Denotes t v) : StuckAt t := by
  obtain ⟨b, s, rfl, hb⟩ := h.start
  have hread := h.read _ [] le_rfl (by simp [Delimited])
  rw [List.append_nil, List.length_cons] at hread
  have hnone (c : Byte) (hc : ∀ n s, readValue (n + 1) (c :: s) = none) : b ≠ c := by
    rintro rfl
    rw [hc] at hread
    cases hread
  exact ⟨b, s, rfl, hb, hnone _ fun _ _ => rfl, hnone _ fun _ _ => rfl, hnone _ fun _ _ => rfl⟩

theorem Blocks.itemBlocks {t : Bytes} (h : Blocks t) {n : ℕ} (hn : t.length ≤ n) :
    ItemBlocks (readValue n) t :=
  fun rest v rest' hrest hread => h.read n rest v rest' hn hrest hread

theorem dead_array {ts : List Bytes} (h : ∀ t ∈ ts, (∃ v, Denotes t v) ∨ Blocks t)
    (hblocks : ∃ t ∈ ts, Blocks t) : Dead (0x5b :: separated true ts ++ [0x5d]) where
  start := ⟨_, _, rfl, by decide⟩
  read := by
    intro n rest hn
    obtain ⟨n, rfl⟩ : ∃ k, n = k + 1 := ⟨n - 1, by simp at hn; omega⟩
    simp only [List.length_append, List.length_cons, List.length_nil] at hn
    have hlen (t : Bytes) (ht : t ∈ ts) : t.length ≤ n :=
      (length_le_separated true ts t ht).trans (by omega)
    have hread : readBracketed 0x5d (readValue n) n (separated true ts ++ 0x5d :: rest) = none :=
      readBracketed_blocked (.inl rfl)
      (fun t ht => by
        cases h t ht with
        | inl hv =>
            obtain ⟨v, hv⟩ := hv
            exact ⟨hv.stuckAt, .inl ⟨v, hv.itemText (hlen t ht)⟩⟩
        | inr hb => exact ⟨hb.start, .inr (hb.itemBlocks (hlen t ht))⟩)
      (by
        obtain ⟨t, ht, hb⟩ := hblocks
        exact ⟨t, ht, hb.itemBlocks (hlen t ht)⟩) n rest
    simp only [List.cons_append, List.append_assoc, List.nil_append]
    rw [readValue, if_neg (by decide), if_neg (by decide), if_pos rfl, hread, Option.map_none]

/-! ## Strings that are not read -/

/-- No string goes on with this text behind its opening quote. -/
def DeadString (e : Bytes) : Prop :=
  ∀ rest, readString (.plain .start) (e ++ rest) = none

theorem Reads.deadString {e e' out : Bytes} (h : Reads (.plain .start) e (.plain .start) out)
    (h' : DeadString e') : DeadString (e ++ e') := by
  intro rest
  rw [List.append_assoc, h, h']
  rfl

/-- Bytes that are not well-formed. -/
theorem readString_run_none {st : Utf8.State} {s : Bytes} (h : Utf8.run st s = none)
    (hs : ∀ b ∈ s, 0x80 ≤ b) (rest : Bytes) : readString (.plain st) (s ++ rest) = none := by
  induction s generalizing st with
  | nil => cases h
  | cons b s ih =>
      have hne := plain_of_le (hs b (by simp))
      rw [List.cons_append, readString, if_neg (by simp [hne.1]), StringState.step,
        if_neg (by simp [hne.2.1]), if_neg hne.2.2]
      rw [Utf8.run_cons] at h
      cases hstep : st.step b with
      | none => rfl
      | some st' =>
          rw [hstep, Option.bind_some] at h
          simp only [Option.map_some, Option.bind_some]
          rw [ih h fun c hc => hs c (by simp [hc]), Option.map_none]

theorem dead_string {e : Bytes} (h : DeadString e) : Dead (0x22 :: e ++ [0x22]) where
  start := ⟨_, _, rfl, by decide⟩
  read := by
    intro n rest hn
    obtain ⟨n, rfl⟩ : ∃ k, n = k + 1 := ⟨n - 1, by simp at hn; omega⟩
    simp only [List.cons_append, List.append_assoc, List.nil_append]
    rw [readValue, if_pos rfl, h, Option.map_none]

/-- The text of a member with a key or a value that is not read. -/
structure MemberBlocks (t : Bytes) : Prop where
  split : ∃ e v, t = 0x22 :: e ++ 0x22 :: 0x3a :: v ∧
    (DeadString e ∨ (∃ s, StringText e s) ∧ Blocks v)

theorem MemberBlocks.stuckAt {t : Bytes} (h : MemberBlocks t) : StuckAt t := by
  obtain ⟨e, v, rfl, -⟩ := h.split
  exact ⟨_, _, rfl, by decide⟩

theorem MemberDenotes.stuckAt {t : Bytes} {m : Bytes × Json} (h : MemberDenotes t m) :
    StuckAt t := by
  obtain ⟨e, v, rfl, -⟩ := h.split
  exact ⟨_, _, rfl, by decide⟩

theorem MemberBlocks.itemBlocks {t : Bytes} (h : MemberBlocks t) {n : ℕ} (hn : t.length ≤ n) :
    ItemBlocks (readMember (readValue n)) t := by
  obtain ⟨e, v, rfl, hdead | ⟨⟨s, hs⟩, hv⟩⟩ := h.split
  · intro rest x rest' _ hread
    simp only [List.cons_append, List.append_assoc] at hread
    rw [readMember, if_pos rfl, hdead] at hread
    cases hread
  · intro rest x rest' hrest hread
    have hlen : v.length ≤ n := by
      simp only [List.length_append, List.length_cons] at hn
      omega
    simp only [List.cons_append, List.append_assoc] at hread
    rw [readMember, if_pos rfl, hs.read, Option.bind_some] at hread
    simp only [skipWhite_of_not_white (by decide : isWhite 0x3a = false), if_true] at hread
    rw [(hv.start.append rest).skipWhite] at hread
    obtain ⟨y, hy, hxy⟩ := Option.map_eq_some_iff.mp hread
    obtain ⟨-, rfl⟩ := Prod.mk.inj hxy
    exact hv.read n rest y.1 y.2 hlen hrest hy

theorem dead_object {ts : List Bytes} (h : ∀ t ∈ ts, (∃ m, MemberDenotes t m) ∨ MemberBlocks t)
    (hblocks : ∃ t ∈ ts, MemberBlocks t) : Dead (0x7b :: separated true ts ++ [0x7d]) where
  start := ⟨_, _, rfl, by decide⟩
  read := by
    intro n rest hn
    obtain ⟨n, rfl⟩ : ∃ k, n = k + 1 := ⟨n - 1, by simp at hn; omega⟩
    simp only [List.length_append, List.length_cons, List.length_nil] at hn
    have hlen (t : Bytes) (ht : t ∈ ts) : t.length ≤ n :=
      (length_le_separated true ts t ht).trans (by omega)
    have hread : readBracketed 0x7d (readMember (readValue n)) n
        (separated true ts ++ 0x7d :: rest) = none := readBracketed_blocked (.inr rfl)
      (fun t ht => by
        cases h t ht with
        | inl hm =>
            obtain ⟨m, hm⟩ := hm
            exact ⟨hm.stuckAt, .inl ⟨m, hm.itemText (hlen t ht)⟩⟩
        | inr hb => exact ⟨hb.stuckAt, .inr (hb.itemBlocks (hlen t ht))⟩)
      (by
        obtain ⟨t, ht, hb⟩ := hblocks
        exact ⟨t, ht, hb.itemBlocks (hlen t ht)⟩) n rest
    simp only [List.cons_append, List.append_assoc, List.nil_append]
    rw [readValue, if_neg (by decide), if_pos rfl, hread, Option.map_none]

/-! ## Values without anything between them -/

/-- Behind a whole value that is no number, nothing may follow that could not follow a value. -/
theorem blocks_append {p q : Bytes} {v : Json} (hp : Denotes p v) (hv : ∀ text, v ≠ .number text)
    (hq : StuckAt q) : Blocks (p ++ q) where
  start := hp.stuckAt.append q
  read := by
    intro n rest v' rest' hn _ hread
    obtain ⟨b, s, hcons, -⟩ := hp.start
    obtain ⟨n, rfl⟩ : ∃ k, n = k + 1 := ⟨n - 1, by
      rw [hcons] at hn
      simp only [List.length_append, List.length_cons] at hn
      omega⟩
    rw [List.length_append] at hn
    have hwhole := hp.read (n + 1) [] (by omega) (by simp [Delimited])
    rw [List.append_nil] at hwhole
    have hmore := readValue_append le_rfl (readValue_extends le_rfl) hwhole (.inr hv) (q ++ rest)
    rw [List.append_assoc, hmore] at hread
    obtain ⟨-, rfl⟩ := Prod.mk.inj (Option.some.inj hread)
    exact hq.append rest

theorem stuck_of_numberByte {b : Byte} (h : isNumberByte b = true) : Stuck b := by
  unfold Stuck
  revert h b
  decide +kernel

theorem StuckAt.ne_nil {s : Bytes} (h : StuckAt s) : s ≠ [] := by
  obtain ⟨b, s, rfl, -⟩ := h
  simp

/-- A run of bytes of numbers that is no number, or that something else follows. -/
theorem blocks_number {b : Byte} {s : Bytes} (hb : isNumberByte b = true)
    (h : ((b :: s).dropWhile isNumberByte = [] ∧ isNumber (b :: s) = false) ∨
      StuckAt ((b :: s).dropWhile isNumberByte)) : Blocks (b :: s) where
  start := ⟨b, s, rfl, stuck_of_numberByte hb⟩
  read := by
    intro n rest v rest' hn hrest hread
    obtain ⟨n, rfl⟩ : ∃ k, n = k + 1 := ⟨n - 1, by simp at hn; omega⟩
    obtain ⟨-, hquote, hbrace, hbracket, htrue, hfalse, hnull⟩ := numberByte_facts hb
    rw [List.cons_append, readValue, if_neg hquote, if_neg hbrace, if_neg hbracket, if_neg htrue,
      if_neg hfalse, if_neg hnull, ← List.cons_append, readNumber] at hread
    cases h with
    | inl hno =>
        have hall := List.dropWhile_eq_nil_iff.mp hno.1
        have htake : rest.takeWhile isNumberByte = [] := by
          cases rest with
          | nil => rfl
          | cons c rest => simp [hrest.delimited c rfl]
        rw [List.takeWhile_append_of_pos hall, htake, List.append_nil, hno.2] at hread
        cases hread
    | inr hstuck =>
        rw [takeWhile_append_of_ne_nil hstuck.ne_nil,
          dropWhile_append_of_ne_nil hstuck.ne_nil] at hread
        split at hread
        · obtain ⟨-, rfl⟩ := Prod.mk.inj (Option.some.inj hread)
          exact hstuck.append rest
        · cases hread

/-- One of some texts that stand without anything between them: it starts like a number, or it
is a value that is none, or it is not read; and behind its run of bytes of numbers nothing may
follow that could not follow a value. -/
structure Piece (p : Bytes) : Prop where
  start : StuckAt p
  rest : p.dropWhile isNumberByte = [] ∨ StuckAt (p.dropWhile isNumberByte)
  read : (∀ b ∈ p.head?, isNumberByte b = true) ∨
    (∃ v, Denotes p v ∧ ∀ text, v ≠ .number text) ∨ Dead p

theorem dropWhile_of_head {p : Bytes} (hhead : ∀ b ∈ p.head?, isNumberByte b = false) :
    p.dropWhile isNumberByte = p := by
  cases p with
  | nil => rfl
  | cons b p => simp [hhead b rfl]

theorem Denotes.piece {t : Bytes} {v : Json} (h : Denotes t v) (hv : ∀ text, v ≠ .number text)
    (hhead : ∀ b ∈ t.head?, isNumberByte b = false) : Piece t where
  start := h.stuckAt
  rest := .inr ((dropWhile_of_head hhead).symm ▸ h.stuckAt)
  read := .inr (.inl ⟨v, h, hv⟩)

theorem Dead.piece {t : Bytes} (h : Dead t) (hhead : ∀ b ∈ t.head?, isNumberByte b = false) :
    Piece t where
  start := h.start
  rest := .inr ((dropWhile_of_head hhead).symm ▸ h.start)
  read := .inr (.inr h)

theorem pieces_rest {ps : List Bytes} (h : ∀ p ∈ ps, Piece p) :
    ps.flatten.dropWhile isNumberByte = [] ∨ StuckAt (ps.flatten.dropWhile isNumberByte) := by
  induction ps with
  | nil => exact .inl rfl
  | cons p ps ih =>
      rw [List.flatten_cons]
      cases (h p List.mem_cons_self).rest with
      | inl hnil =>
          rw [List.dropWhile_append_of_pos (List.dropWhile_eq_nil_iff.mp hnil)]
          exact ih fun q hq => h q (List.mem_cons_of_mem _ hq)
      | inr hstuck =>
          rw [dropWhile_append_of_ne_nil hstuck.ne_nil]
          exact .inr (hstuck.append _)

/-- Two or more of them are no value, unless they make up one number. -/
theorem blocks_pieces {p q : Bytes} {ps : List Bytes} (h : ∀ u ∈ p :: q :: ps, Piece u)
    (hnumber : ¬ ((p :: q :: ps).flatten.dropWhile isNumberByte = [] ∧
      isNumber (p :: q :: ps).flatten = true)) : Blocks (p :: q :: ps).flatten := by
  have hp := h p List.mem_cons_self
  have hrest := pieces_rest h
  rcases hp.read with hhead | ⟨v, hv, hno⟩ | hdead
  · obtain ⟨b, s, rfl, -⟩ := hp.start
    rw [List.flatten_cons, List.cons_append] at hrest hnumber ⊢
    apply blocks_number (hhead b rfl)
    cases hrest with
    | inl hnil => exact .inl ⟨hnil, Bool.eq_false_iff.mpr fun htrue => hnumber ⟨hnil, htrue⟩⟩
    | inr hstuck => exact .inr hstuck
  · rw [List.flatten_cons]
    apply blocks_append hv hno
    rw [List.flatten_cons]
    exact (h q (by simp)).start.append _
  · rw [List.flatten_cons]
    exact (hdead.append _).blocks

/-! ## Printed numbers -/

theorem NumberText.piece {t : Bytes} (h : NumberText t) : Piece t where
  start := h.denotes.stuckAt
  rest := .inl (List.dropWhile_eq_nil_iff.mpr (numberBytes_of_isNumber h.isNumber))
  read := .inl fun b hb => numberBytes_of_isNumber h.isNumber b (List.mem_of_mem_head? hb)

/-- What stands for a double that is no number, behind a sign. -/
inductive Unreadable : Bytes → Prop where
  | inf : Unreadable [0x69, 0x6e, 0x66]
  | nan : Unreadable [0x6e, 0x61, 0x6e]

theorem Unreadable.head {t : Bytes} (h : Unreadable t) :
    ∀ b ∈ t.head?, isNumberByte b = false := by
  intro b hb
  cases h <;> (cases hb; decide)

theorem Unreadable.dead {t : Bytes} (h : Unreadable t) : Dead t where
  start := by
    cases h
    · exact ⟨_, _, rfl, by decide⟩
    · exact ⟨_, _, rfl, by decide⟩
  read := by
    intro n rest hn
    obtain ⟨n, rfl⟩ : ∃ k, n = k + 1 := ⟨n - 1, by cases h <;> simp at hn <;> omega⟩
    cases h <;> rfl

theorem Unreadable.signed {t : Bytes} (h : Unreadable t) (neg : Bool) :
    Piece (Double.signText neg ++ t) ∧ Blocks (Double.signText neg ++ t) := by
  cases neg with
  | false => exact ⟨h.dead.piece h.head, h.dead.blocks⟩
  | true =>
      have hdrop : (0x2d :: t).dropWhile isNumberByte = t := dropWhile_of_head h.head
      have hstuck : StuckAt ((0x2d :: t).dropWhile isNumberByte) := hdrop.symm ▸ h.dead.start
      have hsign : isNumberByte 0x2d = true := by decide
      exact ⟨⟨⟨_, _, rfl, by decide⟩, .inr hstuck, .inl fun b hb => Option.some.inj hb ▸ hsign⟩,
        blocks_number hsign (.inr hstuck)⟩

theorem piece_fmtG {p : ℕ} (hp : 0 < p) (d : Double) : Piece (Double.fmtG p d) := by
  cases hd : d.view with
  | finite neg m e => exact (numberText_fmtG hp hd).piece
  | inf neg =>
      rw [Double.fmtG, hd]
      exact (Unreadable.inf.signed neg).1
  | nan neg =>
      rw [Double.fmtG, hd]
      exact (Unreadable.nan.signed neg).1

/-- What is no number is printed in a way that is not read. -/
theorem blocks_fmtG {p : ℕ} {d : Double} (h : ¬ ∃ neg m e, d.view = .finite neg m e) :
    Blocks (Double.fmtG p d) := by
  cases hd : d.view with
  | finite neg m e => exact absurd ⟨neg, m, e, hd⟩ h
  | inf neg =>
      rw [Double.fmtG, hd]
      exact (Unreadable.inf.signed neg).2
  | nan neg =>
      rw [Double.fmtG, hd]
      exact (Unreadable.nan.signed neg).2

end CLib.Json

import ProcWatch.Library.JsonText
import ProcWatch.Model.OtlpCommon

/-! # The text that `pw_sb_json_string` writes -/

namespace ProcWatch

open CLib

variable {cap : ℕ}

/-! ## Sequences that are no characters -/

/-- At the front stands a surrogate, or what would be above U+10FFFF. -/
inductive Beyond : Bytes → Prop where
  | surrogate {b b' : Byte} (hlo : 0xa0 ≤ b) (hhi : b ≤ 0xbf) (h' : Utf8.IsTail b') (s : Bytes) :
      Beyond (0xed :: b :: b' :: s)
  | above {b b' b'' : Byte} (hlo : 0x90 ≤ b) (hhi : b ≤ 0xbf) (h' : Utf8.IsTail b')
      (h'' : Utf8.IsTail b'') (s : Bytes) : Beyond (0xf4 :: b :: b' :: b'' :: s)

theorem tail_iff (b : Byte) : b &&& 0xc0 = 0x80 ↔ Utf8.IsTail b := by
  unfold Utf8.IsTail
  revert b
  decide +kernel

instance (b : Byte) : Decidable (Utf8.IsTail b) :=
  inferInstanceAs (Decidable (_ ∧ _))

/-- The first byte of a character of two bytes or more, by the tests of `utf8_seq_len`, or of none. -/
inductive LeadCase (c : Byte) : Prop where
  | none (hlead : Utf8.lead c = Option.none)
      (hneed : ¬ c &&& 0xe0 = 0xc0 ∧ ¬ c &&& 0xf0 = 0xe0 ∧ ¬ c &&& 0xf8 = 0xf0 ∨
        c &&& 0xe0 = 0xc0 ∧ c < 0xc2 ∨
        (¬ c &&& 0xe0 = 0xc0 ∧ ¬ c &&& 0xf0 = 0xe0) ∧ c &&& 0xf8 = 0xf0 ∧ 0xf4 < c)
  | two (hlead : Utf8.lead c = some (.inside 0 0x80 0xbf)) (hneed : c &&& 0xe0 = 0xc0)
      (hc : ¬ c < 0xc2)
  | three (lo hi : Byte) (hlead : Utf8.lead c = some (.inside 1 lo hi))
      (hneed : ¬ c &&& 0xe0 = 0xc0 ∧ c &&& 0xf0 = 0xe0)
      (hc : c = 0xe0 ∧ lo = 0xa0 ∧ hi = 0xbf ∨ c = 0xed ∧ lo = 0x80 ∧ hi = 0x9f ∨
        c ≠ 0xe0 ∧ c ≠ 0xed ∧ c ≠ 0xf4 ∧ lo = 0x80 ∧ hi = 0xbf)
  | four (lo hi : Byte) (hlead : Utf8.lead c = some (.inside 2 lo hi))
      (hneed : ¬ c &&& 0xe0 = 0xc0 ∧ ¬ c &&& 0xf0 = 0xe0 ∧ c &&& 0xf8 = 0xf0 ∧ ¬ 0xf4 < c)
      (hc : c = 0xf0 ∧ lo = 0x90 ∧ hi = 0xbf ∨ c = 0xf4 ∧ lo = 0x80 ∧ hi = 0x8f ∨
        c ≠ 0xf0 ∧ c ≠ 0xed ∧ c ≠ 0xf4 ∧ lo = 0x80 ∧ hi = 0xbf)

theorem leadCase {c : Byte} (hc : 0x80 ≤ c) : LeadCase c := by
  by_cases h2 : c &&& 0xe0 = 0xc0
  · by_cases hlow : c < 0xc2
    · exact .none (by revert c; decide +kernel) (.inr (.inl ⟨h2, hlow⟩))
    · exact .two (by revert c; decide +kernel) h2 hlow
  · by_cases h3 : c &&& 0xf0 = 0xe0
    · by_cases he0 : c = 0xe0
      · exact .three 0xa0 0xbf (by rw [he0]; decide) ⟨h2, h3⟩ (.inl ⟨he0, rfl, rfl⟩)
      · by_cases hed : c = 0xed
        · exact .three 0x80 0x9f (by rw [hed]; decide) ⟨h2, h3⟩ (.inr (.inl ⟨hed, rfl, rfl⟩))
        · exact .three 0x80 0xbf (by revert c; decide +kernel) ⟨h2, h3⟩
            (.inr (.inr ⟨he0, hed, by rintro rfl; exact absurd h3 (by decide), rfl, rfl⟩))
    · by_cases h4 : c &&& 0xf8 = 0xf0
      · by_cases hhigh : 0xf4 < c
        · exact .none (by revert c; decide +kernel) (.inr (.inr ⟨⟨h2, h3⟩, h4, hhigh⟩))
        · by_cases hf0 : c = 0xf0
          · exact .four 0x90 0xbf (by rw [hf0]; decide) ⟨h2, h3, h4, hhigh⟩ (.inl ⟨hf0, rfl, rfl⟩)
          · by_cases hf4 : c = 0xf4
            · exact .four 0x80 0x8f (by rw [hf4]; decide) ⟨h2, h3, h4, hhigh⟩
                (.inr (.inl ⟨hf4, rfl, rfl⟩))
            · exact .four 0x80 0xbf (by revert c; decide +kernel) ⟨h2, h3, h4, hhigh⟩
                (.inr (.inr ⟨hf0, by rintro rfl; exact absurd h4 (by decide), hf4, rfl, rfl⟩))
      · exact .none (by revert c; decide +kernel) (.inl ⟨h2, h3, h4⟩)

/-- What `utf8_seq_len` makes of the front of the bytes. -/
inductive SeqCase (s : Bytes) : ℕ → Prop where
  | none (h : Utf8.charEnd .start s = Option.none) (hb : ¬ Beyond s) : SeqCase s 0
  | whole {k : ℕ} (h : Utf8.charEnd .start s = some k) (hb : ¬ Beyond s) : SeqCase s k
  | beyond {k : ℕ} (hk : 0 < k) (hlen : k ≤ s.length) (hb : Beyond s)
      (hrun : Utf8.run .start (s.take k) = Option.none) : SeqCase s k

theorem charEnd_inside_cons (left : ℕ) (lo hi b : Byte) (s : Bytes) :
    Utf8.charEnd (.inside left lo hi) (b :: s) =
      if lo ≤ b ∧ b ≤ hi then
        match left with
        | 0 => some 1
        | left + 1 => (Utf8.charEnd (.inside left 0x80 0xbf) s).map (· + 1)
      else none := by
  split
  · rename_i hb
    cases left with
    | zero => exact Utf8.charEnd_cons_of_start (by simp [Utf8.State.step, hb, Utf8.State.owing]) s
    | succ left =>
        exact Utf8.charEnd_cons_of_inside (by simp [Utf8.State.step, hb, Utf8.State.owing]) s
  · rename_i hb
    exact Utf8.charEnd_cons_of_none (by simp [Utf8.State.step, hb]) s

theorem beyond_iff (c : Byte) (p : Bytes) :
    Beyond (c :: p) ↔
      (∃ b b' s, c = 0xed ∧ p = b :: b' :: s ∧ 0xa0 ≤ b ∧ b ≤ 0xbf ∧ Utf8.IsTail b') ∨
        ∃ b b' b'' s, c = 0xf4 ∧ p = b :: b' :: b'' :: s ∧ 0x90 ≤ b ∧ b ≤ 0xbf ∧
          Utf8.IsTail b' ∧ Utf8.IsTail b'' := by
  constructor
  · intro h
    generalize hs : c :: p = s at h
    cases h with
    | surrogate hlo hhi h' s =>
        obtain ⟨rfl, rfl⟩ := List.cons.inj hs
        exact .inl ⟨_, _, _, rfl, rfl, hlo, hhi, h'⟩
    | above hlo hhi h' h'' s =>
        obtain ⟨rfl, rfl⟩ := List.cons.inj hs
        exact .inr ⟨_, _, _, _, rfl, rfl, hlo, hhi, h', h''⟩
  · rintro (⟨b, b', s, rfl, rfl, hlo, hhi, h'⟩ | ⟨b, b', b'', s, rfl, rfl, hlo, hhi, h', h''⟩)
    · exact .surrogate hlo hhi h' s
    · exact .above hlo hhi h' h'' s

theorem not_beyond_of_ne {c : Byte} (hed : c ≠ 0xed) (hf4 : c ≠ 0xf4) (p : Bytes) :
    ¬ Beyond (c :: p) := by
  rw [beyond_iff]
  rintro (⟨_, _, _, rfl, -⟩ | ⟨_, _, _, _, rfl, -⟩)
  · exact hed rfl
  · exact hf4 rfl

theorem step_start {c : Byte} (hc : 0x80 ≤ c) : Utf8.State.step .start c = Utf8.lead c := by
  rw [Utf8.State.step, if_neg (UInt8.not_lt.mpr hc)]

theorem charEnd_of_lead {c lo hi : Byte} {left : ℕ} (hc : 0x80 ≤ c)
    (hlead : Utf8.lead c = some (.inside left lo hi)) (p : Bytes) :
    Utf8.charEnd .start (c :: p) = (Utf8.charEnd (.inside left lo hi) p).map (· + 1) :=
  Utf8.charEnd_cons_of_inside ((step_start hc).trans hlead) p

theorem run_start_none {c b lo hi : Byte} {left : ℕ} (hc : 0x80 ≤ c)
    (hlead : Utf8.lead c = some (.inside left lo hi)) (hb : ¬ (lo ≤ b ∧ b ≤ hi)) (s : Bytes) :
    Utf8.run .start (c :: b :: s) = none := by
  have hstep := (step_start hc).trans hlead
  have hnext : Utf8.State.step (.inside left lo hi) b = none := by
    rw [Utf8.State.step, if_neg hb]
  rw [Utf8.run_cons, hstep, Option.bind_some, Utf8.run_cons, hnext]
  rfl

theorem not_le_iff {b : Byte} : (¬ b ≤ 0x9f ↔ 0xa0 ≤ b) ∧ (¬ b ≤ 0x8f ↔ 0x90 ≤ b) := by
  revert b
  decide +kernel

theorem Beyond.tails {c b b' : Byte} {s : Bytes} (h : Beyond (c :: b :: b' :: s)) :
    Utf8.IsTail b ∧ Utf8.IsTail b' := by
  cases h with
  | surrogate hlo hhi h' s => exact ⟨⟨UInt8.le_trans (by decide) hlo, hhi⟩, h'⟩
  | above hlo hhi h' h'' s => exact ⟨⟨UInt8.le_trans (by decide) hlo, hhi⟩, h'⟩

theorem seqCase_two {c : Byte} (hc : 0x80 ≤ c) (hlead : Utf8.lead c = some (.inside 0 0x80 0xbf))
    (hneed : c &&& 0xe0 = 0xc0) (hlow : ¬ c < 0xc2) (p : Bytes) :
    SeqCase (c :: p) (utf8SeqLen (c :: p)) := by
  have hascii : ¬ c < 0x80 := UInt8.not_lt.mpr hc
  have hne : c ≠ 0xed ∧ c ≠ 0xf4 := by
    constructor <;> rintro rfl <;> exact absurd hneed (by decide)
  have hbeyond := not_beyond_of_ne hne.1 hne.2 p
  have hend := charEnd_of_lead hc hlead p
  cases p with
  | nil =>
      have hlen : utf8SeqLen [c] = 0 := by simp [utf8SeqLen, hascii, hneed]
      rw [hlen]
      exact .none hend hbeyond
  | cons b p =>
      rw [charEnd_inside_cons] at hend
      by_cases hb : 0x80 ≤ b ∧ b ≤ 0xbf
      · have hlen : utf8SeqLen (c :: b :: p) = 2 := by
          have htail := (tail_iff b).mpr hb
          simp [utf8SeqLen, hascii, hneed, htail, hlow]
        rw [hlen]
        rw [if_pos hb] at hend
        exact .whole hend hbeyond
      · have hlen : utf8SeqLen (c :: b :: p) = 0 := by
          have htail := mt (tail_iff b).mp hb
          simp [utf8SeqLen, hascii, hneed, htail]
        rw [hlen]
        rw [if_neg hb] at hend
        exact .none hend hbeyond

theorem seqCase_three {c lo hi : Byte} (hc : 0x80 ≤ c)
    (hlead : Utf8.lead c = some (.inside 1 lo hi))
    (hneed : ¬ c &&& 0xe0 = 0xc0 ∧ c &&& 0xf0 = 0xe0)
    (hcase : c = 0xe0 ∧ lo = 0xa0 ∧ hi = 0xbf ∨ c = 0xed ∧ lo = 0x80 ∧ hi = 0x9f ∨
      c ≠ 0xe0 ∧ c ≠ 0xed ∧ c ≠ 0xf4 ∧ lo = 0x80 ∧ hi = 0xbf) (p : Bytes) :
    SeqCase (c :: p) (utf8SeqLen (c :: p)) := by
  have hascii : ¬ c < 0x80 := UInt8.not_lt.mpr hc
  have hend := charEnd_of_lead hc hlead p
  rcases p with _ | ⟨b, _ | ⟨b', s⟩⟩
  · have hlen : utf8SeqLen [c] = 0 := by simp [utf8SeqLen, hascii, hneed]
    have hbeyond : ¬ Beyond [c] := by simp [beyond_iff]
    rw [hlen]
    exact .none hend hbeyond
  · have hlen : utf8SeqLen [c, b] = 0 := by simp [utf8SeqLen, hascii, hneed]
    have hbeyond : ¬ Beyond [c, b] := by simp [beyond_iff]
    have hnone : Utf8.charEnd (.inside 1 lo hi) [b] = none := by
      rw [charEnd_inside_cons]
      split <;> rfl
    rw [hlen]
    exact .none (by rw [hend, hnone]; rfl) hbeyond
  · have hlen : utf8SeqLen (c :: b :: b' :: s) =
        if Utf8.IsTail b ∧ Utf8.IsTail b' then if c = 0xe0 ∧ b < 0xa0 then 0 else 3 else 0 := by
      simp only [utf8SeqLen, hascii, hneed, if_false, if_true, List.headD_cons]
      by_cases ht : Utf8.IsTail b ∧ Utf8.IsTail b'
      · simp [tail_iff, ht]
      · have hany : ¬ Utf8.IsTail b ∨ ¬ Utf8.IsTail b' := not_and_or.mp ht
        simpa [tail_iff, hany] using fun hb hb' => absurd ⟨hb, hb'⟩ ht
    have hend' : Utf8.charEnd .start (c :: b :: b' :: s) =
        if (lo ≤ b ∧ b ≤ hi) ∧ Utf8.IsTail b' then some 3 else none := by
      rw [hend, charEnd_inside_cons]
      by_cases hb : lo ≤ b ∧ b ≤ hi
      · by_cases hb' : 0x80 ≤ b' ∧ b' ≤ 0xbf
        · simp [hb, Utf8.IsTail, hb', charEnd_inside_cons]
        · simp [hb, Utf8.IsTail, hb', charEnd_inside_cons]
      · simp [hb]
    have hends : ¬ (Utf8.IsTail b ∧ Utf8.IsTail b') →
        ¬ ((lo ≤ b ∧ b ≤ hi) ∧ Utf8.IsTail b') := by
      obtain ⟨_, _, _, heq, -, hlo, hhi⟩ := Utf8.lead_cases hlead
      obtain ⟨rfl, rfl, rfl⟩ := Utf8.State.inside.inj heq
      exact fun ht h => ht ⟨⟨UInt8.le_trans hlo h.1.1, UInt8.le_trans h.1.2 hhi⟩, h.2⟩
    rw [hlen]
    by_cases ht : Utf8.IsTail b ∧ Utf8.IsTail b'
    · rw [if_pos ht]
      rcases hcase with ⟨rfl, rfl, rfl⟩ | ⟨rfl, rfl, rfl⟩ | ⟨hne0, hed, hf4, rfl, rfl⟩
      · have hbeyond := not_beyond_of_ne (c := 0xe0) (by decide) (by decide) (b :: b' :: s)
        by_cases hb : b < 0xa0
        · rw [if_pos ⟨rfl, hb⟩]
          refine .none (hend'.trans (if_neg fun h => ?_)) hbeyond
          exact absurd hb (UInt8.not_lt.mpr h.1.1)
        · rw [if_neg fun h => hb h.2]
          exact .whole (hend'.trans (if_pos ⟨⟨UInt8.not_lt.mp hb, ht.1.2⟩, ht.2⟩)) hbeyond
      · rw [if_neg fun h => absurd h.1 (by decide)]
        by_cases hb : b ≤ 0x9f
        · refine .whole (hend'.trans (if_pos ⟨⟨ht.1.1, hb⟩, ht.2⟩)) ?_
          intro h
          cases h with
          | surrogate hlo hhi h' s => exact not_le_iff.1.mpr hlo hb
        · exact .beyond (by decide) (by simp) (.surrogate (not_le_iff.1.mp hb) ht.1.2 ht.2 s)
            (run_start_none hc hlead (fun h => hb h.2) [b'])
      · rw [if_neg fun h => hne0 h.1]
        exact .whole (hend'.trans (if_pos ⟨ht.1, ht.2⟩)) (not_beyond_of_ne hed hf4 _)
    · rw [if_neg ht]
      exact .none (hend'.trans (if_neg (hends ht))) fun h => ht h.tails

theorem seqCase_four {c lo hi : Byte} (hc : 0x80 ≤ c)
    (hlead : Utf8.lead c = some (.inside 2 lo hi))
    (hneed : ¬ c &&& 0xe0 = 0xc0 ∧ ¬ c &&& 0xf0 = 0xe0 ∧ c &&& 0xf8 = 0xf0 ∧ ¬ 0xf4 < c)
    (hcase : c = 0xf0 ∧ lo = 0x90 ∧ hi = 0xbf ∨ c = 0xf4 ∧ lo = 0x80 ∧ hi = 0x8f ∨
      c ≠ 0xf0 ∧ c ≠ 0xed ∧ c ≠ 0xf4 ∧ lo = 0x80 ∧ hi = 0xbf) (p : Bytes) :
    SeqCase (c :: p) (utf8SeqLen (c :: p)) := by
  have hascii : ¬ c < 0x80 := UInt8.not_lt.mpr hc
  have hend := charEnd_of_lead hc hlead p
  have hshort (hp : p.length < 3) : ¬ Beyond (c :: p) := by
    intro h
    have hed : c ≠ 0xed := by
      rintro rfl
      exact absurd hneed.2.1 (by decide)
    rcases (beyond_iff c p).mp h with ⟨_, _, _, rfl, -⟩ | ⟨b, b', b'', s, -, rfl, -⟩
    · exact hed rfl
    · simp only [List.length_cons] at hp
      omega
  rcases p with _ | ⟨b, _ | ⟨b', _ | ⟨b'', s⟩⟩⟩
  · have hlen : utf8SeqLen [c] = 0 := by simp [utf8SeqLen, hascii, hneed]
    rw [hlen]
    exact .none hend (hshort (by decide))
  · have hlen : utf8SeqLen [c, b] = 0 := by simp [utf8SeqLen, hascii, hneed]
    have hnone : Utf8.charEnd (.inside 2 lo hi) [b] = none := by
      rw [charEnd_inside_cons]
      split <;> rfl
    rw [hlen]
    exact .none (by rw [hend, hnone]; rfl) (hshort (by simp))
  · have hlen : utf8SeqLen [c, b, b'] = 0 := by simp [utf8SeqLen, hascii, hneed]
    have hnone : Utf8.charEnd (.inside 2 lo hi) [b, b'] = none := by
      rw [charEnd_inside_cons]
      split
      · simp only [charEnd_inside_cons]
        split <;> rfl
      · rfl
    rw [hlen]
    exact .none (by rw [hend, hnone]; rfl) (hshort (by simp))
  · have hlen : utf8SeqLen (c :: b :: b' :: b'' :: s) =
        if Utf8.IsTail b ∧ Utf8.IsTail b' ∧ Utf8.IsTail b'' then
          if c = 0xf0 ∧ b < 0x90 then 0 else 4
        else 0 := by
      simp only [utf8SeqLen, hascii, hneed, if_false, if_true, List.headD_cons]
      by_cases ht : Utf8.IsTail b ∧ Utf8.IsTail b' ∧ Utf8.IsTail b''
      · simp [tail_iff, ht]
      · have hany : ¬ Utf8.IsTail b ∨ ¬ Utf8.IsTail b' ∨ ¬ Utf8.IsTail b'' := by
          simpa only [not_and_or] using ht
        simpa [tail_iff, hany] using fun hb hb' hb'' => absurd ⟨hb, hb', hb''⟩ ht
    have hend' : Utf8.charEnd .start (c :: b :: b' :: b'' :: s) =
        if (lo ≤ b ∧ b ≤ hi) ∧ Utf8.IsTail b' ∧ Utf8.IsTail b'' then some 4 else none := by
      rw [hend, charEnd_inside_cons]
      by_cases hb : lo ≤ b ∧ b ≤ hi
      · by_cases hb' : 0x80 ≤ b' ∧ b' ≤ 0xbf
        · by_cases hb'' : 0x80 ≤ b'' ∧ b'' ≤ 0xbf
          · simp [hb, Utf8.IsTail, hb', hb'', charEnd_inside_cons]
          · simp [hb, Utf8.IsTail, hb', hb'', charEnd_inside_cons]
        · simp [hb, Utf8.IsTail, hb', charEnd_inside_cons]
      · simp [hb]
    have hends : ¬ (Utf8.IsTail b ∧ Utf8.IsTail b' ∧ Utf8.IsTail b'') →
        ¬ ((lo ≤ b ∧ b ≤ hi) ∧ Utf8.IsTail b' ∧ Utf8.IsTail b'') := by
      obtain ⟨_, _, _, heq, -, hlo, hhi⟩ := Utf8.lead_cases hlead
      obtain ⟨rfl, rfl, rfl⟩ := Utf8.State.inside.inj heq
      exact fun ht h => ht ⟨⟨UInt8.le_trans hlo h.1.1, UInt8.le_trans h.1.2 hhi⟩, h.2⟩
    have htails (h : Beyond (c :: b :: b' :: b'' :: s)) :
        Utf8.IsTail b ∧ Utf8.IsTail b' ∧ Utf8.IsTail b'' := by
      cases h with
      | surrogate hlo hhi h' s => exact absurd hneed.2.1 (by decide)
      | above hlo hhi h' h'' s => exact ⟨⟨UInt8.le_trans (by decide) hlo, hhi⟩, h', h''⟩
    rw [hlen]
    by_cases ht : Utf8.IsTail b ∧ Utf8.IsTail b' ∧ Utf8.IsTail b''
    · rw [if_pos ht]
      rcases hcase with ⟨rfl, rfl, rfl⟩ | ⟨rfl, rfl, rfl⟩ | ⟨hnf0, hed, hf4, rfl, rfl⟩
      · have hbeyond := not_beyond_of_ne (c := 0xf0) (by decide) (by decide) (b :: b' :: b'' :: s)
        by_cases hb : b < 0x90
        · rw [if_pos ⟨rfl, hb⟩]
          refine .none (hend'.trans (if_neg fun h => ?_)) hbeyond
          exact absurd hb (UInt8.not_lt.mpr h.1.1)
        · rw [if_neg fun h => hb h.2]
          exact .whole (hend'.trans (if_pos ⟨⟨UInt8.not_lt.mp hb, ht.1.2⟩, ht.2⟩)) hbeyond
      · rw [if_neg fun h => absurd h.1 (by decide)]
        by_cases hb : b ≤ 0x8f
        · refine .whole (hend'.trans (if_pos ⟨⟨ht.1.1, hb⟩, ht.2⟩)) ?_
          intro h
          cases h with
          | above hlo hhi h' h'' s => exact not_le_iff.2.mpr hlo hb
        · exact .beyond (by decide) (by simp)
            (.above (not_le_iff.2.mp hb) ht.1.2 ht.2.1 ht.2.2 s)
            (run_start_none hc hlead (fun h => hb h.2) [b', b''])
      · rw [if_neg fun h => hnf0 h.1]
        exact .whole (hend'.trans (if_pos ⟨ht.1, ht.2⟩)) (not_beyond_of_ne hed hf4 _)
    · rw [if_neg ht]
      exact .none (hend'.trans (if_neg (hends ht))) fun h => ht (htails h)

theorem seqCase {c : Byte} (hc : 0x80 ≤ c) (p : Bytes) : SeqCase (c :: p) (utf8SeqLen (c :: p)) := by
  have hascii : ¬ c < 0x80 := UInt8.not_lt.mpr hc
  cases leadCase hc with
  | none hlead hneed =>
      have hlen : utf8SeqLen (c :: p) = 0 := by
        simp only [utf8SeqLen, List.headD_cons]
        rcases hneed with ⟨h2, h3, h4⟩ | ⟨h2, hlow⟩ | ⟨⟨h2, h3⟩, h4, hhigh⟩
        · simp [hc, h2, h3, h4]
        · simp [hc, h2, hlow]
        · simp [hc, h2, h3, h4, hhigh]
      have hne : c ≠ 0xed ∧ c ≠ 0xf4 := by
        constructor <;> rintro rfl <;> exact absurd hlead (by decide)
      rw [hlen]
      exact .none (Utf8.charEnd_cons_of_none ((step_start hc).trans hlead) p)
        (not_beyond_of_ne hne.1 hne.2 p)
  | two hlead hneed hlow => exact seqCase_two hc hlead hneed hlow p
  | three lo hi hlead hneed hcase => exact seqCase_three hc hlead hneed hcase p
  | four lo hi hlead hneed hcase => exact seqCase_four hc hlead hneed hcase p

theorem tails_of_utf8SeqLen {c : Byte} (hc : 0x80 ≤ c) {p : Bytes} {k : ℕ}
    (hk : utf8SeqLen (c :: p) = k) : ∀ b ∈ ((c :: p).take k).drop 1, Utf8.IsTail b := by
  obtain ⟨need, hlen⟩ : ∃ need, utf8SeqLen (c :: p) = if c < 0x80 then 1
      else if need = 0 then 0
      else if (c :: p).length < need then 0
      else if (((c :: p).take need).drop 1).any fun b => b &&& 0xc0 ≠ 0x80 then 0
      else if need = 2 ∧ c < 0xc2 then 0
      else if need = 3 ∧ c = 0xe0 ∧ (c :: p).getD 1 0 < 0xa0 then 0
      else if need = 4 ∧ (0xf4 < c ∨ (c = 0xf0 ∧ (c :: p).getD 1 0 < 0x90)) then 0
      else need := ⟨_, rfl⟩
  rw [hlen, if_neg (UInt8.not_lt.mpr hc)] at hk
  split_ifs at hk with h0 hshort hany
  all_goals subst hk
  all_goals try exact fun b hb => absurd hb List.not_mem_nil
  intro b hb
  by_contra htail
  exact hany (List.any_eq_true.mpr ⟨b, hb, by simpa [tail_iff] using htail⟩)

/-! ## The literal -/

/-- The text for a byte below 0x80. -/
def asciiText (c : Byte) : Bytes :=
  if c = 0x22 ∨ c = 0x5c then [0x5c, c]
  else if c = 0x0a then bytes "\\n"
  else if c = 0x0d then bytes "\\r"
  else if c = 0x09 then bytes "\\t"
  else if c < 0x20 then unicodeEscape c
  else [c]

/-- The text for the front of the bytes, and for how many of them it stands. -/
def frontText (c : Byte) (p : Bytes) : Bytes × ℕ :=
  if c < 0x80 then (asciiText c, 1)
  else if utf8SeqLen (c :: p) = 0 then (bytes "\\ufffd", 1)
  else ((c :: p).take (utf8SeqLen (c :: p)), utf8SeqLen (c :: p))

def literalBody : ℕ → Bytes → Bytes
  | 0, _ => []
  | _ + 1, [] => []
  | n + 1, c :: p => (frontText c p).1 ++ literalBody n ((c :: p).drop (frontText c p).2)

/-- The literal for a text, however long it gets. -/
def literalOf (s : Bytes) : Bytes :=
  0x22 :: literalBody s.length s ++ [0x22]

theorem pwSbPutc_text {sb : Sb cap} (h : sb.text.length + 1 < cap) (c : Byte) :
    (pwSbPutc sb c).text = sb.text ++ [c] := by
  rw [pwSbPutc, dif_pos h]

theorem pwSbPuts_cons (sb : Sb cap) (c : Byte) (s : Bytes) :
    pwSbPuts sb (c :: s) = pwSbPuts (pwSbPutc sb c) s := rfl

theorem pwSbPuts_append (sb : Sb cap) (s t : Bytes) :
    pwSbPuts sb (s ++ t) = pwSbPuts (pwSbPuts sb s) t :=
  List.foldl_append

theorem pwSbPuts_text {sb : Sb cap} {s : Bytes} (h : sb.text.length + s.length < cap) :
    (pwSbPuts sb s).text = sb.text ++ s := by
  induction s generalizing sb with
  | nil => exact (List.append_nil _).symm
  | cons c s ih =>
      rw [List.length_cons] at h
      have hc : (pwSbPutc sb c).text = sb.text ++ [c] := pwSbPutc_text (by omega) c
      rw [pwSbPuts_cons, ih (by rw [hc]; simp; omega), hc, List.append_assoc, List.singleton_append]

theorem jsonStringLoop_cons (n : ℕ) (c : Byte) (p : Bytes) (sb : Sb cap) :
    jsonStringLoop (n + 1) (c :: p) sb =
      jsonStringLoop n ((c :: p).drop (frontText c p).2) (pwSbPuts sb (frontText c p).1) := by
  rw [jsonStringLoop, frontText]
  by_cases hc : c < 0x80
  · rw [if_pos hc, if_pos hc, asciiText]
    split_ifs <;> rfl
  · have hle := UInt8.not_lt.mp hc
    have hfacts : ¬ (c = 0x22 ∨ c = 0x5c) ∧ c ≠ 0x0a ∧ c ≠ 0x0d ∧ c ≠ 0x09 ∧ ¬ c < 0x20 := by
      revert c
      decide +kernel
    obtain ⟨hquote, hn, hr, ht, hlow⟩ := hfacts
    simp only [if_neg hquote, if_neg hn, if_neg hr, if_neg ht, if_neg hlow, if_neg hc]
    split_ifs <;> rfl

theorem jsonStringLoop_eq (n : ℕ) (s : Bytes) (sb : Sb cap) :
    jsonStringLoop n s sb = pwSbPuts sb (literalBody n s) := by
  induction n generalizing s sb with
  | zero => rfl
  | succ n ih =>
      cases s with
      | nil => rfl
      | cons c p => rw [jsonStringLoop_cons, ih, literalBody, pwSbPuts_append]

theorem pwSbJsonString_eq (sb : Sb cap) (s : Bytes) :
    pwSbJsonString sb s = pwSbPuts sb (literalOf s) := by
  rw [pwSbJsonString, jsonStringLoop_eq, literalOf, List.cons_append, pwSbPuts_cons,
    pwSbPuts_append]
  rfl

/-! ## What the literal says -/

/-- Nowhere in the bytes stands a surrogate or what would be above U+10FFFF. -/
def NothingBeyond (s : Bytes) : Prop :=
  ∀ t, t <:+ s → ¬ Beyond t

theorem nothingBeyond_nil : NothingBeyond [] := by
  intro t ht hbeyond
  obtain rfl := List.suffix_nil.mp ht
  cases hbeyond

theorem nothingBeyond_cons_iff (c : Byte) (p : Bytes) :
    NothingBeyond (c :: p) ↔ ¬ Beyond (c :: p) ∧ NothingBeyond p := by
  constructor
  · intro h
    exact ⟨h _ List.suffix_rfl, fun t ht => h t (ht.trans (List.suffix_cons c p))⟩
  · rintro ⟨hfront, hrest⟩ t ht
    cases List.suffix_cons_iff.mp ht with
    | inl heq => rwa [heq]
    | inr ht => exact hrest t ht

theorem not_beyond_of_tail {b : Byte} (h : Utf8.IsTail b) (p : Bytes) : ¬ Beyond (b :: p) := by
  apply not_beyond_of_ne
  · rintro rfl
    exact absurd h (by decide)
  · rintro rfl
    exact absurd h (by decide)

theorem nothingBeyond_drop_iff {k : ℕ} {p : Bytes} (h : ∀ b ∈ p.take k, Utf8.IsTail b) :
    NothingBeyond (p.drop k) ↔ NothingBeyond p := by
  induction k generalizing p with
  | zero => rfl
  | succ k ih =>
      cases p with
      | nil => rfl
      | cons b p =>
          rw [List.drop_succ_cons, ih fun b' hb' => h b' (by simp [hb']), nothingBeyond_cons_iff]
          have hb := not_beyond_of_tail (h b (by simp)) p
          exact (and_iff_right hb).symm

/-- What the text for the front of the bytes says, and where the next one starts. -/
inductive FrontCase (c : Byte) (p : Bytes) : Bytes × ℕ → Prop where
  | char {t : Bytes} {k : ℕ} (hk : Utf8.charEnd .start (c :: p) = some k) (hb : ¬ Beyond (c :: p))
      (hread : Json.StringText t ((c :: p).take k)) (hrun : Utf8.run .start t = some .start) :
      FrontCase c p (t, k)
  | bad (hk : Utf8.charEnd .start (c :: p) = none) (hb : ¬ Beyond (c :: p)) :
      FrontCase c p (bytes "\\ufffd", 1)
  | beyond {k : ℕ} (hb : Beyond (c :: p)) (hrun : Utf8.run .start ((c :: p).take k) = none) :
      FrontCase c p ((c :: p).take k, k)

theorem asciiText_facts {c : Byte} (hc : c < 0x80) :
    Json.feed (.plain .start) (asciiText c) = some (.plain .start, [c]) ∧
      Utf8.run .start (asciiText c) = some .start := by
  revert c
  decide +kernel

theorem replacement_facts :
    Json.feed (.plain .start) (bytes "\\ufffd") = some (.plain .start, Utf8.replacement) ∧
      Utf8.run .start (bytes "\\ufffd") = some .start := by
  decide

theorem frontCase (c : Byte) (p : Bytes) : FrontCase c p (frontText c p) := by
  rw [frontText]
  by_cases hc : c < 0x80
  · rw [if_pos hc]
    obtain ⟨hread, hrun⟩ := asciiText_facts hc
    have hstep : Utf8.State.step .start c = some .start := if_pos hc
    have hne : c ≠ 0xed ∧ c ≠ 0xf4 := by
      constructor <;> rintro rfl <;> exact absurd hc (by decide)
    exact .char (Utf8.charEnd_cons_of_start hstep p) (not_beyond_of_ne hne.1 hne.2 p)
      (Json.reads_of_feed hread) hrun
  · have hle := UInt8.not_lt.mp hc
    rw [if_neg hc]
    have hseq := seqCase hle p
    generalize hlen : utf8SeqLen (c :: p) = k at hseq
    cases hseq with
    | none h hb =>
        rw [if_pos rfl]
        exact .bad h hb
    | whole h hb =>
        obtain ⟨hrun, hpos, -⟩ := Utf8.charEnd_spec h
        rw [if_neg (by omega)]
        refine .char h hb (Json.reads_run hrun ?_) hrun
        obtain ⟨k, rfl⟩ : ∃ m, k = m + 1 := ⟨k - 1, by omega⟩
        intro b hb
        cases List.mem_cons.mp hb with
        | inl heq => rwa [heq]
        | inr hmem => exact (tails_of_utf8SeqLen hle hlen b (by simpa using hmem)).1
    | beyond hk hshort hb hrun =>
        rw [if_neg (by omega)]
        exact .beyond hb hrun

/-- Behind the first byte of the front there are only bytes inside of a character. -/
theorem tails_of_frontText (c : Byte) (p : Bytes) :
    ∃ k, (frontText c p).2 = k + 1 ∧ ∀ b ∈ p.take k, Utf8.IsTail b := by
  rw [frontText]
  split_ifs with hc h0
  · exact ⟨0, rfl, by simp⟩
  · exact ⟨0, rfl, by simp⟩
  · obtain ⟨k, hk⟩ : ∃ k, utf8SeqLen (c :: p) = k + 1 := ⟨utf8SeqLen (c :: p) - 1, by omega⟩
    exact ⟨k, hk, fun b hb => tails_of_utf8SeqLen (UInt8.not_lt.mp hc) hk b (by simpa using hb)⟩

theorem literalBody_reads {n : ℕ} {s : Bytes} (hn : s.length ≤ n) (h : NothingBeyond s) :
    Json.StringText (literalBody n s) (Utf8.repairedFrom n s) ∧
      Utf8.run .start (literalBody n s) = some .start := by
  induction n generalizing s with
  | zero => exact ⟨Json.reads_nil _, rfl⟩
  | succ n ih =>
      cases s with
      | nil => exact ⟨Json.reads_nil _, rfl⟩
      | cons c p =>
          obtain ⟨hfront, hp⟩ := (nothingBeyond_cons_iff c p).mp h
          obtain ⟨k, hk, htails⟩ := tails_of_frontText c p
          have hrest : NothingBeyond ((c :: p).drop (frontText c p).2) := by
            rw [hk, List.drop_succ_cons]
            exact (nothingBeyond_drop_iff htails).mpr hp
          have hlen : ((c :: p).drop (frontText c p).2).length ≤ n := by
            rw [hk]
            simp only [List.drop_succ_cons, List.length_drop, List.length_cons] at hn ⊢
            omega
          obtain ⟨hread, hrun⟩ := ih hlen hrest
          rw [literalBody, Utf8.run_append]
          have hcase := frontCase c p
          generalize frontText c p = front at hcase hread hrun
          cases hcase with
          | char hk hb hread' hrun' =>
              simp only [Utf8.repairedFrom, hk, hrun', Option.bind_some]
              exact ⟨hread'.append hread, hrun⟩
          | bad hk hb =>
              simp only [Utf8.repairedFrom, hk, replacement_facts.2, Option.bind_some]
              exact ⟨(Json.reads_of_feed replacement_facts.1).append hread, hrun⟩
          | beyond hb hrun' => exact absurd hb hfront

theorem Beyond.ascii_le {c : Byte} {p : Bytes} (h : Beyond (c :: p)) : 0x80 ≤ c := by
  cases h <;> decide

/-- Up to bytes that are no characters, the literal is read. -/
theorem literalBody_beyond {n : ℕ} {s : Bytes} (hn : s.length ≤ n) (h : ¬ NothingBeyond s) :
    ∃ e out bad rest, literalBody n s = e ++ (bad ++ rest) ∧ Json.StringText e out ∧
      Utf8.run .start e = some .start ∧ Utf8.run .start bad = none ∧ ∀ b ∈ bad, 0x80 ≤ b := by
  induction n generalizing s with
  | zero =>
      obtain rfl : s = [] := List.eq_nil_of_length_eq_zero (by omega)
      exact absurd nothingBeyond_nil h
  | succ n ih =>
      cases s with
      | nil => exact absurd nothingBeyond_nil h
      | cons c p =>
          obtain ⟨k, hk, htails⟩ := tails_of_frontText c p
          have hrest (hb : ¬ Beyond (c :: p)) :
              ∃ e out bad rest, literalBody n ((c :: p).drop (frontText c p).2) =
                e ++ (bad ++ rest) ∧ Json.StringText e out ∧ Utf8.run .start e = some .start ∧
                Utf8.run .start bad = none ∧ ∀ b ∈ bad, 0x80 ≤ b := by
            apply ih
            · rw [hk]
              simp only [List.drop_succ_cons, List.length_drop, List.length_cons] at hn ⊢
              omega
            · rw [hk, List.drop_succ_cons, nothingBeyond_drop_iff htails]
              exact fun hp => h ((nothingBeyond_cons_iff c p).mpr ⟨hb, hp⟩)
          rw [literalBody]
          have hcase := frontCase c p
          generalize frontText c p = front at hcase hrest hk
          cases hcase with
          | char hend hb hread' hrun' =>
              obtain ⟨e, out, bad, rest, heq, hread, hrun, hnone, hbad⟩ := hrest hb
              refine ⟨_ ++ e, _, bad, rest, ?_, hread'.append hread, ?_, hnone, hbad⟩
              · rw [heq, List.append_assoc]
              · rw [Utf8.run_append, hrun', Option.bind_some, hrun]
          | bad hend hb =>
              obtain ⟨e, out, bad, rest, heq, hread, hrun, hnone, hbad⟩ := hrest hb
              refine ⟨_ ++ e, _, bad, rest, ?_,
                (Json.reads_of_feed replacement_facts.1).append hread, ?_, hnone, hbad⟩
              · rw [heq, List.append_assoc]
              · rw [Utf8.run_append, replacement_facts.2, Option.bind_some, hrun]
          | beyond hb hrun' =>
              refine ⟨[], [], _, _, rfl, Json.reads_nil _, rfl, hrun', fun b hmem => ?_⟩
              obtain rfl : _ = k + 1 := hk
              cases List.mem_cons.mp hmem with
              | inl heq => exact heq ▸ hb.ascii_le
              | inr hmem => exact (htails b hmem).1

theorem run_literalBody_none {n : ℕ} {s : Bytes} (hn : s.length ≤ n) (h : ¬ NothingBeyond s) :
    Utf8.run .start (literalBody n s) = none := by
  obtain ⟨e, out, bad, rest, heq, -, hrun, hnone, -⟩ := literalBody_beyond hn h
  rw [heq, Utf8.run_append, hrun, Option.bind_some, Utf8.run_append, hnone, Option.bind_none]

/-- A string literal in well-formed UTF-8 that says what there was, as far as that was text. -/
structure ValidLiteral (literal s : Bytes) : Prop where
  wellFormed : Utf8.WellFormed literal
  parse : Json.parse literal = some (.string (Utf8.repaired s))
  same : Utf8.WellFormed s → Json.parse literal = some (.string s)

theorem run_literalOf (s : Bytes) :
    Utf8.run .start (literalOf s) =
      (Utf8.run .start (literalBody s.length s)).bind fun st => Utf8.run st [0x22] := by
  have hquote : Utf8.State.step .start 0x22 = some .start := rfl
  rw [literalOf, List.cons_append, Utf8.run_cons, hquote, Option.bind_some, Utf8.run_append]

theorem validLiteral_iff (s : Bytes) : ValidLiteral (literalOf s) s ↔ NothingBeyond s := by
  constructor
  · intro h
    by_contra hbeyond
    have hrun := h.wellFormed
    rw [Utf8.WellFormed, run_literalOf, run_literalBody_none le_rfl hbeyond] at hrun
    cases hrun
  · intro h
    obtain ⟨hread, hrun⟩ := literalBody_reads le_rfl h
    have hparse : Json.parse (literalOf s) = some (.string (Utf8.repaired s)) :=
      (Json.denotes_string hread).parse
    refine ⟨?_, hparse, fun hs => by rw [hparse, Utf8.repaired_of_wellFormed hs]⟩
    rw [Utf8.WellFormed, run_literalOf, hrun]
    rfl

/-- With room for the literal, it is a valid one exactly where nothing beyond the characters
stands in the bytes. -/
theorem pwSbJsonString_valid_iff {sb : Sb cap} {s : Bytes}
    (hroom : sb.text.length + (literalOf s).length < cap) :
    (∃ literal, (pwSbJsonString sb s).text = sb.text ++ literal ∧ ValidLiteral literal s) ↔
      NothingBeyond s := by
  rw [pwSbJsonString_eq, pwSbPuts_text hroom, ← validLiteral_iff]
  constructor
  · rintro ⟨literal, heq, hvalid⟩
    rwa [List.append_cancel_left heq]
  · exact fun hvalid => ⟨_, rfl, hvalid⟩

/-- A quote, a line end, a letter of two bytes, and then a character that is cut off. -/
def brokenName : Bytes :=
  [0x41, 0x22, 0x0a, 0xc3, 0xa9, 0xe2, 0x82]

theorem pwSbJsonString_valid_iff_broken :
    (∃ literal, (pwSbJsonString (pwSbInit 32) brokenName).text = (pwSbInit 32).text ++ literal ∧
        ValidLiteral literal brokenName) ↔ NothingBeyond brokenName :=
  pwSbJsonString_valid_iff (by decide +kernel)

/-- The surrogate U+D800 is copied as it is. -/
theorem not_forall_valid_literal :
    ¬ ∀ (sb : Sb 16) (s : Bytes), sb.text.length + (literalOf s).length < 16 →
      ∃ literal, (pwSbJsonString sb s).text = sb.text ++ literal ∧ ValidLiteral literal s := by
  intro h
  obtain ⟨literal, htext, hvalid⟩ := h (pwSbInit 16) [0xed, 0xa0, 0x80] (by decide +kernel)
  have hempty : (pwSbInit 16).text = [] := rfl
  have hrun := hvalid.wellFormed
  rw [hempty, List.nil_append] at htext
  rw [← htext] at hrun
  exact absurd hrun (by decide +kernel)

end ProcWatch

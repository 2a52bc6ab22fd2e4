import ProcWatch.Verification.Otlp.Reader

/-! # Numbers too large for the reader -/

namespace ProcWatch

open CLib Wire

/-! ## Groups of any value -/

/-- A group joins the lower ones, as far as there is room for it. -/
theorem or_group_mod {value v shift : ℕ} (hshift : shift ≤ 63) (hvalue : value < 2 ^ shift) :
    value ||| (v <<< shift) % 2 ^ 64 = (value + v * 2 ^ shift) % 2 ^ 64 := by
  obtain ⟨k, hk⟩ : ∃ k, 64 = shift + k := ⟨64 - shift, by omega⟩
  have hpow : 2 ^ 64 = 2 ^ shift * 2 ^ k := by rw [hk, Nat.pow_add]
  have hmod : (v * 2 ^ shift) % 2 ^ 64 = v % 2 ^ k * 2 ^ shift := by
    rw [hpow, Nat.mul_comm v, Nat.mul_mod_mul_left, Nat.mul_comm]
  have hroom : v % 2 ^ k * 2 ^ shift + 2 ^ shift ≤ 2 ^ 64 := by
    calc
      v % 2 ^ k * 2 ^ shift + 2 ^ shift = (v % 2 ^ k + 1) * 2 ^ shift := (Nat.succ_mul _ _).symm
      _ ≤ 2 ^ k * 2 ^ shift := Nat.mul_le_mul_right _ (Nat.mod_lt v (Nat.two_pow_pos k))
      _ = 2 ^ 64 := by rw [hpow, Nat.mul_comm]
  have hsum : (value + v * 2 ^ shift) % 2 ^ 64 = value + v % 2 ^ k * 2 ^ shift := by
    rw [Nat.add_mod, hmod, Nat.mod_eq_of_lt (by omega : value < 2 ^ 64),
      Nat.mod_eq_of_lt (by omega)]
  rw [Nat.shiftLeft_eq, hmod, hsum, Nat.or_comm, ← Nat.shiftLeft_eq,
    ← Nat.shiftLeft_add_eq_or_of_lt hvalue, Nat.shiftLeft_eq, Nat.add_comm]

theorem pbVarintLoop_groups_mod {bs : Bytes} {v : ℕ} (h : Groups bs v) {n shift value : ℕ}
    (hn : bs.length ≤ n) (hshift : shift + 7 * n ≤ 70) (hvalue : value < 2 ^ shift) (r : Bytes) :
    pbVarintLoop n shift value (bs ++ r) = some ((value + v * 2 ^ shift) % 2 ^ 64, r) := by
  induction h generalizing n shift value with
  | @last v hv =>
      obtain ⟨n, rfl⟩ : ∃ m, n = m + 1 := ⟨n - 1, by simp at hn; omega⟩
      have hnat : (UInt8.ofNat v).toNat = v := by simp; omega
      have hmod : v % 128 = v := Nat.mod_eq_of_lt hv
      have hend : v &&& 0x80 = 0 := (and_0x80 (by omega)).mpr hv
      rw [List.singleton_append, pbVarintLoop]
      simp only [hnat, and_0x7f, hmod, hend, if_true, or_group_mod (v := v) (by omega) hvalue]
  | @more g v bs hg hbs ih =>
      obtain ⟨n, rfl⟩ : ∃ m, n = m + 1 := ⟨n - 1, by simp at hn; omega⟩
      have hnat : (UInt8.ofNat (g + 128)).toNat = g + 128 := by simp; omega
      have hgroup : (g + 128) % 128 = g := by omega
      have hcont : ¬ (g + 128 &&& 0x80) = 0 := by
        rw [and_0x80 (by omega)]
        omega
      have hpow : 2 ^ (shift + 7) = 2 ^ shift * 128 := Nat.pow_add 2 shift 7
      have hlow : g * 2 ^ shift ≤ 127 * 2 ^ shift := Nat.mul_le_mul_right _ (by omega)
      have hvalue' : (value + g * 2 ^ shift) % 2 ^ 64 < 2 ^ (shift + 7) :=
        (Nat.mod_le _ _).trans_lt (by omega)
      have hsplit : (g + 128 * v) * 2 ^ shift = g * 2 ^ shift + v * 2 ^ (shift + 7) := by
        rw [hpow]
        ring
      rw [List.cons_append, pbVarintLoop]
      simp only [hnat, and_0x7f, hgroup, if_neg hcont, or_group_mod (v := g) (by omega) hvalue]
      rw [ih (by simpa using hn) (by omega) hvalue', Nat.mod_add_mod, hsplit, Nat.add_assoc]

/-- Up to ten groups are read, and of their value what fits 64 bits. -/
theorem pbVarint_groups {bs : Bytes} {v : ℕ} (h : Groups bs v) (hlen : bs.length ≤ 10)
    (r : Bytes) : pbVarint (bs ++ r) = some (v % 2 ^ 64, r) := by
  rw [pbVarint, pbVarintLoop_groups_mod h hlen (by decide) (by decide)]
  simp

theorem groups_of_pbVarintLoop {n shift value v : ℕ} {r rest : Bytes}
    (h : pbVarintLoop n shift value r = some (v, rest)) :
    ∃ bs m, r = bs ++ rest ∧ Groups bs m ∧ bs.length ≤ n := by
  induction n generalizing shift value r with
  | zero => simp [pbVarintLoop] at h
  | succ n ih =>
      cases r with
      | nil => simp [pbVarintLoop] at h
      | cons byte r =>
          have hbyte := byte.toNat_lt
          rw [pbVarintLoop] at h
          by_cases hend : byte.toNat &&& 0x80 = 0
          · rw [if_pos hend] at h
            obtain ⟨-, rfl⟩ := Prod.mk.inj (Option.some.inj h)
            have hlast := Groups.last ((and_0x80 hbyte).mp hend)
            rw [UInt8.ofNat_toNat] at hlast
            exact ⟨[byte], _, rfl, hlast, by simp⟩
          · rw [if_neg hend] at h
            obtain ⟨bs, m, rfl, hbs, hlen⟩ := ih h
            have hge : 128 ≤ byte.toNat := by
              by_contra hlt
              exact hend ((and_0x80 hbyte).mpr (by omega))
            have hmore := Groups.more (g := byte.toNat - 128) (by omega) hbs
            rw [Nat.sub_add_cancel hge, UInt8.ofNat_toNat] at hmore
            exact ⟨byte :: bs, _, rfl, hmore, by simpa using hlen⟩

/-- The value of groups of seven bits, the lowest first. -/
def groupValue : Bytes → ℕ
  | [] => 0
  | b :: bs => b.toNat % 128 + 128 * groupValue bs

theorem groupValue_eq {bs : Bytes} {v : ℕ} (h : Groups bs v) : groupValue bs = v := by
  induction h with
  | @last v hv =>
      have hnat : (UInt8.ofNat v).toNat = v := by simp; omega
      simp only [groupValue, hnat]
      omega
  | @more g v bs hg _ ih =>
      have hnat : (UInt8.ofNat (g + 128)).toNat = g + 128 := by simp; omega
      simp only [groupValue, hnat, ih]
      omega

/-! ## Values and tags taken for what they are -/

/-- What `pb_varint` delivers is the value of the groups it has read. -/
def VarintExact (r : Bytes) : Prop :=
  ∀ v rest, pbVarint r = some (v, rest) → ∃ bs, r = bs ++ rest ∧ Groups bs v

/-- The value of a tag is that of its field number and its wire type. -/
def TagExact (r : Bytes) : Prop :=
  ∀ field wire rest, pbNext r = .tag field wire rest →
    ∃ bs, r = bs ++ rest ∧ Groups bs (8 * field + wire)

/-- The wire type of a tag is a known one, and its field number is not a multiple of `2 ^ 32`. -/
def TakenForTag (v : ℕ) : Prop :=
  v % 8 ∈ [PB_WIRE_VARINT, PB_WIRE_FIXED64, PB_WIRE_BYTES, PB_WIRE_FIXED32] ∧
    v % 2 ^ 64 / 8 % 2 ^ 32 ≠ 0

theorem varintExact_iff (r : Bytes) :
    VarintExact r ↔
      ∀ bs rest v, r = bs ++ rest → Groups bs v → bs.length ≤ 10 → v < 2 ^ 64 := by
  constructor
  · rintro h bs rest v rfl hbs hlen
    obtain ⟨bs', hsplit, hbs'⟩ := h _ _ (pbVarint_groups hbs hlen rest)
    obtain rfl := List.append_cancel_right hsplit
    rw [← groupValue_eq hbs, groupValue_eq hbs']
    exact Nat.mod_lt v (Nat.two_pow_pos 64)
  · intro h v rest hread
    obtain ⟨bs, m, rfl, hbs, hlen⟩ := groups_of_pbVarintLoop hread
    rw [pbVarint_groups hbs hlen, Nat.mod_eq_of_lt (h bs rest m rfl hbs hlen)] at hread
    obtain ⟨rfl, -⟩ := Prod.mk.inj (Option.some.inj hread)
    exact ⟨bs, rfl, hbs⟩

/-- What `pb_next` makes of groups of any value. -/
theorem pbNext_groups {bs : Bytes} {v : ℕ} (h : Groups bs v) (hlen : bs.length ≤ 10) (r : Bytes)
    (field wire : ℕ) (rest : Bytes) :
    pbNext (bs ++ r) = .tag field wire rest ↔
      TakenForTag v ∧ field = v % 2 ^ 64 / 8 % 2 ^ 32 ∧ wire = v % 8 ∧ rest = r := by
  have hne : bs ++ r ≠ [] := by simp [h.ne_nil]
  have hwire : v % 2 ^ 64 &&& 7 = v % 8 := by
    rw [show 7 = 2 ^ 3 - 1 by rfl, Nat.and_two_pow_sub_one_eq_mod]
    omega
  rw [pbNext, if_neg hne, pbVarint_groups h hlen]
  simp only [hwire, Nat.shiftRight_eq_div_pow, TakenForTag, List.mem_cons, List.not_mem_nil,
    or_false]
  split
  · simp_all
  · split
    · simp_all
    · simp only [PbNext.tag.injEq]
      constructor
      · rintro ⟨rfl, rfl, rfl⟩
        exact ⟨⟨by omega, by omega⟩, rfl, rfl, rfl⟩
      · rintro ⟨-, rfl, rfl, rfl⟩
        exact ⟨rfl, rfl, rfl⟩

theorem tagExact_iff (r : Bytes) :
    TagExact r ↔ ∀ bs rest v, r = bs ++ rest → Groups bs v → bs.length ≤ 10 → TakenForTag v →
      v < 2 ^ 35 := by
  constructor
  · rintro h bs rest v rfl hbs hlen htag
    obtain ⟨bs', hsplit, hbs'⟩ := h _ _ _ ((pbNext_groups hbs hlen rest _ _ _).mpr
      ⟨htag, rfl, rfl, rfl⟩)
    obtain rfl := List.append_cancel_right hsplit
    rw [← groupValue_eq hbs, groupValue_eq hbs']
    omega
  · intro h field wire rest hnext
    have hread : ∃ v, pbVarint r = some v := by
      cases hread : pbVarint r with
      | some v => exact ⟨v, rfl⟩
      | none =>
          rw [pbNext, hread] at hnext
          split at hnext <;> cases hnext
    obtain ⟨⟨k, rest'⟩, hread⟩ := hread
    obtain ⟨bs, v, rfl, hbs, hlen⟩ := groups_of_pbVarintLoop hread
    obtain ⟨htag, rfl, rfl, rfl⟩ := (pbNext_groups hbs hlen _ _ _ _).mp hnext
    have hlt := h bs rest v rfl hbs hlen htag
    have hvalue : 8 * (v % 2 ^ 64 / 8 % 2 ^ 32) + v % 8 = v := by omega
    exact ⟨bs, rfl, by rwa [hvalue]⟩

/-- No value and no tag is taken for another one, exactly where the groups are worth less than
`2 ^ 64`, and those taken for a tag less than `2 ^ 35`. -/
theorem readExactly_iff (r : Bytes) :
    (VarintExact r ∧ TagExact r) ↔
      ∀ bs rest v, r = bs ++ rest → Groups bs v → bs.length ≤ 10 →
        v < 2 ^ 64 ∧ (TakenForTag v → v < 2 ^ 35) := by
  rw [varintExact_iff, tagExact_iff]
  constructor
  · intro h bs rest v hr hbs hlen
    exact ⟨h.1 bs rest v hr hbs hlen, h.2 bs rest v hr hbs hlen⟩
  · intro h
    exact ⟨fun bs rest v hr hbs hlen => (h bs rest v hr hbs hlen).1,
      fun bs rest v hr hbs hlen => (h bs rest v hr hbs hlen).2⟩

/-- A tenth byte of 2 is dropped, and field number `2 ^ 32 + 1` is taken for 1. -/
theorem not_readExactly :
    ¬ VarintExact [0x80, 0x80, 0x80, 0x80, 0x80, 0x80, 0x80, 0x80, 0x80, 0x02] ∧
      ¬ TagExact [0x8a, 0x80, 0x80, 0x80, 0x80, 0x01] := by
  constructor
  · intro h
    obtain ⟨bs, hsplit, hbs⟩ := h 0 [] (by decide)
    rw [List.append_nil] at hsplit
    have hvalue := groupValue_eq hbs
    rw [← hsplit] at hvalue
    exact absurd hvalue (by decide)
  · intro h
    obtain ⟨bs, hsplit, hbs⟩ := h 1 2 [] (by decide)
    rw [List.append_nil] at hsplit
    have hvalue := groupValue_eq hbs
    rw [← hsplit] at hvalue
    exact absurd hvalue (by decide)

end ProcWatch

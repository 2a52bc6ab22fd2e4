import ProcWatch.Model.PbDecode

/-! # Reading an encoded message -/

namespace ProcWatch

open CLib Wire

/-! ## Varints -/

theorem and_0x7f (n : ℕ) : n &&& 0x7f = n % 128 :=
  Nat.and_two_pow_sub_one_eq_mod n 7

theorem and_0x80 {n : ℕ} (h : n < 256) : n &&& 0x80 = 0 ↔ n < 128 := by
  have hall : ∀ i : Fin 256, i.val &&& 0x80 = 0 ↔ i.val < 128 := by decide +kernel
  exact hall ⟨n, h⟩

/-- A group of seven bits joins the lower ones. -/
theorem or_group {value v shift : ℕ} (hvalue : value < 2 ^ shift)
    (hlt : value + v % 128 * 2 ^ shift < 2 ^ 64) :
    value ||| ((v % 128) <<< shift) % 2 ^ 64 = value + v % 128 * 2 ^ shift := by
  rw [Nat.shiftLeft_eq, Nat.mod_eq_of_lt (by omega), Nat.or_comm, ← Nat.shiftLeft_eq,
    ← Nat.shiftLeft_add_eq_or_of_lt hvalue, Nat.shiftLeft_eq, Nat.add_comm]

theorem pbVarintLoop_last {n shift value v : ℕ} (hv : v < 128) (hvalue : value < 2 ^ shift)
    (hlt : value + v * 2 ^ shift < 2 ^ 64) (r : Bytes) :
    pbVarintLoop (n + 1) shift value (UInt8.ofNat v :: r) = some (value + v * 2 ^ shift, r) := by
  have hmod : v % 128 = v := Nat.mod_eq_of_lt hv
  have hnat : (UInt8.ofNat v).toNat = v := by simp; omega
  have hor := or_group hvalue (hmod ▸ hlt)
  rw [hmod] at hor
  simp only [pbVarintLoop, hnat, and_0x7f, hmod, (and_0x80 (by omega : v < 256)).mpr hv, if_true, hor]

theorem pbVarintLoop_groups {bs : Bytes} {v : ℕ} (h : Groups bs v) {n shift value : ℕ}
    (hn : bs.length ≤ n) (hvalue : value < 2 ^ shift) (hlt : value + v * 2 ^ shift < 2 ^ 64)
    (r : Bytes) :
    pbVarintLoop n shift value (bs ++ r) = some (value + v * 2 ^ shift, r) := by
  induction h generalizing n shift value with
  | last hv =>
      obtain ⟨n, rfl⟩ : ∃ m, n = m + 1 := ⟨n - 1, by simp at hn; omega⟩
      exact pbVarintLoop_last hv hvalue hlt r
  | @more g v bs hg _ ih =>
      obtain ⟨n, rfl⟩ : ∃ m, n = m + 1 := ⟨n - 1, by simp at hn; omega⟩
      rw [List.cons_append, pbVarintLoop]
      have hnat : (UInt8.ofNat (g + 128)).toNat = g + 128 := by simp; omega
      have hgroup : (g + 128) % 128 = g := by omega
      have hmod : g % 128 = g := Nat.mod_eq_of_lt hg
      have hpow : 2 ^ (shift + 7) = 128 * 2 ^ shift := by rw [Nat.pow_add]; ring
      have hsplit : (g + 128 * v) * 2 ^ shift = g * 2 ^ shift + v * 2 ^ (shift + 7) := by
        rw [hpow]
        ring
      have hcont : ¬ (g + 128 &&& 0x80) = 0 := by
        rw [and_0x80 (by omega)]
        omega
      have hor := or_group (v := g) hvalue (by rw [hmod]; omega)
      rw [hmod] at hor
      simp only [hnat, and_0x7f, hgroup, hor, if_neg hcont]
      have hlow : g * 2 ^ shift ≤ 127 * 2 ^ shift := Nat.mul_le_mul_right _ (by omega)
      rw [ih (by simpa using hn) (by rw [hpow]; omega) (by omega), hsplit, Nat.add_assoc]

theorem pbVarint_isVarint {bs : Bytes} {v : ℕ} (h : IsVarint bs v) (r : Bytes) :
    pbVarint (bs ++ r) = some (v, r) := by
  rw [pbVarint, pbVarintLoop_groups h.groups h.length_le (by norm_num) (by simpa using h.lt)]
  simp

/-! ## Values of fixed size -/

theorem foldr_littleEndian (k v : ℕ) :
    (littleEndian k v).foldr (fun byte value => (value <<< 8) ||| byte.toNat) 0 = v % 256 ^ k := by
  induction k generalizing v with
  | zero => simp [littleEndian, Nat.mod_one]
  | succ k ih =>
      have hnat : (UInt8.ofNat (v % 256)).toNat = v % 256 := by simp
      have hlt : v % 256 < 2 ^ 8 := by omega
      rw [littleEndian, List.foldr_cons, ih, hnat, ← Nat.shiftLeft_add_eq_or_of_lt hlt,
        Nat.shiftLeft_eq, pow_succ' 256 k, Nat.mod_mul]
      omega

theorem pbFixed_littleEndian (k v : ℕ) (r : Bytes) :
    pbFixed k (littleEndian k v ++ r) = some (v % 256 ^ k, r) := by
  have hlen := length_littleEndian k v
  rw [pbFixed, if_neg (by simp [hlen]), List.take_append_of_le_length (by omega),
    List.take_of_length_le (by omega), foldr_littleEndian, List.drop_append_of_le_length (by omega),
    List.drop_of_length_le (by omega), List.nil_append]

theorem pbBytes_isVarint {len b : Bytes} (h : IsVarint len b.length) (r : Bytes) :
    pbBytes (len ++ (b ++ r)) = some (b, r) := by
  rw [pbBytes, pbVarint_isVarint h]
  simp

theorem pbValue_isPayload {bs : Bytes} {p : Payload} (h : IsPayload bs p) (r : Bytes) :
    pbValue (bs ++ r) p.wire = some (p, r) := by
  cases h with
  | varint h => simp [Payload.wire, pbValue, pbVarint_isVarint h]
  | fixed64 v => simp [Payload.wire, pbValue, pbFixed64, pbFixed_littleEndian]
  | bytes h => simp [Payload.wire, pbValue, pbBytes_isVarint h]
  | fixed32 v => simp [Payload.wire, pbValue, pbFixed32, pbFixed_littleEndian]

/-! ## Messages -/

theorem pbNext_isVarint {f : Field} (hf : f.Valid) {key : Bytes}
    (hkey : IsVarint key (8 * f.number + f.payload.wire)) (r : Bytes) :
    pbNext (key ++ r) = .tag f.number f.payload.wire r := by
  have hwire := f.payload.wire_lt
  have hpos := hf.number_pos
  have hlt := hf.number_lt
  have hne : key ++ r ≠ [] := by simp [hkey.groups.ne_nil]
  have hlow : 8 * f.number + f.payload.wire &&& 7 = f.payload.wire := by
    rw [show 7 = 2 ^ 3 - 1 by rfl, Nat.and_two_pow_sub_one_eq_mod]
    omega
  have hhigh : (8 * f.number + f.payload.wire) >>> 3 % 2 ^ 32 = f.number := by
    rw [Nat.shiftRight_eq_div_pow]
    omega
  have hnumber : f.number ≠ 0 := by omega
  have hkind : ¬ (f.payload.wire ≠ 0 ∧ f.payload.wire ≠ 1 ∧ f.payload.wire ≠ 2 ∧
      f.payload.wire ≠ 5) := by
    cases f.payload <;> simp [Payload.wire]
  rw [pbNext, if_neg hne, pbVarint_isVarint hkey]
  simp only [hlow, hhigh, if_neg hnumber, if_neg hkind]

theorem pbFieldsFrom_isMessage {bs : Bytes} {fs : List Field} (h : IsMessage bs fs) {n : ℕ}
    (hn : fs.length < n) : pbFieldsFrom n bs = (fs, .atEnd) := by
  induction h generalizing n with
  | nil =>
      obtain ⟨n, rfl⟩ : ∃ m, n = m + 1 := ⟨n - 1, by omega⟩
      rfl
  | cons hf hfs ih =>
      obtain ⟨n, rfl⟩ : ∃ m, n = m + 1 := ⟨n - 1, by omega⟩
      cases hf with
      | mk hkey hbody hvalid =>
          rw [List.append_assoc, pbFieldsFrom, pbNext_isVarint hvalid hkey]
          simp only [pbValue_isPayload hbody]
          rw [ih (by simpa using hn)]

/-- A loop over a message sees its fields. -/
theorem pbFields_isMessage {bs : Bytes} {fs : List Field} (h : IsMessage bs fs) :
    pbFields bs = (fs, .atEnd) :=
  pbFieldsFrom_isMessage h (Nat.lt_succ_of_le h.length_le)

/-- A loop over an encoded message sees its fields. -/
theorem pbFields_encode {fs : List Field} (hfs : ∀ f ∈ fs, f.Valid)
    (hlen : (encode fs).length < 2 ^ 64) : pbFields (encode fs) = (fs, .atEnd) :=
  pbFields_isMessage (isMessage_encode hfs hlen)

end ProcWatch

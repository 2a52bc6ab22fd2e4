import ProcWatch.Library.Bytes

/-! # The protocol buffer wire format

A message is a sequence of numbered fields, each with a value of one of four wire types.
-/

namespace CLib.Wire

/-! ## Fields and their encoding -/

inductive Payload where
  | varint (v : UInt64)
  | fixed64 (v : UInt64)
  | bytes (b : Bytes)
  | fixed32 (v : UInt32)
  deriving DecidableEq

structure Field where
  number : ℕ
  payload : Payload
  deriving DecidableEq

/-- The wire type. -/
def Payload.wire : Payload → ℕ
  | .varint _ => 0
  | .fixed64 _ => 1
  | .bytes _ => 2
  | .fixed32 _ => 5

/-- Groups of seven bits, the lowest first, in at most `k + 1` bytes. -/
def varintFrom : ℕ → ℕ → Bytes
  | 0, n => [UInt8.ofNat n]
  | k + 1, n =>
      if n < 128 then [UInt8.ofNat n]
      else UInt8.ofNat (n % 128 + 128) :: varintFrom k (n / 128)

/-- The varint of a number below `2 ^ 64`. -/
def varint (n : ℕ) : Bytes :=
  varintFrom 9 n

def littleEndian : ℕ → ℕ → Bytes
  | 0, _ => []
  | k + 1, n => UInt8.ofNat (n % 256) :: littleEndian k (n / 256)

def Payload.encode : Payload → Bytes
  | .varint v => Wire.varint v.toNat
  | .fixed64 v => littleEndian 8 v.toNat
  | .bytes b => Wire.varint b.length ++ b
  | .fixed32 v => littleEndian 4 v.toNat

def Field.encode (f : Field) : Bytes :=
  varint (8 * f.number + f.payload.wire) ++ f.payload.encode

def encode (fs : List Field) : Bytes :=
  fs.flatMap Field.encode

theorem encode_cons (f : Field) (fs : List Field) : encode (f :: fs) = f.encode ++ encode fs :=
  List.flatMap_cons

theorem encode_append (fs fs' : List Field) : encode (fs ++ fs') = encode fs ++ encode fs' :=
  List.flatMap_append

/-- A field whose number a schema may give it. -/
structure Field.Valid (f : Field) : Prop where
  number_pos : 0 < f.number
  number_lt : f.number < 2 ^ 29

instance (f : Field) : Decidable f.Valid :=
  decidable_of_iff (0 < f.number ∧ f.number < 2 ^ 29) ⟨fun h => ⟨h.1, h.2⟩, fun h => ⟨h.1, h.2⟩⟩

theorem Field.valid_of_lt {n : ℕ} (hpos : 0 < n) (hlt : n < 2 ^ 29) (p : Payload) :
    Field.Valid ⟨n, p⟩ :=
  ⟨hpos, hlt⟩

theorem length_littleEndian (k n : ℕ) : (littleEndian k n).length = k := by
  induction k generalizing n with
  | zero => rfl
  | succ k ih => simp [littleEndian, ih]

theorem length_bytes_le (b : Bytes) : b.length ≤ (Payload.bytes b).encode.length := by
  rw [Payload.encode, List.length_append]
  omega

theorem length_payload_le {f : Field} {fs : List Field} (h : f ∈ fs) :
    f.payload.encode.length ≤ (encode fs).length := by
  obtain ⟨front, back, rfl⟩ := List.append_of_mem h
  rw [encode_append, encode_cons, List.length_append, List.length_append, Field.encode,
    List.length_append]
  omega

/-- The bytes of a submessage are among those of the message. -/
theorem length_bytes_of_mem {n : ℕ} {b : Bytes} {fs : List Field} (h : ⟨n, .bytes b⟩ ∈ fs) :
    b.length ≤ (encode fs).length :=
  (length_bytes_le b).trans (length_payload_le h)

/-! ## All encodings

A number need not be written in as few groups as it can be.
-/

/-- Groups of seven bits, the lowest first, of which all but the last are marked. -/
inductive Groups : Bytes → ℕ → Prop where
  | last {v : ℕ} (h : v < 128) : Groups [UInt8.ofNat v] v
  | more {g v : ℕ} {bs : Bytes} (h : g < 128) (hbs : Groups bs v) :
      Groups (UInt8.ofNat (g + 128) :: bs) (g + 128 * v)

/-- An encoding of a number below `2 ^ 64`. -/
structure IsVarint (bs : Bytes) (v : ℕ) : Prop where
  groups : Groups bs v
  length_le : bs.length ≤ 10
  lt : v < 2 ^ 64

inductive IsPayload : Bytes → Payload → Prop where
  | varint {bs : Bytes} {v : UInt64} (h : IsVarint bs v.toNat) : IsPayload bs (.varint v)
  | fixed64 (v : UInt64) : IsPayload (littleEndian 8 v.toNat) (.fixed64 v)
  | bytes {bs b : Bytes} (h : IsVarint bs b.length) : IsPayload (bs ++ b) (.bytes b)
  | fixed32 (v : UInt32) : IsPayload (littleEndian 4 v.toNat) (.fixed32 v)

/-- An encoding of a field: its tag and its value. -/
inductive IsField : Bytes → Field → Prop where
  | mk {key body : Bytes} {f : Field} (hkey : IsVarint key (8 * f.number + f.payload.wire))
      (hbody : IsPayload body f.payload) (hvalid : f.Valid) : IsField (key ++ body) f

/-- An encoding of a message with these fields, in order. -/
inductive IsMessage : Bytes → List Field → Prop where
  | nil : IsMessage [] []
  | cons {bs rest : Bytes} {f : Field} {fs : List Field} (hf : IsField bs f)
      (hfs : IsMessage rest fs) : IsMessage (bs ++ rest) (f :: fs)

theorem groups_varintFrom {k n : ℕ} (h : n < 128 ^ (k + 1)) : Groups (varintFrom k n) n := by
  induction k generalizing n with
  | zero => exact .last (by simpa using h)
  | succ k ih =>
      rw [varintFrom]
      by_cases hn : n < 128
      · rw [if_pos hn]
        exact .last hn
      · rw [if_neg hn]
        have hmore := Groups.more (g := n % 128) (by omega)
          (ih (n := n / 128) (by rw [pow_succ] at h; omega))
        rwa [Nat.mod_add_div] at hmore

theorem length_varintFrom_le (k n : ℕ) : (varintFrom k n).length ≤ k + 1 := by
  induction k generalizing n with
  | zero => simp [varintFrom]
  | succ k ih =>
      rw [varintFrom]
      split
      · simp
      · simpa using ih (n / 128)

theorem isVarint_varint {n : ℕ} (h : n < 2 ^ 64) : IsVarint (varint n) n where
  groups := groups_varintFrom (h.trans_le (by norm_num))
  length_le := length_varintFrom_le 9 n
  lt := h

theorem isPayload_encode {p : Payload} (h : p.encode.length < 2 ^ 64) : IsPayload p.encode p := by
  cases p with
  | varint v => exact .varint (isVarint_varint v.toNat_lt)
  | fixed64 v => exact .fixed64 v
  | bytes b => exact .bytes (isVarint_varint ((length_bytes_le b).trans_lt h))
  | fixed32 v => exact .fixed32 v

theorem Payload.wire_lt (p : Payload) : p.wire < 8 := by
  cases p <;> simp [Payload.wire]

theorem isVarint_key {f : Field} (hf : f.Valid) :
    IsVarint (varint (8 * f.number + f.payload.wire)) (8 * f.number + f.payload.wire) := by
  have hwire := f.payload.wire_lt
  have hlt := hf.number_lt
  exact isVarint_varint (by omega)

theorem isField_encode {f : Field} (hf : f.Valid) (h : f.payload.encode.length < 2 ^ 64) :
    IsField f.encode f :=
  .mk (isVarint_key hf) (isPayload_encode h) hf

theorem isMessage_encode {fs : List Field} (hfs : ∀ f ∈ fs, f.Valid)
    (h : (encode fs).length < 2 ^ 64) : IsMessage (encode fs) fs := by
  induction fs with
  | nil => exact .nil
  | cons f fs ih =>
      have hpayload := (length_payload_le (List.mem_cons_self : f ∈ f :: fs)).trans_lt h
      rw [encode_cons, List.length_append] at h
      rw [encode_cons]
      exact .cons (isField_encode (hfs f (by simp)) hpayload)
        (ih (fun g hg => hfs g (by simp [hg])) (by omega))

theorem IsMessage.append {bs bs' : Bytes} {fs fs' : List Field} (h : IsMessage bs fs)
    (h' : IsMessage bs' fs') : IsMessage (bs ++ bs') (fs ++ fs') := by
  induction h with
  | nil => exact h'
  | cons hf _ ih =>
      rw [List.append_assoc]
      exact .cons hf ih

theorem Groups.ne_nil {bs : Bytes} {v : ℕ} (h : Groups bs v) : bs ≠ [] := by
  cases h <;> simp

theorem IsField.length_pos {bs : Bytes} {f : Field} (h : IsField bs f) : 0 < bs.length := by
  cases h with
  | mk hkey _ _ =>
      have := List.length_pos_iff.mpr hkey.groups.ne_nil
      rw [List.length_append]
      omega

theorem IsMessage.length_le {bs : Bytes} {fs : List Field} (h : IsMessage bs fs) :
    fs.length ≤ bs.length := by
  induction h with
  | nil => simp
  | cons hf _ ih =>
      have := hf.length_pos
      rw [List.length_append, List.length_cons]
      omega

/-! ## Fields by number -/

/-- The fields of one number, in the order in which they occur. -/
def numbered (n : ℕ) (fs : List Field) : List Field :=
  fs.filter (·.number = n)

theorem length_bytes_of_mem_numbered {n : ℕ} {b : Bytes} {fs : List Field}
    (h : ⟨n, .bytes b⟩ ∈ numbered n fs) : b.length ≤ (encode fs).length :=
  length_bytes_of_mem (List.mem_of_mem_filter h)

/-- A field that may occur at most once, and that may be left out while it has its default. -/
def Single (fs : List Field) (n : ℕ) (v default : Payload) : Prop :=
  numbered n fs = [⟨n, v⟩] ∨ numbered n fs = [] ∧ v = default

/-! ## Walks over the fields -/

/-- A step of a walk that only a field of one number takes. -/
def onField {β : Type*} (n : ℕ) (g : β → Payload → β) (x : β) (f : Field) : β :=
  if f.number = n then g x f.payload else x

def setBytes {β : Type*} (g : Bytes → β) (x : β) : Payload → β
  | .bytes b => g b
  | _ => x

def setVarint {β : Type*} (g : UInt64 → β) (x : β) : Payload → β
  | .varint v => g v
  | _ => x

def setFixed64 {β : Type*} (g : UInt64 → β) (x : β) : Payload → β
  | .fixed64 v => g v
  | _ => x

section Folds

variable {σ β : Type*} (step : σ → Field → σ) (get : σ → β) {g : β → Payload → β} {n : ℕ}

/-- What a walk computes from the fields of a kind alone. -/
theorem foldl_filter (kind : Field → Prop) [DecidablePred kind] (take : β → Field → β)
    (h : ∀ s f, get (step s f) = if kind f then take (get s) f else get s) (s : σ)
    (fs : List Field) : get (fs.foldl step s) = (fs.filter kind).foldl take (get s) := by
  induction fs generalizing s with
  | nil => rfl
  | cons f fs ih =>
      rw [List.foldl_cons, ih, h]
      by_cases hf : kind f
      · simp [hf]
      · simp [hf]

/-- What a walk computes from the fields of one number alone. -/
theorem foldl_numbered (h : ∀ s f, get (step s f) = onField n g (get s) f) (s : σ)
    (fs : List Field) :
    get (fs.foldl step s) = (numbered n fs).foldl (fun b f => g b f.payload) (get s) :=
  foldl_filter step get (·.number = n) (fun b f => g b f.payload) h s fs

/-- What a walk keeps of a field that occurs once, or is left out at its default. -/
theorem foldl_single (h : ∀ s f, get (step s f) = onField n g (get s) f) (s : σ)
    {fs : List Field} {v default : Payload} (hsingle : Single fs n v default)
    (hdefault : g (get s) default = get s) : get (fs.foldl step s) = g (get s) v := by
  rw [foldl_numbered step get h]
  rcases hsingle with hnum | ⟨hnum, rfl⟩
  · rw [hnum]
    rfl
  · rw [hnum]
    exact hdefault.symm

/-- What no step changes. -/
theorem foldl_unchanged (h : ∀ s f, get (step s f) = get s) (s : σ) (fs : List Field) :
    get (fs.foldl step s) = get s := by
  induction fs generalizing s with
  | nil => rfl
  | cons f fs ih => rw [List.foldl_cons, ih, h]

end Folds

/-! ## Submessages of one number -/

def bytesAt (n : ℕ) : Field → Option Bytes
  | ⟨k, .bytes b⟩ => if k = n then some b else none
  | _ => none

def messagesAt (n : ℕ) (fs : List Field) : List Bytes :=
  fs.filterMap (bytesAt n)

theorem messagesAt_cons (n : ℕ) (b : Bytes) (fs : List Field) :
    messagesAt n (⟨n, .bytes b⟩ :: fs) = b :: messagesAt n fs :=
  List.filterMap_cons_some (if_pos rfl)

theorem messagesAt_cons_of_ne {n k : ℕ} (hne : k ≠ n) (b : Bytes) (fs : List Field) :
    messagesAt n (⟨k, .bytes b⟩ :: fs) = messagesAt n fs :=
  List.filterMap_cons_none (if_neg hne)

theorem messagesAt_cons_other {n : ℕ} {f : Field} (h : ∀ b, f ≠ ⟨n, .bytes b⟩) (fs : List Field) :
    messagesAt n (f :: fs) = messagesAt n fs := by
  apply List.filterMap_cons_none
  obtain ⟨k, v | v | b | v⟩ := f
  case bytes =>
    refine if_neg fun hk => ?_
    subst hk
    exact h b rfl
  all_goals rfl

/-! ## Messages that are read alike -/

/-- The second list of fields is the first one with fields of unknown numbers put in, and with
submessages replaced by ones that are the `same` under their number. -/
inductive Alike (known : ℕ → Prop) (same : ℕ → Bytes → Bytes → Prop) :
    List Field → List Field → Prop where
  | nil : Alike known same [] []
  | unknown {f : Field} {fs fs' : List Field} (hf : ¬ known f.number)
      (h : Alike known same fs fs') : Alike known same fs (f :: fs')
  | field (f : Field) {fs fs' : List Field} (h : Alike known same fs fs') :
      Alike known same (f :: fs) (f :: fs')
  | submessage {n : ℕ} {b b' : Bytes} {fs fs' : List Field} (hb : same n b b')
      (h : Alike known same fs fs') : Alike known same (⟨n, .bytes b⟩ :: fs) (⟨n, .bytes b'⟩ :: fs')

section Alike

variable {known : ℕ → Prop} {same : ℕ → Bytes → Bytes → Prop} {fs fs' : List Field}

theorem Alike.append_left (front : List Field) (h : Alike known same fs fs') :
    Alike known same (front ++ fs) (front ++ fs') := by
  induction front with
  | nil => exact h
  | cons f front ih => exact .field f ih

theorem Alike.refl (fs : List Field) : Alike known same fs fs := by
  simpa using (Alike.nil : Alike known same [] []).append_left fs

/-- Walks over messages that are alike stay related when no unknown field moves them. -/
theorem Alike.foldl_rel {σ : Type*} {R : σ → σ → Prop} {step : σ → Field → σ}
    (h : Alike known same fs fs') (hunknown : ∀ s f, ¬ known f.number → step s f = s)
    (hfield : ∀ s s' f, R s s' → R (step s f) (step s' f))
    (hsame : ∀ s s' n b b', same n b b' → R s s' →
      R (step s ⟨n, .bytes b⟩) (step s' ⟨n, .bytes b'⟩)) {s s' : σ} (hs : R s s') :
    R (fs.foldl step s) (fs'.foldl step s') := by
  induction h generalizing s s' with
  | nil => exact hs
  | unknown hf _ ih =>
      rw [List.foldl_cons, hunknown _ _ hf]
      exact ih hs
  | field f _ ih => exact ih (hfield s s' f hs)
  | submessage hb _ ih => exact ih (hsame s s' _ _ _ hb hs)

theorem Alike.foldl_eq {σ : Type*} {step : σ → Field → σ} (h : Alike known same fs fs')
    (hunknown : ∀ s f, ¬ known f.number → step s f = s)
    (hsame : ∀ s n b b', same n b b' → step s ⟨n, .bytes b⟩ = step s ⟨n, .bytes b'⟩) (s : σ) :
    fs.foldl step s = fs'.foldl step s := by
  refine h.foldl_rel (R := Eq) hunknown (fun s s' f hs => hs ▸ rfl) ?_ rfl
  rintro s _ n b b' hb rfl
  exact hsame s n b b' hb

end Alike

end CLib.Wire

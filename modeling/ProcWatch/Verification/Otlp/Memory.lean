import ProcWatch.Model.OtlpCommon
import ProcWatch.Model.PbMemory
import ProcWatch.Verification.Otlp.Reader

/-! # The reader over memory refines the one over lists -/

namespace ProcWatch.Memory

open CLib Wire Traced

variable {W : Type} {mem : Contents} {lo hi : ℕ}

/-! ## The content of memory -/

/-- The `n` bytes at an address. -/
def bytesAt (mem : Contents) (address n : ℕ) : Bytes :=
  (List.range' address n).map mem

/-- What a reader has still to read. -/
def PbReader.bytes (mem : Contents) (r : PbReader) : Bytes :=
  bytesAt mem r.ptr (r.stop - r.ptr)

theorem length_bytesAt (mem : Contents) (address n : ℕ) : (bytesAt mem address n).length = n := by
  simp [bytesAt]

theorem bytesAt_succ (address n : ℕ) :
    bytesAt mem address (n + 1) = mem address :: bytesAt mem (address + 1) n := by
  simp [bytesAt, List.range'_succ]

theorem bytesAt_add (address n k : ℕ) :
    bytesAt mem address (n + k) = bytesAt mem address n ++ bytesAt mem (address + n) k := by
  induction n generalizing address with
  | zero => simp [bytesAt]
  | succ n ih =>
      rw [Nat.add_right_comm, bytesAt_succ, ih, bytesAt_succ, List.cons_append, Nat.add_assoc,
        Nat.add_comm 1 n]

theorem length_lt_of_pbVarintLoop {n shift value : ℕ} {r rest : Bytes} {v : ℕ}
    (h : ProcWatch.pbVarintLoop n shift value r = some (v, rest)) : rest.length < r.length := by
  induction n generalizing shift value r with
  | zero => simp [ProcWatch.pbVarintLoop] at h
  | succ n ih =>
      cases r with
      | nil => simp [ProcWatch.pbVarintLoop] at h
      | cons byte r =>
          rw [ProcWatch.pbVarintLoop] at h
          split at h
          · obtain ⟨-, rfl⟩ := Prod.mk.inj (Option.some.inj h)
            simp
          · exact (ih h).trans (by simp)

theorem length_lt_of_pbVarint {r rest : Bytes} {v : ℕ}
    (h : ProcWatch.pbVarint r = some (v, rest)) : rest.length < r.length :=
  length_lt_of_pbVarintLoop h

theorem PbReader.length_bytes (r : PbReader) (mem : Contents) :
    (r.bytes mem).length = r.stop - r.ptr :=
  length_bytesAt mem _ _

/-! ## Safety -/

/-- The decoders of the bytes between `lo` and `hi` may do this. -/
def Safe (lo hi : ℕ) : Event → Prop
  | .load address => lo ≤ address ∧ address < hi
  | .add address n => address + n < 2 ^ 64
  | .move before after =>
      before.ptr ≤ after.ptr ∧ after.ptr ≤ before.stop ∧ after.stop = before.stop
  | .submessage parent sub =>
      parent.ptr ≤ sub.ptr ∧ sub.ptr ≤ sub.stop ∧ sub.stop ≤ parent.stop
  | .index i size => i < size
  | .activation nested => nested ≤ PW_ATTR_MAX_DEPTH + 1
  | .endless => False

/-- A reader of bytes between `lo` and `hi`. -/
structure PbReader.Within (lo hi : ℕ) (r : PbReader) : Prop where
  low : lo ≤ r.ptr
  le : r.ptr ≤ r.stop
  high : r.stop ≤ hi

/-- A reader later in the same message. -/
structure PbReader.Follows (r' r : PbReader) : Prop where
  ptr : r.ptr ≤ r'.ptr
  le : r'.ptr ≤ r'.stop
  stop : r'.stop = r.stop

theorem PbReader.Within.follows {r r' : PbReader} (h : r.Within lo hi) (h' : r'.Follows r) :
    r'.Within lo hi :=
  ⟨h.low.trans h'.ptr, h'.le, h'.stop ▸ h.high⟩

theorem PbReader.Follows.trans {r r' r'' : PbReader} (h : r''.Follows r') (h' : r'.Follows r) :
    r''.Follows r :=
  ⟨h'.ptr.trans h.ptr, h.le, h.stop.trans h'.stop⟩

/-- What a reader returns and leaves is the value that the reader over the list finds, and a
reader of the rest. -/
inductive Reads {α β : Type} (mem : Contents) (r : PbReader) (V : α → β → Prop) :
    Option α × PbReader → Option (β × Bytes) → Prop where
  | value {v : α} {v' : β} {r' : PbReader} (hv : V v v') (h : r'.Follows r) :
      Reads mem r V (some v, r') (some (v', r'.bytes mem))
  | failure (r' : PbReader) : Reads mem r V (none, r') none

theorem Reads.follows {α β : Type} {V : α → β → Prop} {r r' : PbReader}
    {a : Option α × PbReader} {b : Option (β × Bytes)} (h : Reads mem r' V a b)
    (hr : r'.Follows r) : Reads mem r V a b := by
  cases h with
  | value hv h => exact .value hv (h.trans hr)
  | failure r' => exact .failure r'

theorem PbReader.Within.left_eq {r : PbReader} (hr : r.Within lo hi) :
    r.left = (r.stop - r.ptr : ℕ) := by
  have hle := hr.le
  rw [PbReader.left]
  omega

theorem drop_bytes (mem : Contents) {r r' : PbReader} (hr' : r'.Follows r) {n : ℕ} (hptr : r'.ptr = r.ptr + n) :
    r.bytes mem = bytesAt mem r.ptr n ++ r'.bytes mem := by
  have hle := hr'.le
  have hstop := hr'.stop
  rw [PbReader.bytes, PbReader.bytes, hptr, ← bytesAt_add]
  congr 1
  omega

/-- A value that is converted once it is read. -/
theorem Reads.map {α β γ δ : Type} {V : α → β → Prop} {V' : γ → δ → Prop} {r : PbReader}
    {a : Option α × PbReader} {b : Option (β × Bytes)} (h : Reads mem r V a b) (g : α → γ)
    (g' : β → δ) (hV : ∀ v v', V v v' → V' (g v) (g' v')) :
    Reads mem r V' (a.1.map g, a.2) (b.map fun v => (g' v.1, v.2)) := by
  cases h with
  | value hv h => exact .value (hV _ _ hv) h
  | failure r' => exact .failure r'

/-- The bytes of a slice that lies in what a reader has still to read. -/
structure SliceOf (mem : Contents) (r : PbReader) (s : Slice) (content : Bytes) : Prop where
  low : r.ptr ≤ s.data
  high : s.data + s.len ≤ r.stop
  content : bytesAt mem s.data s.len = content

/-- A reader of a submessage, in what the reader of its message has still to read. -/
structure Submessage (mem : Contents) (r sub : PbReader) (content : Bytes) : Prop where
  low : r.ptr ≤ sub.ptr
  le : sub.ptr ≤ sub.stop
  high : sub.stop ≤ r.stop
  content : sub.bytes mem = content

theorem Submessage.within {r sub : PbReader} {content : Bytes} (h : Submessage mem r sub content)
    (hr : r.Within lo hi) : sub.Within lo hi :=
  ⟨hr.low.trans h.low, h.le, h.high.trans hr.high⟩

/-- What `pb_next` returns is what the reader over the list does. -/
inductive ReadsTag (mem : Contents) (r : PbReader) : PbNext → ProcWatch.PbNext → Prop where
  | atEnd : ReadsTag mem r .atEnd .atEnd
  | malformed : ReadsTag mem r .malformed .malformed
  | tag (field wire : ℕ) {r' : PbReader} (h : r'.Follows r) (hptr : r.ptr < r'.ptr) :
      ReadsTag mem r (.tag field wire r') (.tag field wire (r'.bytes mem))

/-- The reader that a value of a wire type leaves. -/
structure PbReader.Behind (mem : Contents) (wire : ℕ) (r' r : PbReader) : Prop where
  follows : r'.Follows r
  value : ∃ v, pbValue (r.bytes mem) wire = some (v, r'.bytes mem)

/-! ## Steps -/

theorem refines_load {γ δ : Type} {Q : γ → δ → Prop} {f : Byte → Reading W γ} {m' : Prog W δ}
    {address : ℕ} (h : lo ≤ address ∧ address < hi)
    (hf : Refines (Safe lo hi) Q (f (mem address)) m') :
    Refines (Safe lo hi) Q (load mem address >>= f) m' := by
  have hload : Safe lo hi (.load address) := h
  exact refines_log (f := fun _ => f (mem address)) hload hf

theorem refines_loadBytes {address n : ℕ} (hlo : lo ≤ address) (hhi : address + n ≤ hi) :
    Refines (W := W) (Safe lo hi) (· = ·) (loadBytes mem n address)
      (Pure.pure (bytesAt mem address n)) := by
  induction n generalizing address with
  | zero => exact refines_pure rfl
  | succ n ih =>
      rw [loadBytes, bytesAt_succ]
      apply refines_load ⟨hlo, by omega⟩
      apply (ih (by omega) (by omega)).bind_value
      rintro _ rfl
      exact refines_pure rfl

theorem refines_advance {γ δ : Type} {Q : γ → δ → Prop} {f : PbReader → Reading W γ}
    {m' : Prog W δ} {r : PbReader} {n : ℕ} (hhi : hi < 2 ^ 64) (hr : r.Within lo hi)
    (hn : n ≤ r.stop - r.ptr)
    (hf : ∀ r', r'.Follows r → r'.ptr = r.ptr + n → Refines (Safe lo hi) Q (f r') m') :
    Refines (Safe lo hi) Q (advance r n >>= f) m' := by
  have hle := hr.le
  have hstop := hr.high
  have hmod : (r.ptr + n) % 2 ^ 64 = r.ptr + n := Nat.mod_eq_of_lt (by omega)
  have hnext := hf { r with ptr := r.ptr + n } ⟨Nat.le_add_right _ _, by simp only; omega, rfl⟩ rfl
  have hmove : Safe lo hi (.move r { r with ptr := r.ptr + n }) :=
    ⟨Nat.le_add_right _ _, by simp only; omega, rfl⟩
  have hadd : Safe lo hi (.add r.ptr n) := by
    rw [Safe]
    omega
  rw [← hmod] at hnext hmove
  exact refines_log (f := fun _ => _) hadd (refines_log (f := fun _ => _) hmove hnext)

/-! ## Values -/

variable (hhi : hi < 2 ^ 64)
include hhi

theorem refines_pbVarintLoop {r : PbReader} (hr : r.Within lo hi) (n shift value : ℕ) :
    Refines (W := W) (Safe lo hi) (Reads mem r (· = ·)) (pbVarintLoop mem n shift value r)
      (Pure.pure (ProcWatch.pbVarintLoop n shift value (r.bytes mem))) := by
  induction n generalizing shift value r with
  | zero => exact refines_pure (.failure r)
  | succ n ih =>
      rw [pbVarintLoop]
      by_cases hend : r.stop ≤ r.ptr
      · have hnil : r.bytes mem = [] := by
          rw [PbReader.bytes, Nat.sub_eq_zero_of_le hend]
          rfl
        rw [if_pos hend, hnil]
        exact refines_pure (.failure r)
      · rw [if_neg hend]
        have hlow := hr.low
        have hhigh := hr.high
        have hcons : r.bytes mem = mem r.ptr :: bytesAt mem (r.ptr + 1) (r.stop - r.ptr - 1) := by
          rw [PbReader.bytes, show r.stop - r.ptr = r.stop - r.ptr - 1 + 1 by omega, bytesAt_succ]
          simp
        apply refines_load ⟨hlow, by omega⟩
        apply refines_advance hhi hr (by omega)
        intro r' hr' hptr
        have hrest : bytesAt mem (r.ptr + 1) (r.stop - r.ptr - 1) = r'.bytes mem := by
          rw [PbReader.bytes, hptr, hr'.stop]
          congr 1
        rw [hcons, hrest, ProcWatch.pbVarintLoop]
        split
        · exact refines_pure (.value rfl hr')
        · exact (ih (hr.follows hr') _ _).mono fun _ _ h => h.follows hr'

theorem refines_pbVarint {r : PbReader} (hr : r.Within lo hi) :
    Refines (W := W) (Safe lo hi) (Reads mem r (· = ·)) (pbVarint mem r)
      (Pure.pure (ProcWatch.pbVarint (r.bytes mem))) :=
  refines_pbVarintLoop hhi hr _ _ _

theorem refines_pbFixed {r : PbReader} (hr : r.Within lo hi) (n : ℕ) :
    Refines (W := W) (Safe lo hi) (Reads mem r (· = ·)) (pbFixed mem n r)
      (Pure.pure (ProcWatch.pbFixed n (r.bytes mem))) := by
  have hlow := hr.low
  have hle := hr.le
  have hhigh := hr.high
  rw [pbFixed, ProcWatch.pbFixed, r.length_bytes, hr.left_eq]
  by_cases hlt : r.stop - r.ptr < n
  · rw [if_pos (by omega), if_pos hlt]
    exact refines_pure (.failure r)
  · rw [if_neg (by omega), if_neg hlt]
    apply (refines_loadBytes hlow (by omega)).bind_value
    rintro _ rfl
    apply refines_advance hhi hr (by omega)
    intro r' hr' hptr
    have hbytes := drop_bytes mem hr' hptr
    have hlength := length_bytesAt mem r.ptr n
    rw [hbytes, List.take_left' hlength, List.drop_left' hlength]
    exact refines_pure (.value rfl hr')

theorem refines_pbFixed32 {r : PbReader} (hr : r.Within lo hi) :
    Refines (W := W) (Safe lo hi) (Reads mem r (· = ·)) (pbFixed32 mem r)
      (Pure.pure (ProcWatch.pbFixed32 (r.bytes mem))) :=
  (refines_pbFixed hhi hr 4).bind_value fun _ h =>
    refines_pure (h.map UInt32.ofNat UInt32.ofNat fun _ _ => congrArg UInt32.ofNat)

theorem refines_pbFixed64 {r : PbReader} (hr : r.Within lo hi) :
    Refines (W := W) (Safe lo hi) (Reads mem r (· = ·)) (pbFixed64 mem r)
      (Pure.pure (ProcWatch.pbFixed64 (r.bytes mem))) :=
  (refines_pbFixed hhi hr 8).bind_value fun _ h =>
    refines_pure (h.map UInt64.ofNat UInt64.ofNat fun _ _ => congrArg UInt64.ofNat)

theorem refines_pbBytes {r : PbReader} (hr : r.Within lo hi) :
    Refines (W := W) (Safe lo hi) (Reads mem r (SliceOf mem r)) (pbBytes mem r)
      (Pure.pure (ProcWatch.pbBytes (r.bytes mem))) := by
  rw [pbBytes, ProcWatch.pbBytes]
  apply (refines_pbVarint hhi hr).bind_value
  intro a h
  generalize ProcWatch.pbVarint (r.bytes mem) = b at h ⊢
  cases h with
  | failure r' => exact refines_pure (.failure r')
  | @value len _ r' hv hr' =>
      subst hv
      have hr'' := hr.follows hr'
      have hhigh := hr''.high
      -- The length is compared with the bytes that are left, and nothing is added to it before.
      have hmod : r'.left % 2 ^ 64 = (r'.stop - r'.ptr : ℕ) := by
        rw [hr''.left_eq]
        omega
      simp only [hmod, r'.length_bytes]
      by_cases hlt : r'.stop - r'.ptr < len
      · rw [if_pos (by omega), if_pos hlt]
        exact refines_pure (.failure r')
      · rw [if_neg (by omega), if_neg hlt]
        apply refines_advance hhi hr'' (by omega)
        intro after hafter hptr
        have hbytes := drop_bytes mem hafter hptr
        have hlength := length_bytesAt mem r'.ptr len
        rw [hbytes, List.take_left' hlength, List.drop_left' hlength]
        have hstop := hr'.stop
        have hle := hr''.le
        have hslice : SliceOf mem r ⟨r'.ptr, len⟩ (bytesAt mem r'.ptr len) :=
          ⟨hr'.ptr, by simp only; omega, rfl⟩
        exact refines_pure (.value hslice (hafter.trans hr'))

theorem refines_pbSubmsg {r : PbReader} (hr : r.Within lo hi) :
    Refines (W := W) (Safe lo hi) (Reads mem r (Submessage mem r)) (pbSubmsg mem r)
      (Pure.pure (ProcWatch.pbBytes (r.bytes mem))) := by
  rw [pbSubmsg]
  apply (refines_pbBytes hhi hr).bind_value
  intro a h
  generalize ProcWatch.pbBytes (r.bytes mem) = b at h ⊢
  cases h with
  | failure r' => exact refines_pure (.failure r')
  | @value s content r' hs hr' =>
      have hhigh := hr.high
      have hshigh := hs.high
      have hadd : Safe lo hi (.add s.data s.len) := by
        rw [Safe]
        omega
      have hsub : Submessage mem r ⟨s.data, s.data + s.len⟩ content := by
        refine ⟨hs.low, Nat.le_add_right _ _, hs.high, ?_⟩
        rw [PbReader.bytes, Nat.add_sub_cancel_left, hs.content]
      have hmade : Safe lo hi (.submessage r ⟨s.data, s.data + s.len⟩) :=
        ⟨hsub.low, hsub.le, hsub.high⟩
      have hmod : (s.data + s.len) % 2 ^ 64 = s.data + s.len := Nat.mod_eq_of_lt (by omega)
      rw [← hmod] at hmade hsub
      exact refines_log (f := fun _ => _) hadd
        (refines_log (f := fun _ => _) hmade (refines_pure (.value hsub hr')))

/-- What is skipped is what would be read. -/
theorem refines_pbSkip {r : PbReader} (hr : r.Within lo hi) (wire : ℕ) :
    Refines (W := W) (Safe lo hi) (Reads mem r fun _ _ => True) (pbSkip mem r wire)
      (Pure.pure (pbValue (r.bytes mem) wire)) := by
  match wire with
  | 0 =>
      exact (refines_pbVarint hhi hr).bind_value fun _ h =>
        refines_pure (h.map _ (fun v => Payload.varint (UInt64.ofNat v)) fun _ _ _ => trivial)
  | 1 =>
      exact (refines_pbFixed64 hhi hr).bind_value fun _ h =>
        refines_pure (h.map _ Payload.fixed64 fun _ _ _ => trivial)
  | 5 =>
      exact (refines_pbFixed32 hhi hr).bind_value fun _ h =>
        refines_pure (h.map _ Payload.fixed32 fun _ _ _ => trivial)
  | 2 =>
      exact (refines_pbBytes hhi hr).bind_value fun _ h =>
        refines_pure (h.map _ Payload.bytes fun _ _ _ => trivial)
  | 3 | 4 | n + 6 => exact refines_pure (.failure r)

theorem refines_readPayload {r : PbReader} (hr : r.Within lo hi) (wire : ℕ) :
    Refines (W := W) (Safe lo hi) (Reads mem r (· = ·)) (readPayload mem r wire)
      (Pure.pure (pbValue (r.bytes mem) wire)) := by
  match wire with
  | 0 =>
      exact (refines_pbVarint hhi hr).bind_value fun _ h =>
        refines_pure (h.map _ _ fun _ _ => congrArg fun v => Payload.varint (UInt64.ofNat v))
  | 1 =>
      exact (refines_pbFixed64 hhi hr).bind_value fun _ h =>
        refines_pure (h.map _ _ fun _ _ => congrArg Payload.fixed64)
  | 5 =>
      exact (refines_pbFixed32 hhi hr).bind_value fun _ h =>
        refines_pure (h.map _ _ fun _ _ => congrArg Payload.fixed32)
  | 2 =>
      apply (refines_pbBytes hhi hr).bind_value
      intro a h
      change Refines _ _ _ (Pure.pure ((ProcWatch.pbBytes (r.bytes mem)).map fun v =>
        (Payload.bytes v.1, v.2)))
      generalize ProcWatch.pbBytes (r.bytes mem) = b at h ⊢
      cases h with
      | failure r' => exact refines_pure (.failure r')
      | @value s content r' hs hr' =>
          apply (refines_loadBytes (hr.low.trans hs.low) (hs.high.trans hr.high)).bind_value
          intro _ hcontent
          rw [hs.content] at hcontent
          exact refines_pure (.value (congrArg Payload.bytes hcontent) hr')
  | 3 | 4 | n + 6 => exact refines_pure (.failure r)

/-! ## Tags -/

theorem refines_pbNext {r : PbReader} (hr : r.Within lo hi) :
    Refines (W := W) (Safe lo hi) (ReadsTag mem r) (pbNext mem r)
      (Pure.pure (ProcWatch.pbNext (r.bytes mem))) := by
  rw [pbNext, ProcWatch.pbNext]
  have hlength := r.length_bytes mem
  by_cases hend : r.stop ≤ r.ptr
  · have hnil : r.bytes mem = [] := List.length_eq_zero_iff.mp (by omega)
    rw [if_pos hend, if_pos hnil]
    exact refines_pure .atEnd
  · have hne : r.bytes mem ≠ [] := List.length_pos_iff.mp (by omega)
    rw [if_neg hend, if_neg hne]
    apply (refines_pbVarint hhi hr).bind_value
    intro a h
    generalize hb : ProcWatch.pbVarint (r.bytes mem) = b at h ⊢
    cases h with
    | failure r' => exact refines_pure .malformed
    | @value key _ r' hv hr' =>
        subst hv
        have hshorter := length_lt_of_pbVarint hb
        rw [hlength, r'.length_bytes, hr'.stop] at hshorter
        dsimp only
        split
        · exact refines_pure .malformed
        · split
          · exact refines_pure .malformed
          · exact refines_pure (.tag _ _ hr' (by omega))

/-! ## Walks -/

section Walks

variable {σ σ' γ δ : Type} {S : σ → σ' → Prop} {Q : γ → δ → Prop}

omit hhi in
/-- A turn of a loop starts with the reader for the wire type of the tag. -/
theorem refines_turn {α β : Type} {V : α → β → Prop} {r : PbReader} {wire : ℕ}
    {op : Reading W (Option α × PbReader)} {b : Option (β × Bytes)}
    (hop : Refines (Safe lo hi) (Reads mem r V) op (Pure.pure b)) {g : β → Payload}
    (hvalue : pbValue (r.bytes mem) wire = b.map fun v => (g v.1, v.2))
    {f : Option α × PbReader → Reading W γ} {T : Option Payload → Prog W δ}
    (hnone : ∀ r', Refines (Safe lo hi) Q (f (none, r')) (T none))
    (hsome : ∀ v v' r', V v v' → r'.Behind mem wire r →
      Refines (Safe lo hi) Q (f (some v, r')) (T (some (g v')))) :
    Refines (Safe lo hi) Q (op >>= f) (T ((pbValue (r.bytes mem) wire).map Prod.fst)) := by
  apply hop.bind_value
  intro a h
  rw [hvalue]
  cases h with
  | failure r' => exact hnone r'
  | value hv hr' => exact hsome _ _ _ hv ⟨hr', _, hvalue⟩

/-- What is left of a loop over fields once a turn has read its value, or failed to. -/
def turn (loop : Ending → List Field → σ' → Prog W δ) (field : ℕ) (ending : Ending)
    (fields : List Field) (s : σ') : Option Payload → Prog W δ
  | none => loop .badValue [] s
  | some v => loop ending (⟨field, v⟩ :: fields) s

/-- A loop over a message refines the loop over its fields, if each turn does. -/
theorem refines_pbWhile {loop : Ending → List Field → σ' → Prog W δ}
    {body : ℕ → ℕ → PbReader → σ → (PbReader → σ → Reading W γ) → Reading W γ}
    {after : σ → Reading W γ}
    (hafter : ∀ ending s s', ending ≠ .badValue → S s s' →
      Refines (Safe lo hi) Q (after s) (loop ending [] s'))
    (hbody : ∀ (r : PbReader) field wire s s' ending fields k, r.Within lo hi → S s s' →
      (∀ r₁ s₁ s₁', r₁.Behind mem wire r → S s₁ s₁' →
        Refines (Safe lo hi) Q (k r₁ s₁) (loop ending fields s₁')) →
      Refines (Safe lo hi) Q (body field wire r s k)
        (turn loop field ending fields s' ((pbValue (r.bytes mem) wire).map Prod.fst)))
    {n : ℕ} {r : PbReader} {s : σ} {s' : σ'} (hr : r.Within lo hi) (hn : r.stop - r.ptr < n)
    (hs : S s s') :
    Refines (Safe lo hi) Q (pbWhile mem body after n r s)
      (loop (pbFieldsFrom n (r.bytes mem)).2 (pbFieldsFrom n (r.bytes mem)).1 s') := by
  induction n generalizing r s s' with
  | zero => omega
  | succ n ih =>
      rw [pbWhile, pbFieldsFrom]
      apply (refines_pbNext hhi hr).bind_value
      intro a h
      generalize ProcWatch.pbNext (r.bytes mem) = b at h ⊢
      cases h with
      | atEnd => exact hafter .atEnd s s' (by decide) hs
      | malformed => exact hafter .malformedTag s s' (by decide) hs
      | @tag field wire r' hr' hptr =>
          have hwithin := hr.follows hr'
          have hle := hr'.le
          have hstop := hr'.stop
          dsimp only
          cases hvalue : pbValue (r'.bytes mem) wire with
          | none =>
              have hturn := hbody r' field wire s s' .atEnd [] (pbWhile mem body after n) hwithin hs
                fun r₁ s₁ s₁' hr₁ => by
                  obtain ⟨v, hv⟩ := hr₁.value
                  rw [hvalue] at hv
                  simp at hv
              rw [hvalue] at hturn
              exact hturn
          | some v =>
              obtain ⟨v, rest⟩ := v
              have hturn := hbody r' field wire s s' (pbFieldsFrom n rest).2 (pbFieldsFrom n rest).1
                (pbWhile mem body after n) hwithin hs fun r₁ s₁ s₁' hr₁ hs₁ => by
                  obtain ⟨v', hv'⟩ := hr₁.value
                  have hrest : rest = r₁.bytes mem := by
                    rw [hvalue] at hv'
                    exact (Prod.mk.inj (Option.some.inj hv')).2
                  have hptr₁ := hr₁.follows.ptr
                  have hstop₁ := hr₁.follows.stop
                  rw [hrest]
                  exact ih (hwithin.follows hr₁.follows) (by omega) hs₁
              rw [hvalue] at hturn
              exact hturn

end Walks

/-! ## Round trips -/

/-- The records that a walk reads, when the first is the one of position `i`. -/
def kept (keep : ℕ → Bool) (i : ℕ) (fields : List Field) : List Field :=
  ((fields.zipIdx i).filter fun f => keep f.2).map Prod.fst

omit hhi in
theorem kept_cons (keep : ℕ → Bool) (i : ℕ) (f : Field) (fields : List Field) :
    kept keep i (f :: fields) =
      if keep i then f :: kept keep (i + 1) fields else kept keep (i + 1) fields := by
  rw [kept, List.zipIdx_cons, List.filter_cons]
  cases keep i <;> rfl

theorem refines_readRecords (keep : ℕ → Bool) {n i : ℕ} {r : PbReader} (hr : r.Within lo hi)
    (hn : r.stop - r.ptr < n) :
    Refines (W := W) (Safe lo hi) (· = ·) (readRecords mem keep n i r)
      (Pure.pure (kept keep i (pbFieldsFrom n (r.bytes mem)).1,
        (pbFieldsFrom n (r.bytes mem)).2)) := by
  induction n generalizing i r with
  | zero => omega
  | succ n ih =>
      rw [readRecords, pbFieldsFrom]
      apply (refines_pbNext hhi hr).bind_value
      intro a h
      generalize ProcWatch.pbNext (r.bytes mem) = b at h ⊢
      cases h with
      | atEnd => exact refines_pure rfl
      | malformed => exact refines_pure rfl
      | @tag field wire r' hr' hptr =>
          have hwithin := hr.follows hr'
          have hle := hr'.le
          have hstop := hr'.stop
          dsimp only
          by_cases hkeep : keep i = true
          · rw [if_pos hkeep]
            apply (refines_readPayload hhi hwithin wire).bind_value
            intro a h
            generalize pbValue (r'.bytes mem) wire = b at h ⊢
            cases h with
            | failure r₁ => exact refines_pure rfl
            | @value v _ r₁ hv hr₁ =>
                subst hv
                have hstop₁ := hr₁.stop
                have hptr₁ := hr₁.ptr
                apply (ih (i := i + 1) (hwithin.follows hr₁) (by omega)).bind_value
                rintro _ rfl
                rw [kept_cons, if_pos hkeep]
                exact refines_pure rfl
          · rw [if_neg hkeep]
            apply (refines_pbSkip hhi hwithin wire).bind_value
            intro a h
            generalize pbValue (r'.bytes mem) wire = b at h ⊢
            cases h with
            | failure r₁ => exact refines_pure rfl
            | @value v _ r₁ hv hr₁ =>
                have hstop₁ := hr₁.stop
                have hptr₁ := hr₁.ptr
                rw [kept_cons, if_neg hkeep]
                exact ih (hwithin.follows hr₁) (by omega)

/-- The records that a walk reads are those that the reader over the list finds. -/
theorem readRecords_eq (keep : ℕ → Bool) {r : PbReader} (hr : r.Within lo hi)
    (x : Traced W Event) :
    (readRecords mem keep r.turns 0 r x).1 =
      .ret (kept keep 0 (pbFields (r.bytes mem)).1, (pbFields (r.bytes mem)).2) := by
  have hrefines : Refines (W := W) (Safe lo hi) (· = ·)
      (readRecords mem keep (r.stop - r.ptr + 1) 0 r) _ :=
    refines_readRecords hhi keep hr (Nat.lt_succ_self _)
  have hrun := (hrefines x).outcome
  rw [pbFields, r.length_bytes]
  rw [Prog.pure_apply] at hrun
  rw [PbReader.turns]
  generalize (readRecords mem keep (r.stop - r.ptr + 1) 0 r x).1 = o at hrun
  cases hrun with
  | ret h => rw [h]

omit hhi in
/-- A walk over encoded records reads exactly those that it does not skip, in order, and then
finds the end of the reader, whatever stands in memory behind them. -/
theorem readRecords_encode {fs : List Field} (hfs : ∀ f ∈ fs, f.Valid) {base : ℕ}
    (hbase : base + (encode fs).length < 2 ^ 64)
    (hmem : bytesAt mem base (encode fs).length = encode fs) (keep : ℕ → Bool)
    (x : Traced W Event) :
    (readRecords mem keep (PbReader.turns ⟨base, base + (encode fs).length⟩) 0
      ⟨base, base + (encode fs).length⟩ x).1 = .ret (kept keep 0 fs, .atEnd) := by
  have hbytes : PbReader.bytes mem ⟨base, base + (encode fs).length⟩ = encode fs := by
    rw [PbReader.bytes, Nat.add_sub_cancel_left, hmem]
  have hwithin : PbReader.Within base (base + (encode fs).length)
      ⟨base, base + (encode fs).length⟩ := ⟨le_rfl, Nat.le_add_right _ _, le_rfl⟩
  rw [readRecords_eq hbase keep hwithin, hbytes,
    pbFields_encode hfs ((Nat.le_add_left _ _).trans_lt hbase)]

omit hhi in
/-- Of a varint, a string and a fixed32 the string is skipped. -/
theorem readRecords_encode_three :
    (readRecords (fun a => ([0x80, 0x01, 0x96, 0x01, 0x0a, 0x01, 0x41, 0x1d, 1, 0, 0, 0] : Bytes).getD a 0xff)
      (· ≠ 1) 13 0 ⟨0, 12⟩ (⟨(), []⟩ : Traced Unit Event)).1 =
      .ret ([⟨16, .varint 150⟩, ⟨3, .fixed32 1⟩], .atEnd) := by
  have hvalid : ∀ f ∈ ([⟨16, .varint 150⟩, ⟨1, .bytes [0x41]⟩, ⟨3, .fixed32 1⟩] : List Field),
      f.Valid := by decide
  have hbase : 0 + (encode [⟨16, .varint 150⟩, ⟨1, .bytes [0x41]⟩, ⟨3, .fixed32 1⟩]).length <
      2 ^ 64 := by decide +kernel
  exact readRecords_encode hvalid hbase (by decide +kernel) (· ≠ 1) ⟨(), []⟩

end ProcWatch.Memory

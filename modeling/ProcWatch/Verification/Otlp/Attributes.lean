import ProcWatch.Model.OtlpMemory
import ProcWatch.Verification.Otlp.Memory

/-! # Attributes over memory -/

namespace ProcWatch.Memory

open CLib Wire Traced

variable {W : Type} {mem : Contents} {lo hi : ℕ}

/-! ## Turns of a loop -/

theorem wire_of_pbValue {r rest : Bytes} {wire : ℕ} {v : Payload}
    (h : pbValue r wire = some (v, rest)) : v.wire = wire := by
  unfold pbValue at h
  split at h
  · obtain ⟨_, _, h⟩ := Option.map_eq_some_iff.mp h
    rw [← (Prod.mk.inj h).1]
    rfl
  · obtain ⟨_, _, h⟩ := Option.map_eq_some_iff.mp h
    rw [← (Prod.mk.inj h).1]
    rfl
  · obtain ⟨_, _, h⟩ := Option.map_eq_some_iff.mp h
    rw [← (Prod.mk.inj h).1]
    rfl
  · obtain ⟨_, _, h⟩ := Option.map_eq_some_iff.mp h
    rw [← (Prod.mk.inj h).1]
    rfl
  · cases h

section Turns

variable {σ' γ δ : Type} {Q : γ → δ → Prop} {loop : Ending → List Field → σ' → Prog W δ}
  {field : ℕ} {ending : Ending} {fields : List Field} {s' : σ'} {r : PbReader} {fail : Reading W γ}

theorem refines_reading {α β : Type} {V : α → β → Prop} {wire : ℕ}
    {op : Reading W (Option α × PbReader)} {b : Option (β × Bytes)}
    (hop : Refines (Safe lo hi) (Reads mem r V) op (Pure.pure b)) {g : β → Payload}
    (hvalue : pbValue (r.bytes mem) wire = b.map fun v => (g v.1, v.2))
    (hfail : Refines (Safe lo hi) Q fail (loop .badValue [] s')) {use : PbReader → α → Reading W γ}
    (huse : ∀ v v' r', V v v' → r'.Behind mem wire r →
      Refines (Safe lo hi) Q (use r' v) (loop ending (⟨field, g v'⟩ :: fields) s')) :
    Refines (Safe lo hi) Q (reading op fail use)
      (turn loop field ending fields s' ((pbValue (r.bytes mem) wire).map Prod.fst)) :=
  refines_turn hop hvalue (fun _ => hfail) huse

variable (hhi : hi < 2 ^ 64) (hr : r.Within lo hi)
  (hfail : Refines (Safe lo hi) Q fail (loop .badValue [] s'))
include hhi hr hfail

theorem refines_bytes {use : PbReader → Slice → Reading W γ}
    (huse : ∀ s content r', SliceOf mem r s content → r'.Behind mem 2 r →
      Refines (Safe lo hi) Q (use r' s) (loop ending (⟨field, .bytes content⟩ :: fields) s')) :
    Refines (Safe lo hi) Q (reading (pbBytes mem r) fail use)
      (turn loop field ending fields s' ((pbValue (r.bytes mem) 2).map Prod.fst)) :=
  refines_reading (refines_pbBytes hhi hr) rfl hfail huse

theorem refines_submsg {use : PbReader → PbReader → Reading W γ}
    (huse : ∀ sub r', sub.Within lo hi → r'.Behind mem 2 r →
      Refines (Safe lo hi) Q (use r' sub)
        (loop ending (⟨field, .bytes (sub.bytes mem)⟩ :: fields) s')) :
    Refines (Safe lo hi) Q (reading (pbSubmsg mem r) fail use)
      (turn loop field ending fields s' ((pbValue (r.bytes mem) 2).map Prod.fst)) := by
  refine refines_reading (refines_pbSubmsg hhi hr) rfl hfail fun sub content r' hsub hr' => ?_
  have hcontent := hsub.content
  subst hcontent
  exact huse sub r' (hsub.within hr) hr'

theorem refines_varint {use : PbReader → ℕ → Reading W γ}
    (huse : ∀ v r', r'.Behind mem 0 r →
      Refines (Safe lo hi) Q (use r' v)
        (loop ending (⟨field, .varint (UInt64.ofNat v)⟩ :: fields) s')) :
    Refines (Safe lo hi) Q (reading (pbVarint mem r) fail use)
      (turn loop field ending fields s' ((pbValue (r.bytes mem) 0).map Prod.fst)) := by
  refine refines_reading (g := fun v => Payload.varint (UInt64.ofNat v)) (refines_pbVarint hhi hr)
    rfl hfail fun v v' r' hv hr' => ?_
  subst hv
  exact huse v r' hr'

theorem refines_fixed64 {use : PbReader → UInt64 → Reading W γ}
    (huse : ∀ v r', r'.Behind mem 1 r →
      Refines (Safe lo hi) Q (use r' v) (loop ending (⟨field, .fixed64 v⟩ :: fields) s')) :
    Refines (Safe lo hi) Q (reading (pbFixed64 mem r) fail use)
      (turn loop field ending fields s' ((pbValue (r.bytes mem) 1).map Prod.fst)) := by
  refine refines_reading (refines_pbFixed64 hhi hr) rfl hfail fun v v' r' hv hr' => ?_
  subst hv
  exact huse v r' hr'

theorem refines_skip {wire : ℕ} {use : PbReader → Unit → Reading W γ}
    (huse : ∀ (v : Payload) r', v.wire = wire → r'.Behind mem wire r →
      Refines (Safe lo hi) Q (use r' ()) (loop ending (⟨field, v⟩ :: fields) s')) :
    Refines (Safe lo hi) Q (reading (pbSkip mem r wire) fail use)
      (turn loop field ending fields s' ((pbValue (r.bytes mem) wire).map Prod.fst)) := by
  apply (refines_pbSkip hhi hr wire).bind_value
  intro a h
  cases hvalue : pbValue (r.bytes mem) wire with
  | none =>
      rw [hvalue] at h
      cases h with
      | failure r' => exact hfail
  | some v =>
      obtain ⟨v, rest⟩ := v
      rw [hvalue] at h
      generalize hb : some (v, rest) = b at h
      cases h with
      | failure r' => cases hb
      | @value _ v' r' _ hr' =>
          obtain ⟨rfl, rfl⟩ := Prod.mk.inj (Option.some.inj hb)
          exact huse v r' (wire_of_pbValue hvalue) ⟨hr', _, hvalue⟩

end Turns

/-- A loop over a whole reader. -/
theorem refines_loop {σ σ' γ δ : Type} {S : σ → σ' → Prop} {Q : γ → δ → Prop}
    (hhi : hi < 2 ^ 64) (loop : Ending → List Field → σ' → Prog W δ)
    {body : ℕ → ℕ → PbReader → σ → (PbReader → σ → Reading W γ) → Reading W γ}
    {after : σ → Reading W γ} {r : PbReader} {s : σ} {s' : σ'} (hr : r.Within lo hi) (hs : S s s')
    (hafter : ∀ ending s s', ending ≠ .badValue → S s s' →
      Refines (Safe lo hi) Q (after s) (loop ending [] s'))
    (hbody : ∀ (r : PbReader) field wire s s' ending fields k, r.Within lo hi → S s s' →
      (∀ r₁ s₁ s₁', r₁.Behind mem wire r → S s₁ s₁' →
        Refines (Safe lo hi) Q (k r₁ s₁) (loop ending fields s₁')) →
      Refines (Safe lo hi) Q (body field wire r s k)
        (turn loop field ending fields s' ((pbValue (r.bytes mem) wire).map Prod.fst))) :
    Refines (Safe lo hi) Q (pbWhile mem body after r.turns r s)
      (loop (pbFields (r.bytes mem)).2 (pbFields (r.bytes mem)).1 s') := by
  rw [pbFields, r.length_bytes]
  exact refines_pbWhile hhi hafter hbody hr (Nat.lt_succ_self _) hs

/-! ## Strings -/

theorem take_bytesAt {address n k : ℕ} (h : k ≤ n) :
    bytesAt mem address k = (bytesAt mem address n).take k := by
  obtain ⟨m, rfl⟩ := Nat.exists_eq_add_of_le h
  rw [bytesAt_add, List.take_left' (length_bytesAt _ _ _)]

section Strings

variable {r : PbReader} {s : Slice} {content : Bytes} (hr : r.Within lo hi)
  (hs : SliceOf mem r s content)
include hr hs

/-- The bytes that a limit leaves of a slice. -/
theorem refines_loadBytes_limit (limit : ℕ) {n : ℕ}
    (hn : n = min limit s.len) :
    Refines (W := W) (Safe lo hi) (· = ·) (loadBytes mem n s.data)
      (Pure.pure (content.take limit)) := by
  have hlow := hr.low.trans hs.low
  have hhigh := hs.high.trans hr.high
  have hlength := length_bytesAt mem s.data s.len
  have hbytes : content.take limit = bytesAt mem s.data n := by
    rw [take_bytesAt (show n ≤ s.len by omega), hs.content, hn, ← List.take_take,
      List.take_of_length_le (l := content) (i := s.len) (by rw [← hs.content, hlength])]
  rw [hbytes]
  exact refines_loadBytes hlow (by omega)

theorem refines_pwCopyStr (cap : ℕ) [NeZero cap] :
    Refines (W := W) (Safe lo hi) (· = ·) (pwCopyStr mem cap s)
      (Pure.pure (ProcWatch.pwCopyStr cap content)) := by
  have hcap := NeZero.pos cap
  apply (refines_loadBytes_limit hr hs (cap - 1) (by split <;> omega)).bind_value
  rintro _ rfl
  apply refines_pure
  apply CStr.ext
  simp only [ProcWatch.pwCopyStr, List.take_take, min_self]

theorem refines_pwToHex (cap : ℕ) [NeZero cap] :
    Refines (W := W) (Safe lo hi) (· = ·) (pwToHex mem cap s)
      (Pure.pure (ProcWatch.pwToHex cap content)) := by
  apply (refines_loadBytes_limit hr hs ((cap - 1) / 2) (by split <;> omega)).bind_value
  rintro _ rfl
  apply refines_pure
  apply CStr.ext
  simp only [ProcWatch.pwToHex, List.take_take, min_self]

end Strings

/-! ## JSON strings -/

theorem refines_continuations {address n : ℕ} (hlow : lo ≤ address) (hhigh : address + n ≤ hi) :
    Refines (W := W) (Safe lo hi) (· = ·) (continuations mem n address)
      (Pure.pure (!(bytesAt mem address n).any fun b => b &&& 0xc0 ≠ 0x80)) := by
  induction n generalizing address with
  | zero => exact refines_pure rfl
  | succ n ih =>
      rw [continuations, bytesAt_succ]
      apply refines_load ⟨hlow, by omega⟩
      by_cases hb : mem address &&& 0xc0 ≠ 0x80
      · rw [if_pos hb]
        exact refines_pure (by simp [hb])
      · rw [if_neg hb]
        have hbyte : decide (mem address &&& 0xc0 ≠ 0x80) = false := decide_eq_false hb
        rw [List.any_cons, hbyte, Bool.false_or]
        exact ih (by omega) (by omega)

theorem utf8SeqLen_cons (c : Byte) (s : Bytes) :
    ProcWatch.utf8SeqLen (c :: s) =
      if c < 0x80 then 1
      else if utf8Need c = 0 then 0
      else if s.length + 1 < utf8Need c then 0
      else if ((c :: s).take (utf8Need c)).drop 1 |>.any fun b => b &&& 0xc0 ≠ 0x80 then 0
      else if utf8Need c = 2 ∧ c < 0xc2 then 0
      else if utf8Need c = 3 ∧ c = 0xe0 ∧ s.getD 0 0 < 0xa0 then 0
      else if utf8Need c = 4 ∧ (0xf4 < c ∨ c = 0xf0 ∧ s.getD 0 0 < 0x90) then 0
      else utf8Need c := rfl

/-- The sequence length is looked for in the bytes that are there. -/
theorem refines_utf8SeqLen {p avail : ℕ} (hlow : lo ≤ p) (hhigh : p + (avail + 1) ≤ hi) :
    Refines (W := W) (Safe lo hi) (· = ·) (utf8SeqLen mem p (avail + 1))
      (Pure.pure (ProcWatch.utf8SeqLen (bytesAt mem p (avail + 1)))) := by
  rw [utf8SeqLen, bytesAt_succ, utf8SeqLen_cons, length_bytesAt]
  apply refines_load ⟨hlow, by omega⟩
  dsimp only
  generalize mem p = c
  generalize utf8Need c = need
  by_cases hascii : c < 0x80
  · rw [if_pos hascii, if_pos hascii]
    exact refines_pure rfl
  rw [if_neg hascii, if_neg hascii]
  by_cases h0 : need = 0
  · rw [if_pos h0, if_pos h0]
    exact refines_pure rfl
  rw [if_neg h0, if_neg h0]
  by_cases hfew : avail + 1 < need
  · rw [if_pos hfew, if_pos hfew]
    exact refines_pure rfl
  rw [if_neg hfew, if_neg hfew]
  have hrest : ((c :: bytesAt mem (p + 1) avail).take need).drop 1 =
      bytesAt mem (p + 1) (need - 1) := by
    rw [take_bytesAt (show need - 1 ≤ avail by omega)]
    obtain ⟨m, rfl⟩ : ∃ m, need = m + 1 := ⟨need - 1, by omega⟩
    rfl
  have hsecond : 2 ≤ need → (bytesAt mem (p + 1) avail).getD 0 0 = mem (p + 1) := by
    intro h2
    obtain ⟨m, rfl⟩ : ∃ m, avail = m + 1 := ⟨avail - 1, by omega⟩
    simp [bytesAt_succ]
  have hload : 2 ≤ need → lo ≤ p + 1 ∧ p + 1 < hi := by omega
  rw [hrest]
  apply (refines_continuations (by omega) (by omega)).bind_value
  rintro _ rfl
  cases (bytesAt mem (p + 1) (need - 1)).any fun b => b &&& 0xc0 ≠ 0x80 with
  | true => exact refines_pure rfl
  | false =>
      simp only [Bool.not_false, Bool.not_true, Bool.false_eq_true, if_false]
      by_cases htwo : need = 2 ∧ c < 0xc2
      · rw [if_pos htwo, if_pos htwo]
        exact refines_pure rfl
      rw [if_neg htwo, if_neg htwo]
      by_cases hthree : need = 3 ∧ c = 0xe0
      · obtain ⟨rfl, rfl⟩ := hthree
        rw [hsecond (by decide)]
        exact refines_load (hload (by decide)) (refines_pure (by simp))
      have hthree' : ¬ (need = 3 ∧ c = 0xe0 ∧ (bytesAt mem (p + 1) avail).getD 0 0 < 0xa0) :=
        fun h => hthree ⟨h.1, h.2.1⟩
      rw [if_neg hthree, if_neg hthree']
      by_cases hbig : need = 4 ∧ 0xf4 < c
      · rw [if_pos hbig, if_pos ⟨hbig.1, .inl hbig.2⟩]
        exact refines_pure rfl
      rw [if_neg hbig]
      by_cases hfour : need = 4 ∧ c = 0xf0
      · obtain ⟨rfl, rfl⟩ := hfour
        rw [hsecond (by decide)]
        exact refines_load (hload (by decide)) (refines_pure (by simp))
      · have hneither : ¬ (need = 4 ∧ (0xf4 < c ∨ c = 0xf0 ∧
            (bytesAt mem (p + 1) avail).getD 0 0 < 0x90)) := by
          rintro ⟨hneed, hc | hc⟩
          · exact hbig ⟨hneed, hc⟩
          · exact hfour ⟨hneed, hc.1⟩
        rw [if_neg hfour, if_neg hneither]
        exact refines_pure rfl

theorem utf8SeqLen_le (c : Byte) (s : Bytes) : ProcWatch.utf8SeqLen (c :: s) ≤ s.length + 1 := by
  rw [utf8SeqLen_cons]
  split
  · omega
  · split
    · omega
    · split
      · omega
      · repeat' split
        all_goals omega

theorem drop_bytesAt {address n k : ℕ} (h : k ≤ n) :
    (bytesAt mem address n).drop k = bytesAt mem (address + k) (n - k) := by
  obtain ⟨m, rfl⟩ := Nat.exists_eq_add_of_le h
  rw [bytesAt_add, List.drop_left' (length_bytesAt _ _ _), Nat.add_sub_cancel_left]

theorem refines_jsonStringLoop {cap n m p left : ℕ} (hn : left ≤ n) (hm : left ≤ m)
    (hlow : lo ≤ p) (hhigh : p + left ≤ hi) (sb : Sb cap) :
    Refines (W := W) (Safe lo hi) (· = ·) (jsonStringLoop mem n p left sb)
      (Pure.pure (ProcWatch.jsonStringLoop m (bytesAt mem p left) sb)) := by
  induction n generalizing m p left sb with
  | zero =>
      obtain rfl : left = 0 := by omega
      have hdone : ProcWatch.jsonStringLoop m (bytesAt mem p 0) sb = sb := by cases m <;> rfl
      rw [jsonStringLoop, hdone]
      exact refines_pure rfl
  | succ n ih =>
      cases left with
      | zero =>
          have hdone : ProcWatch.jsonStringLoop m (bytesAt mem p 0) sb = sb := by cases m <;> rfl
          rw [jsonStringLoop, hdone]
          exact refines_pure rfl
      | succ left =>
          obtain ⟨m, rfl⟩ : ∃ k, m = k + 1 := ⟨m - 1, by omega⟩
          have hnext (sb : Sb cap) : Refines (W := W) (Safe lo hi) (· = ·)
              (jsonStringLoop mem n (p + 1) left sb)
              (Pure.pure (ProcWatch.jsonStringLoop m (bytesAt mem (p + 1) left) sb)) :=
            ih (by omega) (by omega) (by omega) (by omega) sb
          have hseq : Refines (W := W) (Safe lo hi) (· = ·) (utf8SeqLen mem p (left + 1)) _ :=
            refines_utf8SeqLen hlow hhigh
          rw [jsonStringLoop, bytesAt_succ, ProcWatch.jsonStringLoop]
          apply refines_load ⟨hlow, by omega⟩
          rw [bytesAt_succ] at hseq
          have hle := utf8SeqLen_le (mem p) (bytesAt mem (p + 1) left)
          rw [length_bytesAt] at hle
          split
          · exact hnext _
          split
          · exact hnext _
          split
          · exact hnext _
          split
          · exact hnext _
          split
          · exact hnext _
          split
          · exact hnext _
          apply hseq.bind_value
          rintro _ rfl
          dsimp only
          split
          · exact hnext _
          · next hlen =>
              apply (refines_loadBytes hlow (by omega)).bind_value
              rintro _ rfl
              rw [← bytesAt_succ] at hle hlen ⊢
              rw [← take_bytesAt hle, drop_bytesAt hle]
              exact ih (by omega) (by omega) (by omega) (by omega) _

theorem refines_pwSbJsonString {r : PbReader} {s : Slice} {content : Bytes} (hr : r.Within lo hi)
    (hs : SliceOf mem r s content) {cap : ℕ} (sb : Sb cap) :
    Refines (W := W) (Safe lo hi) (· = ·) (pwSbJsonString mem sb s)
      (Pure.pure (ProcWatch.pwSbJsonString sb content)) := by
  rw [pwSbJsonString, ProcWatch.pwSbJsonString, ← hs.content, length_bytesAt]
  apply (refines_jsonStringLoop le_rfl le_rfl (hr.low.trans hs.low)
    (hs.high.trans hr.high) _).bind_value
  rintro _ rfl
  exact refines_pure rfl

/-! ## Key-value pairs -/

/-- The reader of a value and its bytes. -/
inductive IsValue (mem : Contents) (lo hi : ℕ) : Option PbReader → Option Bytes → Prop where
  | none : IsValue mem lo hi none none
  | some {r : PbReader} (h : r.Within lo hi) : IsValue mem lo hi (some r) (some (r.bytes mem))

/-- What `pw_parse_kv` finds, over memory and over the list. -/
structure SamePair (mem : Contents) (lo hi : ℕ) (s : CStr 256 × Option PbReader)
    (s' : CStr 256 × Option Bytes) : Prop where
  key : s.1 = s'.1
  value : IsValue mem lo hi s.2 s'.2

section Pairs

variable (hhi : hi < 2 ^ 64)
include hhi

theorem refines_pwParseKv {kv : PbReader} (hkv : kv.Within lo hi) :
    Refines (W := W) (Safe lo hi) (SamePair mem lo hi) (pwParseKv mem kv)
      (Pure.pure (ProcWatch.pwParseKv (kv.bytes mem))) := by
  refine refines_loop hhi (fun _ fields s => Pure.pure (fields.foldl parseKvStep s))
    (S := SamePair mem lo hi) hkv ⟨rfl, .none⟩ (fun _ s s' _ hs => refines_pure hs) ?_
  intro r field wire s s' ending fields k hr hs hk
  unfold parseKvBody
  split
  · refine refines_bytes hhi hr (refines_pure hs) fun key content r' hkey hr' => ?_
    apply (refines_pwCopyStr hr hkey 256).bind_value
    rintro _ rfl
    exact hk _ _ _ hr' ⟨rfl, hs.value⟩
  · exact refines_submsg hhi hr (refines_pure hs) fun sub r' hsub hr' =>
      hk _ _ _ hr' ⟨hs.key, .some hsub⟩
  · next hkey hvalue =>
      refine refines_skip hhi hr (refines_pure hs) fun v r' hwire hr' => ?_
      have hskip : parseKvStep s' ⟨field, v⟩ = s' := by
        unfold parseKvStep
        split <;> simp_all [Payload.wire]
      have hnext := hk r' s s' hr' hs
      rw [List.foldl_cons, hskip]
      exact hnext

/-- What the loop of `pw_any_value_as_string` finds among the fields. -/
def anyValueText (cap : ℕ) [NeZero cap] (f : Field) : Option (CStr cap) :=
  match f with
  | ⟨F_AV_STRING, .bytes s⟩ => some (ProcWatch.pwCopyStr cap s)
  | _ => none

theorem refines_pwAnyValueAsString (cap : ℕ) [NeZero cap] {value : PbReader}
    (hvalue : value.Within lo hi) :
    Refines (W := W) (Safe lo hi) (· = ·) (pwAnyValueAsString mem cap value)
      (Pure.pure (ProcWatch.pwAnyValueAsString cap (value.bytes mem))) := by
  refine refines_loop hhi (fun _ fields _ => Pure.pure (fields.findSome? (anyValueText cap)))
    (S := (· = ·)) hvalue (rfl : () = ()) (fun _ _ _ _ _ => refines_pure rfl) ?_
  intro r field wire s s' ending fields k hr hs hk
  unfold anyValueAsStringBody
  split
  · refine refines_bytes hhi hr (refines_pure rfl) fun text content r' htext hr' => ?_
    apply (refines_pwCopyStr hr htext cap).bind_value
    rintro _ rfl
    exact refines_pure rfl
  · next hstring =>
      refine refines_skip hhi hr (refines_pure rfl) fun v r' hwire hr' => ?_
      have hskip : anyValueText cap ⟨field, v⟩ = none := by
        unfold anyValueText
        split <;> simp_all [Payload.wire]
      have hnext := hk r' s s' hr' hs
      rw [List.findSome?_cons, hskip]
      exact hnext

end Pairs

/-! ## Values -/

section Values

variable {cap : ℕ} {any : AnyValueDecoder W cap} {any' : Bytes → Sb cap → Sb cap} {depth : ℕ}
  (hhi : hi < 2 ^ 64)
  (hany : ∀ (value : PbReader) sb, value.Within lo hi →
    Refines (Safe lo hi) (· = ·) (any value sb (depth + 1))
      (Pure.pure (any' (value.bytes mem) sb)))
include hhi hany

theorem refines_pwAppendKvJson {kv : PbReader} (hkv : kv.Within lo hi) (sb : Sb cap) :
    Refines (W := W) (Safe lo hi) (· = ·) (pwAppendKvJson mem any kv sb depth)
      (Pure.pure (ProcWatch.pwAppendKvJson any' (kv.bytes mem) sb)) := by
  rw [pwAppendKvJson, ProcWatch.pwAppendKvJson]
  apply (refines_pwParseKv hhi hkv).bind_value
  intro s hs
  obtain ⟨key, value⟩ := s
  generalize ProcWatch.pwParseKv (kv.bytes mem) = s' at hs ⊢
  obtain ⟨key', value'⟩ := s'
  obtain ⟨rfl, hvalue⟩ := hs
  dsimp only at hvalue ⊢
  split
  · exact refines_pure rfl
  · cases hvalue with
    | none => exact refines_pure rfl
    | some hr =>
        apply (hany _ _ hr).bind_value
        rintro _ rfl
        exact refines_pure rfl

theorem refines_appendMember {kv : PbReader} (hkv : kv.Within lo hi) (s : Bool × Sb cap) :
    Refines (W := W) (Safe lo hi) (· = ·) (appendMember mem any s kv depth)
      (Pure.pure (ProcWatch.appendMember any' s (kv.bytes mem))) := by
  rw [appendMember, ProcWatch.appendMember]
  apply (refines_pwAppendKvJson hhi hany hkv _).bind_value
  rintro _ rfl
  cases ProcWatch.pwAppendKvJson any' (kv.bytes mem) (if s.1 then s.2 else pwSbPutc s.2 0x2c) with
  | none => exact refines_pure rfl
  | some sb => exact refines_pure rfl

omit hhi hany in
/-- One turn of the loop of `decode_value_list`. -/
def valueListStep (any' : Bytes → Sb cap → Sb cap) (s : Bool × Sb cap) (f : Field) :
    Bool × Sb cap :=
  match f with
  | ⟨F_LIST_VALUES, .bytes sub⟩ => (false, any' sub (if s.1 then s.2 else pwSbPutc s.2 0x2c))
  | _ => s

theorem refines_decodeValueList {r : PbReader} (hr : r.Within lo hi) (sb : Sb cap) :
    Refines (W := W) (Safe lo hi) (· = ·) (decodeValueList mem any r sb depth)
      (Pure.pure (ProcWatch.decodeValueList any' (r.bytes mem) sb)) := by
  refine refines_loop hhi
    (fun _ fields s => Pure.pure (pwSbPutc (fields.foldl (valueListStep any') s).2 0x5d))
    (S := (· = ·)) hr rfl (fun _ s s' _ hs => refines_pure (by rw [hs]; rfl)) ?_
  rintro r field wire s _ ending fields k hr rfl hk
  unfold valueListBody
  split
  · refine refines_submsg hhi hr (refines_pure rfl) fun sub r' hsub hr' => ?_
    apply (hany _ _ hsub).bind_value
    rintro _ rfl
    exact hk _ _ _ hr' rfl
  · next hvalues =>
      refine refines_skip hhi hr (refines_pure rfl) fun v r' hwire hr' => ?_
      have hskip : valueListStep any' s ⟨field, v⟩ = s := by
        unfold valueListStep
        split <;> simp_all [Payload.wire]
      have hnext := hk r' s s hr' rfl
      rw [List.foldl_cons, hskip]
      exact hnext

/-- One turn of the loop of `decode_kvlist`. -/
def kvlistStep (any' : Bytes → Sb cap → Sb cap) (s : Bool × Sb cap) (f : Field) :
    Bool × Sb cap :=
  match f with
  | ⟨F_LIST_VALUES, .bytes kv⟩ => ProcWatch.appendMember any' s kv
  | _ => s

theorem refines_decodeKvlist {r : PbReader} (hr : r.Within lo hi) (sb : Sb cap) :
    Refines (W := W) (Safe lo hi) (· = ·) (decodeKvlist mem any r sb depth)
      (Pure.pure (ProcWatch.decodeKvlist any' (r.bytes mem) sb)) := by
  refine refines_loop hhi
    (fun _ fields s => Pure.pure (pwSbPutc (fields.foldl (kvlistStep any') s).2 0x7d))
    (S := (· = ·)) hr rfl (fun _ s s' _ hs => refines_pure (by rw [hs]; rfl)) ?_
  rintro r field wire s _ ending fields k hr rfl hk
  unfold kvlistBody
  split
  · refine refines_submsg hhi hr (refines_pure rfl) fun kv r' hkv hr' => ?_
    apply (refines_appendMember hhi hany hkv s).bind_value
    rintro _ rfl
    exact hk _ _ _ hr' rfl
  · next hvalues =>
      refine refines_skip hhi hr (refines_pure rfl) fun v r' hwire hr' => ?_
      have hskip : kvlistStep any' s ⟨field, v⟩ = s := by
        unfold kvlistStep
        split <;> simp_all [Payload.wire]
      have hnext := hk r' s s hr' rfl
      rw [List.foldl_cons, hskip]
      exact hnext

end Values

section Depth

variable {cap : ℕ} (hhi : hi < 2 ^ 64)
include hhi

/-- One turn of the loop of `decode_any_value`. -/
def anyValueStep (left : ℕ) (s : Bool × Sb cap) (f : Field) : Bool × Sb cap :=
  match f with
  | ⟨F_AV_STRING, .bytes b⟩ => (true, ProcWatch.pwSbJsonString s.2 b)
  | ⟨F_AV_BOOL, .varint v⟩ => (true, pwSbPuts s.2 (if v ≠ 0 then bytes "true" else bytes "false"))
  | ⟨F_AV_INT, .varint v⟩ => (true, pwSbPuts s.2 (decimalInt v.toInt64.toInt))
  | ⟨F_AV_DOUBLE, .fixed64 bits⟩ => (true, pwSbPuts s.2 (Double.fmtG 17 ⟨bits⟩))
  | ⟨F_AV_ARRAY, .bytes sub⟩ =>
      (true, ProcWatch.decodeValueList (ProcWatch.decodeAnyValue left) sub s.2)
  | ⟨F_AV_KVLIST, .bytes sub⟩ =>
      (true, ProcWatch.decodeKvlist (ProcWatch.decodeAnyValue left) sub s.2)
  | ⟨F_AV_BYTES, .bytes b⟩ =>
      (true, ProcWatch.pwSbJsonString s.2 (ProcWatch.pwToHex 129 b).val)
  | _ => s

/-- Within `nested` other activations the depth is one more, and the levels that are still
allowed and the room run out together with it. -/
theorem refines_decodeAnyValue {left room nested : ℕ} (hroom : left < room)
    (hdepth : nested + 1 + left = PW_ATTR_MAX_DEPTH + 1) {r : PbReader} (hr : r.Within lo hi)
    (sb : Sb cap) :
    Refines (W := W) (Safe lo hi) (· = ·) (decodeAnyValue mem room nested r sb (nested + 1))
      (Pure.pure (ProcWatch.decodeAnyValue left (r.bytes mem) sb)) := by
  induction left generalizing room nested r sb with
  | zero =>
      obtain ⟨room, rfl⟩ : ∃ n, room = n + 1 := ⟨room - 1, by omega⟩
      rw [decodeAnyValue]
      apply refines_log (show Safe lo hi (.activation (nested + 1)) from by rw [Safe]; omega)
      rw [if_pos (by omega)]
      exact refines_pure rfl
  | succ left ih =>
      obtain ⟨room, rfl⟩ : ∃ n, room = n + 1 := ⟨room - 1, by omega⟩
      have hany (value : PbReader) (sb : Sb cap) (hvalue : value.Within lo hi) :
          Refines (W := W) (Safe lo hi) (· = ·)
            (decodeAnyValue mem room (nested + 1) value sb (nested + 1 + 1)) _ :=
        ih (by omega) (by omega) hvalue sb
      rw [decodeAnyValue]
      apply refines_log (show Safe lo hi (.activation (nested + 1)) from by rw [Safe]; omega)
      rw [if_neg (by omega)]
      refine refines_loop hhi
        (fun _ fields s =>
          let s := fields.foldl (anyValueStep left) s
          Pure.pure (if s.1 then s.2 else pwSbPuts s.2 (bytes "null")))
        (S := (· = ·)) hr rfl (fun _ s s' _ hs => refines_pure (by rw [hs]; rfl)) ?_
      rintro r field wire s _ ending fields k hr rfl hk
      have hfail : Refines (W := W) (Safe lo hi) (· = ·) (anyValueEnd s)
          (Pure.pure (if s.1 then s.2 else pwSbPuts s.2 (bytes "null"))) := refines_pure rfl
      unfold anyValueBody
      split
      · refine refines_bytes hhi hr hfail fun text content r' htext hr' => ?_
        apply (refines_pwSbJsonString hr htext s.2).bind_value
        rintro _ rfl
        exact hk _ _ _ hr' rfl
      · exact refines_varint hhi hr hfail fun v r' hr' => hk _ _ _ hr' rfl
      · exact refines_varint hhi hr hfail fun v r' hr' => hk _ _ _ hr' rfl
      · exact refines_fixed64 hhi hr hfail fun bits r' hr' => hk _ _ _ hr' rfl
      · refine refines_submsg hhi hr hfail fun sub r' hsub hr' => ?_
        apply (refines_decodeValueList hhi hany hsub s.2).bind_value
        rintro _ rfl
        exact hk _ _ _ hr' rfl
      · refine refines_submsg hhi hr hfail fun sub r' hsub hr' => ?_
        apply (refines_decodeKvlist hhi hany hsub s.2).bind_value
        rintro _ rfl
        exact hk _ _ _ hr' rfl
      · refine refines_bytes hhi hr hfail fun b content r' hb hr' => ?_
        apply (refines_pwToHex hr hb 129).bind_value
        rintro _ rfl
        exact hk _ _ _ hr' rfl
      · refine refines_skip hhi hr hfail fun v r' hwire hr' => ?_
        have hskip : anyValueStep left s ⟨field, v⟩ = s := by
          unfold anyValueStep
          split <;> simp_all [Payload.wire]
        have hnext := hk r' s s hr' rfl
        rw [List.foldl_cons, hskip]
        exact hnext

theorem refines_decodePointAttrs {kv : PbReader} (hkv : kv.Within lo hi) (a : Attrs cap) :
    Refines (W := W) (Safe lo hi) (· = ·) (decodePointAttrs mem kv a)
      (Pure.pure (ProcWatch.decodePointAttrs (kv.bytes mem) a)) := by
  have hany (value : PbReader) (sb : Sb cap) (hvalue : value.Within lo hi) :
      Refines (W := W) (Safe lo hi) (· = ·)
        (decodeAnyValue mem (PW_ATTR_MAX_DEPTH + 1) 0 value sb (0 + 1)) _ :=
    refines_decodeAnyValue hhi (Nat.lt_succ_self PW_ATTR_MAX_DEPTH) (by omega) hvalue sb
  rw [decodePointAttrs, ProcWatch.decodePointAttrs]
  apply (refines_pwAppendKvJson hhi hany hkv _).bind_value
  rintro _ rfl
  cases ProcWatch.pwAppendKvJson (ProcWatch.decodeAnyValue PW_ATTR_MAX_DEPTH) (kv.bytes mem)
    (if a.first then a.sb else pwSbPutc a.sb 0x2c) with
  | none => exact refines_pure rfl
  | some sb => exact refines_pure rfl

end Depth

end ProcWatch.Memory

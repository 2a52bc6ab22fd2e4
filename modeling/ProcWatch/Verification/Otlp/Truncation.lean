import ProcWatch.Verification.Otlp.Emitted
import ProcWatch.Verification.Otlp.Varints

/-! # Payloads that are cut off -/

namespace ProcWatch

open CLib Wire

/-! ## Reading with more bytes behind -/

theorem pbVarintLoop_append {n shift value v : ℕ} {r rest : Bytes}
    (h : pbVarintLoop n shift value r = some (v, rest)) (t : Bytes) :
    pbVarintLoop n shift value (r ++ t) = some (v, rest ++ t) := by
  induction n generalizing shift value r with
  | zero => simp [pbVarintLoop] at h
  | succ n ih =>
      cases r with
      | nil => simp [pbVarintLoop] at h
      | cons byte r =>
          rw [pbVarintLoop] at h
          rw [List.cons_append, pbVarintLoop]
          split at h
          · rename_i hend
            obtain ⟨rfl, rfl⟩ := Prod.mk.inj (Option.some.inj h)
            rw [if_pos hend]
          · rename_i hend
            rw [if_neg hend]
            exact ih h

theorem pbVarint_append {v : ℕ} {r rest : Bytes} (h : pbVarint r = some (v, rest)) (t : Bytes) :
    pbVarint (r ++ t) = some (v, rest ++ t) :=
  pbVarintLoop_append h t

theorem pbFixed_append {n v : ℕ} {r rest : Bytes} (h : pbFixed n r = some (v, rest)) (t : Bytes) :
    pbFixed n (r ++ t) = some (v, rest ++ t) := by
  rw [pbFixed] at h
  split at h
  · cases h
  · rename_i hlen
    obtain ⟨rfl, rfl⟩ := Prod.mk.inj (Option.some.inj h)
    have hle : n ≤ r.length := Nat.not_lt.mp hlen
    rw [pbFixed, if_neg (by rw [List.length_append]; omega), List.take_append_of_le_length hle,
      List.drop_append_of_le_length hle]

theorem pbBytes_append {r b rest : Bytes} (h : pbBytes r = some (b, rest)) (t : Bytes) :
    pbBytes (r ++ t) = some (b, rest ++ t) := by
  rw [pbBytes] at h
  cases hlen : pbVarint r with
  | none => simp [hlen] at h
  | some x =>
      obtain ⟨len, r'⟩ := x
      simp only [hlen] at h
      split at h
      · cases h
      · rename_i hroom
        obtain ⟨rfl, rfl⟩ := Prod.mk.inj (Option.some.inj h)
        have hle : len ≤ r'.length := Nat.not_lt.mp hroom
        simp only [pbBytes, pbVarint_append hlen t]
        rw [if_neg (by rw [List.length_append]; omega), List.take_append_of_le_length hle,
          List.drop_append_of_le_length hle]

theorem pbValue_append {wire : ℕ} {v : Payload} {r rest : Bytes}
    (h : pbValue r wire = some (v, rest)) (t : Bytes) :
    pbValue (r ++ t) wire = some (v, rest ++ t) := by
  unfold pbValue at h ⊢
  split at h
  · obtain ⟨x, hx, heq⟩ := Option.map_eq_some_iff.mp h
    obtain ⟨rfl, rfl⟩ := Prod.mk.inj heq
    rw [pbVarint_append hx t]
    rfl
  · obtain ⟨x, hx, heq⟩ := Option.map_eq_some_iff.mp h
    obtain ⟨rfl, rfl⟩ := Prod.mk.inj heq
    obtain ⟨y, hy, rfl⟩ := Option.map_eq_some_iff.mp hx
    rw [pbFixed64, pbFixed_append hy t]
    rfl
  · obtain ⟨x, hx, heq⟩ := Option.map_eq_some_iff.mp h
    obtain ⟨rfl, rfl⟩ := Prod.mk.inj heq
    obtain ⟨y, hy, rfl⟩ := Option.map_eq_some_iff.mp hx
    rw [pbFixed32, pbFixed_append hy t]
    rfl
  · obtain ⟨x, hx, heq⟩ := Option.map_eq_some_iff.mp h
    obtain ⟨rfl, rfl⟩ := Prod.mk.inj heq
    rw [pbBytes_append hx t]
    rfl
  · cases h

theorem pbNext_append {field wire : ℕ} {r rest : Bytes} (h : pbNext r = .tag field wire rest)
    (t : Bytes) : pbNext (r ++ t) = .tag field wire (rest ++ t) := by
  rw [pbNext] at h
  split at h
  · cases h
  · rename_i hne
    cases hkey : pbVarint r with
    | none => simp [hkey] at h
    | some x =>
        obtain ⟨key, r'⟩ := x
        simp only [hkey] at h
        rw [pbNext, if_neg (by simp [hne]), pbVarint_append hkey t]
        split at h
        · cases h
        · rename_i hfield
          simp only [if_neg hfield]
          split at h
          · cases h
          · rename_i hwire
            obtain ⟨rfl, rfl, rfl⟩ := PbNext.tag.inj h
            rw [if_neg hwire]

/-! ## Fields, one after the other -/

theorem length_of_pbVarint {v : ℕ} {r rest : Bytes} (h : pbVarint r = some (v, rest)) :
    rest.length < r.length := by
  obtain ⟨bs, m, rfl, hbs, -⟩ := groups_of_pbVarintLoop h
  have hpos := List.length_pos_iff.mpr hbs.ne_nil
  rw [List.length_append]
  omega

theorem length_of_pbFixed {n v : ℕ} {r rest : Bytes} (h : pbFixed n r = some (v, rest)) :
    rest.length ≤ r.length := by
  rw [pbFixed] at h
  split at h
  · cases h
  · obtain ⟨-, rfl⟩ := Prod.mk.inj (Option.some.inj h)
    simp

theorem length_of_pbValue {wire : ℕ} {v : Payload} {r rest : Bytes}
    (h : pbValue r wire = some (v, rest)) : rest.length ≤ r.length := by
  unfold pbValue at h
  split at h
  · obtain ⟨x, hx, heq⟩ := Option.map_eq_some_iff.mp h
    obtain ⟨-, rfl⟩ := Prod.mk.inj heq
    exact (length_of_pbVarint hx).le
  · obtain ⟨x, hx, heq⟩ := Option.map_eq_some_iff.mp h
    obtain ⟨-, rfl⟩ := Prod.mk.inj heq
    obtain ⟨y, hy, rfl⟩ := Option.map_eq_some_iff.mp hx
    exact length_of_pbFixed hy
  · obtain ⟨x, hx, heq⟩ := Option.map_eq_some_iff.mp h
    obtain ⟨-, rfl⟩ := Prod.mk.inj heq
    obtain ⟨y, hy, rfl⟩ := Option.map_eq_some_iff.mp hx
    exact length_of_pbFixed hy
  · obtain ⟨x, hx, heq⟩ := Option.map_eq_some_iff.mp h
    obtain ⟨-, rfl⟩ := Prod.mk.inj heq
    rw [pbBytes] at hx
    cases hlen : pbVarint r with
    | none => simp [hlen] at hx
    | some y =>
        obtain ⟨len, r'⟩ := y
        have hlt := length_of_pbVarint hlen
        simp only [hlen] at hx
        split at hx
        · cases hx
        · rw [← Option.some.inj hx]
          simp only [List.length_drop]
          omega
  · cases h

theorem length_of_pbNext {field wire : ℕ} {r rest : Bytes} (h : pbNext r = .tag field wire rest) :
    rest.length < r.length := by
  rw [pbNext] at h
  split at h
  · cases h
  · cases hkey : pbVarint r with
    | none => simp [hkey] at h
    | some x =>
        have hlt := length_of_pbVarint hkey
        simp only [hkey] at h
        split at h
        · cases h
        · split at h
          · cases h
          · obtain ⟨-, -, rfl⟩ := PbNext.tag.inj h
            exact hlt

theorem pbFieldsFrom_eq {n m : ℕ} {r : Bytes} (hn : r.length < n) (hm : r.length < m) :
    pbFieldsFrom n r = pbFieldsFrom m r := by
  induction n generalizing m r with
  | zero => omega
  | succ n ih =>
      obtain ⟨m, rfl⟩ : ∃ k, m = k + 1 := ⟨m - 1, by omega⟩
      rw [pbFieldsFrom, pbFieldsFrom]
      cases hnext : pbNext r with
      | atEnd => rfl
      | malformed => rfl
      | tag field wire r' =>
          have hlt := length_of_pbNext hnext
          cases hvalue : pbValue r' wire with
          | none => simp [hvalue]
          | some x =>
              obtain ⟨v, r''⟩ := x
              have hle := length_of_pbValue hvalue
              simp only [hvalue]
              rw [ih (m := m) (by omega) (by omega)]

/-- How a loop over a message goes: it ends at once, or there is a field at the front. -/
inductive FieldsCase (r : Bytes) : Prop where
  | done (hnil : r = []) (h : pbFields r = ([], .atEnd))
  | stuck (ending : Ending) (hne : ending ≠ .atEnd) (h : pbFields r = ([], ending))
  | field {f w : ℕ} {v : Payload} {r' rest : Bytes} (hnext : pbNext r = .tag f w r')
      (hvalue : pbValue r' w = some (v, rest)) (hlt : rest.length < r.length)
      (h : pbFields r = (⟨f, v⟩ :: (pbFields rest).1, (pbFields rest).2))

theorem pbFields_tag {f w : ℕ} {v : Payload} {r r' rest : Bytes} (hnext : pbNext r = .tag f w r')
    (hvalue : pbValue r' w = some (v, rest)) :
    pbFields r = (⟨f, v⟩ :: (pbFields rest).1, (pbFields rest).2) := by
  have hlt := length_of_pbNext hnext
  have hle := length_of_pbValue hvalue
  rw [pbFields, pbFieldsFrom, hnext]
  simp only [hvalue]
  rw [pbFieldsFrom_eq (m := rest.length + 1) (by omega) (by omega), ← pbFields]

theorem fieldsCase (r : Bytes) : FieldsCase r := by
  cases hnext : pbNext r with
  | atEnd =>
      have hnil : r = [] := by
        by_contra hne
        rw [pbNext, if_neg hne] at hnext
        split at hnext
        · cases hnext
        · simp only at hnext
          split_ifs at hnext
      exact .done hnil (by rw [pbFields, pbFieldsFrom, hnext])
  | malformed => exact .stuck .malformedTag (by decide) (by rw [pbFields, pbFieldsFrom, hnext])
  | tag f w r' =>
      cases hvalue : pbValue r' w with
      | none =>
          refine .stuck .badValue (by decide) ?_
          rw [pbFields, pbFieldsFrom, hnext]
          simp only [hvalue]
      | some x =>
          obtain ⟨v, rest⟩ := x
          have hlt := length_of_pbNext hnext
          have hle := length_of_pbValue hvalue
          exact .field hnext hvalue (by omega) (pbFields_tag hnext hvalue)

/-- The fields of the front of a message are the first ones of the message. -/
theorem pbFields_append_isPrefix (p t : Bytes) : (pbFields p).1 <+: (pbFields (p ++ t)).1 := by
  induction hn : p.length using Nat.strong_induction_on generalizing p with
  | _ n ih =>
      cases fieldsCase p with
      | done hnil h => simp [h]
      | stuck ending hne h => simp [h]
      | field hnext hvalue hlt h =>
          rw [h, pbFields_tag (pbNext_append hnext t) (pbValue_append hvalue t)]
          exact List.prefix_cons_inj _ |>.mpr (ih _ (hn ▸ hlt) _ rfl)

/-- Behind a whole message the loop goes on with what follows. -/
theorem pbFields_append {p : Bytes} (hp : (pbFields p).2 = .atEnd) (t : Bytes) :
    pbFields (p ++ t) = ((pbFields p).1 ++ (pbFields t).1, (pbFields t).2) := by
  induction hn : p.length using Nat.strong_induction_on generalizing p with
  | _ n ih =>
      cases fieldsCase p with
      | done hnil h => simp [hnil, show pbFields [] = ([], .atEnd) from rfl]
      | stuck ending hne h => exact absurd (by simpa [h] using hp) hne
      | @field f w v r' rest hnext hvalue hlt h =>
          rw [h] at hp
          rw [h, pbFields_tag (pbNext_append hnext t) (pbValue_append hvalue t),
            ih _ (hn ▸ hlt) hp rfl]
          rfl

namespace Otlp

/-! ## Items of the front of a payload -/

variable {α C : Type}

theorem items_andThen_loopEnd (e : Emission α) (ending : Ending) :
    (e.andThen (loopEnd ending)).items = e.items := by
  rw [Emission.andThen]
  split
  · cases ending <;> exact List.append_nil _
  · rfl

theorem fieldItems_append (items : Bytes → Emission α) (ending : Ending) (fs fs' : List Field) :
    fieldItems loopEnd items ending (fs ++ fs') =
      (fieldItems loopEnd items .atEnd fs).andThen (fieldItems loopEnd items ending fs') := by
  induction fs with
  | nil => rfl
  | cons f fs ih =>
      cases fieldCase f with
      | first r =>
          simp only [List.cons_append, fieldItems]
          rw [ih, Emission.andThen_assoc]
      | second b => exact ih
      | other hfirst hsecond =>
          simp only [List.cons_append, fieldItems]
          exact ih

section Walk

variable {ops : WalkContext C} {read : Bytes → C → Emission α}

theorem itemsOf_take_isPrefix (data : Bytes) (cut : ℕ) :
    (itemsOf loopEnd ops read (data.take cut)).items <+: (itemsOf loopEnd ops read data).items := by
  obtain ⟨more, hmore⟩ := pbFields_append_isPrefix (data.take cut) (data.drop cut)
  rw [List.take_append_drop] at hmore
  have hcut := fieldItems_append (itemsOfResource loopEnd ops read) (pbFields (data.take cut)).2
    (pbFields (data.take cut)).1 []
  rw [List.append_nil] at hcut
  rw [itemsOf, itemsOf, hcut, ← hmore, fieldItems_append]
  simp only [fieldItems, items_andThen_loopEnd]
  exact items_isPrefix_andThen _ _

/-- The items of whole records up to the cut. -/
theorem itemsOf_append_isPrefix {before record rest : Bytes} {cut : ℕ}
    (hok : (itemsOf loopEnd ops read (before ++ record ++ rest)).ok = true)
    (hbefore : (pbFields before).2 = .atEnd) (hrecord : (pbFields record).2 = .atEnd)
    (hcut : (before ++ record).length ≤ cut) :
    (itemsOf loopEnd ops read before).items ++ (itemsOf loopEnd ops read record).items <+:
      (itemsOf loopEnd ops read ((before ++ record ++ rest).take cut)).items := by
  have hsplit (t : Bytes) : itemsOf loopEnd ops read (before ++ record ++ t) =
      (itemsOf loopEnd ops read before).andThen
        ((itemsOf loopEnd ops read record).andThen (itemsOf loopEnd ops read t)) := by
    rw [List.append_assoc, itemsOf, pbFields_append hbefore, fieldItems_append, itemsOf, hbefore,
      pbFields_append hrecord, fieldItems_append, itemsOf, hrecord, itemsOf]
  rw [hsplit] at hok
  have hfirst := ok_of_andThen hok
  rw [List.take_append, List.take_of_length_le hcut, hsplit, items_andThen_of_ok hfirst]
  exact List.prefix_append_right_inj _ |>.mpr (items_isPrefix_andThen _ _)

end Walk

/-! ## Truncation -/

/-- Whatever is cut off, the decoder emits a prefix of what it emits for the whole payload, with
the items of every record that lies before the cut behind those of the records before it. -/
structure OnlyShortens (decode : (α → Prog (List α) ℤ) → Bytes → Prog (List α) ℤ) (data : Bytes) :
    Prop where
  isPrefix : ∀ cut, emitted decode (data.take cut) <+: emitted decode data
  whole : ∀ before record r rest cut, data = before ++ record ++ rest →
    (pbFields before).2 = .atEnd →
    pbFields record = ([⟨F_ETSR_RESOURCE_SPANS, .bytes r⟩], .atEnd) →
    (before ++ record).length ≤ cut →
      emitted decode before ++ emitted decode record <+: emitted decode (data.take cut)

theorem onlyShortens_of_items {ops : WalkContext C} {read : Bytes → C → Emission α}
    {decode : (α → Prog (List α) ℤ) → Bytes → Prog (List α) ℤ}
    (hdecode : ∀ data, emitted decode data = (itemsOf loopEnd ops read data).items) {data : Bytes}
    (hok : (itemsOf loopEnd ops read data).ok = true) : OnlyShortens decode data where
  isPrefix := fun cut => by
    rw [hdecode, hdecode]
    exact itemsOf_take_isPrefix data cut
  whole := by
    intro before record r rest cut hdata hbefore hrecord hcut
    subst hdata
    rw [hdecode, hdecode, hdecode]
    exact itemsOf_append_isPrefix hok hbefore (by rw [hrecord]) hcut

/-- Cutting a payload off without a malformed message only takes spans or points from its end. -/
theorem onlyShortens_payload (data : Bytes) :
    (firstFault (spanFaults data) = none → OnlyShortens otlpDecodeTraces data) ∧
      (firstFault (metricFaults data) = none → OnlyShortens otlpDecodeMetrics data) := by
  constructor
  · intro hnone
    apply onlyShortens_of_items emitted_traces
    exact ok_span hnone
  · intro hnone
    apply onlyShortens_of_items emitted_metrics
    exact ok_metric hnone

/-- Two resources with spans, and one with metrics in two scopes. -/
theorem onlyShortens_payload_shop :
    OnlyShortens otlpDecodeTraces
        (encode (submessages 1 [shopFields, submessages 2 [httpFields, httpFields]])) ∧
      OnlyShortens otlpDecodeMetrics
        (encode (submessages 1 [submessages 2 [workerFields, workerFields]])) :=
  ⟨(onlyShortens_payload _).1 (by decide +kernel), (onlyShortens_payload _).2 (by decide +kernel)⟩

end Otlp

end ProcWatch

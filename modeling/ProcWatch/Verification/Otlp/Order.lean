import ProcWatch.Verification.Otlp.Scopes

/-! # The place of the resource record

The scope messages that a decoder does not put off are decoded before it has seen the whole
message: with the resource where its record stands before them, and without it otherwise.
-/

namespace ProcWatch.Otlp

open CLib Wire

variable {α C : Type}

/-! ## The name apart from the rest of the context -/

/-- The context under a scope name. -/
def under (ops : WalkContext C) (name : CStr 256) (c : C) : C :=
  ops.mapScopeName (fun _ => name) c

/-- The scope name is a part of the context that attributes have no part in. -/
structure NameApart (ops : WalkContext C) (scopeName : C → CStr 256) : Prop where
  mapScopeName : ∀ f name c, ops.mapScopeName f (under ops name c) = under ops (f name) c
  takeAttribute : ∀ key value name c,
    ops.takeAttribute key value (under ops name c) = under ops name (ops.takeAttribute key value c)
  scopeName : ∀ c, under ops (scopeName c) c = c

/-- The walk that has nothing but the scope name. -/
def nameOps : WalkContext (CStr 256) where
  init := CStr.copy 256 []
  mapScopeName := fun f name => f name
  takeAttribute := fun _ _ name => name

/-- A visit of that walk in a context. -/
def visitUnder (ops : WalkContext C) (c : C) (v : Bytes × CStr 256) : Bytes × C :=
  (v.1, under ops v.2 c)

namespace NameApart

variable {ops : WalkContext C} {scopeName : C → CStr 256}

theorem scopeContext_under (h : NameApart ops scopeName) (fields : List Field) (name : CStr 256)
    (c : C) :
    scopeContext ops fields (under ops name c) = under ops (scopeContext nameOps fields name) c := by
  induction fields generalizing name with
  | nil => rfl
  | cons f fields ih =>
      cases fieldCase f with
      | first scope =>
          simp only [scopeContext]
          rw [h.mapScopeName, ih]
          rfl
      | second r => exact ih name
      | other hfirst hsecond =>
          simp only [scopeContext]
          exact ih name

theorem contextAfter_under (h : NameApart ops scopeName) (s : Bytes) (name : CStr 256) (c : C) :
    contextAfter ops s (under ops name c) = under ops (contextAfter nameOps s name) c :=
  h.scopeContext_under _ name c

theorem resource_under (h : NameApart ops scopeName) (fields : List Field) (name : CStr 256)
    (c : C) :
    fields.foldl (resourceStep ops) (under ops name c) =
      under ops name (fields.foldl (resourceStep ops) c) := by
  induction fields generalizing c with
  | nil => rfl
  | cons f fields ih =>
      have hstep : resourceStep ops (under ops name c) f = under ops name (resourceStep ops c f) := by
        unfold resourceStep
        split
        · split
          · exact h.takeAttribute _ _ name c
          · rfl
        · rfl
      rw [List.foldl_cons, List.foldl_cons, hstep, ih]

/-- Without a resource record, the visits are those by name, in the context at the start. -/
theorem visits_under (h : NameApart ops scopeName) (ending : Ending) {fields : List Field}
    (hfields : messagesAt 1 fields = []) (name : CStr 256) (c : C) (pending : List Bytes) :
    visits (contextAfter ops) (afterResource ops) ending fields (under ops name c) pending =
      (visits (contextAfter nameOps) (afterResource nameOps) ending fields name pending).map
        (visitUnder ops c) :=
  visits_map (φ := fun name => under ops name c) (fun s name => h.contextAfter_under s name c)
    (by simp [hfields]) name pending

/-- Of the visits by name, those before the resource record that are not put off are in the
context at the start, and all others are in the context of the resource. -/
theorem visits_resource (h : NameApart ops scopeName) (ending : Ending) (res : Bytes)
    {front back : List Field} (hfront : messagesAt 1 front = []) (hback : messagesAt 1 back = [])
    (name : CStr 256) (c : C) (pending : List Bytes) :
    visits (contextAfter ops) (afterResource ops) ending (front ++ ⟨1, .bytes res⟩ :: back)
        (under ops name c) pending =
      let vs := visits (contextAfter nameOps) (afterResource nameOps) ending (front ++ back) name
        pending
      let early := (messagesAt 2 front).length - (PENDING_SCOPES - pending.length)
      (vs.take early).map (visitUnder ops c) ++
        (vs.drop early).map (visitUnder ops (afterResource ops res c)) := by
  induction front generalizing name pending with
  | nil =>
      have hresource : visits (contextAfter ops) (afterResource ops) ending
          ([] ++ ⟨1, .bytes res⟩ :: back) (under ops name c) pending =
          visits (contextAfter ops) (afterResource ops) ending back
            (afterResource ops res (under ops name c)) pending := rfl
      have hnone : (messagesAt 2 ([] : List Field)).length = 0 := rfl
      simp only [hnone, Nat.zero_sub, List.take_zero, List.map_nil, List.nil_append, List.drop_zero]
      rw [List.nil_append] at hresource
      rw [hresource, afterResource, h.resource_under, h.visits_under ending hback]
      rfl
  | cons f front ih =>
      cases fieldCase f with
      | first res => simp [messagesAt_cons] at hfront
      | second scope =>
          rw [messagesAt_cons_of_ne (by decide)] at hfront
          rw [messagesAt_cons, List.length_cons]
          simp only [List.cons_append, visits]
          split
          · rename_i hlt
            have hearly : (messagesAt 2 front).length + 1 - (PENDING_SCOPES - pending.length) =
                (messagesAt 2 front).length - (PENDING_SCOPES - (pending ++ [scope]).length) := by
              rw [List.length_append, List.length_singleton]
              omega
            rw [hearly]
            exact ih hfront name _
          · rename_i hfull
            have hearly : (messagesAt 2 front).length + 1 - (PENDING_SCOPES - pending.length) =
                (messagesAt 2 front).length - (PENDING_SCOPES - pending.length) + 1 := by
              omega
            rw [hearly, h.contextAfter_under, ih hfront]
            simp only [List.take_succ_cons, List.drop_succ_cons, List.map_cons, List.cons_append]
            rfl
      | other hfirst hsecond =>
          rw [messagesAt_cons_other hfirst] at hfront
          rw [messagesAt_cons_other hsecond]
          simp only [List.cons_append, visits]
          exact ih hfront name pending

end NameApart

/-! ## Moving the resource record -/

/-- The fields of a resource message, with its resource record behind so many others. -/
def placed (res : Bytes) (rest : List Field) (k : ℕ) : List Field :=
  rest.take k ++ ⟨1, .bytes res⟩ :: rest.drop k

/-- Payloads of one resource message each, which differ in the place of the resource record. -/
structure Moves (data : ℕ → Bytes) (res : Bytes) (rest : List Field) : Prop where
  alone : messagesAt 1 rest = []
  fields : ∀ k, ∃ r, pbFields (data k) = ([⟨1, .bytes r⟩], .atEnd) ∧
    pbFields r = (placed res rest k, .atEnd)

/-- So many of the scope messages before the resource record are not put off. -/
def early (rest : List Field) (k : ℕ) : ℕ :=
  (messagesAt 2 (rest.take k)).length - PENDING_SCOPES

/-- The visits of a resource message by name, wherever its resource record is. -/
def namedVisits (rest : List Field) : List (Bytes × CStr 256) :=
  visits (contextAfter nameOps) (afterResource nameOps) .atEnd rest nameOps.init []

/-- What a visit emits in a context. -/
def itemsUnder (ops : WalkContext C) (read : Bytes → C → Emission α) (c : C)
    (v : Bytes × CStr 256) : Emission α :=
  itemsOfScope loopEnd ops read v.1 (under ops v.2 c)

theorem messagesAt_eq_nil_of_sublist {fs fs' : List Field} (h : fs.Sublist fs')
    (hnil : messagesAt 1 fs' = []) : messagesAt 1 fs = [] := by
  have hsub : (messagesAt 1 fs).Sublist (messagesAt 1 fs') := h.filterMap _
  rw [hnil] at hsub
  exact List.sublist_nil.mp hsub

theorem early_le (rest : List Field) (k : ℕ) :
    early rest k ≤ ((messagesAt 2 rest).drop PENDING_SCOPES).length := by
  have hsub : (messagesAt 2 (rest.take k)).Sublist (messagesAt 2 rest) :=
    (List.take_sublist k rest).filterMap _
  have hlen := hsub.length_le
  rw [early, List.length_drop]
  omega

theorem early_length (rest : List Field) :
    early rest rest.length = ((messagesAt 2 rest).drop PENDING_SCOPES).length := by
  rw [early, List.take_length, List.length_drop]

theorem namedVisits_map_fst (rest : List Field) :
    (namedVisits rest).map Prod.fst =
      (messagesAt 2 rest).drop PENDING_SCOPES ++ (messagesAt 2 rest).take PENDING_SCOPES :=
  visits_map_fst _ _ _ (Nat.zero_le _)

/-- The visits before the resource record are visits of scope messages that are not put off. -/
theorem map_fst_take_early (rest : List Field) (k : ℕ) :
    ((namedVisits rest).take (early rest k)).map Prod.fst =
      ((messagesAt 2 rest).drop PENDING_SCOPES).take (early rest k) := by
  rw [List.map_take, namedVisits_map_fst, List.take_append_of_le_length (early_le rest k)]

section Moved

variable {ops : WalkContext C} {read : Bytes → C → Emission α} {scopeName : C → CStr 256}
  {contextOf : α → C} {data : ℕ → Bytes} {res : Bytes} {rest : List Field}

/-- The walk over a payload, by the place of the resource record. -/
theorem itemsOf_moves (h : CarriesContext ops read scopeName contextOf)
    (hn : NameApart ops scopeName) (hmoves : Moves data res rest) (k : ℕ) :
    itemsOf loopEnd ops read (data k) =
      (Emission.sequence (((namedVisits rest).take (early rest k)).map
        (itemsUnder ops read ops.init))).andThen
      (Emission.sequence (((namedVisits rest).drop (early rest k)).map
        (itemsUnder ops read (afterResource ops res ops.init)))) := by
  obtain ⟨r, hdata, hr⟩ := hmoves.fields k
  have hinit : under ops nameOps.init ops.init = ops.init := by
    have hself := hn.scopeName ops.init
    rwa [h.init] at hself
  have hvisits := hn.visits_resource .atEnd res
    (messagesAt_eq_nil_of_sublist (List.take_sublist k rest) hmoves.alone)
    (messagesAt_eq_nil_of_sublist (List.drop_sublist k rest) hmoves.alone) nameOps.init ops.init []
  rw [hinit, List.take_append_drop] at hvisits
  rw [itemsOf, hdata]
  simp only [fieldItems]
  rw [itemsOfResource, hr, resourceItems_eq, placed, hvisits]
  simp only [List.map_append, List.map_map, Emission.sequence_append]
  exact (Emission.andThen_nothing _).trans (Emission.andThen_nothing _)

/-- What an item has of its resource: its context without the name of a scope. -/
def resourceOf (ops : WalkContext C) (contextOf : α → C) (a : α) : C :=
  under ops (CStr.copy 256 []) (contextOf a)

theorem NameApart.under_under (hn : NameApart ops scopeName) (name name' : CStr 256) (c : C) :
    under ops name (under ops name' c) = under ops name c :=
  hn.mapScopeName (fun _ => name) name' c

theorem NameApart.under_init (hn : NameApart ops scopeName) {c : C}
    (hc : scopeName c = CStr.copy 256 []) : under ops (CStr.copy 256 []) c = c := by
  rw [← hc]
  exact hn.scopeName c

/-- An item has the resource's part of the context that it was found in. -/
theorem resourceOf_itemsUnder (h : CarriesContext ops read scopeName contextOf)
    (hn : NameApart ops scopeName) {c : C} {v : Bytes × CStr 256} {a : α}
    (ha : a ∈ (itemsUnder ops read c v).items) :
    resourceOf ops contextOf a = under ops (CStr.copy 256 []) c := by
  obtain ⟨before, x, after, -, -, hx⟩ := mem_scopeItems.mp ha
  rw [resourceOf, h.item x _ a hx, hn.scopeContext_under, hn.under_under]

theorem resourceOf_sequence (h : CarriesContext ops read scopeName contextOf)
    (hn : NameApart ops scopeName) {c : C} {vs : List (Bytes × CStr 256)} {a : α}
    (ha : a ∈ (Emission.sequence (vs.map (itemsUnder ops read c))).items) :
    resourceOf ops contextOf a = under ops (CStr.copy 256 []) c := by
  obtain ⟨_, v, _, -, -, hv⟩ := mem_items_sequence.mp ha
  exact resourceOf_itemsUnder h hn hv

theorem itemsUnder_alike (h : CarriesContext ops read scopeName contextOf) (c c' : C)
    (v : Bytes × CStr 256) : SameCount (itemsUnder ops read c v) (itemsUnder ops read c' v) :=
  h.scopeItems_alike _ _ _ _

theorem eq_of_alike_nil {e e' : Emission α} (h : SameCount e e') (hnil : e.items = []) : e = e' := by
  obtain ⟨items, ok⟩ := e
  obtain ⟨items', ok'⟩ := e'
  obtain ⟨hok, hlen⟩ := h
  simp only at hok hlen hnil
  subst hok hnil
  rw [List.length_eq_zero_iff.mp hlen.symm]

/-- The resource leaves the context as it was, or no scope message that is not put off emits
anything. -/
def PlaceIrrelevant (ops : WalkContext C) (read : Bytes → C → Emission α) (res : Bytes)
    (rest : List Field) : Prop :=
  afterResource ops res ops.init = ops.init ∨
    ∀ s ∈ (messagesAt 2 rest).drop PENDING_SCOPES, (itemsOfScope loopEnd ops read s ops.init).items = []

theorem itemsOf_irrelevant (h : CarriesContext ops read scopeName contextOf)
    (hn : NameApart ops scopeName) (hmoves : Moves data res rest)
    (hplace : PlaceIrrelevant ops read res rest) (k : ℕ) :
    itemsOf loopEnd ops read (data k) =
      Emission.sequence ((namedVisits rest).map
        (itemsUnder ops read (afterResource ops res ops.init))) := by
  have hfront : ((namedVisits rest).take (early rest k)).map (itemsUnder ops read ops.init) =
      ((namedVisits rest).take (early rest k)).map
        (itemsUnder ops read (afterResource ops res ops.init)) := by
    cases hplace with
    | inl hsame => rw [hsame]
    | inr hnone =>
        apply List.map_congr_left
        intro v hv
        have hmem := List.mem_map_of_mem (f := Prod.fst) hv
        rw [map_fst_take_early] at hmem
        have hnil := hnone v.1 (List.mem_of_mem_take hmem)
        have hlen := (h.scopeItems_alike (pbFields v.1).2 (pbFields v.1).1
          (under ops v.2 ops.init) ops.init).2
        rw [← itemsOfScope, ← itemsOfScope, hnil] at hlen
        exact eq_of_alike_nil (itemsUnder_alike h _ _ v) (List.length_eq_zero_iff.mp hlen)
  rw [itemsOf_moves h hn hmoves k, hfront, ← Emission.sequence_append, ← List.map_append,
    List.take_append_drop]

/-- What is emitted does not depend on the place of the resource record, and has what the
resource says. -/
structure OrderIndependent (decode : (α → Prog (List α) ℤ) → Bytes → Prog (List α) ℤ)
    (data : ℕ → Bytes) (resourceOf : α → C) (c : C) : Prop where
  same : ∀ k k', emitted decode (data k) = emitted decode (data k')
  labelled : ∀ k, ∀ a ∈ emitted decode (data k), resourceOf a = c

theorem exists_items_early (h : CarriesContext ops read scopeName contextOf)
    (hn : NameApart ops scopeName) (hmoves : Moves data res rest)
    (hok : (itemsOf loopEnd ops read (data 0)).ok = true) {s : Bytes}
    (hs : s ∈ (messagesAt 2 rest).drop PENDING_SCOPES)
    (hne : (itemsOfScope loopEnd ops read s ops.init).items ≠ []) :
    ∃ a, a ∈ (itemsOf loopEnd ops read (data rest.length)).items ∧
      resourceOf ops contextOf a = ops.init := by
  have hsmem : s ∈ ((namedVisits rest).take (early rest rest.length)).map Prod.fst := by
    rw [map_fst_take_early, early_length, List.take_length]
    exact hs
  obtain ⟨v, hv, rfl⟩ := List.mem_map.mp hsmem
  have hall : ∀ u ∈ namedVisits rest, (itemsUnder ops read ops.init u).ok = true := by
    intro u hu
    rw [itemsOf_moves h hn hmoves 0, ok_andThen, Bool.and_eq_true] at hok
    have hzero : early rest 0 = 0 := by
      rw [early, List.take_zero]
      rfl
    rw [hzero, List.drop_zero] at hok
    have huok := (ok_sequence _).mp hok.2 _ (List.mem_map_of_mem hu)
    exact (itemsUnder_alike h _ _ u).1.trans huok
  obtain ⟨before, after, hsplit⟩ := List.append_of_mem hv
  obtain ⟨a, ha⟩ := List.exists_mem_of_ne_nil (itemsUnder ops read ops.init v).items
    fun hnil => hne (List.length_eq_zero_iff.mp
      ((h.scopeItems_alike _ _ ops.init (under ops v.2 ops.init)).2.trans
        (List.length_eq_zero_iff.mpr hnil)))
  have hmem : a ∈ (Emission.sequence (((namedVisits rest).take (early rest rest.length)).map
      (itemsUnder ops read ops.init))).items := by
    refine mem_items_sequence.mpr ⟨before, v, after, hsplit, fun u hu => hall u ?_, ha⟩
    exact List.mem_of_mem_take (hsplit ▸ List.mem_append_left _ hu)
  refine ⟨a, ?_, ?_⟩
  · rw [itemsOf_moves h hn hmoves]
    exact mem_items_andThen hmem
  · rw [resourceOf_sequence h hn hmem, hn.under_init h.init]

theorem orderIndependent_iff (h : CarriesContext ops read scopeName contextOf)
    (hn : NameApart ops scopeName) (hmoves : Moves data res rest)
    {decode : (α → Prog (List α) ℤ) → Bytes → Prog (List α) ℤ}
    (hdecode : ∀ data, emitted decode data = (itemsOf loopEnd ops read data).items)
    (hok : (itemsOf loopEnd ops read (data 0)).ok = true) :
    OrderIndependent decode data (resourceOf ops contextOf) (afterResource ops res ops.init) ↔
      PlaceIrrelevant ops read res rest := by
  constructor
  · intro hind
    by_contra hplace
    rw [PlaceIrrelevant, not_or] at hplace
    obtain ⟨hchanged, hnot⟩ := hplace
    push Not at hnot
    obtain ⟨s, hs, hne⟩ := hnot
    -- An item of a scope message before the resource record has nothing of the resource.
    obtain ⟨a, ha, hinit⟩ := exists_items_early h hn hmoves hok hs hne
    have hlabel := hind.labelled rest.length a (by rwa [hdecode])
    exact hchanged (hlabel.symm.trans hinit)
  · intro hplace
    refine ⟨fun k k' => ?_, fun k a ha => ?_⟩
    · rw [hdecode, hdecode, itemsOf_irrelevant h hn hmoves hplace,
        itemsOf_irrelevant h hn hmoves hplace]
    · rw [hdecode, itemsOf_irrelevant h hn hmoves hplace] at ha
      have hname : scopeName (afterResource ops res ops.init) = CStr.copy 256 [] :=
        (h.scopeName_resource _ _).trans h.init
      rw [resourceOf_sequence h hn ha, hn.under_init hname]

end Moved

/-! ## Spans and data points -/

theorem nameApart_span : NameApart spanContext SpanContext.scopeName where
  mapScopeName := fun _ _ _ => rfl
  takeAttribute := fun key value name c => by
    simp only [spanContext, under, spanAttribute]
    split_ifs <;> rfl
  scopeName := fun _ => rfl

theorem nameApart_metric : NameApart metricContext MetricContext.scopeName where
  mapScopeName := fun _ _ _ => rfl
  takeAttribute := fun key value name c => by
    simp only [metricContext, under, metricAttribute]
    split_ifs <;> rfl
  scopeName := fun _ => rfl

/-- In a well-formed payload of one resource message, the place of the resource record does not
matter exactly where its resource sets nothing or the scope messages behind the first 64 emit
nothing. -/
theorem orderIndependent_payload {data : ℕ → Bytes} {res : Bytes} {rest : List Field}
    (hmoves : Moves data res rest) :
    (firstFault (spanFaults (data 0)) = none →
        (OrderIndependent otlpDecodeTraces data (resourceOf spanContext contextOfSpan)
            (afterResource spanContext res spanContext.init) ↔
          PlaceIrrelevant spanContext readSpan res rest)) ∧
      (firstFault (metricFaults (data 0)) = none →
        (OrderIndependent otlpDecodeMetrics data (resourceOf metricContext contextOfPoint)
            (afterResource metricContext res metricContext.init) ↔
          PlaceIrrelevant metricContext readMetric res rest)) := by
  constructor
  · intro hnone
    apply orderIndependent_iff carriesContext_span nameApart_span hmoves emitted_traces
    exact ok_span hnone
  · intro hnone
    apply orderIndependent_iff carriesContext_metric nameApart_metric hmoves emitted_metrics
    exact ok_metric hnone

/-- The payload with the resource record behind so many fields. -/
def movedPayload (res : Bytes) (rest : List Field) (k : ℕ) : Bytes :=
  encode (submessages 1 [placed res rest k])

theorem length_encode_placed (res : Bytes) (rest : List Field) (k : ℕ) :
    (encode (placed res rest k)).length = (encode (placed res rest 0)).length := by
  have hperm : (placed res rest k).Perm (⟨1, .bytes res⟩ :: rest) := by
    have hmiddle : (rest.take k ++ ⟨1, .bytes res⟩ :: rest.drop k).Perm
        (⟨1, .bytes res⟩ :: (rest.take k ++ rest.drop k)) := List.perm_middle
    rwa [List.take_append_drop] at hmiddle
  exact (hperm.flatMap_right Field.encode).length_eq

theorem length_movedPayload (res : Bytes) (rest : List Field) (k : ℕ) :
    (movedPayload res rest k).length = (movedPayload res rest 0).length := by
  have hlen (b : Bytes) : (encode [⟨1, .bytes b⟩]).length =
      (varint 10).length + ((varint b.length).length + b.length) := by
    simp [encode, Field.encode, Payload.encode, Payload.wire]
  rw [movedPayload, movedPayload, submessages, submessages, List.map_singleton, List.map_singleton,
    hlen, hlen, length_encode_placed res rest k]

theorem moves_movedPayload {res : Bytes} {rest : List Field} (halone : messagesAt 1 rest = [])
    (hvalid : ∀ f ∈ rest, f.Valid) (hlen : (movedPayload res rest 0).length < 2 ^ 64) :
    Moves (movedPayload res rest) res rest where
  alone := halone
  fields := fun k => by
    have hplaced : ∀ f ∈ placed res rest k, f.Valid := by
      intro f hf
      cases List.mem_append.mp hf with
      | inl hf => exact hvalid f (List.mem_of_mem_take hf)
      | inr hf =>
          cases List.mem_cons.mp hf with
          | inl hf => exact hf ▸ Field.valid_of_lt (by decide) (by decide) _
          | inr hf => exact hvalid f (List.mem_of_mem_drop hf)
    have houter : ∀ f ∈ submessages 1 [placed res rest k], f.Valid := by
      intro f hf
      obtain ⟨g, -, rfl⟩ := List.mem_map.mp hf
      exact Field.valid_of_lt (by decide) (by decide) _
    rw [← length_movedPayload res rest k] at hlen
    have hinner : (encode (placed res rest k)).length < 2 ^ 64 :=
      (length_bytes_of_mem (n := 1) (List.mem_singleton_self _)).trans_lt hlen
    exact ⟨_, pbFields_encode houter hlen, pbFields_encode hplaced hinner⟩

/-- A resource with a service name. -/
def shopResource : Bytes :=
  encode [⟨1, .bytes (encodePair (bytes "service.name", .str (bytes "shop")))⟩]

/-- So many empty scope messages, and one with a span. -/
def scopesBefore (n : ℕ) : List Field :=
  List.replicate n ⟨2, .bytes []⟩ ++ [⟨2, .bytes (encode [⟨2, .bytes []⟩])⟩]

/-- Two scopes with spans, a field that is not handled, and a scope without a name. -/
def spanScopes : List Field :=
  ⟨2, .bytes (encode httpFields)⟩ :: ⟨2, .bytes (encode httpFields)⟩ :: ⟨3, .bytes (bytes "schema")⟩ ::
    submessages 2 [submessages 2 [failedGetFields]]

/-- A scope with two metrics, and the scope of the queue. -/
def metricScopes : List Field :=
  submessages 2 [submessages 2 [queueFields, queueFields], workerFields]

theorem orderIndependent_payload_shop :
    OrderIndependent otlpDecodeTraces (movedPayload shopResource spanScopes)
        (resourceOf spanContext contextOfSpan)
        (afterResource spanContext shopResource spanContext.init) ∧
      OrderIndependent otlpDecodeMetrics (movedPayload shopResource metricScopes)
        (resourceOf metricContext contextOfPoint)
        (afterResource metricContext shopResource metricContext.init) :=
  ⟨((orderIndependent_payload
      (moves_movedPayload (by decide) (by decide +kernel) (by decide +kernel))).1
      (by decide +kernel)).mpr (.inr (by decide +kernel)),
    ((orderIndependent_payload
      (moves_movedPayload (by decide) (by decide +kernel) (by decide +kernel))).2
      (by decide +kernel)).mpr (.inr (by decide +kernel))⟩

/-- With 65 scope messages before the resource record, the span of the last one is emitted
without the service name. -/
theorem not_orderIndependent_sixtyFive :
    ¬ OrderIndependent otlpDecodeTraces (movedPayload shopResource (scopesBefore 64))
      (resourceOf spanContext contextOfSpan)
      (afterResource spanContext shopResource spanContext.init) := by
  intro h
  have hnames := congrArg (List.map fun s => s.serviceName.val) (h.same 0 65)
  revert hnames
  decide +kernel

end ProcWatch.Otlp

import ProcWatch.Verification.Otlp.Emitted

/-! # The names of scopes

The decoders keep one scope name for a resource. It is set by every name that they meet, and
nothing takes it back.
-/

namespace ProcWatch.Otlp

open CLib Wire

variable {α C : Type}

/-! ## The decoding of a resource, scope by scope -/

section Visits

variable (after resource : Bytes → C → C)

/-- The scope messages that are put off, each with the context it is decoded in, given the
context that one leaves. -/
def visitsOfPending : List Bytes → C → List (Bytes × C)
  | [], _ => []
  | scope :: pending, ctx => (scope, ctx) :: visitsOfPending pending (after scope ctx)

/-- All scope messages, given also the context that a resource record leaves. -/
def visits (ending : Ending) : List Field → C → List Bytes → List (Bytes × C)
  | [], ctx, pending => if ending = .badValue then [] else visitsOfPending after pending ctx
  | f :: fields, ctx, pending =>
      match f with
      | ⟨F_RS_RESOURCE, .bytes res⟩ => visits ending fields (resource res ctx) pending
      | ⟨F_RS_SCOPE_SPANS, .bytes scope⟩ =>
          if pending.length < PENDING_SCOPES then visits ending fields ctx (pending ++ [scope])
          else (scope, ctx) :: visits ending fields (after scope ctx) pending
      | _ => visits ending fields ctx pending

end Visits

section Attributed

variable (ops : WalkContext C)

/-- The context once a resource record is read. -/
def afterResource (res : Bytes) (c : C) : C :=
  (pbFields res).1.foldl (resourceStep ops) c

/-- The scope messages of a resource as they are decoded, each with its context. -/
def visitsOf (r : Bytes) : List (Bytes × C) :=
  visits (contextAfter ops) (afterResource ops) (pbFields r).2 (pbFields r).1 ops.init []

variable (read : Bytes → C → Emission α)

/-- The items of a resource, each with the scope message it was found in. -/
def attributedOfResource (r : Bytes) : Emission (Bytes × α) :=
  (Emission.sequence ((visitsOf ops r).map fun v =>
    (itemsOfScope loopEnd ops read v.1 v.2).map (Prod.mk v.1))).andThen (loopEnd (pbFields r).2)

/-- The items of a payload, each with the scope message it was found in. -/
def attributed (data : Bytes) : List (Bytes × α) :=
  (fieldItems loopEnd (attributedOfResource ops read) (pbFields data).2 (pbFields data).1).items

end Attributed

/-! ## Walks that correspond -/

section Map

variable {D : Type} {after resource : Bytes → C → C} {after' resource' : Bytes → D → D} {φ : D → C}

theorem visitsOfPending_map (hafter : ∀ s d, after s (φ d) = φ (after' s d)) (pending : List Bytes)
    (d : D) :
    visitsOfPending after pending (φ d) =
      (visitsOfPending after' pending d).map fun v => (v.1, φ v.2) := by
  induction pending generalizing d with
  | nil => rfl
  | cons scope pending ih =>
      rw [visitsOfPending, hafter, ih, visitsOfPending, List.map_cons]

/-- Contexts that correspond at the start do so at every visit. -/
theorem visits_map (hafter : ∀ s d, after s (φ d) = φ (after' s d)) {ending : Ending}
    {fields : List Field}
    (hresource : ∀ res ∈ messagesAt 1 fields, ∀ d, resource res (φ d) = φ (resource' res d)) (d : D)
    (pending : List Bytes) :
    visits after resource ending fields (φ d) pending =
      (visits after' resource' ending fields d pending).map fun v => (v.1, φ v.2) := by
  induction fields generalizing d pending with
  | nil =>
      rw [visits, visits]
      split
      · rfl
      · exact visitsOfPending_map hafter pending d
  | cons f fields ih =>
      cases fieldCase f with
      | first res =>
          rw [messagesAt_cons] at hresource
          simp only [visits]
          rw [hresource res List.mem_cons_self]
          exact ih (fun r hr => hresource r (List.mem_cons_of_mem _ hr)) _ pending
      | second scope =>
          rw [messagesAt_cons_of_ne (by decide)] at hresource
          simp only [visits]
          split
          · exact ih hresource d _
          · rw [hafter, ih hresource, List.map_cons]
      | other hfirst hsecond =>
          rw [messagesAt_cons_other hfirst] at hresource
          simp only [visits]
          exact ih hresource d pending

theorem visitsOfPending_map_fst (pending : List Bytes) (c : C) :
    (visitsOfPending after pending c).map Prod.fst = pending := by
  induction pending generalizing c with
  | nil => rfl
  | cons scope pending ih => rw [visitsOfPending, List.map_cons, ih]

theorem visits_map_fst (ending : Ending) (fields : List Field) (c : C) {pending : List Bytes}
    (hroom : pending.length ≤ PENDING_SCOPES) :
    (visits after resource ending fields c pending).map Prod.fst =
      (messagesAt 2 fields).drop (PENDING_SCOPES - pending.length) ++
        if ending = .badValue then []
        else pending ++ (messagesAt 2 fields).take (PENDING_SCOPES - pending.length) := by
  induction fields generalizing c pending with
  | nil =>
      have hnone : messagesAt 2 [] = [] := rfl
      rw [visits, hnone, List.drop_nil, List.take_nil, List.append_nil, List.nil_append]
      split
      · rfl
      · exact visitsOfPending_map_fst pending c
  | cons f fields ih =>
      cases fieldCase f with
      | first res =>
          rw [messagesAt_cons_of_ne (by decide)]
          exact ih _ hroom
      | second scope =>
          rw [messagesAt_cons]
          simp only [visits]
          split
          · rename_i hlt
            obtain ⟨n, hn⟩ : ∃ n, PENDING_SCOPES - pending.length = n + 1 :=
              ⟨PENDING_SCOPES - pending.length - 1, by omega⟩
            have hlen : (pending ++ [scope]).length = pending.length + 1 := by simp
            rw [ih c (by omega), hlen, hn, ← Nat.sub_sub, hn, Nat.add_sub_cancel, List.drop_succ_cons,
              List.take_succ_cons, List.append_assoc, List.singleton_append]
          · rename_i hfull
            have hzero : PENDING_SCOPES - pending.length = 0 := by omega
            rw [List.map_cons, ih _ hroom, hzero]
            simp
      | other hfirst hsecond =>
          rw [messagesAt_cons_other hsecond]
          simp only [visits]
          exact ih c hroom

end Map

section Walk

variable {ops : WalkContext C} {read : Bytes → C → Emission α}

theorem pendingItems_eq (pending : List Bytes) (c : C) :
    pendingItems loopEnd ops read pending c =
      Emission.sequence ((visitsOfPending (contextAfter ops) pending c).map fun v =>
        itemsOfScope loopEnd ops read v.1 v.2) := by
  induction pending generalizing c with
  | nil => rfl
  | cons scope pending ih =>
      rw [pendingItems, ih, visitsOfPending, List.map_cons, Emission.sequence]

theorem resourceItems_eq (ending : Ending) (fields : List Field) (c : C) (pending : List Bytes) :
    resourceItems loopEnd ops read ending fields c pending =
      (Emission.sequence ((visits (contextAfter ops) (afterResource ops) ending fields c pending).map
        fun v => itemsOfScope loopEnd ops read v.1 v.2)).andThen (loopEnd ending) := by
  induction fields generalizing c pending with
  | nil =>
      rw [resourceItems, visits]
      cases ending with
      | badValue => rfl
      | atEnd => exact (pendingItems_eq pending c).trans (Emission.andThen_nothing _).symm
      | malformedTag => exact (pendingItems_eq pending c).trans (Emission.andThen_nothing _).symm
  | cons f fields ih =>
      cases fieldCase f with
      | first res => exact ih _ _
      | second scope =>
          simp only [resourceItems, visits]
          split
          · exact ih _ _
          · rw [ih, List.map_cons, Emission.sequence, Emission.andThen_assoc]
      | other hfirst hsecond =>
          simp only [resourceItems, visits]
          exact ih _ _

theorem map_loopEnd {β : Type} (f : α → β) (ending : Ending) :
    (loopEnd ending).map f = loopEnd ending := by
  cases ending <;> rfl

theorem attributedOfResource_map (r : Bytes) :
    (attributedOfResource ops read r).map Prod.snd = itemsOfResource loopEnd ops read r := by
  have hscope : (Emission.map Prod.snd ∘ fun v : Bytes × C =>
      (itemsOfScope loopEnd ops read v.1 v.2).map (Prod.mk v.1)) =
      fun v => itemsOfScope loopEnd ops read v.1 v.2 := by
    funext v
    simp [Emission.map, Function.comp_def]
  rw [attributedOfResource, Emission.map_andThen, Emission.map_sequence, List.map_map, hscope,
    map_loopEnd, itemsOfResource, resourceItems_eq, visitsOf]

theorem fieldItems_map {β : Type} (f : α → β) (items : Bytes → Emission α) (ending : Ending)
    (fields : List Field) :
    (fieldItems loopEnd items ending fields).map f =
      fieldItems loopEnd (fun r => (items r).map f) ending fields := by
  induction fields with
  | nil => exact map_loopEnd f ending
  | cons g fields ih =>
      cases fieldCase g with
      | first r =>
          simp only [fieldItems]
          rw [Emission.map_andThen, ih]
      | second b => exact ih
      | other hfirst hsecond =>
          simp only [fieldItems]
          exact ih

/-- The attributed items are those that the walk hands over. -/
theorem attributed_map (data : Bytes) :
    (attributed ops read data).map Prod.snd = (itemsOf loopEnd ops read data).items := by
  have hitems : (fun r => (attributedOfResource ops read r).map Prod.snd) =
      itemsOfResource loopEnd ops read := funext attributedOfResource_map
  rw [itemsOf, ← hitems, ← fieldItems_map]
  rfl

/-! ## The order of the decoding -/

/-- The scope messages of a resource in the order of their decoding: the first of them are put
off to the end. -/
def scopeOrder (r : Bytes) : List Bytes :=
  let scopes := messagesAt 2 (pbFields r).1
  scopes.drop PENDING_SCOPES ++
    if (pbFields r).2 = .badValue then [] else scopes.take PENDING_SCOPES

theorem visitsOf_map_fst (r : Bytes) : (visitsOf ops r).map Prod.fst = scopeOrder r :=
  visits_map_fst _ _ _ (Nat.zero_le _)

/-! ## The name in the context -/

/-- The names in a scope record, as they are kept. -/
def namesIn (scope : Bytes) : List (CStr 256) :=
  (messagesAt 1 (pbFields scope).1).map (pwCopyStr 256)

/-- The names in the scope records among the fields of a scope message. -/
def namesOf (fs : List Field) : List (CStr 256) :=
  (messagesAt 1 fs).flatMap namesIn

/-- All names that a scope message has for itself. -/
def ownNames (s : Bytes) : List (CStr 256) :=
  namesOf (pbFields s).1

theorem getLastD_append {β : Type} (xs ys : List β) (d : β) :
    (xs ++ ys).getLastD d = ys.getLastD (xs.getLastD d) := by
  induction xs generalizing d with
  | nil => rfl
  | cons x xs ih => rw [List.cons_append, List.getLastD_cons, List.getLastD_cons, ih]

/-- The last name, or the empty text. -/
def nameAfter (names : List (CStr 256)) : CStr 256 :=
  names.getLastD (CStr.copy 256 [])

theorem foldl_scopeStep (scope : Bytes) (name : CStr 256) :
    (pbFields scope).1.foldl scopeStep name = (namesIn scope).getLastD name := by
  rw [namesIn]
  generalize (pbFields scope).1 = fs
  induction fs generalizing name with
  | nil => rfl
  | cons f fs ih =>
      rw [List.foldl_cons, ih]
      cases fieldCase f with
      | first s => rw [messagesAt_cons, List.map_cons, List.getLastD_cons, scopeStep]
      | second b =>
          rw [messagesAt_cons_of_ne (by decide)]
          rfl
      | other hfirst hsecond =>
          rw [messagesAt_cons_other hfirst]
          simp only [scopeStep]

end Walk

/-! ## Items that carry their context -/

/-- Two walks with as many items, which both fail or both do not. -/
def SameCount (e e' : Emission α) : Prop :=
  e.ok = e'.ok ∧ e.items.length = e'.items.length

theorem composes_alike : Composes (SameCount (α := α)) where
  nothing := ⟨rfl, rfl⟩
  andThen := by
    rintro ⟨items, ok⟩ ⟨items', ok'⟩ ⟨others, k⟩ ⟨others', k'⟩ ⟨hok, hlen⟩ ⟨hok', hlen'⟩
    simp only at hok hlen hok' hlen'
    subst hok hok'
    cases ok <;> simp [SameCount, Emission.andThen, hlen, hlen']

theorem SameCount.refl (e : Emission α) : SameCount e e :=
  ⟨rfl, rfl⟩

/-- A walk whose items each carry the context they were read in, and which reads in every
context alike. -/
structure CarriesContext (ops : WalkContext C) (read : Bytes → C → Emission α)
    (scopeName : C → CStr 256) (contextOf : α → C) : Prop where
  init : scopeName ops.init = CStr.copy 256 []
  mapScopeName : ∀ f c, scopeName (ops.mapScopeName f c) = f (scopeName c)
  takeAttribute : ∀ key value c, scopeName (ops.takeAttribute key value c) = scopeName c
  item : ∀ r c, ∀ a ∈ (read r c).items, contextOf a = c
  alike : ∀ r c c', SameCount (read r c) (read r c')

namespace CarriesContext

variable {ops : WalkContext C} {read : Bytes → C → Emission α} {scopeName : C → CStr 256}
  {contextOf : α → C}

theorem scopeItems_alike (h : CarriesContext ops read scopeName contextOf) (ending : Ending)
    (fields : List Field) (c c' : C) :
    SameCount (scopeItems loopEnd ops read ending fields c)
      (scopeItems loopEnd ops read ending fields c') := by
  induction fields generalizing c c' with
  | nil => exact SameCount.refl _
  | cons f fields ih =>
      cases fieldCase f with
      | first scope => exact ih _ _
      | second r => exact composes_alike.andThen (h.alike r c c') (ih c c')
      | other hfirst hsecond =>
          simp only [scopeItems]
          exact ih c c'

theorem scopeName_scopeContext (h : CarriesContext ops read scopeName contextOf)
    (fields : List Field) (c : C) :
    scopeName (scopeContext ops fields c) = (namesOf fields).getLastD (scopeName c) := by
  induction fields generalizing c with
  | nil => rfl
  | cons f fields ih =>
      cases fieldCase f with
      | first scope =>
          have hname := h.mapScopeName (fun name => (pbFields scope).1.foldl scopeStep name) c
          rw [namesOf, messagesAt_cons, List.flatMap_cons, ← namesOf, getLastD_append,
            ← foldl_scopeStep, ← hname]
          exact ih _
      | second r =>
          rw [namesOf, messagesAt_cons_of_ne (by decide), ← namesOf]
          exact ih c
      | other hfirst hsecond =>
          rw [namesOf, messagesAt_cons_other hfirst, ← namesOf]
          simp only [scopeContext]
          exact ih c

theorem scopeName_resource (h : CarriesContext ops read scopeName contextOf) (fields : List Field)
    (c : C) : scopeName (fields.foldl (resourceStep ops) c) = scopeName c := by
  induction fields generalizing c with
  | nil => rfl
  | cons f fields ih =>
      rw [List.foldl_cons, ih]
      unfold resourceStep
      split
      · split
        · exact h.takeAttribute _ _ c
        · rfl
      · rfl

theorem scopeName_contextAfter (h : CarriesContext ops read scopeName contextOf) (s : Bytes)
    (c : C) : scopeName (contextAfter ops s c) = (ownNames s).getLastD (scopeName c) :=
  h.scopeName_scopeContext _ c

end CarriesContext

/-! ## The name each scope is decoded with -/

/-- Each scope message is decoded under the last name that was set before it. -/
def Follows (scopeName : C → CStr 256) : CStr 256 → List (Bytes × C) → Prop
  | _, [] => True
  | name, v :: vs =>
      scopeName v.2 = name ∧ Follows scopeName ((ownNames v.1).getLastD name) vs

theorem Follows.scopeName_eq {scopeName : C → CStr 256} {name : CStr 256}
    {before after : List (Bytes × C)} {v : Bytes × C}
    (h : Follows scopeName name (before ++ v :: after)) :
    scopeName v.2 = ((before.map Prod.fst).flatMap ownNames).getLastD name := by
  induction before generalizing name with
  | nil => exact h.1
  | cons u before ih =>
      rw [ih h.2, List.map_cons, List.flatMap_cons, getLastD_append]

namespace CarriesContext

variable {ops : WalkContext C} {read : Bytes → C → Emission α} {scopeName : C → CStr 256}
  {contextOf : α → C}

theorem follows_visitsOfPending (h : CarriesContext ops read scopeName contextOf)
    (pending : List Bytes) (c : C) :
    Follows scopeName (scopeName c) (visitsOfPending (contextAfter ops) pending c) := by
  induction pending generalizing c with
  | nil => trivial
  | cons scope pending ih =>
      refine ⟨rfl, ?_⟩
      rw [← h.scopeName_contextAfter]
      exact ih _

theorem follows_visits (h : CarriesContext ops read scopeName contextOf) (ending : Ending)
    (fields : List Field) (c : C) (pending : List Bytes) :
    Follows scopeName (scopeName c)
      (visits (contextAfter ops) (afterResource ops) ending fields c pending) := by
  induction fields generalizing c pending with
  | nil =>
      rw [visits]
      split
      · trivial
      · exact h.follows_visitsOfPending pending c
  | cons f fields ih =>
      cases fieldCase f with
      | first res =>
          rw [← h.scopeName_resource (pbFields res).1 c]
          exact ih _ _
      | second scope =>
          simp only [visits]
          split
          · exact ih _ _
          · refine ⟨rfl, ?_⟩
            rw [← h.scopeName_contextAfter]
            exact ih _ _
      | other hfirst hsecond =>
          simp only [visits]
          exact ih _ _

theorem follows_visitsOf (h : CarriesContext ops read scopeName contextOf) (r : Bytes) :
    Follows scopeName (CStr.copy 256 []) (visitsOf ops r) := by
  rw [← h.init]
  exact h.follows_visits _ _ _ _

end CarriesContext

/-! ## Where an item comes from -/

section Places

variable {ops : WalkContext C} {read : Bytes → C → Emission α}

theorem fieldItems_eq (items : Bytes → Emission α) (ending : Ending) (fields : List Field) :
    fieldItems loopEnd items ending fields =
      (Emission.sequence ((messagesAt 1 fields).map items)).andThen (loopEnd ending) := by
  induction fields with
  | nil => rfl
  | cons f fields ih =>
      cases fieldCase f with
      | first r =>
          rw [messagesAt_cons, List.map_cons, Emission.sequence, Emission.andThen_assoc, ← ih]
          rfl
      | second b =>
          rw [messagesAt_cons_of_ne (by decide)]
          exact ih
      | other hfirst hsecond =>
          rw [messagesAt_cons_other hfirst]
          simp only [fieldItems]
          exact ih

theorem mem_items_andThen_loopEnd {e : Emission α} {ending : Ending} {a : α} :
    a ∈ (e.andThen (loopEnd ending)).items ↔ a ∈ e.items := by
  rw [mem_items_andThen_iff]
  cases ending <;> simp [loopEnd, Emission.nothing, Emission.failure]

/-- A span or metric record of a scope message in which an item is found, in the context behind
the fields before it. -/
def FoundIn (ops : WalkContext C) (read : Bytes → C → Emission α) (fields : List Field) (c : C)
    (a : α) : Prop :=
  ∃ before x after, fields = before ++ ⟨2, .bytes x⟩ :: after ∧
    (scopeItems loopEnd ops read .atEnd before c).ok = true ∧
    a ∈ (read x (scopeContext ops before c)).items

/-- A field that is no record goes to the front of the fields before one. -/
theorem foundIn_cons {f : Field} {fields : List Field} {c c' : C} {a : α}
    (hf : ∀ b, f ≠ ⟨2, .bytes b⟩)
    (hitems : ∀ fs, scopeItems loopEnd ops read .atEnd (f :: fs) c =
      scopeItems loopEnd ops read .atEnd fs c')
    (hcontext : ∀ fs, scopeContext ops (f :: fs) c = scopeContext ops fs c') :
    FoundIn ops read (f :: fields) c a ↔ FoundIn ops read fields c' a := by
  constructor
  · rintro ⟨before, x, after, heq, hok, ha⟩
    cases before with
    | nil => exact absurd (List.cons.inj heq).1 (hf x)
    | cons g before =>
        obtain ⟨rfl, rfl⟩ := List.cons.inj heq
        exact ⟨before, x, after, rfl, by rwa [hitems] at hok, by rwa [hcontext] at ha⟩
  · rintro ⟨before, x, after, rfl, hok, ha⟩
    exact ⟨f :: before, x, after, rfl, by rwa [hitems], by rwa [hcontext]⟩

theorem foundIn_record {r : Bytes} {fields : List Field} {c : C} {a : α} :
    FoundIn ops read (⟨2, .bytes r⟩ :: fields) c a ↔
      a ∈ (read r c).items ∨ (read r c).ok = true ∧ FoundIn ops read fields c a := by
  have hitems (fs : List Field) : scopeItems loopEnd ops read .atEnd (⟨2, .bytes r⟩ :: fs) c =
      (read r c).andThen (scopeItems loopEnd ops read .atEnd fs c) := rfl
  constructor
  · rintro ⟨before, x, after, heq, hbefore, ha⟩
    cases before with
    | nil =>
        obtain ⟨hf, rfl⟩ := List.cons.inj heq
        obtain rfl := Payload.bytes.inj (Field.mk.inj hf).2
        exact .inl ha
    | cons g before =>
        obtain ⟨rfl, rfl⟩ := List.cons.inj heq
        rw [hitems, ok_andThen, Bool.and_eq_true] at hbefore
        exact .inr ⟨hbefore.1, before, x, after, rfl, hbefore.2, ha⟩
  · intro h
    cases h with
    | inl ha => exact ⟨[], r, fields, rfl, rfl, ha⟩
    | inr h =>
        obtain ⟨hok, before, x, after, rfl, hbefore, ha⟩ := h
        refine ⟨⟨2, .bytes r⟩ :: before, x, after, rfl, ?_, ha⟩
        rw [hitems, ok_andThen, hok, hbefore]
        rfl

theorem mem_scopeItems {ending : Ending} {fields : List Field} {c : C} {a : α} :
    a ∈ (scopeItems loopEnd ops read ending fields c).items ↔ FoundIn ops read fields c a := by
  induction fields generalizing c with
  | nil =>
      cases ending <;> simp [scopeItems, FoundIn, loopEnd, Emission.nothing, Emission.failure]
  | cons f fields ih =>
      cases fieldCase f with
      | first scope =>
          rw [foundIn_cons (by simp) (fun _ => rfl) fun _ => rfl, ← ih]
          rfl
      | second r =>
          rw [foundIn_record, ← ih, ← mem_items_andThen_iff]
          rfl
      | other hfirst hsecond =>
          have hskip : FoundIn ops read (f :: fields) c a ↔ FoundIn ops read fields c a :=
            foundIn_cons hsecond (fun _ => by simp only [scopeItems])
              fun _ => by simp only [scopeContext]
          rw [hskip, ← ih]
          simp only [scopeItems]

theorem ok_attributedOfResource (r : Bytes) :
    (attributedOfResource ops read r).ok = (itemsOfResource loopEnd ops read r).ok := by
  rw [← attributedOfResource_map]
  rfl

theorem mem_attributed {data s : Bytes} {a : α} :
    (s, a) ∈ attributed ops read data ↔
      ∃ rs r rs' before c after, messagesAt 1 (pbFields data).1 = rs ++ r :: rs' ∧
        (∀ e ∈ rs, (itemsOfResource loopEnd ops read e).ok = true) ∧
        visitsOf ops r = before ++ (s, c) :: after ∧
        (∀ v ∈ before, (itemsOfScope loopEnd ops read v.1 v.2).ok = true) ∧
        FoundIn ops read (pbFields s).1 c a := by
  rw [attributed, fieldItems_eq, mem_items_andThen_loopEnd, mem_items_sequence]
  constructor
  · rintro ⟨rs, r, rs', hdata, hrs, hx⟩
    rw [attributedOfResource, mem_items_andThen_loopEnd, mem_items_sequence] at hx
    obtain ⟨before, v, after, hr, hbefore, hmem⟩ := hx
    obtain ⟨b, hb, hpair⟩ := List.mem_map.mp hmem
    obtain ⟨rfl, rfl⟩ := Prod.mk.inj hpair
    refine ⟨rs, r, rs', before, v.2, after, hdata, fun e he => ?_, hr, hbefore, mem_scopeItems.mp hb⟩
    rw [← ok_attributedOfResource]
    exact hrs e he
  · rintro ⟨rs, r, rs', before, c, after, hdata, hrs, hr, hbefore, ha⟩
    refine ⟨rs, r, rs', hdata, fun e he => ?_, ?_⟩
    · rw [ok_attributedOfResource]
      exact hrs e he
    · rw [attributedOfResource, mem_items_andThen_loopEnd, mem_items_sequence]
      exact ⟨before, (s, c), after, hr, hbefore,
        List.mem_map.mpr ⟨a, mem_scopeItems.mpr ha, rfl⟩⟩

end Places

/-! ## Attribution -/

/-- The walk gets to a span or metric record of a scope message, behind these scope messages of
the same resource and these fields of its own. -/
structure Reaches (ops : WalkContext C) (read : Bytes → C → Emission α) (data : Bytes)
    (earlier : List Bytes) (s : Bytes) (before : List Field) (x : Bytes) : Prop where
  resource : ∃ rs r rs' later, messagesAt 1 (pbFields data).1 = rs ++ r :: rs' ∧
    (∀ e ∈ rs, (itemsOfResource loopEnd ops read e).ok = true) ∧
    scopeOrder r = earlier ++ s :: later
  earlier : ∀ e ∈ earlier, (itemsOfScope loopEnd ops read e ops.init).ok = true
  record : ∃ after, (pbFields s).1 = before ++ ⟨2, .bytes x⟩ :: after
  before : (scopeItems loopEnd ops read .atEnd before ops.init).ok = true

/-- Wherever the walk finds an item, the last name set before it in the resource is the last one
of its own scope message. -/
def NamesAgree (ops : WalkContext C) (read : Bytes → C → Emission α) (data : Bytes) : Prop :=
  ∀ earlier s before x, Reaches ops read data earlier s before x → (read x ops.init).items ≠ [] →
    nameAfter (earlier.flatMap ownNames ++ namesOf before) = nameAfter (ownNames s)

namespace CarriesContext

variable {ops : WalkContext C} {read : Bytes → C → Emission α} {scopeName : C → CStr 256}
  {contextOf : α → C} {data s : Bytes}

theorem scopeName_place (h : CarriesContext ops read scopeName contextOf) {r : Bytes}
    {before after : List (Bytes × C)} {c : C} (hr : visitsOf ops r = before ++ (s, c) :: after)
    (fields : List Field) :
    scopeName (scopeContext ops fields c) =
      nameAfter ((before.map Prod.fst).flatMap ownNames ++ namesOf fields) := by
  have hfollows := h.follows_visitsOf r
  rw [hr] at hfollows
  rw [h.scopeName_scopeContext, nameAfter, getLastD_append, ← hfollows.scopeName_eq]

theorem reaches_of_mem (h : CarriesContext ops read scopeName contextOf) {a : α}
    (ha : (s, a) ∈ attributed ops read data) :
    ∃ earlier before x c, Reaches ops read data earlier s before x ∧ a ∈ (read x c).items ∧
      scopeName c = nameAfter (earlier.flatMap ownNames ++ namesOf before) := by
  obtain ⟨rs, r, rs', visited, c, later, hdata, hrs, hr, hvisited, before, x, after, hs, hbefore,
    ha⟩ := mem_attributed.mp ha
  refine ⟨visited.map Prod.fst, before, x, scopeContext ops before c, ?_, ha,
    h.scopeName_place hr before⟩
  refine ⟨⟨rs, r, rs', later.map Prod.fst, hdata, hrs, ?_⟩, fun e he => ?_, ⟨after, hs⟩, ?_⟩
  · have horder : (visitsOf ops r).map Prod.fst = scopeOrder r := visitsOf_map_fst r
    rw [← horder, hr, List.map_append, List.map_cons]
  · obtain ⟨v, hv, rfl⟩ := List.mem_map.mp he
    exact (h.scopeItems_alike _ _ ops.init v.2).1.trans (hvisited v hv)
  · exact (h.scopeItems_alike _ _ ops.init c).1.trans hbefore

theorem mem_of_reaches (h : CarriesContext ops read scopeName contextOf) {earlier : List Bytes}
    {before : List Field} {x : Bytes} (hx : Reaches ops read data earlier s before x) :
    ∃ c, (∀ a ∈ (read x c).items, (s, a) ∈ attributed ops read data) ∧
      scopeName c = nameAfter (earlier.flatMap ownNames ++ namesOf before) := by
  obtain ⟨rs, r, rs', later, hdata, hrs, hr⟩ := hx.resource
  obtain ⟨after, hs⟩ := hx.record
  have horder : (visitsOf ops r).map Prod.fst = scopeOrder r := visitsOf_map_fst r
  rw [← horder] at hr
  obtain ⟨visited, rest, hsplit, rfl, hrest⟩ := List.map_eq_append_iff.mp hr
  obtain ⟨⟨_, c⟩, later', rfl, rfl, rfl⟩ := List.map_eq_cons_iff.mp hrest
  refine ⟨scopeContext ops before c, fun a ha => mem_attributed.mpr ?_,
    h.scopeName_place hsplit before⟩
  refine ⟨rs, r, rs', visited, c, later', hdata, hrs, hsplit, fun v hv => ?_,
    before, x, after, hs, ?_, ha⟩
  · exact (h.scopeItems_alike _ _ v.2 ops.init).1.trans
      (hx.earlier v.1 (List.mem_map_of_mem hv))
  · exact (h.scopeItems_alike _ _ c ops.init).1.trans hx.before

/-- The items of a payload are under the names of their own scope messages exactly where the
names agree. -/
theorem named_iff (h : CarriesContext ops read scopeName contextOf) (data : Bytes) :
    (∀ x ∈ attributed ops read data, scopeName (contextOf x.2) = nameAfter (ownNames x.1)) ↔
      NamesAgree ops read data := by
  constructor
  · intro hall earlier s before x hx hne
    obtain ⟨c, hmem, hname⟩ := h.mem_of_reaches hx
    have hnil : (read x c).items ≠ [] := fun hnil =>
      hne (List.length_eq_zero_iff.mp ((h.alike x ops.init c).2.trans (by rw [hnil]; rfl)))
    obtain ⟨a, ha⟩ := List.exists_mem_of_ne_nil _ hnil
    have hown := hall (s, a) (hmem a ha)
    rw [h.item x c a ha] at hown
    exact hname.symm.trans hown
  · intro hagree y hy
    obtain ⟨earlier, before, x, c, hx, ha, hname⟩ := h.reaches_of_mem (s := y.1) (a := y.2) hy
    have hne : (read x ops.init).items ≠ [] := fun hnil => by
      have hlen := (h.alike x ops.init c).2
      rw [hnil] at hlen
      exact absurd ha (List.length_eq_zero_iff.mp hlen.symm ▸ List.not_mem_nil)
    rw [h.item x c y.2 ha, hname]
    exact hagree earlier y.1 before x hx hne

end CarriesContext

/-! ## Spans and data points -/

def contextOfSpan (s : ProcWatch.Span) : SpanContext :=
  ⟨s.serviceName, s.scopeName, s.label⟩

def contextOfPoint (p : MetricPoint) : MetricContext :=
  ⟨p.serviceName, p.scopeName, p.label, p.pidKey⟩

theorem contextOfSpan_read {r : Bytes} {ctx : SpanContext} {s : ProcWatch.Span}
    (h : readSpanMessage r ctx = some s) : contextOfSpan s = ctx := by
  rw [readSpanMessage_eq_some h]
  exact foldl_unchanged spanStep (fun s => contextOfSpan s.1) (fun s f => by rw [spanStep_eq]; rfl)
    (spanStart ctx) _

theorem contextOfPoint_read {ctx : MetricContext} {m : MetricLocals} {kind : Container} {r : Bytes}
    {p : MetricPoint} (h : readPoint ctx m kind r = some p) : contextOfPoint p = ctx := by
  obtain ⟨s, hs, rfl⟩ := readPoint_eq_some h
  change contextOfPoint s.1 = ctx
  rw [hs]
  split
  · exact foldl_unchanged histogramPointStep (fun s => contextOfPoint s.1)
      (fun s f => by rw [histogramPointStep_eq]; rfl) (MetricPoint.init ctx m kind, Attrs.init 2048) _
  · exact foldl_unchanged numberPointStep (fun s => contextOfPoint s.1)
      (fun s f => by rw [numberPointStep_eq]; rfl) (MetricPoint.init ctx m kind, Attrs.init 2048) _

theorem alike_ofOption {o o' : Option α} (h : o = none ↔ o' = none) :
    SameCount (Emission.ofOption o) (Emission.ofOption o') := by
  cases o with
  | none =>
      rw [h.mp rfl]
      exact SameCount.refl _
  | some a =>
      cases o' with
      | none => exact absurd (h.mpr rfl) (by simp)
      | some a' => exact ⟨rfl, rfl⟩

theorem carriesContext_span :
    CarriesContext spanContext readSpan SpanContext.scopeName contextOfSpan where
  init := rfl
  mapScopeName := fun _ _ => rfl
  takeAttribute := fun key value c => by
    simp only [spanContext, spanAttribute]
    split_ifs <;> rfl
  item := fun _ c => allItems_ofOption (P := fun s => contextOfSpan s = c)
    fun _ hs => contextOfSpan_read hs
  alike := fun r c c' => alike_ofOption (by rw [readSpanMessage_eq_none, readSpanMessage_eq_none])

theorem carriesContext_metric :
    CarriesContext metricContext readMetric MetricContext.scopeName contextOfPoint where
  init := rfl
  mapScopeName := fun _ _ => rfl
  takeAttribute := fun key value c => by
    simp only [metricContext, metricAttribute]
    split_ifs <;> rfl
  item := fun r c => (composes_allItems fun p => contextOfPoint p = c).itemsOfMetric
    (allItems_loopEnd _) (fun _ _ _ => allItems_ofOption fun _ hp => contextOfPoint_read hp) r
  alike := fun r c c' => composes_alike.itemsOfMetric (fun _ => SameCount.refl _)
    (fun _ _ _ => alike_ofOption (by rw [readPoint_eq_none, readPoint_eq_none])) r

/-- Every item that is emitted has the name of the scope message it was found in. -/
structure KeepsScopes (decode : (α → Prog (List α) ℤ) → Bytes → Prog (List α) ℤ)
    (found : Bytes → List (Bytes × α)) (scopeName : α → CStr 256) (data : Bytes) : Prop where
  emitted : (found data).map Prod.snd = emitted decode data
  named : ∀ x ∈ found data, scopeName x.2 = nameAfter (ownNames x.1)

/-- Spans and data points are under the names of their own scopes exactly where, wherever the
walk finds one, the last name set before it in its resource is the last one of its scope. -/
theorem keepsScopes_iff (data : Bytes) :
    (KeepsScopes otlpDecodeTraces (attributed spanContext readSpan) Span.scopeName data ↔
        NamesAgree spanContext readSpan data) ∧
      (KeepsScopes otlpDecodeMetrics (attributed metricContext readMetric)
        MetricPoint.scopeName data ↔ NamesAgree metricContext readMetric data) := by
  constructor
  · rw [← carriesContext_span.named_iff]
    constructor
    · exact fun h => h.named
    · intro h
      exact ⟨(attributed_map data).trans (emitted_traces data).symm, h⟩
  · rw [← carriesContext_metric.named_iff]
    constructor
    · exact fun h => h.named
    · intro h
      exact ⟨(attributed_map data).trans (emitted_metrics data).symm, h⟩

/-- A scope with a name and a span, and a scope with a span only. -/
def twoScopes : List Field :=
  submessages 2 [[⟨1, .bytes (encode [⟨1, .bytes (bytes "http")⟩])⟩, ⟨2, .bytes []⟩],
    [⟨2, .bytes []⟩]]

/-- The span of the second scope is under the name of the first one. -/
theorem not_keepsScopes_twoScopes :
    ¬ KeepsScopes otlpDecodeTraces (attributed spanContext readSpan) Span.scopeName
      (encode (submessages 1 [twoScopes])) := by
  intro h
  have hnamed := h.named
  revert hnamed
  decide +kernel

end ProcWatch.Otlp

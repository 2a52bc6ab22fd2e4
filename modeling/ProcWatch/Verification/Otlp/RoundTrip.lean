import ProcWatch.Verification.Otlp.Messages

/-! # The walk over an encoded request

What the walk hands to its sink for the encoding of a tree, given what the decoder of an item
makes of the encoding of an item.
-/

namespace ProcWatch.Otlp

open CLib Wire

/-! ## Reading attributes -/

theorem pwCopyStr_eq {cap : ℕ} [NeZero cap] (s : Bytes) : pwCopyStr cap s = CStr.copy cap s :=
  CStr.ext (cstr_take _ _)

theorem pwCopyStr_val_of_fits {cap : ℕ} [NeZero cap] {s : Bytes} (h : FitsIn cap s) :
    (pwCopyStr cap s).val = s := by
  rw [pwCopyStr_eq]
  exact CStr.copy_val_of_fits h.1 h.2

theorem valid_pairFields (key value : Bytes) : ∀ f ∈ pairFields key value, f.Valid := by
  intro f hf
  simp only [pairFields, List.mem_append, List.mem_singleton] at hf
  rcases hf with hf | rfl
  · split at hf
    · simp at hf
    · obtain rfl := List.mem_singleton.mp hf
      exact Field.valid_of_lt (by decide) (by decide) _
  · exact Field.valid_of_lt (by decide) (by decide) _

theorem AnyValue.valid_fields (v : AnyValue) : ∀ f ∈ v.fields, f.Valid := by
  intro f hf
  cases v <;> simp only [AnyValue.fields, List.not_mem_nil, List.mem_singleton] at hf <;>
    subst hf <;> exact Field.valid_of_lt (by decide) (by decide) _

theorem length_value_le (key value : Bytes) : value.length ≤ (encode (pairFields key value)).length := by
  apply length_bytes_of_mem (n := 2)
  simp [pairFields]

theorem pwParseKv_encodePair {kv : KeyValue} (h : (encodePair kv).length < 2 ^ 64) :
    pwParseKv (encodePair kv) = (pwCopyStr 256 kv.1, some (encode kv.2.fields)) := by
  rw [pwParseKv, encodePair, pbFields_encode (valid_pairFields _ _) h]
  by_cases hkey : kv.1 = []
  · simp [pairFields, hkey, parseKvStep, pwCopyStr_eq]
  · simp [pairFields, hkey, parseKvStep]

theorem pwAnyValueAsString_fields {cap : ℕ} [NeZero cap] {v : AnyValue}
    (h : (encode v.fields).length < 2 ^ 64) :
    pwAnyValueAsString cap (encode v.fields) = v.string?.map (pwCopyStr cap) := by
  rw [pwAnyValueAsString, pbFields_encode v.valid_fields h]
  cases v <;> simp [AnyValue.fields, AnyValue.string?]

/-! ## Fields that matter -/

theorem fieldCase_of_not_outline {f : Field} (h : ¬ (f.number = 1 ∨ f.number = 2)) :
    (∀ b, f ≠ ⟨1, .bytes b⟩) ∧ ∀ b, f ≠ ⟨2, .bytes b⟩ := by
  constructor
  · rintro b rfl
    simp at h
  · rintro b rfl
    simp at h

section Outline

variable {C α : Type} (ops : WalkContext C) (read : Bytes → C → Emission α)

theorem scopeItems_outline (ending : Ending) (fs : List Field) (c : C) :
    scopeItems loopEnd ops read ending (outline fs) c = scopeItems loopEnd ops read ending fs c := by
  induction fs generalizing c with
  | nil => rfl
  | cons f fs ih =>
      by_cases hf : f.number = 1 ∨ f.number = 2
      · have hcons : outline (f :: fs) = f :: outline fs := List.filter_cons_of_pos (by simpa using hf)
        rw [hcons]
        cases fieldCase f with
        | first scope => exact ih _
        | second r => exact congrArg (read r c).andThen (ih c)
        | other hfirst hsecond =>
            simp only [scopeItems]
            exact ih c
      · have hskip : outline (f :: fs) = outline fs := List.filter_cons_of_neg (by simpa using hf)
        obtain ⟨hfirst, hsecond⟩ := fieldCase_of_not_outline hf
        rw [hskip]
        simp only [scopeItems]
        exact ih c

theorem scopeContext_outline (fs : List Field) (c : C) :
    scopeContext ops (outline fs) c = scopeContext ops fs c := by
  induction fs generalizing c with
  | nil => rfl
  | cons f fs ih =>
      by_cases hf : f.number = 1 ∨ f.number = 2
      · have hcons : outline (f :: fs) = f :: outline fs := List.filter_cons_of_pos (by simpa using hf)
        rw [hcons]
        cases fieldCase f with
        | first scope => exact ih _
        | second r => exact ih c
        | other hfirst hsecond =>
            simp only [scopeContext]
            exact ih c
      · have hskip : outline (f :: fs) = outline fs := List.filter_cons_of_neg (by simpa using hf)
        obtain ⟨hfirst, hsecond⟩ := fieldCase_of_not_outline hf
        rw [hskip]
        simp only [scopeContext]
        exact ih c

theorem resourceItems_outline (ending : Ending) (fs : List Field) (c : C) (pending : List Bytes) :
    resourceItems loopEnd ops read ending (outline fs) c pending =
      resourceItems loopEnd ops read ending fs c pending := by
  induction fs generalizing c pending with
  | nil => rfl
  | cons f fs ih =>
      by_cases hf : f.number = 1 ∨ f.number = 2
      · have hcons : outline (f :: fs) = f :: outline fs := List.filter_cons_of_pos (by simpa using hf)
        rw [hcons]
        cases fieldCase f with
        | first resource => exact ih _ _
        | second scope =>
            simp only [resourceItems, ih]
        | other hfirst hsecond =>
            simp only [resourceItems]
            exact ih c pending
      · have hskip : outline (f :: fs) = outline fs := List.filter_cons_of_neg (by simpa using hf)
        obtain ⟨hfirst, hsecond⟩ := fieldCase_of_not_outline hf
        rw [hskip]
        simp only [resourceItems]
        exact ih c pending

end Outline

theorem fieldItems_numbered {α : Type} (items : Bytes → Emission α) (ending : Ending)
    (fs : List Field) : fieldItems loopEnd items ending (numbered 1 fs) = fieldItems loopEnd items ending fs := by
  induction fs with
  | nil => rfl
  | cons f fs ih =>
      by_cases hf : f.number = 1
      · have hcons : numbered 1 (f :: fs) = f :: numbered 1 fs :=
          List.filter_cons_of_pos (by simpa using hf)
        rw [hcons]
        cases fieldCase f with
        | first r => exact congrArg (items r).andThen ih
        | second b => exact ih
        | other hfirst hsecond =>
            simp only [fieldItems]
            exact ih
      · have hskip : numbered 1 (f :: fs) = numbered 1 fs :=
          List.filter_cons_of_neg (by simpa using hf)
        have hfirst : ∀ b, f ≠ ⟨1, .bytes b⟩ := by
          rintro b rfl
          simp at hf
        rw [hskip]
        simp only [fieldItems]
        exact ih

/-! ## Trees -/

section Trees

variable {C α ι ρ : Type}

/-- The context for the items of a scope of this name. -/
def named (ops : WalkContext C) (name : Bytes) (c : C) : C :=
  ops.mapScopeName (fun _ => pwCopyStr 256 name) c

/-- The context once the attributes of a resource are read. -/
def attributesContext (ops : WalkContext C) (attrs : List KeyValue) : C :=
  attrs.foldl (fun c kv => ops.takeAttribute (pwCopyStr 256 kv.1).val (encode kv.2.fields) c) ops.init

/-- What a round trip needs to know of a decoder of items: the rows in which the items of a
tree end up, for the items that fit. -/
structure ReadsItems (ops : WalkContext C) (read : Bytes → C → Emission α)
    (item : List Field → ι → Prop) (row : α → ρ) (Fits : ι → Prop) (rows : C → ι → List ρ) :
    Prop where
  mapScopeName : ∀ f g c, ops.mapScopeName f (ops.mapScopeName g c) = ops.mapScopeName (f ∘ g) c
  reads : ∀ fs x c, item fs x → Fits x → (encode fs).length < 2 ^ 64 →
    (read (encode fs) c).ok = true ∧ (read (encode fs) c).items.map row = rows c x

def Scope.rows (ops : WalkContext C) (rows : C → ι → List ρ) (c : C) (s : Scope ι) : List ρ :=
  s.items.flatMap (rows (named ops s.name c))

def Resource.rows (ops : WalkContext C) (rows : C → ι → List ρ) (r : Resource ι) : List ρ :=
  r.scopes.flatMap (Scope.rows ops rows (attributesContext ops r.attributes))

variable {ops : WalkContext C} {read : Bytes → C → Emission α} {item : List Field → ι → Prop}
  {row : α → ρ} {Fits : ι → Prop} {rows : C → ι → List ρ}

theorem ReadsItems.named_mapScopeName (h : ReadsItems ops read item row Fits rows) (name : Bytes)
    (f : CStr 256 → CStr 256) (c : C) : named ops name (ops.mapScopeName f c) = named ops name c :=
  h.mapScopeName _ _ c

/-- An emission that gets to its end, with these rows. -/
def Emits (row : α → ρ) (e : Emission α) (rs : List ρ) : Prop :=
  e.ok = true ∧ e.items.map row = rs

theorem Emits.andThen {e e' : Emission α} {rs rs' : List ρ} (h : Emits row e rs)
    (h' : Emits row e' rs') : Emits row (e.andThen e') (rs ++ rs') := by
  rw [Emission.andThen, if_pos h.1]
  exact ⟨h'.1, by rw [List.map_append, h.2, h'.2]⟩

theorem mem_of_outline {fs fs' : List Field} {f : Field} (h : outline fs = fs') (hf : f ∈ fs') :
    f ∈ fs :=
  List.mem_of_mem_filter (h ▸ hf : f ∈ outline fs)

theorem length_submessage {fs g : List Field} {n : ℕ} (h : ⟨n, .bytes (encode g)⟩ ∈ fs)
    (hlen : (encode fs).length < 2 ^ 64) : (encode g).length < 2 ^ 64 :=
  (length_bytes_of_mem h).trans_lt hlen

/-- The items of a scope, behind its name. -/
theorem emits_items (h : ReadsItems ops read item row Fits rows) {items : List (List Field)}
    {xs : List ι} (hitems : List.Forall₂ item items xs) (hfits : ∀ x ∈ xs, Fits x)
    (hlen : ∀ g ∈ items, (encode g).length < 2 ^ 64) (c : C) :
    Emits row (scopeItems loopEnd ops read .atEnd (submessages 2 items) c) (xs.flatMap (rows c)) := by
  induction hitems with
  | nil => exact ⟨rfl, rfl⟩
  | @cons g x items xs hitem _ ih =>
      have hhead : Emits row (read (encode g) c) (rows c x) :=
        h.reads g x c hitem (hfits x (by simp)) (hlen g (by simp))
      have hrest := ih (fun y hy => hfits y (by simp [hy])) (fun g hg => hlen g (by simp [hg]))
      exact hhead.andThen hrest

theorem scopeContext_submessages (items : List (List Field)) (c : C) :
    scopeContext ops (submessages 2 items) c = c := by
  induction items with
  | nil => rfl
  | cons g items ih => exact ih

theorem scopeName_encode {scope : List Field} {name : Bytes} (hvalid : ∀ f ∈ scope, f.Valid)
    (hname : numbered 1 scope = [⟨1, .bytes name⟩]) (hlen : (encode scope).length < 2 ^ 64)
    (old : CStr 256) :
    (pbFields (encode scope)).1.foldl scopeStep old = pwCopyStr 256 name := by
  have hstep (old : CStr 256) (f : Field) :
      scopeStep old f = onField 1 (setBytes (pwCopyStr 256)) old f := by
    unfold scopeStep
    split
    · rfl
    · obtain ⟨n, v | v | b | v⟩ := f <;> simp_all [onField, setBytes]
  rw [pbFields_encode hvalid hlen]
  refine (foldl_numbered scopeStep id hstep old scope).trans ?_
  rw [hname]
  rfl

theorem emits_scope (h : ReadsItems ops read item row Fits rows) {fs : List Field} {s : Scope ι}
    (hs : EncodesScope item fs s) (hfits : ∀ x ∈ s.items, Fits x)
    (hlen : (encode fs).length < 2 ^ 64) (c : C) :
    Emits row (itemsOfScope loopEnd ops read (encode fs) c) (s.rows ops rows c) ∧
      contextAfter ops (encode fs) c = named ops s.name c := by
  obtain ⟨scope, items, hvalid, hname, hitems, houtline⟩ := hs.outline
  have hmem {f : Field} (hf : f ∈ ⟨1, .bytes (encode scope)⟩ :: submessages 2 items) : f ∈ fs :=
    mem_of_outline houtline hf
  have hscope := length_submessage (hmem List.mem_cons_self) hlen
  have hlens : ∀ g ∈ items, (encode g).length < 2 ^ 64 := by
    intro g hg
    apply length_submessage (n := 2) _ hlen
    apply hmem
    simp only [submessages, List.mem_cons, List.mem_map]
    exact .inr ⟨g, hg, rfl⟩
  have hnamed : ops.mapScopeName (fun name => (pbFields (encode scope)).1.foldl scopeStep name) c =
      named ops s.name c := by
    have hconst : (fun name => (pbFields (encode scope)).1.foldl scopeStep name) =
        fun _ => pwCopyStr 256 s.name := by
      funext old
      exact scopeName_encode hvalid hname hscope old
    rw [named, hconst]
  rw [itemsOfScope, contextAfter, pbFields_encode hs.valid hlen, ← scopeItems_outline,
    ← scopeContext_outline, houtline]
  constructor
  · have hstart : scopeItems loopEnd ops read .atEnd
        (⟨1, .bytes (encode scope)⟩ :: submessages 2 items) c =
        scopeItems loopEnd ops read .atEnd (submessages 2 items) (named ops s.name c) :=
      congrArg (scopeItems loopEnd ops read .atEnd (submessages 2 items)) hnamed
    simp only [hstart]
    exact emits_items h hitems hfits hlens (named ops s.name c)
  · exact (scopeContext_submessages items _).trans hnamed

/-- Contexts that differ in the name of the last scope at most. -/
def SameBase (ops : WalkContext C) (c c' : C) : Prop :=
  ∃ f, c' = ops.mapScopeName f c ∨ c' = c

theorem ReadsItems.rows_eq (h : ReadsItems ops read item row Fits rows) {c c' : C}
    (hbase : SameBase ops c c') (s : Scope ι) : s.rows ops rows c' = s.rows ops rows c := by
  obtain ⟨f, rfl | rfl⟩ := hbase
  · rw [Scope.rows, Scope.rows, h.named_mapScopeName]
  · rfl

theorem ReadsItems.sameBase_named (h : ReadsItems ops read item row Fits rows) {c c' : C}
    (hbase : SameBase ops c c') (name : Bytes) : SameBase ops c (named ops name c') := by
  obtain ⟨f, rfl | rfl⟩ := hbase
  · exact ⟨_, .inl (h.mapScopeName _ _ _)⟩
  · exact ⟨_, .inl rfl⟩

/-- The scopes of a resource that were put off, each an encoding of its tree. -/
theorem emits_pending (h : ReadsItems ops read item row Fits rows) {pending : List (List Field)}
    {ss : List (Scope ι)} (hss : List.Forall₂ (EncodesScope item) pending ss)
    (hfits : ∀ s ∈ ss, ∀ x ∈ s.items, Fits x)
    (hlen : ∀ g ∈ pending, (encode g).length < 2 ^ 64) {base c : C} (hbase : SameBase ops base c) :
    Emits row (pendingItems loopEnd ops read (pending.map encode) c)
      (ss.flatMap (Scope.rows ops rows base)) := by
  induction hss generalizing c with
  | nil => exact ⟨rfl, rfl⟩
  | @cons g s pending ss hs _ ih =>
      obtain ⟨hhead, hafter⟩ := emits_scope h hs (hfits s (by simp)) (hlen g (by simp)) c
      rw [h.rows_eq hbase] at hhead
      rw [List.map_cons, pendingItems, hafter]
      exact hhead.andThen (ih (fun t ht => hfits t (by simp [ht]))
        (fun g hg => hlen g (by simp [hg])) (h.sameBase_named hbase s.name))

/-- The scopes of a resource: those put off come last. -/
theorem emits_scopes (h : ReadsItems ops read item row Fits rows)
    {scopes pending : List (List Field)} {ss ps : List (Scope ι)}
    (hss : List.Forall₂ (EncodesScope item) scopes ss)
    (hps : List.Forall₂ (EncodesScope item) pending ps)
    (hfits : ∀ s ∈ ps ++ ss, ∀ x ∈ s.items, Fits x)
    (hlen : ∀ g ∈ pending ++ scopes, (encode g).length < 2 ^ 64) {base c : C}
    (hbase : SameBase ops base c) :
    ∃ rs, Emits row (resourceItems loopEnd ops read .atEnd (submessages 2 scopes) c (pending.map encode)) rs ∧
      rs.Perm ((ps ++ ss).flatMap (Scope.rows ops rows base)) := by
  induction hss generalizing pending ps c with
  | nil =>
      refine ⟨_, emits_pending h hps (by simpa using hfits) (by simpa using hlen) hbase, ?_⟩
      rw [List.append_nil]
  | @cons g s scopes ss hs _ ih =>
      have hcons : resourceItems loopEnd ops read .atEnd (submessages 2 (g :: scopes)) c
          (pending.map encode) = if (pending.map encode).length < PENDING_SCOPES then
            resourceItems loopEnd ops read .atEnd (submessages 2 scopes) c ((pending ++ [g]).map encode)
          else (itemsOfScope loopEnd ops read (encode g) c).andThen
            (resourceItems loopEnd ops read .atEnd (submessages 2 scopes)
              (contextAfter ops (encode g) c) (pending.map encode)) := by
        rw [List.map_append]
        rfl
      rw [hcons]
      split
      · obtain ⟨rs, hrs, hperm⟩ := ih (List.rel_append hps (.cons hs .nil))
          (by simpa using hfits) (by simpa using hlen) hbase
        exact ⟨rs, hrs, by simpa using hperm⟩
      · obtain ⟨hhead, hafter⟩ := emits_scope h hs (hfits s (by simp)) (hlen g (by simp)) c
        rw [h.rows_eq hbase] at hhead
        obtain ⟨rs, hrs, hperm⟩ := ih hps
          (fun t ht => hfits t (by
            cases List.mem_append.mp ht with
            | inl ht => simp [ht]
            | inr ht => simp [ht]))
          (fun g hg => hlen g (by
            cases List.mem_append.mp hg with
            | inl hg => simp [hg]
            | inr hg => simp [hg]))
          (h.sameBase_named hbase s.name)
        rw [hafter]
        refine ⟨_, hhead.andThen hrs, (hperm.append_left _).trans ?_⟩
        simp only [List.flatMap_append, List.flatMap_cons]
        rw [← List.append_assoc, ← List.append_assoc]
        exact List.perm_append_comm.append_right _

theorem resourceStep_eq (c : C) (f : Field) :
    resourceStep ops c f = onField 1 (fun c p => resourceStep ops c ⟨1, p⟩) c f := by
  by_cases hf : f.number = 1
  · obtain ⟨n, p⟩ := f
    obtain rfl : n = 1 := hf
    simp [onField]
  · unfold resourceStep
    split
    · exact absurd rfl hf
    · simp [onField, hf]

theorem resourceStep_encodePair (c : C) {kv : KeyValue} (h : (encodePair kv).length < 2 ^ 64) :
    resourceStep ops c ⟨1, .bytes (encodePair kv)⟩ =
      ops.takeAttribute (pwCopyStr 256 kv.1).val (encode kv.2.fields) c := by
  rw [resourceStep, pwParseKv_encodePair h]

theorem length_attribute {g : List Field} {attrs : List KeyValue}
    (hnum : numbered 1 g = attrs.map (fun kv => ⟨1, .bytes (encodePair kv)⟩))
    (hlen : (encode g).length < 2 ^ 64) : ∀ kv ∈ attrs, (encodePair kv).length < 2 ^ 64 := by
  intro kv hkv
  have hmem : ⟨1, .bytes (encodePair kv)⟩ ∈ numbered 1 g := by
    rw [hnum]
    exact List.mem_map_of_mem hkv
  exact (length_bytes_of_mem_numbered hmem).trans_lt hlen

theorem foldl_resourceStep {g : List Field} {attrs : List KeyValue}
    (hvalid : ∀ f ∈ g, f.Valid)
    (hnum : numbered 1 g = attrs.map (fun kv => ⟨1, .bytes (encodePair kv)⟩))
    (hlen : (encode g).length < 2 ^ 64) :
    (pbFields (encode g)).1.foldl (resourceStep ops) ops.init = attributesContext ops attrs := by
  have hfold := foldl_numbered (resourceStep ops) id resourceStep_eq ops.init g
  have hlens := length_attribute hnum hlen
  rw [pbFields_encode hvalid hlen, attributesContext]
  rw [hnum, List.foldl_map] at hfold
  refine hfold.trans ?_
  clear hfold hnum
  generalize ops.init = c
  induction attrs generalizing c with
  | nil => rfl
  | cons kv attrs ih =>
      rw [List.foldl_cons, List.foldl_cons]
      have hstep : resourceStep ops (id c) ⟨1, .bytes (encodePair kv)⟩ = _ :=
        resourceStep_encodePair c (hlens kv (by simp))
      rw [← hstep]
      exact ih (fun kv' hkv' => hlens kv' (by simp [hkv'])) _

theorem emits_resource (h : ReadsItems ops read item row Fits rows) {fs : List Field}
    {r : Resource ι} (hr : EncodesResource item fs r)
    (hfits : ∀ s ∈ r.scopes, ∀ x ∈ s.items, Fits x) (hlen : (encode fs).length < 2 ^ 64) :
    ∃ rs, Emits row (itemsOfResource loopEnd ops read (encode fs)) rs ∧ rs.Perm (r.rows ops rows) := by
  obtain ⟨resource, scopes, hattrs, hscopes, houtline⟩ := hr.outline
  have hlens : ∀ g ∈ [] ++ scopes, (encode g).length < 2 ^ 64 := by
    intro g hg
    apply length_submessage (n := 2) _ hlen
    apply mem_of_outline houtline
    simp only [submessages, List.mem_append, List.mem_map]
    exact .inr ⟨g, by simpa using hg, rfl⟩
  have hscopes' := emits_scopes h hscopes (.nil : List.Forall₂ (EncodesScope item) [] [])
    (by simpa using hfits) hlens
    (⟨id, .inr rfl⟩ : SameBase ops (attributesContext ops r.attributes) _)
  rw [itemsOfResource, pbFields_encode hr.valid hlen, ← resourceItems_outline, houtline]
  rcases hattrs with ⟨rfl, hnil⟩ | ⟨g, hvalid, hnum, rfl⟩
  · rw [hnil] at hscopes'
    rw [Resource.rows, hnil]
    exact hscopes'
  · have hg : (encode g).length < 2 ^ 64 :=
      length_submessage (mem_of_outline houtline List.mem_cons_self) hlen
    have hcontext : (pbFields (encode g)).1.foldl (resourceStep ops) ops.init =
        attributesContext ops r.attributes :=
      foldl_resourceStep hvalid hnum hg
    have hstart : resourceItems loopEnd ops read .atEnd ([⟨1, .bytes (encode g)⟩] ++ submessages 2 scopes)
        ops.init [] = resourceItems loopEnd ops read .atEnd (submessages 2 scopes)
          (attributesContext ops r.attributes) [] :=
      congrArg (resourceItems loopEnd ops read .atEnd (submessages 2 scopes) · []) hcontext
    simp only [hstart]
    exact hscopes'

theorem length_resource {fs : List Field} {ms : List (List Field)}
    (hnum : numbered 1 fs = submessages 1 ms) (hlen : (encode fs).length < 2 ^ 64) :
    ∀ g ∈ ms, (encode g).length < 2 ^ 64 := by
  intro g hg
  have hmem : ⟨1, .bytes (encode g)⟩ ∈ numbered 1 fs := by
    rw [hnum]
    exact List.mem_map_of_mem hg
  exact (length_bytes_of_mem_numbered hmem).trans_lt hlen

/-- The rows of an encoded request are those of its tree, up to order. -/
theorem emits_request (h : ReadsItems ops read item row Fits rows) {fs : List Field}
    {req : Request ι} (hreq : Encodes item fs req)
    (hfits : ∀ r ∈ req, ∀ s ∈ r.scopes, ∀ x ∈ s.items, Fits x)
    (hlen : (encode fs).length < 2 ^ 64) :
    ∃ rs, Emits row (itemsOf loopEnd ops read (encode fs)) rs ∧
      rs.Perm (req.flatMap (Resource.rows ops rows)) := by
  obtain ⟨ms, hms, hnum⟩ := hreq.resources
  have hlens := length_resource hnum hlen
  rw [itemsOf, pbFields_encode hreq.valid hlen, ← fieldItems_numbered, hnum]
  clear hnum hreq
  induction hms with
  | nil => exact ⟨[], ⟨rfl, rfl⟩, by simp⟩
  | @cons g r ms rs hr _ ih =>
      obtain ⟨xs, hxs, hperm⟩ := emits_resource h hr (hfits r (by simp)) (hlens g (by simp))
      obtain ⟨ys, hys, hperm'⟩ := ih (fun r hr => hfits r (by simp [hr]))
        (fun g hg => hlens g (by simp [hg]))
      refine ⟨xs ++ ys, hxs.andThen hys, ?_⟩
      rw [List.flatMap_cons]
      exact hperm.append hperm'

/-- The round trip, for a sink that returns 0: each item is handed over once. -/
theorem decodeRequest_encode {W : Type} {sink : α → Prog W ℤ} {decode : ItemDecoder W C}
    (h : ReadsItems ops read item row Fits rows)
    (hdecode : ∀ r c count, decode r c count = (read r c).run sink count)
    (hsink : ∀ a w, (sink a w).1 = .ret 0) {fs : List Field} {req : Request ι}
    (hreq : Encodes item fs req) (hfits : ∀ r ∈ req, ∀ s ∈ r.scopes, ∀ x ∈ s.items, Fits x)
    (hlen : (encode fs).length < 2 ^ 64) (w : W) :
    ∃ xs : List α, decodeRequest ops decode (encode fs) w =
        (.ret (xs.length : ℤ), xs.foldl (fun w a => (sink a w).2) w) ∧
      (xs.map row).Perm (req.flatMap (Resource.rows ops rows)) := by
  obtain ⟨rs, ⟨hok, hrows⟩, hperm⟩ := emits_request h hreq hfits hlen
  refine ⟨(itemsOf loopEnd ops read (encode fs)).items, ?_, hrows ▸ hperm⟩
  have hrun : (itemsOf loopEnd ops read (encode fs)).run sink 0 w =
      (.ret (0, (itemsOf loopEnd ops read (encode fs)).items.length),
        (itemsOf loopEnd ops read (encode fs)).items.foldl (fun w a => (sink a w).2) w) := by
    rw [Emission.run, chain, Prog.bind_of_ret (offer_of_zero hsink _ 0 w), hok]
    simp [Prog.pure_apply]
  rw [decodeRequest_eq hdecode, Prog.bind_of_ret hrun]
  rfl

/-! ## The attributes of resources -/

theorem EncodesResource.length_value {fs : List Field} {r : Resource ι}
    (hr : EncodesResource item fs r) (hlen : (encode fs).length < 2 ^ 64) :
    ∀ kv ∈ r.attributes, (encode kv.2.fields).length < 2 ^ 64 := by
  obtain ⟨resource, scopes, hattrs, -, houtline⟩ := hr.outline
  intro kv hkv
  rcases hattrs with ⟨-, hnil⟩ | ⟨g, -, hnum, rfl⟩
  · simp [hnil] at hkv
  · have hg : (encode g).length < 2 ^ 64 :=
      length_submessage (mem_of_outline houtline List.mem_cons_self) hlen
    exact (length_value_le kv.1 _).trans_lt (length_attribute hnum hg kv hkv)

theorem Encodes.length_value {fs : List Field} {req : Request ι} (h : Encodes item fs req)
    (hlen : (encode fs).length < 2 ^ 64) :
    ∀ r ∈ req, ∀ kv ∈ r.attributes, (encode kv.2.fields).length < 2 ^ 64 := by
  obtain ⟨ms, hms, hnum⟩ := h.resources
  have hlens := length_resource hnum hlen
  clear hnum h
  induction hms with
  | nil => simp
  | @cons g r ms rs hr _ ih =>
      intro r' hr'
      cases List.mem_cons.mp hr' with
      | inl heq =>
          rw [heq]
          exact hr.length_value (hlens g (by simp))
      | inr hrest => exact ih (fun g hg => hlens g (by simp [hg])) r' hrest

theorem pwCopyStr_key {key k : Bytes} (hkey : key.length < 255) (hk : (0 : Byte) ∉ k) :
    (pwCopyStr 256 k).val = key ↔ k = key := by
  have hval : (pwCopyStr 256 k).val = k.take 255 :=
    cstr_of_nulFree fun h => hk (List.mem_of_mem_take h)
  rw [hval]
  constructor
  · intro h
    have hlen : min 255 k.length = key.length := by rw [← h, List.length_take]
    rw [← h, List.take_of_length_le (by omega)]
  · intro h
    rw [h, List.take_of_length_le (by omega)]

theorem stringAttribute_concat (key : Bytes) (attrs : List KeyValue) (kv : KeyValue) :
    stringAttribute key (attrs ++ [kv]) =
      (if kv.1 = key then kv.2.string? else none).or (stringAttribute key attrs) := by
  rw [stringAttribute, stringAttribute, List.filterMap_append, List.getLast?_append]
  cases hkv : if kv.1 = key then kv.2.string? else none with
  | none => simp [hkv]
  | some s => simp [hkv]

/-- An entry of the context that holds the string of an attribute: the last one counts. -/
theorem attributesContext_string {cap : ℕ} [NeZero cap] {key : Bytes} (get : C → CStr cap)
    (hkey : key.length < 255)
    (htake : ∀ k value c, get (ops.takeAttribute k value c) =
      if k = key then (pwAnyValueAsString cap value).getD (get c) else get c)
    {attrs : List KeyValue} (hkeys : ∀ kv ∈ attrs, (0 : Byte) ∉ kv.1)
    (hlen : ∀ kv ∈ attrs, (encode kv.2.fields).length < 2 ^ 64)
    (hfits : ∀ s, (key, AnyValue.str s) ∈ attrs → FitsIn cap s) :
    (get (attributesContext ops attrs)).val =
      (stringAttribute key attrs).getD (get ops.init).val := by
  induction attrs using List.reverseRecOn with
  | nil => rfl
  | append_singleton attrs kv ih =>
      have hrest := ih (fun kv' h => hkeys kv' (by simp [h])) (fun kv' h => hlen kv' (by simp [h]))
        (fun s h => hfits s (by simp [h]))
      rw [attributesContext, List.foldl_append, ← attributesContext, stringAttribute_concat]
      simp only [List.foldl_cons, List.foldl_nil, htake,
        pwCopyStr_key hkey (hkeys kv (by simp)), pwAnyValueAsString_fields (hlen kv (by simp))]
      obtain ⟨k, v⟩ := kv
      by_cases hk : k = key
      · cases v with
        | str s =>
            have hs : (pwCopyStr cap s).val = s :=
              pwCopyStr_val_of_fits (hfits s (by simp [hk]))
            simp [hk, AnyValue.string?, hs]
        | _ => simp [hk, AnyValue.string?, hrest]
      · simp [hk, hrest]

end Trees

end ProcWatch.Otlp

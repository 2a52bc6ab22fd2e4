import ProcWatch.Verification.Otlp.Metric
import ProcWatch.Verification.Otlp.Trace

/-! # Fields that a decoder does not handle -/

namespace ProcWatch.Otlp

open CLib Wire

/-! ## Messages within messages -/

/-- The messages that the decoders go into. The attributes of a resource are read for their text
only. -/
inductive Level where
  | request
  | resourceItems
  | resource
  | resourceAttribute
  | resourceValue
  | scopeItems
  | scope
  | span
  | status
  | metric
  | numberPoints
  | histogramPoints
  | numberPoint
  | histogramPoint
  | keyValue
  | anyValue
  | arrayValue
  | kvlist

/-- The field numbers that a decoder of such messages handles. -/
def Level.numbers : Level → List ℕ
  | request => [1]
  | resourceItems => [1, 2]
  | resource => [1]
  | resourceAttribute => [1, 2]
  | resourceValue => [1]
  | scopeItems => [1, 2]
  | scope => [1]
  | span => [1, 2, 4, 5, 6, 7, 8, 9, 15]
  | status => [2, 3]
  | metric => [1, 2, 3, 5, 7, 9]
  | numberPoints => [1]
  | histogramPoints => [1]
  | numberPoint => [3, 4, 6, 7]
  | histogramPoint => [3, 4, 5, 9]
  | keyValue => [1, 2]
  | anyValue => [1, 2, 3, 4, 5, 6, 7]
  | arrayValue => [1]
  | kvlist => [1]

/-- The submessages by their field numbers; a scope holds spans or metrics. -/
inductive Nests (item : Level) : Level → ℕ → Level → Prop where
  | resourceItems : Nests item .request 1 .resourceItems
  | resource : Nests item .resourceItems 1 .resource
  | scopeItems : Nests item .resourceItems 2 .scopeItems
  | resourceAttribute : Nests item .resource 1 .resourceAttribute
  | resourceValue : Nests item .resourceAttribute 2 .resourceValue
  | resourceArray : Nests item .resourceValue 5 .arrayValue
  | resourceKvlist : Nests item .resourceValue 6 .kvlist
  | scope : Nests item .scopeItems 1 .scope
  | item : Nests item .scopeItems 2 item
  | status : Nests item .span 15 .status
  | spanAttribute : Nests item .span 9 .keyValue
  | gauge : Nests item .metric 5 .numberPoints
  | sum : Nests item .metric 7 .numberPoints
  | histogram : Nests item .metric 9 .histogramPoints
  | numberPoint : Nests item .numberPoints 1 .numberPoint
  | histogramPoint : Nests item .histogramPoints 1 .histogramPoint
  | numberAttribute : Nests item .numberPoint 7 .keyValue
  | histogramAttribute : Nests item .histogramPoint 9 .keyValue
  | value : Nests item .keyValue 2 .anyValue
  | array : Nests item .anyValue 5 .arrayValue
  | kvlist : Nests item .anyValue 6 .kvlist
  | element : Nests item .arrayValue 1 .anyValue
  | member : Nests item .kvlist 1 .keyValue

/-- The second message is the first one with a field that is not handled put in somewhere, in
the message itself or within a submessage, whose length is adjusted. -/
inductive Grown (item : Level) : Level → Bytes → Bytes → Prop where
  | insert {level : Level} {pre post added : Bytes} {front back : List Field} {f : Field}
      (hpre : IsMessage pre front) (hpost : IsMessage post back) (hadded : IsField added f)
      (hunknown : f.number ∉ level.numbers) : Grown item level (pre ++ post) (pre ++ (added ++ post))
  | within {level level' : Level} {pre post old new b b' : Bytes} {front back : List Field} {n : ℕ}
      (hpre : IsMessage pre front) (hpost : IsMessage post back) (hnests : Nests item level n level')
      (hold : IsField old ⟨n, .bytes b⟩) (hnew : IsField new ⟨n, .bytes b'⟩)
      (hb : Grown item level' b b') : Grown item level (pre ++ (old ++ post)) (pre ++ (new ++ post))

/-! ## Attributes -/

/-- Two encodings of a value that are turned into JSON alike. -/
def SameValue (b b' : Bytes) : Prop :=
  ∀ (cap left : ℕ) (sb : Sb cap), decodeAnyValue left b sb = decodeAnyValue left b' sb

/-- Two encodings of a value that give the same text. -/
def SameText (b b' : Bytes) : Prop :=
  ∀ (cap : ℕ) [NeZero cap], pwAnyValueAsString cap b = pwAnyValueAsString cap b'

/-- Two pairs of the same key whose values are alike. -/
structure PairsAlike (R : Bytes → Bytes → Prop) (b b' : Bytes) : Prop where
  key : (pwParseKv b).1 = (pwParseKv b').1
  value : Option.Rel R (pwParseKv b).2 (pwParseKv b').2

abbrev SamePair : Bytes → Bytes → Prop :=
  PairsAlike SameValue

theorem SamePair.pwAppendKvJson {b b' : Bytes} (h : SamePair b b') {cap : ℕ} (left : ℕ)
    (sb : Sb cap) :
    pwAppendKvJson (decodeAnyValue left) b sb = pwAppendKvJson (decodeAnyValue left) b' sb := by
  obtain ⟨hkey, hvalue⟩ := h
  rw [ProcWatch.pwAppendKvJson, ProcWatch.pwAppendKvJson]
  cases hp : pwParseKv b with
  | mk key value =>
      cases hp' : pwParseKv b' with
      | mk key' value' =>
          rw [hp, hp'] at hkey hvalue
          dsimp only at hkey hvalue ⊢
          subst hkey
          cases hvalue with
          | none => rfl
          | some hv => simp only [hv cap left]

theorem SamePair.decodePointAttrs {b b' : Bytes} (h : SamePair b b') {cap : ℕ} (a : Attrs cap) :
    decodePointAttrs b a = decodePointAttrs b' a := by
  rw [ProcWatch.decodePointAttrs, ProcWatch.decodePointAttrs, h.pwAppendKvJson]

theorem SamePair.appendMember {b b' : Bytes} (h : SamePair b b') {cap : ℕ} (left : ℕ)
    (s : Bool × Sb cap) :
    appendMember (decodeAnyValue left) s b = appendMember (decodeAnyValue left) s b' := by
  rw [ProcWatch.appendMember, ProcWatch.appendMember, h.pwAppendKvJson]

theorem PairsAlike.resourceStep {C : Type} {ops : WalkContext C}
    (htake : ∀ key b b', SameText b b' → ∀ c, ops.takeAttribute key b c = ops.takeAttribute key b' c)
    {b b' : Bytes} (h : PairsAlike SameText b b') (c : C) :
    resourceStep ops c ⟨1, .bytes b⟩ = resourceStep ops c ⟨1, .bytes b'⟩ := by
  obtain ⟨hkey, hvalue⟩ := h
  cases hp : pwParseKv b with
  | mk key value =>
      cases hp' : pwParseKv b' with
      | mk key' value' =>
          rw [hp, hp'] at hkey hvalue
          dsimp only at hkey hvalue
          subst hkey
          simp only [ProcWatch.resourceStep, hp, hp']
          cases hvalue with
          | none => rfl
          | some hv => exact htake _ _ _ hv c

/-! ## What is the same of two messages -/

section Same

variable {α C : Type} (ops : WalkContext C) (read : Bytes → C → Emission α)

/-- The points of a container. -/
def pointItems (ctx : MetricContext) (m : MetricLocals) (kind : Container) (r : Bytes) :
    Emission MetricPoint :=
  fieldItems loopEnd (fun r => .ofOption (readPoint ctx m kind r)) (pbFields r).2 (pbFields r).1

/-- Two messages of a level of which the decoder makes the same. -/
def Same : Level → Bytes → Bytes → Prop
  | .request, b, b' => itemsOf loopEnd ops read b = itemsOf loopEnd ops read b'
  | .resourceItems, b, b' => itemsOfResource loopEnd ops read b = itemsOfResource loopEnd ops read b'
  | .resource, b, b' => ∀ c, (pbFields b).1.foldl (resourceStep ops) c =
      (pbFields b').1.foldl (resourceStep ops) c
  | .resourceAttribute, b, b' => PairsAlike SameText b b'
  | .resourceValue, b, b' => SameText b b'
  | .scopeItems, b, b' => ∀ c, itemsOfScope loopEnd ops read b c = itemsOfScope loopEnd ops read b' c ∧
      contextAfter ops b c = contextAfter ops b' c
  | .scope, b, b' => ∀ name, (pbFields b).1.foldl scopeStep name = (pbFields b').1.foldl scopeStep name
  | .span, b, b' => ∀ ctx, readSpanMessage b ctx = readSpanMessage b' ctx
  | .status, b, b' => ∀ s, (pbFields b).1.foldl statusStep s = (pbFields b').1.foldl statusStep s
  | .metric, b, b' => ∀ ctx, readMetric b ctx = readMetric b' ctx
  | .numberPoints, b, b' => ∀ ctx m kind, kind ≠ .histogram →
      pointItems ctx m kind b = pointItems ctx m kind b'
  | .histogramPoints, b, b' => ∀ ctx m, pointItems ctx m .histogram b = pointItems ctx m .histogram b'
  | .numberPoint, b, b' => ∀ point, readPointMessage numberPointStep point b =
      readPointMessage numberPointStep point b'
  | .histogramPoint, b, b' => ∀ point, readPointMessage histogramPointStep point b =
      readPointMessage histogramPointStep point b'
  | .keyValue, b, b' => SamePair b b'
  | .anyValue, b, b' => SameValue b b'
  | .arrayValue, b, b' => ∀ (cap left : ℕ) (sb : Sb cap),
      decodeValueList (decodeAnyValue left) b sb = decodeValueList (decodeAnyValue left) b' sb
  | .kvlist, b, b' => ∀ (cap left : ℕ) (sb : Sb cap),
      decodeKvlist (decodeAnyValue left) b sb = decodeKvlist (decodeAnyValue left) b' sb

/-- Two messages of a level that differ in fields that are not handled and in submessages that
are the same. -/
structure ReadAlike (item level : Level) (b b' : Bytes) : Prop where
  fields : Alike (· ∈ level.numbers) (fun n b b' => ∃ level', Nests item level n level' ∧
    Same ops read level' b b') (pbFields b).1 (pbFields b').1
  ending : (pbFields b).2 = (pbFields b').2

end Same

section Levels

variable {α C : Type} {ops : WalkContext C} {read : Bytes → C → Emission α} {item level : Level}
  {b b' : Bytes}

/-! ## Key-value pairs and values -/

theorem parseKvStep_of_unknown (s : CStr 256 × Option Bytes) {f : Field}
    (h : f.number ∉ Level.keyValue.numbers) : parseKvStep s f = s := by
  unfold parseKvStep
  split <;> simp_all [Level.numbers]

/-- The pair keeps its key and gets the value of its last field of number 2. -/
theorem pairsAlike_of_fields {R : Bytes → Bytes → Prop} (hrefl : ∀ b, R b b)
    {same : ℕ → Bytes → Bytes → Prop}
    (h : Alike (· ∈ Level.keyValue.numbers) same (pbFields b).1 (pbFields b').1)
    (hsame : ∀ n c c', same n c c' → n = 2 ∧ R c c') : PairsAlike R b b' := by
  let S (s s' : CStr 256 × Option Bytes) : Prop := s.1 = s'.1 ∧ Option.Rel R s.2 s'.2
  have hstart : S (CStr.copy 256 [], none) (CStr.copy 256 [], none) := ⟨rfl, .none⟩
  have hrel := h.foldl_rel (R := S) (fun s f hf => parseKvStep_of_unknown s hf) ?_ ?_ hstart
  · exact ⟨hrel.1, hrel.2⟩
  · intro s s' f hs
    unfold parseKvStep
    split
    · exact ⟨rfl, hs.2⟩
    · exact ⟨hs.1, .some (hrefl _)⟩
    · exact hs
  · intro s s' n c c' hc hs
    obtain ⟨rfl, hvalue⟩ := hsame n c c' hc
    exact ⟨hs.1, .some hvalue⟩

theorem ReadAlike.keyValue (h : ReadAlike ops read item .keyValue b b') : SamePair b b' := by
  apply pairsAlike_of_fields (fun _ _ _ _ => rfl) h.fields
  rintro n c c' ⟨_, hnests, hc⟩
  cases hnests
  exact ⟨rfl, hc⟩

theorem ReadAlike.resourceAttribute (h : ReadAlike ops read item .resourceAttribute b b') :
    PairsAlike SameText b b' := by
  apply pairsAlike_of_fields (fun _ _ _ => rfl) h.fields
  rintro n c c' ⟨_, hnests, hc⟩
  cases hnests
  exact ⟨rfl, hc⟩

theorem ReadAlike.anyValue (h : ReadAlike ops read item .anyValue b b') : SameValue b b' := by
  intro cap left sb
  cases left with
  | zero => rfl
  | succ left =>
      rw [decodeAnyValue, decodeAnyValue]
      rw [h.fields.foldl_eq]
      · intro s f hf
        split <;> simp_all [Level.numbers]
      · rintro s n c c' ⟨_, hnests, hc⟩
        cases hnests with
        | array => exact congrArg _ (hc cap left s.2)
        | kvlist => exact congrArg _ (hc cap left s.2)

/-- Only the first text of a resource attribute is looked for. -/
theorem ReadAlike.resourceValue (h : ReadAlike ops read item .resourceValue b b') :
    SameText b b' := by
  intro cap _
  rw [pwAnyValueAsString, pwAnyValueAsString]
  have hfields := h.fields
  generalize (pbFields b).1 = fs at hfields
  generalize (pbFields b').1 = fs' at hfields
  induction hfields with
  | nil => rfl
  | unknown hf _ ih =>
      rw [List.findSome?_cons]
      split
      · next heq => split at heq <;> simp_all [Level.numbers]
      · exact ih
  | field f _ ih => rw [List.findSome?_cons, List.findSome?_cons, ih]
  | submessage hb _ ih =>
      obtain ⟨_, hnests, _⟩ := hb
      cases hnests <;> exact ih

theorem ReadAlike.arrayValue (h : ReadAlike ops read item .arrayValue b b') (cap left : ℕ)
    (sb : Sb cap) :
    decodeValueList (decodeAnyValue left) b sb = decodeValueList (decodeAnyValue left) b' sb := by
  rw [decodeValueList, decodeValueList]
  rw [h.fields.foldl_eq]
  · intro s f hf
    split <;> simp_all [Level.numbers]
  · rintro s n c c' ⟨_, hnests, hc⟩
    cases hnests
    exact congrArg (Prod.mk false) (hc cap left _)

theorem ReadAlike.kvlist (h : ReadAlike ops read item .kvlist b b') (cap left : ℕ)
    (sb : Sb cap) :
    decodeKvlist (decodeAnyValue left) b sb = decodeKvlist (decodeAnyValue left) b' sb := by
  rw [decodeKvlist, decodeKvlist]
  rw [h.fields.foldl_eq]
  · intro s f hf
    split <;> simp_all [Level.numbers]
  · rintro s n c c' ⟨_, hnests, hc⟩
    cases hnests
    exact hc.appendMember left s

/-! ## Spans -/

theorem ReadAlike.status (h : ReadAlike ops read item .status b b') (s : ProcWatch.Span) :
    (pbFields b).1.foldl statusStep s = (pbFields b').1.foldl statusStep s := by
  apply h.fields.foldl_eq
  · intro s f hf
    unfold statusStep
    split <;> simp_all [Level.numbers]
  · rintro s n c c' ⟨_, hnests, _⟩
    cases hnests

theorem ReadAlike.span (h : ReadAlike ops read item .span b b') (ctx : SpanContext) :
    readSpanMessage b ctx = readSpanMessage b' ctx := by
  have hfold (s : ProcWatch.Span × Attrs 8192) :
      (pbFields b).1.foldl spanStep s = (pbFields b').1.foldl spanStep s := by
    apply h.fields.foldl_eq
    · intro s f hf
      unfold spanStep
      split <;> simp_all [Level.numbers]
    · rintro s n c c' ⟨_, hnests, hc⟩
      cases hnests with
      | status => exact congrArg (·, s.2) (hc s.1)
      | spanAttribute => exact congrArg (s.1, ·) (hc.decodePointAttrs s.2)
  simp only [readSpanMessage, h.ending, hfold]

/-! ## Metrics -/

theorem ReadAlike.numberPoint (h : ReadAlike ops read item .numberPoint b b')
    (point : MetricPoint) :
    readPointMessage numberPointStep point b = readPointMessage numberPointStep point b' := by
  have hfold (s : MetricPoint × Attrs 2048) :
      (pbFields b).1.foldl numberPointStep s = (pbFields b').1.foldl numberPointStep s := by
    apply h.fields.foldl_eq
    · intro s f hf
      unfold numberPointStep
      split <;> simp_all [Level.numbers]
    · rintro s n c c' ⟨_, hnests, hc⟩
      cases hnests
      exact congrArg (s.1, ·) (hc.decodePointAttrs s.2)
  simp only [readPointMessage, h.ending, hfold]

theorem ReadAlike.histogramPoint (h : ReadAlike ops read item .histogramPoint b b')
    (point : MetricPoint) :
    readPointMessage histogramPointStep point b = readPointMessage histogramPointStep point b' := by
  have hfold (s : MetricPoint × Attrs 2048) :
      (pbFields b).1.foldl histogramPointStep s = (pbFields b').1.foldl histogramPointStep s := by
    apply h.fields.foldl_eq
    · intro s f hf
      unfold histogramPointStep
      split <;> simp_all [Level.numbers]
    · rintro s n c c' ⟨_, hnests, hc⟩
      cases hnests
      exact congrArg (s.1, ·) (hc.decodePointAttrs s.2)
  simp only [readPointMessage, h.ending, hfold]

theorem fieldItems_of_unknown (closing : Ending → Emission α) (items : Bytes → Emission α)
    (ending : Ending) {f : Field} (hf : f.number ≠ 1) (fields : List Field) :
    fieldItems closing items ending (f :: fields) = fieldItems closing items ending fields := by
  cases fieldCase f with
  | first r => exact absurd rfl hf
  | second r => rfl
  | other hfirst hsecond => simp only [fieldItems]

/-- A loop over submessages of number 1. -/
theorem fieldItems_alike {same : ℕ → Bytes → Bytes → Prop} {fs fs' : List Field}
    (h : Alike (· ∈ [1]) same fs fs') (closing : Ending → Emission α) {items : Bytes → Emission α}
    (hsame : ∀ n c c', same n c c' → n = 1 ∧ items c = items c') (ending : Ending) :
    fieldItems closing items ending fs = fieldItems closing items ending fs' := by
  induction h with
  | nil => rfl
  | unknown hf _ ih =>
      rw [fieldItems_of_unknown closing items ending (by simpa using hf)]
      exact ih
  | field f _ ih =>
      cases fieldCase f with
      | first r => exact congrArg (items r).andThen ih
      | second r => exact ih
      | other hfirst hsecond => simpa only [fieldItems] using ih
  | submessage hb _ ih =>
      obtain ⟨rfl, heq⟩ := hsame _ _ _ hb
      simp only [fieldItems, heq, ih]

theorem ReadAlike.numberPoints (h : ReadAlike ops read item .numberPoints b b')
    (ctx : MetricContext) (m : MetricLocals) {kind : Container} (hkind : kind ≠ .histogram) :
    pointItems ctx m kind b = pointItems ctx m kind b' := by
  rw [pointItems, pointItems, h.ending]
  apply fieldItems_alike h.fields
  rintro n c c' ⟨_, hnests, hc⟩
  cases hnests
  refine ⟨rfl, ?_⟩
  rw [readPoint, readPoint, if_neg hkind, hc]

theorem ReadAlike.histogramPoints (h : ReadAlike ops read item .histogramPoints b b')
    (ctx : MetricContext) (m : MetricLocals) :
    pointItems ctx m .histogram b = pointItems ctx m .histogram b' := by
  rw [pointItems, pointItems, h.ending]
  apply fieldItems_alike h.fields
  rintro n c c' ⟨_, hnests, hc⟩
  cases hnests
  refine ⟨rfl, ?_⟩
  rw [readPoint, readPoint, if_pos rfl, hc]

/-- Containers put off whose points are the same. -/
def SameContainer (p p' : Container × Bytes) : Prop :=
  p.1 = p'.1 ∧ ∀ ctx m, pointItems ctx m p.1 p.2 = pointItems ctx m p'.1 p'.2

structure SameLocals (m m' : MetricLocals) : Prop where
  name : m.name = m'.name
  description : m.description = m'.description
  unit : m.unit = m'.unit
  pending : List.Forall₂ SameContainer m.pending m'.pending

theorem SameContainer.refl (p : Container × Bytes) : SameContainer p p :=
  ⟨rfl, fun _ _ => rfl⟩

theorem SameLocals.push {m m' : MetricLocals} (h : SameLocals m m') {kind : Container}
    {c c' : Bytes} (hc : SameContainer (kind, c) (kind, c')) :
    SameLocals (m.push kind c) (m'.push kind c') := by
  rw [MetricLocals.push, MetricLocals.push, h.pending.length_eq]
  split
  · exact ⟨h.name, h.description, h.unit, List.rel_append h.pending (.cons hc .nil)⟩
  · exact h

theorem SameLocals.step {m m' : MetricLocals} (h : SameLocals m m') (f : Field) :
    SameLocals (metricStep m f) (metricStep m' f) := by
  unfold metricStep
  split
  · exact ⟨rfl, h.description, h.unit, h.pending⟩
  · exact ⟨h.name, rfl, h.unit, h.pending⟩
  · exact ⟨h.name, h.description, rfl, h.pending⟩
  · exact h.push (.refl _)
  · exact h.push (.refl _)
  · exact h.push (.refl _)
  · exact h

theorem SameLocals.containersItems {m m' : MetricLocals} (h : SameLocals m m')
    (ctx : MetricContext) {pending pending' : List (Container × Bytes)}
    (hpending : List.Forall₂ SameContainer pending pending') :
    containersItems loopEnd (fun kind r => .ofOption (readPoint ctx m kind r)) pending =
      containersItems loopEnd (fun kind r => .ofOption (readPoint ctx m' kind r)) pending' := by
  have hpoint : readPoint ctx m = readPoint ctx m' := by
    funext kind r
    simp only [readPoint, MetricPoint.init, h.name, h.description, h.unit]
  rw [hpoint]
  induction hpending with
  | nil => rfl
  | @cons p p' _ _ hp _ ih =>
      obtain ⟨kind, c⟩ := p
      obtain ⟨kind', c'⟩ := p'
      obtain ⟨rfl, hitems⟩ := hp
      exact congrArg₂ Emission.andThen (hitems ctx m') ih

theorem ReadAlike.metric (h : ReadAlike ops read item .metric b b') (ctx : MetricContext) :
    readMetric b ctx = readMetric b' ctx := by
  have hlocals : SameLocals ((pbFields b).1.foldl metricStep metricStart)
      ((pbFields b').1.foldl metricStep metricStart) := by
    apply h.fields.foldl_rel
    · intro s f hf
      unfold metricStep
      split <;> simp_all [Level.numbers]
    · exact fun s s' f hs => hs.step f
    · rintro s s' n c c' ⟨_, hnests, hc⟩ hs
      cases hnests with
      | gauge => exact hs.push ⟨rfl, fun ctx m => hc ctx m .gauge (by decide)⟩
      | sum => exact hs.push ⟨rfl, fun ctx m => hc ctx m .sum (by decide)⟩
      | histogram => exact hs.push ⟨rfl, fun ctx m => hc ctx m⟩
    · exact ⟨rfl, rfl, rfl, .nil⟩
  simp only [readMetric, itemsOfMetric, h.ending, hlocals.name,
    hlocals.containersItems ctx hlocals.pending]

/-! ## Scopes -/

theorem ReadAlike.scope (h : ReadAlike ops read item .scope b b') (name : CStr 256) :
    (pbFields b).1.foldl scopeStep name = (pbFields b').1.foldl scopeStep name := by
  apply h.fields.foldl_eq
  · intro s f hf
    unfold scopeStep
    split <;> simp_all [Level.numbers]
  · rintro s n c c' ⟨_, hnests, _⟩
    cases hnests

/-- Neither of the numbers 1 and 2. -/
theorem fieldCase_of_unknown {f : Field} (hf : f.number ∉ [1, 2]) :
    (∀ b, f ≠ ⟨1, .bytes b⟩) ∧ ∀ b, f ≠ ⟨2, .bytes b⟩ := by
  constructor
  · rintro b rfl
    simp at hf
  · rintro b rfl
    simp at hf

theorem scopeItems_alike {fs fs' : List Field}
    (h : Alike (· ∈ Level.scopeItems.numbers) (fun n c c' => ∃ level', Nests item .scopeItems n level' ∧
      Same ops read level' c c') fs fs')
    (hitem : ∀ c c', Same ops read item c c' → ∀ ctx, read c ctx = read c' ctx) (ending : Ending)
    (ctx : C) :
    scopeItems loopEnd ops read ending fs ctx = scopeItems loopEnd ops read ending fs' ctx ∧
      scopeContext ops fs ctx = scopeContext ops fs' ctx := by
  induction h generalizing ctx with
  | nil => exact ⟨rfl, rfl⟩
  | @unknown f _ _ hf _ ih =>
      obtain ⟨hfirst, hsecond⟩ := fieldCase_of_unknown hf
      simpa only [scopeItems, scopeContext] using ih ctx
  | field f _ ih =>
      cases fieldCase f with
      | first scope => exact ih _
      | second r => exact ⟨congrArg (read r ctx).andThen (ih ctx).1, (ih ctx).2⟩
      | other hfirst hsecond => simpa only [scopeItems, scopeContext] using ih ctx
  | @submessage n c c' _ _ hb _ ih =>
      obtain ⟨_, hnests, hc⟩ := hb
      cases hnests with
      | scope =>
          have hname : (fun name => (pbFields c).1.foldl scopeStep name) =
              fun name => (pbFields c').1.foldl scopeStep name := funext hc
          simpa only [scopeItems, scopeContext, hname] using ih _
      | item =>
          simp only [scopeItems, scopeContext, hitem c c' hc, (ih ctx).1, (ih ctx).2, and_self]

/-! ## Resources and requests -/

theorem ReadAlike.resource (h : ReadAlike ops read item .resource b b')
    (htake : ∀ key c c', SameText c c' → ∀ ctx, ops.takeAttribute key c ctx = ops.takeAttribute key c' ctx)
    (ctx : C) :
    (pbFields b).1.foldl (resourceStep ops) ctx = (pbFields b').1.foldl (resourceStep ops) ctx := by
  apply h.fields.foldl_eq
  · intro s f hf
    unfold resourceStep
    split <;> simp_all [Level.numbers]
  · rintro s n c c' ⟨_, hnests, hc⟩
    cases hnests
    exact hc.resourceStep htake s

theorem pendingItems_alike {pending pending' : List Bytes}
    (h : List.Forall₂ (Same ops read .scopeItems) pending pending') (ctx : C) :
    pendingItems loopEnd ops read pending ctx = pendingItems loopEnd ops read pending' ctx := by
  induction h generalizing ctx with
  | nil => rfl
  | cons hscope _ ih =>
      obtain ⟨hitems, hcontext⟩ := hscope ctx
      simp only [pendingItems, hitems, hcontext, ih]

theorem resourceItems_alike {fs fs' : List Field}
    (h : Alike (· ∈ Level.resourceItems.numbers) (fun n c c' => ∃ level',
      Nests item .resourceItems n level' ∧ Same ops read level' c c') fs fs') (ending : Ending)
    (ctx : C) {pending pending' : List Bytes}
    (hpending : List.Forall₂ (Same ops read .scopeItems) pending pending') :
    resourceItems loopEnd ops read ending fs ctx pending =
      resourceItems loopEnd ops read ending fs' ctx pending' := by
  have hrefl (scope : Bytes) : Same ops read .scopeItems scope scope := fun _ => ⟨rfl, rfl⟩
  induction h generalizing ctx pending pending' with
  | nil => simp only [resourceItems, pendingItems_alike hpending]
  | @unknown f _ _ hf _ ih =>
      obtain ⟨hfirst, hsecond⟩ := fieldCase_of_unknown hf
      simpa only [resourceItems] using ih ctx hpending
  | field f _ ih =>
      cases fieldCase f with
      | first res => exact ih _ hpending
      | second scope =>
          simp only [resourceItems, hpending.length_eq]
          split
          · exact ih ctx (List.rel_append hpending (.cons (hrefl scope) .nil))
          · rw [ih _ hpending]
      | other hfirst hsecond => simpa only [resourceItems] using ih ctx hpending
  | @submessage n c c' _ _ hb _ ih =>
      obtain ⟨_, hnests, hc⟩ := hb
      cases hnests with
      | resource =>
          have hctx : (pbFields c).1.foldl (resourceStep ops) ctx =
              (pbFields c').1.foldl (resourceStep ops) ctx := hc ctx
          simpa only [resourceItems, hctx] using ih _ hpending
      | scopeItems =>
          have hscope : Same ops read .scopeItems c c' := hc
          simp only [resourceItems, hpending.length_eq]
          split
          · exact ih ctx (List.rel_append hpending (.cons hscope .nil))
          · rw [(hscope ctx).1, (hscope ctx).2, ih _ hpending]

/-- A decoder makes the same of two messages that are read alike. -/
theorem ReadAlike.same (h : ReadAlike ops read item level b b')
    (hitem : ∀ c c', Same ops read item c c' → ∀ ctx, read c ctx = read c' ctx)
    (htake : ∀ key c c', SameText c c' →
      ∀ ctx, ops.takeAttribute key c ctx = ops.takeAttribute key c' ctx) :
    Same ops read level b b' := by
  cases level with
  | request =>
      rw [Same, itemsOf, itemsOf, h.ending]
      apply fieldItems_alike h.fields
      rintro n c c' ⟨_, hnests, hc⟩
      cases hnests
      exact ⟨rfl, hc⟩
  | resourceItems =>
      rw [Same, itemsOfResource, itemsOfResource, h.ending]
      exact resourceItems_alike h.fields _ _ .nil
  | resource => exact fun ctx => h.resource htake ctx
  | resourceAttribute => exact h.resourceAttribute
  | resourceValue => exact h.resourceValue
  | scopeItems =>
      intro ctx
      rw [itemsOfScope, itemsOfScope, contextAfter, contextAfter, h.ending]
      exact scopeItems_alike h.fields hitem _ ctx
  | scope => exact h.scope
  | span => exact h.span
  | status => exact h.status
  | metric => exact h.metric
  | numberPoints => exact fun ctx m _ hkind => h.numberPoints ctx m hkind
  | histogramPoints => exact h.histogramPoints
  | numberPoint => exact h.numberPoint
  | histogramPoint => exact h.histogramPoint
  | keyValue => exact h.keyValue
  | anyValue => exact h.anyValue
  | arrayValue => exact h.arrayValue
  | kvlist => exact h.kvlist

/-! ## Grown messages -/

theorem readAlike_insert {pre post added : Bytes} {front back : List Field} {f : Field}
    (hpre : IsMessage pre front) (hpost : IsMessage post back) (hadded : IsField added f)
    (hunknown : f.number ∉ level.numbers) :
    ReadAlike ops read item level (pre ++ post) (pre ++ (added ++ post)) := by
  have hold := pbFields_isMessage (hpre.append hpost)
  have hnew := pbFields_isMessage (hpre.append (.cons hadded hpost))
  constructor
  · rw [hold, hnew]
    exact .append_left front (.unknown hunknown (.refl back))
  · rw [hold, hnew]

theorem readAlike_within {level' : Level} {pre post old new c c' : Bytes} {front back : List Field}
    {n : ℕ} (hpre : IsMessage pre front) (hpost : IsMessage post back)
    (hnests : Nests item level n level') (hold : IsField old ⟨n, .bytes c⟩)
    (hnew : IsField new ⟨n, .bytes c'⟩) (hc : Same ops read level' c c') :
    ReadAlike ops read item level (pre ++ (old ++ post)) (pre ++ (new ++ post)) := by
  have hold := pbFields_isMessage (hpre.append (.cons hold hpost))
  have hnew := pbFields_isMessage (hpre.append (.cons hnew hpost))
  constructor
  · rw [hold, hnew]
    exact .append_left front (.submessage ⟨level', hnests, hc⟩ (.refl back))
  · rw [hold, hnew]

theorem Grown.same (h : Grown item level b b')
    (hitem : ∀ c c', Same ops read item c c' → ∀ ctx, read c ctx = read c' ctx)
    (htake : ∀ key c c', SameText c c' →
      ∀ ctx, ops.takeAttribute key c ctx = ops.takeAttribute key c' ctx) :
    Same ops read level b b' := by
  induction h with
  | insert hpre hpost hadded hunknown =>
      exact (readAlike_insert hpre hpost hadded hunknown).same hitem htake
  | within hpre hpost hnests hold hnew _ ih =>
      exact (readAlike_within hpre hpost hnests hold hnew ih).same hitem htake

end Levels

/-! ## Payloads -/

theorem itemsOf_grown_spans {data data' : Bytes} (h : Grown .span .request data data') :
    itemsOf loopEnd spanContext readSpan data = itemsOf loopEnd spanContext readSpan data' := by
  refine Grown.same h (fun c c' hc ctx => ?_) fun key c c' hc ctx => ?_
  · exact congrArg Emission.ofOption (hc ctx)
  · simp only [spanContext, spanAttribute, hc _]

theorem itemsOf_grown_metrics {data data' : Bytes} (h : Grown .metric .request data data') :
    itemsOf loopEnd metricContext readMetric data =
      itemsOf loopEnd metricContext readMetric data' := by
  refine Grown.same h (fun c c' hc ctx => hc ctx) fun key c c' hc ctx => ?_
  simp only [metricContext, metricAttribute, hc _]

/-- Payloads of either signal are decoded as if the field that is not handled were not there,
whatever the sink does. -/
theorem decode_grown {W : Type} {data data' : Bytes} :
    (Grown .span .request data data' → ∀ sink : ProcWatch.Span → Prog W ℤ,
        otlpDecodeTraces sink data' = otlpDecodeTraces sink data) ∧
      (Grown .metric .request data data' → ∀ sink : MetricPoint → Prog W ℤ,
        otlpDecodeMetrics sink data' = otlpDecodeMetrics sink data) := by
  constructor
  · intro h sink
    rw [otlpDecodeTraces, otlpDecodeTraces, decodeRequest_eq (spanItem_eq sink),
      decodeRequest_eq (spanItem_eq sink), itemsOf_grown_spans h]
  · intro h sink
    rw [otlpDecodeMetrics, otlpDecodeMetrics, decodeRequest_eq (decodeMetric_eq sink),
      decodeRequest_eq (decodeMetric_eq sink), itemsOf_grown_metrics h]

/-- A field put into an encoded message. -/
theorem Grown.encode {item level : Level} {l back : List Field} {f : Field}
    (hvalid : ∀ g ∈ l ++ f :: back, g.Valid) (hlen : (encode (l ++ f :: back)).length < 2 ^ 64)
    (hunknown : f.number ∉ level.numbers) :
    Grown item level (encode (l ++ back)) (encode (l ++ f :: back)) := by
  rw [encode_append, encode_cons, List.length_append, List.length_append] at hlen
  have hadded : f.payload.encode.length ≤ f.encode.length := by
    rw [Field.encode, List.length_append]
    omega
  rw [encode_append, encode_append, encode_cons]
  exact .insert (isMessage_encode (fun g hg => hvalid g (by simp [hg])) (by omega))
    (isMessage_encode (fun g hg => hvalid g (by simp [hg])) (by omega))
    (isField_encode (hvalid f (by simp)) (by omega)) hunknown

/-- A resource of `shop` and of `queue`, with a field of number 99 put in front. -/
theorem decode_grown_resource :
    (∀ sink : ProcWatch.Span → Prog Unit ℤ,
        otlpDecodeTraces sink (encode (submessages 1 [⟨99, .varint 7⟩ :: shopFields])) =
          otlpDecodeTraces sink (encode (submessages 1 [shopFields]))) ∧
      ∀ sink : MetricPoint → Prog Unit ℤ,
        otlpDecodeMetrics sink (encode (submessages 1 [⟨99, .varint 7⟩ :: submessages 2 [workerFields]])) =
          otlpDecodeMetrics sink (encode (submessages 1 [submessages 2 [workerFields]])) := by
  constructor
  · apply decode_grown.1
    exact .within .nil .nil .resourceItems
      (isField_encode (Field.valid_of_lt (by decide) (by decide) _) (by decide +kernel))
      (isField_encode (Field.valid_of_lt (by decide) (by decide) _) (by decide +kernel))
      (.encode (l := []) (by decide +kernel) (by decide +kernel) (by decide))
  · apply decode_grown.2
    exact .within .nil .nil .resourceItems
      (isField_encode (Field.valid_of_lt (by decide) (by decide) _) (by decide +kernel))
      (isField_encode (Field.valid_of_lt (by decide) (by decide) _) (by decide +kernel))
      (.encode (l := []) (by decide +kernel) (by decide +kernel) (by decide))

end ProcWatch.Otlp

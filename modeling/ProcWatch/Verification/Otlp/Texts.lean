import ProcWatch.Library.Utf8
import ProcWatch.Verification.Otlp.Order

/-! # The texts of spans and data points

The decoders copy a text as far as it fits. A walk that keeps whole strings shows which strings
their items are made of.
-/

namespace ProcWatch.Otlp

open CLib Wire

variable {α C D : Type}

/-! ## Whole strings -/

/-- What the walk does with a context of whole strings. -/
structure WholeContext (D : Type) where
  init : D
  setName : Bytes → D → D
  takeAttribute : Bytes → Bytes → D → D

namespace WholeContext

variable (whole : WholeContext D)

/-- The context once the name of a scope record is read. -/
def afterName (scope : Bytes) (d : D) : D :=
  (messagesAt 1 (pbFields scope).1).foldl (fun d name => whole.setName name d) d

def afterFields (fields : List Field) (d : D) : D :=
  (messagesAt 1 fields).foldl (fun d scope => whole.afterName scope d) d

def afterScope (s : Bytes) (d : D) : D :=
  whole.afterFields (pbFields s).1 d

/-- The walk over the attributes alone. -/
def attributes : WalkContext D where
  init := whole.init
  mapScopeName := fun _ d => d
  takeAttribute := whole.takeAttribute

variable (cut : D → C) (read : Bytes → C → Emission α)

/-- For each item of a scope message, its record and the context of whole strings. -/
def scopeSources (ending : Ending) : List Field → D → Emission (Bytes × D)
  | [], _ => loopEnd ending
  | f :: fields, d =>
      match f with
      | ⟨F_SS_SCOPE, .bytes scope⟩ => scopeSources ending fields (whole.afterName scope d)
      | ⟨F_SS_SPANS, .bytes r⟩ =>
          ((read r (cut d)).map fun _ => (r, d)).andThen (scopeSources ending fields d)
      | _ => scopeSources ending fields d

def resourceSources (r : Bytes) : Emission (Bytes × D) :=
  (Emission.sequence ((visits whole.afterScope (afterResource whole.attributes) (pbFields r).2
    (pbFields r).1 whole.init []).map fun v =>
      scopeSources whole cut read (pbFields v.1).2 (pbFields v.1).1 v.2)).andThen
    (loopEnd (pbFields r).2)

/-- For each item of a payload, its record and the whole strings of its context. -/
def sources (data : Bytes) : List (Bytes × D) :=
  (fieldItems loopEnd (resourceSources whole cut read) (pbFields data).2 (pbFields data).1).items

end WholeContext

/-- The text that is kept of a string in a field of so many bytes. -/
def cutTo (p : ℕ × Bytes) : Bytes :=
  (cstr p.2).take (p.1 - 1)

theorem pwCopyStr_val (cap : ℕ) [NeZero cap] (s : Bytes) : (pwCopyStr cap s).val = cutTo (cap, s) :=
  cstr_take _ _

/-- A decoder whose contexts are whole strings cut off, and so are the texts of its items: the
strings of an item are given by its record and the context, each with the size of its field. -/
structure CutsTexts (ops : WalkContext C) (read : Bytes → C → Emission α) (whole : WholeContext D)
    (cut : D → C) (texts : α → List Bytes) (strings : Bytes → D → List (ℕ × Bytes)) : Prop where
  init : cut whole.init = ops.init
  setName : ∀ s d, cut (whole.setName s d) = ops.mapScopeName (fun _ => pwCopyStr 256 s) (cut d)
  takeAttribute : ∀ key value d,
    cut (whole.takeAttribute key value d) = ops.takeAttribute key value (cut d)
  mapScopeName_id : ∀ c, ops.mapScopeName (fun name => name) c = c
  mapScopeName_const : ∀ f name c,
    ops.mapScopeName f (ops.mapScopeName (fun _ => name) c) = ops.mapScopeName (fun _ => f name) c
  item : ∀ r d, ∀ a ∈ (read r (cut d)).items, texts a = (strings r d).map cutTo

namespace CutsTexts

variable {ops : WalkContext C} {read : Bytes → C → Emission α} {whole : WholeContext D}
  {cut : D → C} {texts : α → List Bytes} {strings : Bytes → D → List (ℕ × Bytes)}

theorem cut_afterName (h : CutsTexts ops read whole cut texts strings) (scope : Bytes) (d : D) :
    cut (whole.afterName scope d) =
      ops.mapScopeName (fun name => (pbFields scope).1.foldl scopeStep name) (cut d) := by
  have hnames (names : List Bytes) (d : D) :
      cut (names.foldl (fun d name => whole.setName name d) d) =
        ops.mapScopeName (fun name => (names.map (pwCopyStr 256)).getLastD name) (cut d) := by
    induction names generalizing d with
    | nil => exact (h.mapScopeName_id _).symm
    | cons s names ih =>
        rw [List.foldl_cons, ih, h.setName, h.mapScopeName_const]
        simp only [List.map_cons, List.getLastD_cons]
  have hfold : (fun name => (pbFields scope).1.foldl scopeStep name) =
      fun name => (namesIn scope).getLastD name := funext fun name => foldl_scopeStep scope name
  rw [hfold]
  exact hnames _ d

theorem cut_afterFields (h : CutsTexts ops read whole cut texts strings) (fields : List Field)
    (d : D) : cut (whole.afterFields fields d) = scopeContext ops fields (cut d) := by
  rw [WholeContext.afterFields]
  induction fields generalizing d with
  | nil => rfl
  | cons f fields ih =>
      cases fieldCase f with
      | first scope =>
          rw [messagesAt_cons, List.foldl_cons, ih, h.cut_afterName]
          rfl
      | second r =>
          rw [messagesAt_cons_of_ne (by decide), ih]
          rfl
      | other hfirst hsecond =>
          rw [messagesAt_cons_other hfirst, ih]
          simp only [scopeContext]

theorem cut_afterResource (h : CutsTexts ops read whole cut texts strings) (res : Bytes) (d : D) :
    cut (afterResource whole.attributes res d) = afterResource ops res (cut d) := by
  rw [afterResource, afterResource]
  generalize (pbFields res).1 = fields
  induction fields generalizing d with
  | nil => rfl
  | cons f fields ih =>
      have hstep : cut (resourceStep whole.attributes d f) = resourceStep ops (cut d) f := by
        unfold resourceStep
        split
        · split
          · exact h.takeAttribute _ _ d
          · rfl
        · rfl
      rw [List.foldl_cons, ih, hstep, List.foldl_cons]

theorem map_scopeItems (h : CutsTexts ops read whole cut texts strings) (ending : Ending)
    (fields : List Field) (d : D) :
    (scopeItems loopEnd ops read ending fields (cut d)).map texts =
      (whole.scopeSources cut read ending fields d).map fun y => (strings y.1 y.2).map cutTo := by
  induction fields generalizing d with
  | nil => exact (map_loopEnd _ ending).trans (map_loopEnd _ ending).symm
  | cons f fields ih =>
      cases fieldCase f with
      | first scope =>
          simp only [scopeItems, WholeContext.scopeSources]
          rw [← h.cut_afterName, ih]
      | second r =>
          have hread : (read r (cut d)).map texts =
              ((read r (cut d)).map fun _ => (r, d)).map fun y => (strings y.1 y.2).map cutTo := by
            simp only [Emission.map, List.map_map]
            rw [List.map_congr_left (h.item r d)]
            rfl
          simp only [scopeItems, WholeContext.scopeSources]
          rw [Emission.map_andThen, Emission.map_andThen, ih, hread]
      | other hfirst hsecond =>
          simp only [scopeItems, WholeContext.scopeSources]
          exact ih d

theorem map_itemsOfResource (h : CutsTexts ops read whole cut texts strings) (r : Bytes) :
    (itemsOfResource loopEnd ops read r).map texts =
      (whole.resourceSources cut read r).map fun y => (strings y.1 y.2).map cutTo := by
  have hvisits : visits (contextAfter ops) (afterResource ops) (pbFields r).2 (pbFields r).1
        (cut whole.init) [] =
      (visits whole.afterScope (afterResource whole.attributes) (pbFields r).2 (pbFields r).1
        whole.init []).map fun v => (v.1, cut v.2) :=
    visits_map (fun s d => (h.cut_afterFields _ d).symm)
      (fun res _ d => (h.cut_afterResource res d).symm) whole.init []
  rw [itemsOfResource, resourceItems_eq, ← h.init, hvisits, WholeContext.resourceSources,
    Emission.map_andThen, Emission.map_andThen, Emission.map_sequence, Emission.map_sequence,
    map_loopEnd, map_loopEnd]
  simp only [List.map_map]
  congr 2
  apply List.map_congr_left
  intro v _
  exact h.map_scopeItems _ _ v.2

/-- The texts of the items of a payload are the strings they are made of, cut off. -/
theorem map_items (h : CutsTexts ops read whole cut texts strings) (data : Bytes) :
    (itemsOf loopEnd ops read data).items.map texts =
      (whole.sources cut read data).map fun y => (strings y.1 y.2).map cutTo := by
  have hresource : (fun r => (itemsOfResource loopEnd ops read r).map texts) =
      fun r => (whole.resourceSources cut read r).map fun y => (strings y.1 y.2).map cutTo :=
    funext h.map_itemsOfResource
  have hfields := fieldItems_map texts (itemsOfResource loopEnd ops read) (pbFields data).2
    (pbFields data).1
  rw [hresource, ← fieldItems_map] at hfields
  exact congrArg Emission.items hfields

end CutsTexts

/-! ## The last string of a number -/

/-- The string of an attribute's value. -/
def stringIn (value : Bytes) : Option Bytes :=
  (messagesAt 1 (pbFields value).1).head?

theorem pwAnyValueAsString_eq (cap : ℕ) [NeZero cap] (value : Bytes) :
    pwAnyValueAsString cap value = (stringIn value).map (pwCopyStr cap) := by
  rw [stringIn, messagesAt, List.head?_filterMap, List.map_findSome?, pwAnyValueAsString]
  congr 1
  funext f
  obtain ⟨n, v | v | b | v⟩ := f
  case bytes =>
    by_cases hn : n = 1
    · subst hn
      rfl
    · simp [bytesAt, hn]
  all_goals simp [bytesAt]

theorem foldl_messages {σ β : Type} {step : σ → Field → σ} {get : σ → β} {n : ℕ}
    {g : β → Bytes → β} (h : ∀ s f, get (step s f) = onField n (fun x => setBytes (g x) x) (get s) f)
    (s : σ) (fs : List Field) : get (fs.foldl step s) = (messagesAt n fs).foldl g (get s) := by
  induction fs generalizing s with
  | nil => rfl
  | cons f fs ih =>
      rw [List.foldl_cons, ih, h]
      obtain ⟨k, v | v | b | v⟩ := f
      case bytes =>
        by_cases hk : k = n
        · subst hk
          rw [messagesAt_cons, List.foldl_cons, onField, if_pos rfl, setBytes]
        · rw [messagesAt_cons_of_ne hk, onField, if_neg hk]
      all_goals
        rw [messagesAt_cons_other (by simp), onField]
        split <;> rfl

/-- The last of some strings, or the empty one. -/
def lastOf (ss : List Bytes) : Bytes :=
  ss.getLastD []

theorem foldl_copy {cap : ℕ} [NeZero cap] (ss : List Bytes) (s : Bytes) :
    ss.foldl (fun _ s => pwCopyStr cap s) (pwCopyStr cap s) = pwCopyStr cap (ss.getLastD s) := by
  induction ss generalizing s with
  | nil => rfl
  | cons t ss ih => rw [List.foldl_cons, ih, List.getLastD_cons]

/-- A field that keeps the last string of a number. -/
theorem foldl_lastOf {σ : Type} {step : σ → Field → σ} {cap n : ℕ} [NeZero cap]
    {get : σ → CStr cap} (h : ∀ s f, get (step s f) = onField n (setBytes (pwCopyStr cap)) (get s) f)
    {s : σ} (hs : get s = CStr.copy cap []) (fs : List Field) :
    get (fs.foldl step s) = pwCopyStr cap (lastOf (messagesAt n fs)) := by
  have hget : ∀ s f, get (step s f) =
      onField n (fun x => setBytes ((fun _ s => pwCopyStr cap s) x) x) (get s) f := h
  rw [foldl_messages hget, hs, ← pwCopyStr_eq]
  exact foldl_copy _ _

/-! ## Spans -/

structure SpanStrings where
  serviceName : Bytes
  scopeName : Bytes
  label : Bytes
  deriving DecidableEq

def spanWhole : WholeContext SpanStrings where
  init := ⟨bytes "unknown_service", [], []⟩
  setName := fun name d => { d with scopeName := name }
  takeAttribute := fun key value d =>
    if key = bytes "service.name" then
      { d with serviceName := (stringIn value).getD d.serviceName }
    else if key = bytes "procwatch.label" then { d with label := (stringIn value).getD d.label }
    else d

def SpanStrings.cut (d : SpanStrings) : SpanContext :=
  ⟨pwCopyStr 256 d.serviceName, pwCopyStr 256 d.scopeName, pwCopyStr 100 d.label⟩

def spanTexts (s : ProcWatch.Span) : List Bytes :=
  [s.name.val, s.serviceName.val, s.scopeName.val, s.label.val, s.statusMessage.val]

/-- The messages of the status records of a span. -/
def statusMessages (fs : List Field) : List Bytes :=
  (messagesAt 15 fs).flatMap fun status => messagesAt 2 (pbFields status).1

/-- The strings of a span with the sizes of their fields. -/
def spanStrings (r : Bytes) (d : SpanStrings) : List (ℕ × Bytes) :=
  [(512, lastOf (messagesAt 5 (pbFields r).1)), (256, d.serviceName), (256, d.scopeName),
    (100, d.label), (512, lastOf (statusMessages (pbFields r).1))]

theorem foldl_messageStep (fs : List Field) (s : Bytes) :
    fs.foldl messageStep (pwCopyStr 512 s) = pwCopyStr 512 ((messagesAt 2 fs).getLastD s) := by
  have hstep : ∀ (m : CStr 512) f, id (messageStep m f) =
      onField 2 (fun x => setBytes ((fun _ s => pwCopyStr 512 s) x) x) (id m) f := fun _ _ => rfl
  exact (foldl_messages hstep _ fs).trans (foldl_copy _ s)

theorem statusMessage_eq (fs : List Field) (ctx : SpanContext) :
    (fs.foldl spanStep (spanStart ctx)).1.statusMessage =
      pwCopyStr 512 (lastOf (statusMessages fs)) := by
  have hstep : ∀ s f, (spanStep s f).1.statusMessage =
      onField 15 (fun m => setBytes (fun status => (pbFields status).1.foldl messageStep m) m)
        s.1.statusMessage f := fun s f => by rw [spanStep_eq]
  have hcut (records : List Bytes) (s : Bytes) :
      records.foldl (fun m status => (pbFields status).1.foldl messageStep m) (pwCopyStr 512 s) =
        pwCopyStr 512 ((records.flatMap fun status =>
          messagesAt 2 (pbFields status).1).getLastD s) := by
    induction records generalizing s with
    | nil => rfl
    | cons status records ih =>
        rw [List.foldl_cons, foldl_messageStep, ih, List.flatMap_cons, getLastD_append]
  refine (@foldl_messages _ _ spanStep (fun s => s.1.statusMessage) 15 _ hstep (spanStart ctx)
    fs).trans ?_
  have hstart : (spanStart ctx).1.statusMessage = pwCopyStr 512 [] := (pwCopyStr_eq []).symm
  rw [hstart, hcut]
  rfl

theorem spanTexts_read {r : Bytes} {d : SpanStrings} {s : ProcWatch.Span}
    (h : readSpanMessage r d.cut = some s) : spanTexts s = (spanStrings r d).map cutTo := by
  have hctx := contextOfSpan_read h
  have hname : s.name = pwCopyStr 512 (lastOf (messagesAt 5 (pbFields r).1)) := by
    rw [readSpanMessage_eq_some h]
    exact @foldl_lastOf _ spanStep 512 5 _ (fun s => s.1.name) (fun s f => by rw [spanStep_eq])
      (spanStart d.cut) rfl _
  have hmessage : s.statusMessage = pwCopyStr 512 (lastOf (statusMessages (pbFields r).1)) := by
    rw [readSpanMessage_eq_some h]
    exact statusMessage_eq _ _
  obtain ⟨hservice, hscope, hlabel⟩ := SpanContext.mk.inj hctx
  rw [spanTexts, hname, hmessage, hservice, hscope, hlabel]
  simp only [spanStrings, List.map_cons, List.map_nil, pwCopyStr_val]

theorem cutsTexts_span :
    CutsTexts spanContext readSpan spanWhole SpanStrings.cut spanTexts spanStrings where
  init := by
    simp only [SpanStrings.cut, spanWhole, spanContext, pwCopyStr_eq]
  setName := fun _ _ => rfl
  takeAttribute := fun key value d => by
    simp only [spanWhole, spanContext, spanAttribute, pwAnyValueAsString_eq]
    split_ifs
    · cases stringIn value <;> rfl
    · cases stringIn value <;> rfl
    · rfl
  mapScopeName_id := fun _ => rfl
  mapScopeName_const := fun _ _ _ => rfl
  item := fun _ d => allItems_ofOption (P := fun s => spanTexts s = (spanStrings _ d).map cutTo)
    fun _ hs => spanTexts_read hs

/-! ## Data points -/

structure MetricStrings where
  serviceName : Bytes
  scopeName : Bytes
  label : Bytes
  pidKey : Bytes
  deriving DecidableEq

def metricWhole : WholeContext MetricStrings where
  init := ⟨bytes "unknown_service", [], [], []⟩
  setName := fun name d => { d with scopeName := name }
  takeAttribute := fun key value d =>
    if key = bytes "service.name" then
      { d with serviceName := (stringIn value).getD d.serviceName }
    else if key = bytes "procwatch.label" then { d with label := (stringIn value).getD d.label }
    else if key = bytes "procwatch.pid_key" then
      { d with pidKey := (stringIn value).getD d.pidKey }
    else d

def MetricStrings.cut (d : MetricStrings) : MetricContext :=
  ⟨pwCopyStr 256 d.serviceName, pwCopyStr 256 d.scopeName, pwCopyStr 100 d.label,
    pwCopyStr 64 d.pidKey⟩

def pointTexts (p : MetricPoint) : List Bytes :=
  [p.metricName.val, p.description.val, p.unit.val, p.serviceName.val, p.scopeName.val,
    p.label.val, p.pidKey.val]

/-- The strings of the points of a metric with the sizes of their fields. -/
def pointStrings (r : Bytes) (d : MetricStrings) : List (ℕ × Bytes) :=
  [(256, lastOf (messagesAt 1 (pbFields r).1)), (256, lastOf (messagesAt 2 (pbFields r).1)),
    (64, lastOf (messagesAt 3 (pbFields r).1)), (256, d.serviceName), (256, d.scopeName),
    (100, d.label), (64, d.pidKey)]

/-- What a point has of its metric. -/
theorem metricOf_read {ctx : MetricContext} {m : MetricLocals} {kind : Container} {r : Bytes}
    {p : MetricPoint} (h : readPoint ctx m kind r = some p) :
    (p.metricName, p.description, p.unit) = (m.name, m.description, m.unit) := by
  obtain ⟨s, hs, rfl⟩ := readPoint_eq_some h
  change (s.1.metricName, s.1.description, s.1.unit) = _
  rw [hs]
  split
  · exact foldl_unchanged histogramPointStep
      (fun s => (s.1.metricName, s.1.description, s.1.unit))
      (fun s f => by rw [histogramPointStep_eq]) (MetricPoint.init ctx m kind, Attrs.init 2048) _
  · exact foldl_unchanged numberPointStep (fun s => (s.1.metricName, s.1.description, s.1.unit))
      (fun s f => by rw [numberPointStep_eq]) (MetricPoint.init ctx m kind, Attrs.init 2048) _

theorem foldl_metricStep_texts (fs : List Field) :
    let m := fs.foldl metricStep metricStart
    m.name = pwCopyStr 256 (lastOf (messagesAt 1 fs)) ∧
      m.description = pwCopyStr 256 (lastOf (messagesAt 2 fs)) ∧
      m.unit = pwCopyStr 64 (lastOf (messagesAt 3 fs)) := by
  refine ⟨?_, ?_, ?_⟩
  · exact @foldl_lastOf _ metricStep 256 1 _ MetricLocals.name (fun m f => by rw [metricStep_eq])
      metricStart rfl fs
  · exact @foldl_lastOf _ metricStep 256 2 _ MetricLocals.description
      (fun m f => by rw [metricStep_eq]) metricStart rfl fs
  · exact @foldl_lastOf _ metricStep 64 3 _ MetricLocals.unit (fun m f => by rw [metricStep_eq])
      metricStart rfl fs

theorem pointTexts_read {r r' : Bytes} {d : MetricStrings} {kind : Container} {p : MetricPoint}
    (h : readPoint d.cut ((pbFields r).1.foldl metricStep metricStart) kind r' = some p) :
    pointTexts p = (pointStrings r d).map cutTo := by
  obtain ⟨hservice, hscope, hlabel, hpidKey⟩ := MetricContext.mk.inj (contextOfPoint_read h)
  obtain ⟨hname, hrest⟩ := Prod.mk.inj (metricOf_read h)
  obtain ⟨hdescription, hunit⟩ := Prod.mk.inj hrest
  obtain ⟨hname', hdescription', hunit'⟩ := foldl_metricStep_texts (pbFields r).1
  rw [pointTexts, hname, hdescription, hunit, hservice, hscope, hlabel, hpidKey, hname',
    hdescription', hunit']
  simp only [pointStrings, List.map_cons, List.map_nil, pwCopyStr_val]

theorem cutsTexts_metric :
    CutsTexts metricContext readMetric metricWhole MetricStrings.cut pointTexts pointStrings where
  init := by
    simp only [MetricStrings.cut, metricWhole, metricContext, pwCopyStr_eq]
  setName := fun _ _ => rfl
  takeAttribute := fun key value d => by
    simp only [metricWhole, metricContext, metricAttribute, pwAnyValueAsString_eq]
    split_ifs
    · cases stringIn value <;> rfl
    · cases stringIn value <;> rfl
    · cases stringIn value <;> rfl
    · rfl
  mapScopeName_id := fun _ => rfl
  mapScopeName_const := fun _ _ _ => rfl
  item := fun r d => by
    have hsame : readMetric r d.cut = itemsOfMetric loopEnd (fun _ kind r' => .ofOption
        (readPoint d.cut ((pbFields r).1.foldl metricStep metricStart) kind r')) r := rfl
    rw [hsame]
    exact (composes_allItems fun p => pointTexts p = (pointStrings r d).map cutTo).itemsOfMetric
      (allItems_loopEnd _) (fun _ _ _ => allItems_ofOption fun _ hp => pointTexts_read hp) r

/-! ## Texts that are cut off -/

/-- What does not fit of a string in a field of so many bytes does not start inside of a
character. -/
def CutsWell (p : ℕ × Bytes) : Prop :=
  ¬ Utf8.IsTail ((cstr p.2).getD (p.1 - 1) 0)

theorem wellFormed_cutTo_iff {p : ℕ × Bytes} (h : Utf8.WellFormed p.2) :
    Utf8.WellFormed (cutTo p) ↔ CutsWell p :=
  Utf8.wellFormed_take_iff (Utf8.wellFormed_cstr h) _

/-- The strings that the items of a payload are made of are well-formed. -/
def StringsWellFormed (sources : List (Bytes × D)) (strings : Bytes → D → List (ℕ × Bytes)) :
    Prop :=
  ∀ y ∈ sources, ∀ p ∈ strings y.1 y.2, Utf8.WellFormed p.2

/-- The texts of all items that are emitted are well-formed. -/
def TextsWellFormed (decode : (α → Prog (List α) ℤ) → Bytes → Prog (List α) ℤ)
    (texts : α → List Bytes) (data : Bytes) : Prop :=
  ∀ a ∈ emitted decode data, ∀ t ∈ texts a, Utf8.WellFormed t

theorem CutsTexts.wellFormed_iff {ops : WalkContext C} {read : Bytes → C → Emission α}
    {whole : WholeContext D} {cut : D → C} {texts : α → List Bytes}
    {strings : Bytes → D → List (ℕ × Bytes)} (h : CutsTexts ops read whole cut texts strings)
    {decode : (α → Prog (List α) ℤ) → Bytes → Prog (List α) ℤ} {data : Bytes}
    (hdecode : emitted decode data = (itemsOf loopEnd ops read data).items)
    (hstrings : StringsWellFormed (whole.sources cut read data) strings) :
    TextsWellFormed decode texts data ↔
      ∀ y ∈ whole.sources cut read data, ∀ p ∈ strings y.1 y.2, CutsWell p := by
  have hitems := h.map_items data
  rw [← hdecode] at hitems
  constructor
  · intro htexts y hy p hp
    have hmem : (strings y.1 y.2).map cutTo ∈ (emitted decode data).map texts :=
      hitems ▸ List.mem_map_of_mem hy
    obtain ⟨a, ha, heq⟩ := List.mem_map.mp hmem
    apply (wellFormed_cutTo_iff (hstrings y hy p hp)).mp
    exact htexts a ha _ (heq ▸ List.mem_map_of_mem hp)
  · intro hcuts a ha t ht
    have hmem : texts a ∈ (whole.sources cut read data).map
        fun y => (strings y.1 y.2).map cutTo := hitems ▸ List.mem_map_of_mem ha
    obtain ⟨y, hy, heq⟩ := List.mem_map.mp hmem
    rw [← heq] at ht
    obtain ⟨p, hp, rfl⟩ := List.mem_map.mp ht
    exact (wellFormed_cutTo_iff (hstrings y hy p hp)).mpr (hcuts y hy p hp)

/-- Where the strings are well-formed, the texts of what is emitted are so exactly where none of
the strings is cut off inside of a character. -/
theorem textsWellFormed_iff (data : Bytes) :
    (StringsWellFormed (spanWhole.sources SpanStrings.cut readSpan data) spanStrings →
        (TextsWellFormed otlpDecodeTraces spanTexts data ↔
          ∀ y ∈ spanWhole.sources SpanStrings.cut readSpan data,
            ∀ p ∈ spanStrings y.1 y.2, CutsWell p)) ∧
      (StringsWellFormed (metricWhole.sources MetricStrings.cut readMetric data) pointStrings →
        (TextsWellFormed otlpDecodeMetrics pointTexts data ↔
          ∀ y ∈ metricWhole.sources MetricStrings.cut readMetric data,
            ∀ p ∈ pointStrings y.1 y.2, CutsWell p)) :=
  ⟨cutsTexts_span.wellFormed_iff (emitted_traces data),
    cutsTexts_metric.wellFormed_iff (emitted_metrics data)⟩

instance (p : ℕ × Bytes) : Decidable (CutsWell p) :=
  inferInstanceAs (Decidable (¬ (_ ∧ _)))

instance (sources : List (Bytes × D)) (strings : Bytes → D → List (ℕ × Bytes)) :
    Decidable (StringsWellFormed sources strings) :=
  inferInstanceAs (Decidable (∀ y ∈ sources, ∀ p ∈ strings y.1 y.2, _))

theorem textsWellFormed_iff_shop :
    TextsWellFormed otlpDecodeTraces spanTexts (encode (submessages 1 [shopFields])) :=
  ((textsWellFormed_iff (encode (submessages 1 [shopFields]))).1 (by decide +kernel)).mpr
    (by decide +kernel)

/-- A span whose label is of 100 bytes, the last two of which are one character. -/
def longLabel : Bytes :=
  encode (submessages 1 [[
    ⟨1, .bytes (encode [⟨1, .bytes (encodePair (bytes "procwatch.label",
      .str (List.replicate 98 0x61 ++ [0xc3, 0xa9])))⟩])⟩,
    ⟨2, .bytes (encode [⟨2, .bytes []⟩])⟩]])

/-- Its strings are well-formed, but not the label that is emitted. -/
theorem not_textsWellFormed_longLabel :
    ¬ (StringsWellFormed (spanWhole.sources SpanStrings.cut readSpan longLabel) spanStrings →
      TextsWellFormed otlpDecodeTraces spanTexts longLabel) := by
  unfold TextsWellFormed
  decide +kernel

end ProcWatch.Otlp

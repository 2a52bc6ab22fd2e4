import ProcWatch.Verification.Otlp.Metric
import ProcWatch.Verification.Otlp.Trace

/-! # Malformed tags in a payload

The loops of the decoders do not tell a malformed tag from the end of a message. Here the walk
keeps an account of every message that it takes for complete.
-/

namespace ProcWatch.Otlp

open CLib Wire

variable {α β C : Type}

/-! ## A walk that takes note of resources and scopes -/

section Notes

variable (closing : Ending → Emission α) (ops : WalkContext C) (read : Bytes → C → Emission α)
  (resource scope : Bytes → Emission α)

def scopeNotes (ending : Ending) : List Field → C → Emission α
  | [], _ => closing ending
  | f :: fields, c =>
      match f with
      | ⟨F_SS_SCOPE, .bytes r⟩ =>
          (scope r).andThen (scopeNotes ending fields
            (ops.mapScopeName (fun name => (pbFields r).1.foldl scopeStep name) c))
      | ⟨F_SS_SPANS, .bytes r⟩ => (read r c).andThen (scopeNotes ending fields c)
      | _ => scopeNotes ending fields c

def notesOfScope (r : Bytes) (c : C) : Emission α :=
  scopeNotes closing ops read scope (pbFields r).2 (pbFields r).1 c

def pendingNotes : List Bytes → C → Emission α
  | [], _ => .nothing
  | r :: pending, c =>
      (notesOfScope closing ops read scope r c).andThen
        (pendingNotes pending (contextAfter ops r c))

def resourceNotes (ending : Ending) : List Field → C → List Bytes → Emission α
  | [], c, pending => (closing ending).andThen (pendingNotes closing ops read scope pending c)
  | f :: fields, c, pending =>
      match f with
      | ⟨F_RS_RESOURCE, .bytes r⟩ =>
          (resource r).andThen (resourceNotes ending fields
            ((pbFields r).1.foldl (resourceStep ops) c) pending)
      | ⟨F_RS_SCOPE_SPANS, .bytes r⟩ =>
          if pending.length < PENDING_SCOPES then
            resourceNotes ending fields c (pending ++ [r])
          else (notesOfScope closing ops read scope r c).andThen
            (resourceNotes ending fields (contextAfter ops r c) pending)
      | _ => resourceNotes ending fields c pending

/-- The items of a payload, with those for each resource and scope in their places. -/
def notesOf (data : Bytes) : Emission α :=
  fieldItems closing
    (fun r => resourceNotes closing ops read resource scope (pbFields r).2 (pbFields r).1 ops.init [])
    (pbFields data).2 (pbFields data).1

end Notes

section NoNotes

variable {closing : Ending → Emission α} {ops : WalkContext C} {read : Bytes → C → Emission α}

theorem scopeNotes_nothing (ending : Ending) (fields : List Field) (c : C) :
    scopeNotes closing ops read (fun _ => .nothing) ending fields c =
      scopeItems closing ops read ending fields c := by
  induction fields generalizing c with
  | nil => rfl
  | cons f fields ih =>
      cases fieldCase f with
      | first r => exact ih _
      | second r => exact congrArg (read r c).andThen (ih c)
      | other hfirst hsecond =>
          simp only [scopeNotes, ProcWatch.scopeItems]
          exact ih c

theorem pendingNotes_nothing (pending : List Bytes) (c : C) :
    pendingNotes closing ops read (fun _ => .nothing) pending c =
      pendingItems closing ops read pending c := by
  induction pending generalizing c with
  | nil => rfl
  | cons r pending ih =>
      rw [pendingNotes, notesOfScope, scopeNotes_nothing, ih, ProcWatch.pendingItems, itemsOfScope]

theorem resourceNotes_nothing (ending : Ending) (fields : List Field) (c : C)
    (pending : List Bytes) :
    resourceNotes closing ops read (fun _ => .nothing) (fun _ => .nothing) ending fields c pending =
      resourceItems closing ops read ending fields c pending := by
  induction fields generalizing c pending with
  | nil => rw [resourceNotes, pendingNotes_nothing, ProcWatch.resourceItems]
  | cons f fields ih =>
      cases fieldCase f with
      | first r => exact ih _ _
      | second r =>
          simp only [resourceNotes, ProcWatch.resourceItems]
          split
          · exact ih _ _
          · rw [notesOfScope, scopeNotes_nothing, ih, itemsOfScope]
      | other hfirst hsecond =>
          simp only [resourceNotes, ProcWatch.resourceItems]
          exact ih c pending

/-- Without anything for resources and scopes it is the plain walk. -/
theorem notesOf_nothing (data : Bytes) :
    notesOf closing ops read (fun _ => .nothing) (fun _ => .nothing) data =
      itemsOf closing ops read data := by
  rw [notesOf, ProcWatch.itemsOf]
  congr 1
  funext r
  exact resourceNotes_nothing _ _ _ _

end NoNotes

/-! ## Two walks over one payload -/

/-- A relation between walks that holds of the parts of two walks and so of the wholes. -/
structure Composes (R : Emission α → Emission β → Prop) : Prop where
  nothing : R .nothing .nothing
  andThen : ∀ {e e' : Emission α} {f f' : Emission β}, R e f → R e' f' →
    R (e.andThen e') (f.andThen f')

section Related

variable {R : Emission α → Emission β → Prop} {closing : Ending → Emission α}
  {closing' : Ending → Emission β} {ops : WalkContext C} {read : Bytes → C → Emission α}
  {read' : Bytes → C → Emission β} {resource scope : Bytes → Emission α}
  {resource' scope' : Bytes → Emission β}

theorem Composes.fieldItems (hR : Composes R) (hclosing : ∀ e, R (closing e) (closing' e))
    {items : Bytes → Emission α} {items' : Bytes → Emission β} (hitems : ∀ r, R (items r) (items' r))
    (ending : Ending) (fields : List Field) :
    R (fieldItems closing items ending fields) (fieldItems closing' items' ending fields) := by
  induction fields with
  | nil => exact hclosing ending
  | cons f fields ih =>
      cases fieldCase f with
      | first r => exact hR.andThen (hitems r) ih
      | second b => exact ih
      | other hfirst hsecond =>
          simp only [ProcWatch.fieldItems]
          exact ih

theorem Composes.scopeNotes (hR : Composes R) (hclosing : ∀ e, R (closing e) (closing' e))
    (hread : ∀ r c, R (read r c) (read' r c)) (hscope : ∀ r, R (scope r) (scope' r))
    (ending : Ending) (fields : List Field) (c : C) :
    R (scopeNotes closing ops read scope ending fields c)
      (scopeNotes closing' ops read' scope' ending fields c) := by
  induction fields generalizing c with
  | nil => exact hclosing ending
  | cons f fields ih =>
      cases fieldCase f with
      | first r => exact hR.andThen (hscope r) (ih _)
      | second r => exact hR.andThen (hread r c) (ih c)
      | other hfirst hsecond =>
          simp only [Otlp.scopeNotes]
          exact ih c

theorem Composes.pendingNotes (hR : Composes R) (hclosing : ∀ e, R (closing e) (closing' e))
    (hread : ∀ r c, R (read r c) (read' r c)) (hscope : ∀ r, R (scope r) (scope' r))
    (pending : List Bytes) (c : C) :
    R (pendingNotes closing ops read scope pending c)
      (pendingNotes closing' ops read' scope' pending c) := by
  induction pending generalizing c with
  | nil => exact hR.nothing
  | cons r pending ih => exact hR.andThen (hR.scopeNotes hclosing hread hscope _ _ c) (ih _)

theorem Composes.resourceNotes (hR : Composes R) (hclosing : ∀ e, R (closing e) (closing' e))
    (hread : ∀ r c, R (read r c) (read' r c)) (hresource : ∀ r, R (resource r) (resource' r))
    (hscope : ∀ r, R (scope r) (scope' r)) (ending : Ending) (fields : List Field) (c : C)
    (pending : List Bytes) :
    R (resourceNotes closing ops read resource scope ending fields c pending)
      (resourceNotes closing' ops read' resource' scope' ending fields c pending) := by
  induction fields generalizing c pending with
  | nil => exact hR.andThen (hclosing ending) (hR.pendingNotes hclosing hread hscope pending c)
  | cons f fields ih =>
      cases fieldCase f with
      | first r => exact hR.andThen (hresource r) (ih _ _)
      | second r =>
          simp only [Otlp.resourceNotes]
          split
          · exact ih _ _
          · exact hR.andThen (hR.scopeNotes hclosing hread hscope _ _ c) (ih _ _)
      | other hfirst hsecond =>
          simp only [Otlp.resourceNotes]
          exact ih c pending

theorem Composes.notesOf (hR : Composes R) (hclosing : ∀ e, R (closing e) (closing' e))
    (hread : ∀ r c, R (read r c) (read' r c)) (hresource : ∀ r, R (resource r) (resource' r))
    (hscope : ∀ r, R (scope r) (scope' r)) (data : Bytes) :
    R (notesOf closing ops read resource scope data)
      (notesOf closing' ops read' resource' scope' data) :=
  hR.fieldItems hclosing (fun _ => hR.resourceNotes hclosing hread hresource hscope _ _ _ []) _ _

theorem Composes.itemsOf (hR : Composes R) (hclosing : ∀ e, R (closing e) (closing' e))
    (hread : ∀ r c, R (read r c) (read' r c)) (data : Bytes) :
    R (itemsOf closing ops read data) (itemsOf closing' ops read' data) := by
  rw [← notesOf_nothing, ← notesOf_nothing]
  exact hR.notesOf hclosing hread (fun _ => hR.nothing) (fun _ => hR.nothing) data

theorem Composes.itemsOfMetric (hR : Composes R) (hclosing : ∀ e, R (closing e) (closing' e))
    {point : MetricLocals → Container → Bytes → Emission α}
    {point' : MetricLocals → Container → Bytes → Emission β}
    (hpoint : ∀ m kind r, R (point m kind r) (point' m kind r)) (r : Bytes) :
    R (itemsOfMetric closing point r) (itemsOfMetric closing' point' r) := by
  have hcontainers (m : MetricLocals) (pending : List (Container × Bytes)) :
      R (containersItems closing (point m) pending)
        (containersItems closing' (point' m) pending) := by
    induction pending with
    | nil => exact hR.nothing
    | cons p pending ih => exact hR.andThen (hR.fieldItems hclosing (hpoint m p.1) _ _) ih
  rw [Otlp.itemsOfMetric, Otlp.itemsOfMetric]
  apply hR.andThen (hclosing _)
  split
  · exact hR.nothing
  · exact hcontainers _ _

end Related

/-! ## Payloads without a malformed message -/

def faultEnd : Ending → Emission Ending
  | .atEnd => .nothing
  | ending => ⟨[ending], false⟩

/-- What the walk meets first of the messages that do not end at their end. -/
def firstFault {φ : Type} (faults : Emission φ) : Option φ :=
  faults.items.head?

def spanFaults (data : Bytes) : Emission Ending :=
  itemsOf faultEnd spanContext (fun r _ => faultEnd (pbFields r).2) data

def metricFaults (data : Bytes) : Emission Ending :=
  itemsOf faultEnd metricContext
    (fun r _ => itemsOfMetric faultEnd (fun _ _ r => faultEnd (pbFields r).2) r) data

/-- A walk that gets to its end unless there is a fault. -/
def Covers (faults : Emission Ending) (e : Emission α) : Prop :=
  (faults = .nothing ∧ e.ok = true) ∨ ∃ ending, faults = ⟨[ending], false⟩

theorem composes_covers : Composes (Covers (α := α)) where
  nothing := .inl ⟨rfl, rfl⟩
  andThen := by
    rintro e e' f f' (⟨rfl, hok⟩ | ⟨ending, rfl⟩) h'
    · have hfaults : Emission.nothing.andThen e' = e' := rfl
      rw [hfaults, items_andThen_of_ok hok]
      exact h'
    · exact .inr ⟨ending, rfl⟩

theorem covers_loopEnd (ending : Ending) : Covers (α := α) (faultEnd ending) (loopEnd ending) := by
  cases ending with
  | atEnd => exact .inl ⟨rfl, rfl⟩
  | malformedTag => exact .inr ⟨_, rfl⟩
  | badValue => exact .inr ⟨_, rfl⟩

theorem covers_ofOption {ending : Ending} {o : Option α} (h : o = none ↔ ending = .badValue) :
    Covers (faultEnd ending) (.ofOption o) := by
  cases o with
  | none =>
      rw [h.mp rfl]
      exact .inr ⟨_, rfl⟩
  | some a =>
      cases ending with
      | atEnd => exact .inl ⟨rfl, rfl⟩
      | malformedTag => exact .inr ⟨_, rfl⟩
      | badValue => cases h.mpr rfl

theorem Covers.ok {faults : Emission Ending} {e : Emission α} (h : Covers faults e)
    (hnone : firstFault faults = none) : e.ok = true := by
  rcases h with ⟨-, hok⟩ | ⟨ending, rfl⟩
  · exact hok
  · simp [firstFault] at hnone

theorem readSpanMessage_eq_none (r : Bytes) (ctx : SpanContext) :
    readSpanMessage r ctx = none ↔ (pbFields r).2 = .badValue := by
  simp [readSpanMessage]

theorem readPoint_eq_none (ctx : MetricContext) (m : MetricLocals) (kind : Container) (r : Bytes) :
    readPoint ctx m kind r = none ↔ (pbFields r).2 = .badValue := by
  simp [readPoint, readPointMessage]

theorem ok_span {data : Bytes} (hnone : firstFault (spanFaults data) = none) :
    (itemsOf loopEnd spanContext readSpan data).ok = true :=
  (composes_covers.itemsOf covers_loopEnd
    (fun r ctx => covers_ofOption (readSpanMessage_eq_none r ctx)) data).ok hnone

theorem ok_metric {data : Bytes} (hnone : firstFault (metricFaults data) = none) :
    (itemsOf loopEnd metricContext readMetric data).ok = true :=
  (composes_covers.itemsOf covers_loopEnd
    (fun r ctx => composes_covers.itemsOfMetric covers_loopEnd
      (fun m kind r => covers_ofOption (readPoint_eq_none ctx m kind r)) r) data).ok hnone

/-! ## The messages beside a walk

Resources, scopes, statuses, attributes and the values in them: their loops leave at any error,
and the walk goes on behind them.
-/

/-- How the loops over a value end, given those of the values inside it, and the loops over its
lists. -/
def valueEndings : ℕ → Bytes → List Ending
  | 0, _ => []
  | left + 1, r =>
      let member (f : Field) : List Ending :=
        match f with
        | ⟨F_LIST_VALUES, .bytes sub⟩ => valueEndings left sub
        | _ => []
      let pair (f : Field) : List Ending :=
        match f with
        | ⟨F_LIST_VALUES, .bytes kv⟩ =>
            (pbFields kv).2 ::
              (match pwParseKv kv with
              | (key, some value) => if key.val = [] then [] else valueEndings left value
              | (_, none) => [])
        | _ => []
      let inside (f : Field) : List Ending :=
        match f with
        | ⟨F_AV_ARRAY, .bytes sub⟩ => (pbFields sub).1.flatMap member ++ [(pbFields sub).2]
        | ⟨F_AV_KVLIST, .bytes sub⟩ => (pbFields sub).1.flatMap pair ++ [(pbFields sub).2]
        | _ => []
      (pbFields r).1.flatMap inside ++ [(pbFields r).2]

/-- An attribute of a span or point, whose value is only read behind a key. -/
def attributeEndings (kv : Bytes) : List Ending :=
  (pbFields kv).2 ::
    (match pwParseKv kv with
    | (key, some value) => if key.val = [] then [] else valueEndings PW_ATTR_MAX_DEPTH value
    | (_, none) => [])

/-- The value of a resource attribute, which is read up to its first string. -/
def stringEndings (value : Bytes) : List Ending :=
  if (pwAnyValueAsString 256 value).isSome then [] else [(pbFields value).2]

/-- A resource, of whose attributes only those under `keys` have their values read. -/
def resourceEndings (keys : List Bytes) (r : Bytes) : List Ending :=
  let pair (f : Field) : List Ending :=
    match f with
    | ⟨F_RES_ATTRIBUTES, .bytes kv⟩ =>
        (pbFields kv).2 ::
          (match pwParseKv kv with
          | (key, some value) => if key.val ∈ keys then stringEndings value else []
          | (_, none) => [])
    | _ => []
  (pbFields r).1.flatMap pair ++ [(pbFields r).2]

def scopeEndings (r : Bytes) : List Ending :=
  [(pbFields r).2]

def spanEndings (r : Bytes) : List Ending :=
  (pbFields r).1.flatMap fun f =>
    match f with
    | ⟨F_SPAN_ATTRIBUTES, .bytes kv⟩ => attributeEndings kv
    | ⟨F_SPAN_STATUS, .bytes st⟩ => [(pbFields st).2]
    | _ => []

def pointEndings (kind : Container) (r : Bytes) : List Ending :=
  (pbFields r).1.flatMap fun f =>
    match f with
    | ⟨number, .bytes kv⟩ =>
        if number = (if kind = .histogram then F_HDP_ATTRIBUTES else F_NDP_ATTRIBUTES) then
          attributeEndings kv
        else []
    | _ => []

def spanKeys : List Bytes :=
  [bytes "service.name", bytes "procwatch.label"]

def metricKeys : List Bytes :=
  [bytes "service.name", bytes "procwatch.label", bytes "procwatch.pid_key"]

/-! ## Messages taken for complete -/

/-- What a walk does with a message that its loop has left: it takes the message for complete, or
it hands over what a span or point holds. -/
inductive Step (α : Type) where
  | closed (ending : Ending)
  | item (ending : Ending) (a : α)

/-- How the loop over the message ended. -/
def Step.ending : Step α → Ending
  | .closed ending => ending
  | .item ending _ => ending

def Step.item? : Step α → Option α
  | .closed _ => none
  | .item _ a => some a

def stepEnd : Ending → Emission (Step α)
  | .badValue => .failure
  | ending => ⟨[.closed ending], true⟩

/-- The steps for messages beside the walk. -/
def besideSteps (endings : List Ending) : Emission (Step α) :=
  ⟨endings.map .closed, true⟩

/-- The step for a span or point, if it is decoded. -/
def itemStep (r : Bytes) : Option α → Emission (Step α)
  | some a => ⟨[.item (pbFields r).2 a], true⟩
  | none => .failure

def itemSteps (beside : List Ending) (r : Bytes) (o : Option α) : Emission (Step α) :=
  (besideSteps beside).andThen (itemStep r o)

/-- The items that are handed over. -/
def handedOver (steps : Emission (Step α)) : Emission α :=
  ⟨steps.items.filterMap Step.item?, steps.ok⟩

theorem composes_handedOver :
    Composes fun (steps : Emission (Step α)) (e : Emission α) => handedOver steps = e where
  nothing := rfl
  andThen := by
    rintro ⟨items, ok⟩ ⟨items', ok'⟩ f f' rfl rfl
    cases ok with
    | false => rfl
    | true => simp [handedOver, Emission.andThen, List.filterMap_append]

theorem handedOver_stepEnd (ending : Ending) :
    handedOver (stepEnd ending : Emission (Step α)) = loopEnd ending := by
  cases ending <;> rfl

theorem handedOver_besideSteps (endings : List Ending) :
    handedOver (besideSteps endings : Emission (Step α)) = .nothing := by
  have hnone (ending : Ending) : Step.item? (Step.closed ending : Step α) = none := rfl
  simp [handedOver, besideSteps, Emission.nothing, List.filterMap_map, hnone]

theorem handedOver_itemSteps (beside : List Ending) (r : Bytes) (o : Option α) :
    handedOver (itemSteps beside r o) = .ofOption o := by
  rw [itemSteps, composes_handedOver.andThen (handedOver_besideSteps beside) rfl]
  cases o <;> rfl

/-! ## The first lapse of a payload -/

/-- A message that does not end at its end: one on the way to the spans or points, or one beside
it. -/
inductive Lapse where
  | along (ending : Ending)
  | beside (ending : Ending)
  deriving DecidableEq

def lapseAlong : Ending → Emission Lapse
  | .atEnd => .nothing
  | ending => ⟨[.along ending], false⟩

def lapsesBeside (endings : List Ending) : Emission Lapse :=
  match endings.find? (· ≠ .atEnd) with
  | none => .nothing
  | some ending => ⟨[.beside ending], false⟩

/-- All messages taken for complete were read to their end. -/
def AllComplete (steps : Emission (Step α)) : Prop :=
  ∀ s ∈ steps.items, s.ending = .atEnd

/-- The steps of a walk, by the first lapse of the payload. -/
inductive Meets (steps : Emission (Step α)) : Emission Lapse → Prop where
  | noLapse (hok : steps.ok = true) (h : AllComplete steps) : Meets steps .nothing
  | reported (hok : steps.ok = false) (h : AllComplete steps) :
      Meets steps ⟨[.along .badValue], false⟩
  | passedOver {lapse : Lapse} (hlapse : lapse ≠ .along .badValue)
      (h : ∃ s ∈ steps.items, s.ending ≠ .atEnd) : Meets steps ⟨[lapse], false⟩

theorem AllComplete.append {steps steps' : Emission (Step α)} (h : AllComplete steps)
    (h' : AllComplete steps') {ok : Bool} : AllComplete ⟨steps.items ++ steps'.items, ok⟩ := by
  intro s hs
  cases List.mem_append.mp hs with
  | inl hs => exact h s hs
  | inr hs => exact h' s hs

theorem composes_meets :
    Composes fun (steps : Emission (Step α)) (lapses : Emission Lapse) => Meets steps lapses where
  nothing := .noLapse rfl fun _ hs => absurd hs List.not_mem_nil
  andThen := by
    intro e e' f f' h h'
    cases h with
    | noLapse hok hall =>
        have hlapses : Emission.nothing.andThen f' = f' := rfl
        rw [items_andThen_of_ok hok, hlapses]
        cases h' with
        | noLapse hok' hall' => exact .noLapse hok' (hall.append hall')
        | reported hok' hall' => exact .reported hok' (hall.append hall')
        | passedOver hlapse h' =>
            obtain ⟨s, hs, hending⟩ := h'
            exact .passedOver hlapse ⟨s, List.mem_append_right _ hs, hending⟩
    | reported hok hall =>
        have hstop : e.andThen e' = e := by simp [Emission.andThen, hok]
        rw [hstop]
        exact .reported hok hall
    | passedOver hlapse h =>
        obtain ⟨s, hs, hending⟩ := h
        exact .passedOver hlapse ⟨s, mem_items_andThen hs, hending⟩

theorem meets_single {steps : Emission (Step α)} {s : Step α} (h : steps = ⟨[s], true⟩)
    (hne : s.ending ≠ .badValue) : Meets steps (lapseAlong s.ending) := by
  subst h
  generalize hending : s.ending = ending at hne
  cases ending with
  | atEnd =>
      refine .noLapse rfl fun t ht => ?_
      exact List.mem_singleton.mp ht ▸ hending
  | malformedTag =>
      refine .passedOver (by decide) ⟨s, List.mem_singleton_self s, ?_⟩
      rw [hending]
      decide
  | badValue => exact absurd rfl hne

theorem meets_failure : Meets (.failure : Emission (Step α)) (lapseAlong .badValue) :=
  .reported rfl fun _ hs => absurd hs List.not_mem_nil

theorem meets_stepEnd (ending : Ending) :
    Meets (stepEnd ending : Emission (Step α)) (lapseAlong ending) := by
  cases ending with
  | badValue => exact meets_failure
  | atEnd => exact meets_single (s := .closed .atEnd) rfl (by simp [Step.ending])
  | malformedTag => exact meets_single (s := .closed .malformedTag) rfl (by simp [Step.ending])

theorem meets_besideSteps (endings : List Ending) :
    Meets (besideSteps endings : Emission (Step α)) (lapsesBeside endings) := by
  rw [lapsesBeside]
  cases hfind : endings.find? (· ≠ .atEnd) with
  | none =>
      rw [List.find?_eq_none] at hfind
      refine .noLapse rfl fun s hs => ?_
      obtain ⟨ending, hmem, rfl⟩ := List.mem_map.mp hs
      simpa [Step.ending] using hfind ending hmem
  | some ending =>
      have hne : ending ≠ .atEnd := by simpa using List.find?_some hfind
      exact .passedOver (by simp)
        ⟨.closed ending, List.mem_map_of_mem (List.mem_of_find?_eq_some hfind), hne⟩

theorem meets_itemSteps (beside : List Ending) {r : Bytes} {o : Option α}
    (h : o = none ↔ (pbFields r).2 = .badValue) :
    Meets (itemSteps beside r o) ((lapsesBeside beside).andThen (lapseAlong (pbFields r).2)) := by
  refine composes_meets.andThen (meets_besideSteps beside) ?_
  cases o with
  | none =>
      rw [h.mp rfl]
      exact meets_failure
  | some a =>
      have hne : (pbFields r).2 ≠ .badValue := fun hbad => by simpa using h.mpr hbad
      exact meets_single (s := .item (pbFields r).2 a) rfl hne

/-! ## Spans and points -/

def spanSteps (data : Bytes) : Emission (Step ProcWatch.Span) :=
  notesOf stepEnd spanContext
    (fun r ctx => itemSteps (spanEndings r) r (readSpanMessage r ctx))
    (fun r => besideSteps (resourceEndings spanKeys r)) (fun r => besideSteps (scopeEndings r)) data

def spanLapses (data : Bytes) : Emission Lapse :=
  notesOf lapseAlong spanContext
    (fun r _ => (lapsesBeside (spanEndings r)).andThen (lapseAlong (pbFields r).2))
    (fun r => lapsesBeside (resourceEndings spanKeys r)) (fun r => lapsesBeside (scopeEndings r)) data

def metricSteps (data : Bytes) : Emission (Step MetricPoint) :=
  notesOf stepEnd metricContext
    (fun r ctx => itemsOfMetric stepEnd
      (fun m kind r => itemSteps (pointEndings kind r) r (readPoint ctx m kind r)) r)
    (fun r => besideSteps (resourceEndings metricKeys r)) (fun r => besideSteps (scopeEndings r))
    data

def metricLapses (data : Bytes) : Emission Lapse :=
  notesOf lapseAlong metricContext
    (fun r _ => itemsOfMetric lapseAlong
      (fun _ kind r => (lapsesBeside (pointEndings kind r)).andThen (lapseAlong (pbFields r).2)) r)
    (fun r => lapsesBeside (resourceEndings metricKeys r))
    (fun r => lapsesBeside (scopeEndings r)) data

/-- The walk with its account hands over what the decoder does. -/
theorem handedOver_spanSteps (data : Bytes) :
    handedOver (spanSteps data) = itemsOf loopEnd spanContext readSpan data := by
  rw [← notesOf_nothing]
  exact composes_handedOver.notesOf handedOver_stepEnd
    (fun r _ => handedOver_itemSteps _ r _) (fun _ => handedOver_besideSteps _)
    (fun _ => handedOver_besideSteps _) data

theorem handedOver_metricSteps (data : Bytes) :
    handedOver (metricSteps data) = itemsOf loopEnd metricContext readMetric data := by
  rw [← notesOf_nothing]
  exact composes_handedOver.notesOf handedOver_stepEnd
    (fun r _ => composes_handedOver.itemsOfMetric handedOver_stepEnd
      (fun _ _ r => handedOver_itemSteps _ r _) r) (fun _ => handedOver_besideSteps _)
    (fun _ => handedOver_besideSteps _) data

theorem meets_span (data : Bytes) : Meets (spanSteps data) (spanLapses data) :=
  composes_meets.notesOf meets_stepEnd
    (fun r ctx => meets_itemSteps _ (readSpanMessage_eq_none r ctx))
    (fun _ => meets_besideSteps _) (fun _ => meets_besideSteps _) data

theorem meets_metric (data : Bytes) : Meets (metricSteps data) (metricLapses data) :=
  composes_meets.notesOf meets_stepEnd
    (fun r ctx => composes_meets.itemsOfMetric meets_stepEnd
      (fun m kind r => meets_itemSteps _ (readPoint_eq_none ctx m kind r)) r)
    (fun _ => meets_besideSteps _) (fun _ => meets_besideSteps _) data

/-! ## Decoding -/

/-- A sink that keeps what it gets. -/
def record (a : α) : Prog (List α) ℤ := do
  Prog.modify (· ++ [a])
  return 0

theorem offer_record (items : List α) (count : ℕ) (kept : List α) :
    offer record items count kept = (.ret (0, count + items.length), kept ++ items) := by
  rw [offer_of_zero fun _ _ => rfl]
  congr 1
  induction items generalizing kept with
  | nil => simp
  | cons a items ih =>
      rw [List.foldl_cons, ih]
      simp [record, Prog.bind_apply, Prog.modify, Prog.pure_apply]

/-- A malformed message of a payload is never taken for complete: every message behind which
the walk goes on, and every message of which it hands over what it holds, was read to its end;
and a return value of at least 0 without a record means that there is no malformed message in
the payload. -/
structure NeverTakenForComplete (decode : (α → Prog (List α) ℤ) → Bytes → Prog (List α) ℤ)
    (steps : Emission (Step α)) (lapses : Emission Lapse) (data : Bytes) : Prop where
  complete : AllComplete steps
  wellFormed : ∀ n, decode record data [] = (.ret n, []) → 0 ≤ n → firstFault lapses = none

theorem neverTakenForComplete_iff
    {decode : (α → Prog (List α) ℤ) → Bytes → Prog (List α) ℤ} {steps : Emission (Step α)}
    {lapses : Emission Lapse} {data : Bytes}
    (hdecode : decode record data =
      (handedOver steps).run record 0 >>= fun x => return requestResult x)
    (hmeets : Meets steps lapses) :
    NeverTakenForComplete decode steps lapses data ↔
      ∀ lapse ∈ firstFault lapses, lapse = .along .badValue := by
  constructor
  · intro h lapse hfirst
    cases hmeets with
    | noLapse hok hall => simp [firstFault, Emission.nothing] at hfirst
    | reported hok hall => exact (Option.some.inj hfirst).symm
    | passedOver hlapse hmem =>
        obtain ⟨s, hs, hending⟩ := hmem
        exact absurd (h.complete s hs) hending
  · intro hfirst
    cases hmeets with
    | noLapse hok hall => exact ⟨hall, fun _ _ _ => rfl⟩
    | reported hok hall =>
        refine ⟨hall, fun n hrun hn => ?_⟩
        -- Without a record the walk has counted nothing, so it returns -1 where it fails.
        rw [hdecode, Emission.run, chain, Prog.bind_apply, Prog.bind_apply, offer_record] at hrun
        simp only [handedOver, hok, Prog.pure_apply] at hrun
        obtain ⟨hret, hnil⟩ := Prod.mk.inj hrun
        rw [List.nil_append] at hnil
        rw [hnil] at hret
        have hneg : (-1 : ℤ) = n := CLib.Outcome.ret.inj hret
        omega
    | @passedOver lapse hlapse hmem => exact absurd (hfirst lapse rfl) hlapse

/-- So does one with such a tag in its resource. -/
example : otlpDecodeTraces record [0x0a, 0x03, 0x0a, 0x01, 0x07] [] = (.ret 0, []) ∧
    firstFault (spanLapses [0x0a, 0x03, 0x0a, 0x01, 0x07]) = some (.beside .malformedTag) := by
  decide +kernel

end ProcWatch.Otlp

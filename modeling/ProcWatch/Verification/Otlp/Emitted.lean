import ProcWatch.Verification.Otlp.Malformed

/-! # What a decoder emits

The spans or data points that a decoder hands to a sink which takes all of them.
-/

namespace ProcWatch.Otlp

open CLib Wire

variable {α C : Type}

def emitted (decode : (α → Prog (List α) ℤ) → Bytes → Prog (List α) ℤ) (data : Bytes) : List α :=
  (decode record data []).2

theorem emitted_decodeRequest {ops : WalkContext C} {read : Bytes → C → Emission α}
    {decode : (α → Prog (List α) ℤ) → Bytes → Prog (List α) ℤ} {data : Bytes}
    (hdecode : decode record data =
      (itemsOf loopEnd ops read data).run record 0 >>= fun x => return requestResult x) :
    emitted decode data = (itemsOf loopEnd ops read data).items := by
  rw [emitted, hdecode, Emission.run, chain, Prog.bind_apply, Prog.bind_apply, offer_record]
  cases (itemsOf loopEnd ops read data).ok <;> rfl

theorem emitted_traces (data : Bytes) :
    emitted otlpDecodeTraces data = (itemsOf loopEnd spanContext readSpan data).items :=
  emitted_decodeRequest (decodeRequest_eq (spanItem_eq record) data)

theorem emitted_metrics (data : Bytes) :
    emitted otlpDecodeMetrics data = (itemsOf loopEnd metricContext readMetric data).items :=
  emitted_decodeRequest (decodeRequest_eq (decodeMetric_eq record) data)

/-! ## What holds of every item -/

/-- All items of the first of two walks have a property. -/
def AllItems (P : α → Prop) (e _e' : Emission α) : Prop :=
  ∀ a ∈ e.items, P a

theorem composes_allItems (P : α → Prop) : Composes (AllItems P) where
  nothing := fun _ ha => absurd ha List.not_mem_nil
  andThen := by
    intro e e' _ _ he he' a ha
    rw [Emission.andThen] at ha
    split at ha
    · cases List.mem_append.mp ha with
      | inl ha => exact he a ha
      | inr ha => exact he' a ha
    · exact he a ha

theorem allItems_loopEnd (P : α → Prop) (ending : Ending) :
    AllItems P (loopEnd ending) (loopEnd ending) := by
  cases ending <;> exact fun _ ha => absurd ha List.not_mem_nil

theorem allItems_ofOption {P : α → Prop} {o : Option α} (h : ∀ a, o = some a → P a) :
    AllItems P (.ofOption o) (.ofOption o) := by
  intro a ha
  cases o with
  | none => exact absurd ha List.not_mem_nil
  | some b =>
      obtain rfl := List.mem_singleton.mp ha
      exact h a rfl

/-- What every span has that `decode_span` reads, every emitted one has. -/
theorem forall_emitted_traces {P : ProcWatch.Span → Prop}
    (h : ∀ r ctx s, readSpanMessage r ctx = some s → P s) (data : Bytes) :
    ∀ s ∈ emitted otlpDecodeTraces data, P s := by
  have hall : AllItems P (itemsOf loopEnd spanContext readSpan data)
      (itemsOf loopEnd spanContext readSpan data) :=
    (composes_allItems P).itemsOf (allItems_loopEnd P) (fun r ctx => allItems_ofOption (h r ctx)) data
  rw [emitted_traces]
  exact hall

theorem forall_emitted_metrics {P : MetricPoint → Prop}
    (h : ∀ ctx m kind r p, readPoint ctx m kind r = some p → P p) (data : Bytes) :
    ∀ p ∈ emitted otlpDecodeMetrics data, P p := by
  have hread (r : Bytes) (ctx : MetricContext) :
      AllItems P (readMetric r ctx) (readMetric r ctx) :=
    (composes_allItems P).itemsOfMetric (allItems_loopEnd P)
      (fun m kind r => allItems_ofOption (h ctx m kind r)) r
  have hall : AllItems P (itemsOf loopEnd metricContext readMetric data)
      (itemsOf loopEnd metricContext readMetric data) :=
    (composes_allItems P).itemsOf (allItems_loopEnd P) hread data
  rw [emitted_metrics]
  exact hall

/-! ## Spans and points by the fields of their message -/

theorem readSpanMessage_eq_some {r : Bytes} {ctx : SpanContext} {s : ProcWatch.Span}
    (h : readSpanMessage r ctx = some s) :
    s = finishSpan ((pbFields r).1.foldl spanStep (spanStart ctx)) := by
  simp only [readSpanMessage, Option.ite_none_left_eq_some, Option.some.injEq] at h
  exact h.2.symm

theorem readPoint_eq_some {ctx : MetricContext} {m : MetricLocals} {kind : Container} {r : Bytes}
    {p : MetricPoint} (h : readPoint ctx m kind r = some p) :
    ∃ s, s = (pbFields r).1.foldl
        (if kind = .histogram then histogramPointStep else numberPointStep)
        (MetricPoint.init ctx m kind, Attrs.init 2048) ∧
      p = { s.1 with attributesJson := s.2.finish } := by
  simp only [readPoint, readPointMessage, Option.ite_none_left_eq_some, Option.some.injEq] at h
  exact ⟨_, rfl, h.2.symm⟩

end ProcWatch.Otlp

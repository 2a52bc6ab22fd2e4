import ProcWatch.Verification.Otlp.Emitted

/-! # 64-bit quantities of a payload -/

namespace ProcWatch.Otlp

open CLib Wire

/-! ## The messages of a payload -/

def readTracedSpan (r : Bytes) (ctx : SpanContext) : Emission (Bytes × ProcWatch.Span) :=
  .ofOption ((readSpanMessage r ctx).map fun s => (r, s))

/-- The spans that a payload gives, each with the message it was read from. -/
def tracedSpans (data : Bytes) : List (Bytes × ProcWatch.Span) :=
  (itemsOf loopEnd spanContext readTracedSpan data).items

def readTracedPoint (ctx : MetricContext) (m : MetricLocals) (kind : Container) (r : Bytes) :
    Emission ((Container × Bytes) × MetricPoint) :=
  .ofOption ((readPoint ctx m kind r).map fun p => ((kind, r), p))

def readTracedMetric (r : Bytes) (ctx : MetricContext) :
    Emission ((Container × Bytes) × MetricPoint) :=
  itemsOfMetric loopEnd (readTracedPoint ctx) r

/-- The data points, each with its kind and the message it was read from. -/
def tracedPoints (data : Bytes) : List ((Container × Bytes) × MetricPoint) :=
  (itemsOf loopEnd metricContext readTracedMetric data).items

section Traced

variable {α γ : Type}

/-- The second of two walks hands over the same items without their sources. -/
def Untraced (e : Emission (γ × α)) (e' : Emission α) : Prop :=
  e.items.map Prod.snd = e'.items ∧ e.ok = e'.ok

theorem composes_untraced : Composes (@Untraced α γ) where
  nothing := ⟨rfl, rfl⟩
  andThen := by
    intro e e' f f' he he'
    obtain ⟨hitems, hok⟩ := he
    obtain ⟨hitems', hok'⟩ := he'
    rw [Untraced, Emission.andThen, Emission.andThen, ← hok]
    split
    · exact ⟨by rw [List.map_append, hitems, hitems'], hok'⟩
    · exact ⟨hitems, hok⟩

theorem untraced_loopEnd (ending : Ending) :
    Untraced (loopEnd ending : Emission (γ × α)) (loopEnd ending) := by
  cases ending <;> exact ⟨rfl, rfl⟩

theorem untraced_ofOption (o : Option α) (source : γ) :
    Untraced (.ofOption (o.map fun a => (source, a))) (.ofOption o) := by
  cases o <;> exact ⟨rfl, rfl⟩

end Traced

theorem map_snd_tracedSpans (data : Bytes) :
    (tracedSpans data).map Prod.snd = emitted otlpDecodeTraces data := by
  rw [emitted_traces]
  exact (composes_untraced.itemsOf untraced_loopEnd
    (fun r ctx => untraced_ofOption (readSpanMessage r ctx) r) data).1

theorem map_snd_tracedPoints (data : Bytes) :
    (tracedPoints data).map Prod.snd = emitted otlpDecodeMetrics data := by
  rw [emitted_metrics]
  exact (composes_untraced.itemsOf untraced_loopEnd
    (fun r ctx => composes_untraced.itemsOfMetric untraced_loopEnd
      (fun m kind r => untraced_ofOption (readPoint ctx m kind r) (kind, r)) r) data).1

theorem read_of_mem_tracedSpans {data : Bytes} {t : Bytes × ProcWatch.Span}
    (ht : t ∈ tracedSpans data) : ∃ ctx, readSpanMessage t.1 ctx = some t.2 := by
  let P (t : Bytes × ProcWatch.Span) : Prop := ∃ ctx, readSpanMessage t.1 ctx = some t.2
  have hread (r : Bytes) (ctx : SpanContext) :
      AllItems P (readTracedSpan r ctx) (readTracedSpan r ctx) := by
    apply allItems_ofOption
    intro t ht
    obtain ⟨s, hs, rfl⟩ := Option.map_eq_some_iff.mp ht
    exact ⟨ctx, hs⟩
  have hall : AllItems P (itemsOf loopEnd spanContext readTracedSpan data)
      (itemsOf loopEnd spanContext readTracedSpan data) :=
    (composes_allItems P).itemsOf (allItems_loopEnd P) hread data
  exact hall t ht

theorem read_of_mem_tracedPoints {data : Bytes} {t : (Container × Bytes) × MetricPoint}
    (ht : t ∈ tracedPoints data) : ∃ ctx m, readPoint ctx m t.1.1 t.1.2 = some t.2 := by
  let P (t : (Container × Bytes) × MetricPoint) : Prop :=
    ∃ ctx m, readPoint ctx m t.1.1 t.1.2 = some t.2
  have hpoint (ctx : MetricContext) (m : MetricLocals) (kind : Container) (r : Bytes) :
      AllItems P (readTracedPoint ctx m kind r) (readTracedPoint ctx m kind r) := by
    apply allItems_ofOption
    intro t ht
    obtain ⟨p, hp, rfl⟩ := Option.map_eq_some_iff.mp ht
    exact ⟨ctx, m, hp⟩
  have hread (r : Bytes) (ctx : MetricContext) :
      AllItems P (readTracedMetric r ctx) (readTracedMetric r ctx) :=
    (composes_allItems P).itemsOfMetric (allItems_loopEnd P) (hpoint ctx) r
  have hall : AllItems P (itemsOf loopEnd metricContext readTracedMetric data)
      (itemsOf loopEnd metricContext readTracedMetric data) :=
    (composes_allItems P).itemsOf (allItems_loopEnd P) hread data
  exact hall t ht

/-! ## The last value of a field -/

def takeFixed64 (number : ℕ) (v : UInt64) (f : Field) : UInt64 :=
  match f with
  | ⟨n, .fixed64 x⟩ => if n = number then x else v
  | _ => v

/-- The last value that a message has for a fixed 64-bit field, 0 without one. -/
def lastFixed64 (number : ℕ) (r : Bytes) : UInt64 :=
  (pbFields r).1.foldl (takeFixed64 number) 0

theorem takeFixed64_of_ne {number : ℕ} {f : Field} (h : ∀ x, f ≠ ⟨number, .fixed64 x⟩)
    (v : UInt64) : takeFixed64 number v f = v := by
  unfold takeFixed64
  split
  · next n x =>
      rw [if_neg]
      exact fun hn => h x (hn ▸ rfl)
  · rfl

theorem statusSteps_times (s : ProcWatch.Span) (fields : List Field) :
    (fields.foldl statusStep s).startNs = s.startNs ∧
      (fields.foldl statusStep s).endNs = s.endNs := by
  induction fields generalizing s with
  | nil => exact ⟨rfl, rfl⟩
  | cons f fields ih =>
      have hstep : (statusStep s f).startNs = s.startNs ∧ (statusStep s f).endNs = s.endNs := by
        unfold statusStep
        split <;> exact ⟨rfl, rfl⟩
      have hrest := ih (statusStep s f)
      exact ⟨hrest.1.trans hstep.1, hrest.2.trans hstep.2⟩

theorem spanStep_times (s : ProcWatch.Span × Attrs 8192) (f : Field) :
    (spanStep s f).1.startNs = takeFixed64 F_SPAN_START s.1.startNs f ∧
      (spanStep s f).1.endNs = takeFixed64 F_SPAN_END s.1.endNs f := by
  unfold spanStep
  split
  case h_9 st => exact statusSteps_times s.1 _
  case h_10 =>
    have hstart : ∀ x, f ≠ ⟨F_SPAN_START, .fixed64 x⟩ := by assumption
    have hend : ∀ x, f ≠ ⟨F_SPAN_END, .fixed64 x⟩ := by assumption
    exact ⟨(takeFixed64_of_ne hstart _).symm, (takeFixed64_of_ne hend _).symm⟩
  all_goals exact ⟨rfl, rfl⟩

theorem foldl_spanStep_times (fields : List Field) (s : ProcWatch.Span × Attrs 8192) :
    (fields.foldl spanStep s).1.startNs = fields.foldl (takeFixed64 F_SPAN_START) s.1.startNs ∧
      (fields.foldl spanStep s).1.endNs = fields.foldl (takeFixed64 F_SPAN_END) s.1.endNs := by
  induction fields generalizing s with
  | nil => exact ⟨rfl, rfl⟩
  | cons f fields ih =>
      rw [List.foldl_cons, List.foldl_cons, List.foldl_cons, (ih _).1, (ih _).2,
        (spanStep_times s f).1, (spanStep_times s f).2]
      exact ⟨rfl, rfl⟩

theorem durationNs_of_read {r : Bytes} {ctx : SpanContext} {s : ProcWatch.Span}
    (h : readSpanMessage r ctx = some s) :
    s.durationNs =
      if lastFixed64 F_SPAN_START r ≤ lastFixed64 F_SPAN_END r then
        (lastFixed64 F_SPAN_END r - lastFixed64 F_SPAN_START r).toInt64
      else 0 := by
  obtain ⟨hstart, hend⟩ := foldl_spanStep_times (pbFields r).1 (spanStart ctx)
  rw [readSpanMessage_eq_some h, finishSpan, hstart, hend]
  rfl

theorem histogramPointStep_count (s : MetricPoint × Attrs 2048) (f : Field) (v : UInt64)
    (hs : s.1.count = v.toInt64) :
    (histogramPointStep s f).1.count = (takeFixed64 F_HDP_COUNT v f).toInt64 := by
  unfold histogramPointStep
  split
  case h_2 => rfl
  case h_5 =>
    have hcount : ∀ x, f ≠ ⟨F_HDP_COUNT, .fixed64 x⟩ := by assumption
    rw [takeFixed64_of_ne hcount, hs]
  all_goals exact hs

theorem count_of_read {ctx : MetricContext} {m : MetricLocals} {r : Bytes} {p : MetricPoint}
    (h : readPoint ctx m .histogram r = some p) :
    p.count = (lastFixed64 F_HDP_COUNT r).toInt64 := by
  have hfold (fields : List Field) (s : MetricPoint × Attrs 2048) (v : UInt64)
      (hs : s.1.count = v.toInt64) : (fields.foldl histogramPointStep s).1.count =
        (fields.foldl (takeFixed64 F_HDP_COUNT) v).toInt64 := by
    induction fields generalizing s v with
    | nil => exact hs
    | cons f fields ih => exact ih _ _ (histogramPointStep_count s f v hs)
  obtain ⟨s, rfl, rfl⟩ := readPoint_eq_some h
  exact hfold (pbFields r).1 (MetricPoint.init ctx m .histogram, Attrs.init 2048) 0 rfl

/-! ## Signed columns -/

theorem toInt_toInt64 (v : UInt64) :
    v.toInt64.toInt = if v.toNat < 2 ^ 63 then (v.toNat : ℤ) else v.toNat - 2 ^ 64 := by
  have hbits : v.toInt64.toInt = v.toBitVec.toInt := rfl
  have hnat : v.toBitVec.toNat = v.toNat := rfl
  rw [hbits, BitVec.toInt_eq_toNat_cond, hnat]
  split <;> split <;> omega

/-- A quantity survives as a signed one exactly below `2 ^ 63`, and else turns negative. -/
theorem toInt_toInt64_exact_iff (v : UInt64) :
    (0 ≤ v.toInt64.toInt ∧ v.toInt64.toInt = v.toNat) ↔ v.toNat < 2 ^ 63 := by
  have hlt := v.toNat_lt
  rw [toInt_toInt64]
  split <;> omega

/-- The messages of the spans that a payload gives. -/
def spanMessages (data : Bytes) : List Bytes :=
  (tracedSpans data).map Prod.fst

/-- The messages of the data points that a payload gives, with their kinds. -/
def pointMessages (data : Bytes) : List (Container × Bytes) :=
  (tracedPoints data).map Prod.fst

/-- Each span has the difference of its times, or 0 for an end before the start. -/
def DurationsExact (data : Bytes) : Prop :=
  ∀ t ∈ tracedSpans data,
    0 ≤ t.2.durationNs.toInt ∧
      t.2.durationNs.toInt =
        max 0 (((lastFixed64 F_SPAN_END t.1).toNat : ℤ) - (lastFixed64 F_SPAN_START t.1).toNat)

/-- Each histogram point has the count of its message. -/
def CountsExact (data : Bytes) : Prop :=
  ∀ t ∈ tracedPoints data, t.1.1 = .histogram →
    0 ≤ t.2.count.toInt ∧ t.2.count.toInt = (lastFixed64 F_HDP_COUNT t.1.2).toNat

/-- No span ends `2 ^ 63` nanoseconds or more after its start. -/
def DurationsFit (data : Bytes) : Prop :=
  ∀ r ∈ spanMessages data,
    (lastFixed64 F_SPAN_END r).toNat < (lastFixed64 F_SPAN_START r).toNat + 2 ^ 63

/-- No histogram counts `2 ^ 63` or more. -/
def CountsFit (data : Bytes) : Prop :=
  ∀ m ∈ pointMessages data, m.1 = .histogram → (lastFixed64 F_HDP_COUNT m.2).toNat < 2 ^ 63

theorem duration_exact_iff {r : Bytes} {ctx : SpanContext} {s : ProcWatch.Span}
    (h : readSpanMessage r ctx = some s) :
    (0 ≤ s.durationNs.toInt ∧ s.durationNs.toInt =
        max 0 (((lastFixed64 F_SPAN_END r).toNat : ℤ) - (lastFixed64 F_SPAN_START r).toNat)) ↔
      (lastFixed64 F_SPAN_END r).toNat < (lastFixed64 F_SPAN_START r).toNat + 2 ^ 63 := by
  rw [durationNs_of_read h]
  by_cases hle : lastFixed64 F_SPAN_START r ≤ lastFixed64 F_SPAN_END r
  · have hnat := UInt64.le_iff_toNat_le.mp hle
    have hsub := UInt64.toNat_sub_of_le _ _ hle
    have hexact := toInt_toInt64_exact_iff (lastFixed64 F_SPAN_END r - lastFixed64 F_SPAN_START r)
    rw [hsub] at hexact
    rw [if_pos hle]
    omega
  · have hnat : (lastFixed64 F_SPAN_END r).toNat < (lastFixed64 F_SPAN_START r).toNat :=
      UInt64.lt_iff_toNat_lt.mp (UInt64.not_le.mp hle)
    rw [if_neg hle, Int64.toInt_zero]
    omega

theorem durationsExact_iff_durationsFit (data : Bytes) :
    DurationsExact data ↔ DurationsFit data := by
  rw [DurationsFit, spanMessages, List.forall_mem_map]
  refine forall₂_congr fun t ht => ?_
  obtain ⟨ctx, hread⟩ := read_of_mem_tracedSpans ht
  exact duration_exact_iff hread

theorem countsExact_iff_countsFit (data : Bytes) : CountsExact data ↔ CountsFit data := by
  rw [CountsFit, pointMessages, List.forall_mem_map]
  refine forall₂_congr fun t ht => forall_congr' fun hkind => ?_
  obtain ⟨ctx, m, hread⟩ := read_of_mem_tracedPoints ht
  rw [hkind] at hread
  rw [count_of_read hread]
  exact toInt_toInt64_exact_iff _

/-- Durations and counts are exact exactly if none of them reaches `2 ^ 63`; what is traced is what
the decoders hand over. -/
theorem quantities_exact_iff (data : Bytes) :
    (tracedSpans data).map Prod.snd = emitted otlpDecodeTraces data ∧
      (tracedPoints data).map Prod.snd = emitted otlpDecodeMetrics data ∧
      (DurationsExact data ↔ DurationsFit data) ∧ (CountsExact data ↔ CountsFit data) :=
  ⟨map_snd_tracedSpans data, map_snd_tracedPoints data, durationsExact_iff_durationsFit data,
    countsExact_iff_countsFit data⟩

/-- A span that starts at 0 and ends at `2 ^ 63`. -/
def longSpan : Bytes :=
  [0x41, 0, 0, 0, 0, 0, 0, 0, 0x80]

/-- A histogram point that counts `2 ^ 64 - 1`. -/
def hugeCount : Bytes :=
  [0x21, 0xff, 0xff, 0xff, 0xff, 0xff, 0xff, 0xff, 0xff]

theorem not_quantities_exact :
    ¬ DurationsExact ([0x0a, 13, 0x12, 11, 0x12, 9] ++ longSpan) ∧
      ¬ CountsExact ([0x0a, 20, 0x12, 18, 0x12, 16, 0x0a, 1, 0x6d, 0x4a, 11, 0x0a, 9] ++
        hugeCount) := by
  rw [durationsExact_iff_durationsFit, countsExact_iff_countsFit]
  constructor
  · intro h
    have hfit := h longSpan (by decide +kernel)
    revert hfit
    decide +kernel
  · intro h
    have hfit := h (.histogram, hugeCount) (by decide +kernel) rfl
    revert hfit
    decide +kernel

end ProcWatch.Otlp

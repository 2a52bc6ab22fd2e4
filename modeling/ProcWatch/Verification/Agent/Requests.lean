import ProcWatch.Model.AgentRequests
import ProcWatch.Verification.Otlp.Metric
import ProcWatch.Verification.Otlp.Trace

/-! # Rejected payloads leave no trace -/

namespace ProcWatch

open CLib Otlp

/-! ## Decoding into a sink that never asks to stop -/

section Walk

variable {W C α : Type} {ops : WalkContext C} {read : Bytes → C → Emission α}

/-- A decoder that returns -1 has not called the sink. -/
theorem wp_decodeRequest {sink : α → Prog W ℤ} {item : ItemDecoder W C}
    (hitem : ∀ r ctx count, item r ctx count = (read r ctx).run sink count)
    (hsink : NeverStops sink) (data : Bytes) (w : W) :
    Prog.wp (decodeRequest ops item data) (fun n w' => n < 0 → w' = w) (fun _ => True) w := by
  rw [decodeRequest_eq hitem, Emission.run, chain, Prog.wp_bind, Prog.wp_bind]
  apply Prog.wp_mono (wp_offer hsink (itemsOf loopEnd ops read data).items 0 w)
  · intro x w' hx
    rw [hx.1]
    intro hneg
    apply hx.2
    by_contra hne
    have hpos : 0 < (itemsOf loopEnd ops read data).items.length := List.length_pos_iff.mpr hne
    simp only [Nat.zero_add, requestResult, countOrError] at hneg
    split at hneg
    · omega
    · omega
  · exact fun _ h => h

/-- The value returned is -1 without a call of the sink, or else the number of calls. -/
theorem wp_decodeRequest_counted {sink : α → Prog W ℤ} {item : ItemDecoder (W × ℕ) C}
    (hitem : ∀ r ctx count, item r ctx count = (read r ctx).run (counted sink) count)
    (hsink : NeverStops sink) (data : Bytes) (w : W) :
    Prog.wp (decodeRequest ops item data) (fun n x => n = -1 ∧ x.2 = 0 ∨ n = x.2) (fun _ => True)
      (w, 0) := by
  rw [decodeRequest_eq hitem, Emission.run, chain, Prog.wp_bind, Prog.wp_bind]
  apply Prog.wp_mono (wp_offer_counted hsink (itemsOf loopEnd ops read data).items 0 (w, 0))
  · intro x y hx
    rw [hx.1]
    change requestResult _ = -1 ∧ y.2 = 0 ∨ requestResult _ = y.2
    rw [hx.2]
    simp only [Nat.zero_add, requestResult, countOrError]
    split
    · split
      · omega
      · omega
    · omega
  · exact fun _ h => h

end Walk

/-! ## The sinks of the agent -/

theorem wp_writeRecord (r : AgentRecord) (insert : Agent ℤ) (w : AgentWorld) :
    Prog.wp (writeRecord r insert) (fun rc _ => rc = 0) (fun _ => True) w := by
  rw [writeRecord, Prog.wp_bind]
  apply Prog.wp_mono (Prog.wp_true _ w)
  · intro inserted w' _
    cases inserted with
    | true => rfl
    | false =>
        simp only [Bool.false_eq_true, if_false, Prog.wp_bind]
        apply Prog.wp_mono (Prog.wp_true _ w')
        · intro _ w₁ _
          apply Prog.wp_mono (Prog.wp_true _ w₁)
          · intro _ w₂ _
            apply Prog.wp_mono (Prog.wp_true _ w₂)
            · exact fun _ _ _ => rfl
            · exact fun _ h => h
          · exact fun _ h => h
        · exact fun _ h => h
  · exact fun _ h => h

theorem neverStops_spanSink : NeverStops spanSink := by
  intro span w
  rw [spanSink]
  split
  · exact rfl
  · exact wp_writeRecord _ _ w

theorem neverStops_otelMetricSink : NeverStops otelMetricSink := by
  intro point w
  rw [otelMetricSink]
  split
  · exact rfl
  · exact wp_writeRecord _ _ w

/-! ## Rejection -/

theorem wp_handleProcmetrics (body after : Bytes) (w : AgentWorld) :
    Prog.wp (handleProcmetrics body after) (fun rc w' => rc ≠ 0 → w' = w) (fun _ => True) w := by
  rw [handleProcmetrics]
  split
  · exact fun _ => rfl
  · split
    · exact fun _ => rfl
    · apply Prog.wp_mono (wp_writeRecord _ _ w)
      · exact fun rc _ hrc hne => absurd hrc hne
      · exact fun _ h => h

/-- Any request that is answered with an error leaves the agent as it was: nothing inserted,
nothing spilled, the flag unchanged. -/
theorem wp_onRequest (req : HttpRequest) (w : AgentWorld) :
    Prog.wp (onRequest req) (fun rc w' => rc ≠ 0 → w' = w) (fun _ => True) w := by
  have hresult {m : Agent ℤ} (h : Prog.wp m (fun n w' => n < 0 → w' = w) (fun _ => True) w) :
      Prog.wp (do let n ← m; if n < 0 then return -1 else return 0)
        (fun rc w' => rc ≠ 0 → w' = w) (fun _ => True) w := by
    rw [Prog.wp_bind]
    apply Prog.wp_mono h
    · intro n w' hn
      by_cases hneg : n < 0
      · rw [if_pos hneg]
        exact fun _ => hn hneg
      · rw [if_neg hneg]
        exact fun hne => absurd rfl hne
    · exact fun _ h => h
  rw [onRequest]
  split
  · exact wp_handleProcmetrics _ _ w
  · split
    · exact hresult (wp_decodeRequest (decodeMetric_eq _) neverStops_otelMetricSink _ w)
    · split
      · exact fun hne => absurd rfl hne
      · exact hresult (wp_decodeRequest (spanItem_eq _) neverStops_spanSink _ w)

/-- Rejection is atomic, and the counts of the decoders are those of the sinks. -/
theorem onRequest_atomic (req : HttpRequest) (data : Bytes) (w : AgentWorld) :
    Prog.wp (onRequest req) (fun rc w' => rc ≠ 0 → w' = w) (fun _ => True) w ∧
      Prog.wp (otlpDecodeTraces (counted spanSink) data)
        (fun n x => n = -1 ∧ x.2 = 0 ∨ n = x.2) (fun _ => True) (w, 0) ∧
      Prog.wp (otlpDecodeMetrics (counted otelMetricSink) data)
        (fun n x => n = -1 ∧ x.2 = 0 ∨ n = x.2) (fun _ => True) (w, 0) :=
  ⟨wp_onRequest req w, wp_decodeRequest_counted (spanItem_eq _) neverStops_spanSink data w,
    wp_decodeRequest_counted (decodeMetric_eq _) neverStops_otelMetricSink data w⟩

end ProcWatch

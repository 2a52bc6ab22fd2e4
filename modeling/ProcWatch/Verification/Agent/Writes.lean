import ProcWatch.Library.Sinks
import ProcWatch.Model.AgentRequests
import ProcWatch.Verification.Agent.Service
import ProcWatch.Verification.Otlp.Emitted

/-! # A request as a list of writes -/

namespace ProcWatch

open CLib Otlp

/-! ## Writing -/

/-- Insert the record, or else go offline and spill it. -/
def AgentRecord.put (r : AgentRecord) : Agent Unit := do
  if ← tryInsert r.label.val (insertKind r.kind r.label.val r.vals) then return ()
  else
    markOffline
    let w ← Prog.get
    let _ ← pwDbBufSpill (r.line w.user.schema)

theorem write_eq_put (r : AgentRecord) : r.write = r.put >>= fun _ => return 0 := by
  rw [write_eq, writeRecord, AgentRecord.put, Prog.bind_assoc]
  congr 1
  funext inserted
  cases inserted with
  | true => rfl
  | false =>
      simp only [Bool.false_eq_true, if_false]
      rw [Prog.bind_assoc]
      congr 1
      funext _
      rw [Prog.bind_assoc]
      congr 1
      funext w
      rw [Prog.bind_assoc]
      rfl

def writeAll : List AgentRecord → Agent Unit :=
  forEach AgentRecord.put

/-! ## The records of a request -/

/-- Whether the sinks take the record. -/
def AgentRecord.labeled (r : AgentRecord) : Bool :=
  validateIdentifier r.label.val

/-- The records that a request hands to the writers. -/
def HttpRequest.records (req : HttpRequest) : List AgentRecord :=
  match req.signal with
  | .procmetrics =>
      let label := strBuf req.body req.after "label" 100 []
      if (jsonStr req.body req.after (bytes "label") 100 []).1 && validateIdentifier label.val then
        [.metric (procMetricOf req.body req.after label)]
      else []
  | .metrics =>
      ((emitted otlpDecodeMetrics req.body).map AgentRecord.otelMetric).filter AgentRecord.labeled
  | .traces => ((emitted otlpDecodeTraces req.body).map AgentRecord.span).filter AgentRecord.labeled
  | _ => []

/-- Only a valid label gets past the checks of a sink. -/
theorem unlabeled_iff (label : CStr 100) :
    (label.val = [] ∨ (!validateIdentifier label.val) = true) ↔
      validateIdentifier label.val = false := by
  rw [Bool.not_eq_true', or_iff_right_of_imp]
  intro h
  rw [h]
  rfl

/-- What a sink does with a record. -/
def AgentRecord.sunk (r : AgentRecord) : Agent Unit :=
  if r.labeled then r.put else return ()

theorem AgentRecord.sunk_eq (r : AgentRecord) {m : Agent ℤ} (hm : m = r.write) :
    (if r.label.val = [] ∨ (!validateIdentifier r.label.val) = true then return 0 else m) =
      r.sunk >>= fun _ => return 0 := by
  rw [if_congr (unlabeled_iff r.label) rfl rfl, hm, write_eq_put, sunk, labeled]
  cases validateIdentifier r.label.val with
  | true => rfl
  | false => rfl

theorem takes_spanSink : Takes spanSink fun s => (AgentRecord.span s).sunk := fun s =>
  AgentRecord.sunk_eq (.span s) rfl

theorem takes_otelMetricSink : Takes otelMetricSink fun p => (AgentRecord.otelMetric p).sunk :=
  fun p => AgentRecord.sunk_eq (.otelMetric p) rfl

theorem forEach_sunk (rs : List AgentRecord) :
    forEach AgentRecord.sunk rs = writeAll (rs.filter AgentRecord.labeled) := by
  rw [writeAll]
  induction rs with
  | nil => rfl
  | cons r rs ih =>
      rw [forEach, AgentRecord.sunk, ih]
      cases hr : r.labeled with
      | true =>
          rw [List.filter_cons_of_pos hr, forEach]
          rfl
      | false =>
          rw [List.filter_cons_of_neg (by simp [hr])]
          rfl

/-- A payload comes down to writing the labeled ones of its records. -/
theorem decodeRequest_sunk {α C : Type} {ops : WalkContext C} {read : Bytes → C → Emission α}
    {sink : α → Agent ℤ} {item : ItemDecoder AgentWorld C}
    (hitem : ∀ r ctx count, item r ctx count = (read r ctx).run sink count)
    (record : α → AgentRecord) (hsink : Takes sink fun a => (record a).sunk) (data : Bytes) :
    ∃ n, decodeRequest ops item data =
      writeAll (((itemsOf loopEnd ops read data).items.map record).filter AgentRecord.labeled) >>=
        fun _ => return n := by
  let e := itemsOf loopEnd ops read data
  refine ⟨requestResult (if e.ok then 0 else -1, e.items.length), ?_⟩
  rw [decodeRequest_eq hitem, hsink.run_eq, ← forEach_map, forEach_sunk, Prog.bind_assoc]
  rfl

/-- A request comes down to writing its records, and to an answer that it alone decides. -/
theorem onRequest_eq (req : HttpRequest) :
    ∃ rc, onRequest req = writeAll req.records >>= fun _ => return rc := by
  have hresult {m : Agent ℤ} {rs : List AgentRecord}
      (h : ∃ n, m = writeAll rs >>= fun _ => return n) :
      ∃ rc, (m >>= fun n => if n < 0 then return -1 else return 0 : Agent ℤ) =
        writeAll rs >>= fun _ => return rc := by
    obtain ⟨n, rfl⟩ := h
    refine ⟨if n < 0 then -1 else 0, ?_⟩
    rw [Prog.bind_assoc]
    congr 1
    funext _
    rw [Prog.pure_bind]
    split
    · rfl
    · rfl
  rw [onRequest, HttpRequest.records]
  cases req.signal with
  | procmetrics =>
      rw [if_pos rfl, handleProcmetrics]
      dsimp only
      cases (jsonStr req.body req.after (bytes "label") 100 []).1 with
      | false => exact ⟨-1, rfl⟩
      | true =>
          cases validateIdentifier (strBuf req.body req.after "label" 100 []).val with
          | false => exact ⟨-1, rfl⟩
          | true =>
              refine ⟨0, (write_eq_put (.metric _)).trans ?_⟩
              rw [Bool.and_self, if_pos rfl, writeAll, forEach, forEach, Prog.bind_assoc]
              rfl
  | metrics =>
      rw [if_neg (by decide), if_pos rfl, emitted_metrics]
      exact hresult (decodeRequest_sunk (decodeMetric_eq _) _ takes_otelMetricSink _)
  | traces =>
      rw [if_neg (by decide), if_neg (by decide), if_neg (by decide), emitted_traces]
      exact hresult (decodeRequest_sunk (spanItem_eq _) _ takes_spanSink _)
  | logs => exact ⟨0, rfl⟩
  | unknown => exact ⟨0, rfl⟩

end ProcWatch

import ProcWatch.Model.OtlpMetric
import ProcWatch.Verification.Otlp.RoundTrip

/-! # Metrics: decoding undoes encoding -/

namespace ProcWatch

open CLib Wire

namespace Otlp

/-! ## Metrics as trees

A metric has at most one container of data points. Containers of other kinds than these three
are fields like any other that the decoder skips.
-/

inductive Number where
  | unset
  | double (bits : UInt64)
  | int (n : Int64)

structure NumberPoint where
  timeNs : UInt64
  value : Number

structure HistogramPoint where
  timeNs : UInt64
  count : UInt64
  sum : UInt64

inductive MetricData where
  | other
  | gauge (points : List NumberPoint)
  | sum (points : List NumberPoint)
  | histogram (points : List HistogramPoint)

structure Metric where
  name : Bytes
  description : Bytes
  unit : Bytes
  data : MetricData

/-- The fields that may hold the number of a point. -/
def IsNumber (f : Field) : Prop :=
  f.number = 4 ∨ f.number = 6

instance : DecidablePred IsNumber :=
  fun f => inferInstanceAs (Decidable (f.number = 4 ∨ f.number = 6))

/-- The fields that may hold the data points of a metric. -/
def IsData (f : Field) : Prop :=
  f.number = 5 ∨ f.number = 7 ∨ f.number = 9

instance : DecidablePred IsData :=
  fun f => inferInstanceAs (Decidable (f.number = 5 ∨ f.number = 7 ∨ f.number = 9))

def Number.fields : Number → List Field
  | .unset => []
  | .double bits => [⟨4, .fixed64 bits⟩]
  | .int n => [⟨6, .fixed64 n.toUInt64⟩]

/-- The fields of a point, in any order and among any others. -/
structure EncodesNumberPoint (fs : List Field) (p : NumberPoint) : Prop where
  valid : ∀ f ∈ fs, f.Valid
  timeNs : Single fs 3 (.fixed64 p.timeNs) (.fixed64 0)
  value : fs.filter IsNumber = p.value.fields

structure EncodesHistogramPoint (fs : List Field) (p : HistogramPoint) : Prop where
  valid : ∀ f ∈ fs, f.Valid
  timeNs : Single fs 3 (.fixed64 p.timeNs) (.fixed64 0)
  count : Single fs 4 (.fixed64 p.count) (.fixed64 0)
  sum : Single fs 5 (.fixed64 p.sum) (.fixed64 0)

/-- A container whose points are in fields of number 1. -/
structure EncodesPoints {π : Type} (point : List Field → π → Prop) (fs : List Field) (ps : List π) :
    Prop where
  valid : ∀ f ∈ fs, f.Valid
  points : ∃ ms, List.Forall₂ point ms ps ∧ numbered 1 fs = submessages 1 ms

/-- The data of a metric, in at most one of the containers. -/
inductive EncodesData : List Field → MetricData → Prop where
  | other : EncodesData [] .other
  | gauge {fs : List Field} {ps : List NumberPoint} (h : EncodesPoints EncodesNumberPoint fs ps) :
      EncodesData [⟨5, .bytes (encode fs)⟩] (.gauge ps)
  | sum {fs : List Field} {ps : List NumberPoint} (h : EncodesPoints EncodesNumberPoint fs ps) :
      EncodesData [⟨7, .bytes (encode fs)⟩] (.sum ps)
  | histogram {fs : List Field} {ps : List HistogramPoint}
      (h : EncodesPoints EncodesHistogramPoint fs ps) :
      EncodesData [⟨9, .bytes (encode fs)⟩] (.histogram ps)

structure EncodesMetric (fs : List Field) (m : Metric) : Prop where
  valid : ∀ f ∈ fs, f.Valid
  name : Single fs 1 (.bytes m.name) (.bytes [])
  description : Single fs 2 (.bytes m.description) (.bytes [])
  unit : Single fs 3 (.bytes m.unit) (.bytes [])
  data : EncodesData (fs.filter IsData) m.data

structure Metric.Fits (m : Metric) : Prop where
  named : m.name ≠ []
  name : FitsIn 256 m.name
  description : FitsIn 256 m.description
  unit : FitsIn 64 m.unit

/-! ## What is stored of a point -/

/-- The text and numbers of a `pw_metric_point_t`, but for its attributes. -/
structure MetricRow where
  label : Bytes
  serviceName : Bytes
  scopeName : Bytes
  pidKey : Bytes
  metricName : Bytes
  description : Bytes
  unit : Bytes
  metricType : Option Bytes
  value : Double
  count : Int64
  timeNs : UInt64
  deriving DecidableEq

/-- What a point has from its resource and its scope. -/
structure Origin where
  label : Bytes
  serviceName : Bytes
  scopeName : Bytes
  pidKey : Bytes

def Number.value : Number → Double
  | .unset => ⟨0⟩
  | .double bits => ⟨bits⟩
  | .int n => Double.ofInt n.toInt

def Metric.row (o : Origin) (m : Metric) (kind : Bytes) (value : Double) (count : Int64)
    (timeNs : UInt64) : MetricRow where
  label := o.label
  serviceName := o.serviceName
  scopeName := o.scopeName
  pidKey := o.pidKey
  metricName := m.name
  description := m.description
  unit := m.unit
  metricType := some kind
  value := value
  count := count
  timeNs := timeNs

def Metric.numberRow (o : Origin) (m : Metric) (kind : Bytes) (p : NumberPoint) : MetricRow :=
  m.row o kind p.value.value 1 p.timeNs

def Metric.histogramRow (o : Origin) (m : Metric) (p : HistogramPoint) : MetricRow :=
  m.row o (CLib.bytes "histogram") ⟨p.sum⟩ p.count.toInt64 p.timeNs

/-- One row for each data point. -/
def Metric.rows (o : Origin) (m : Metric) : List MetricRow :=
  match m.data with
  | .other => []
  | .gauge ps => ps.map (m.numberRow o (CLib.bytes "gauge"))
  | .sum ps => ps.map (m.numberRow o (CLib.bytes "sum"))
  | .histogram ps => ps.map (m.histogramRow o)

end Otlp

def MetricPoint.row (p : MetricPoint) : Otlp.MetricRow where
  label := p.label.val
  serviceName := p.serviceName.val
  scopeName := p.scopeName.val
  pidKey := p.pidKey.val
  metricName := p.metricName.val
  description := p.description.val
  unit := p.unit.val
  metricType := p.metricType.map CStr.val
  value := p.value
  count := p.count
  timeNs := p.timeNs

namespace Otlp

/-! ## One data point -/

/-- The number of a point after a field that may hold it. -/
def numberStep (v : Double) (f : Field) : Double :=
  match f with
  | ⟨4, .fixed64 bits⟩ => ⟨bits⟩
  | ⟨6, .fixed64 bits⟩ => Double.ofInt bits.toInt64.toInt
  | _ => v

theorem numberPointStep_eq (s : MetricPoint × ProcWatch.Attrs 2048) (f : Field) :
    numberPointStep s f = ({ s.1 with
      timeNs := onField 3 (setFixed64 id) s.1.timeNs f
      value := if IsNumber f then numberStep s.1.value f else s.1.value },
      onField 7 (fun a p => setBytes (fun kv => decodePointAttrs kv a) a p) s.2 f) := by
  unfold numberPointStep
  split
  case h_5 =>
    obtain ⟨n, v | v | b | v⟩ := f <;>
      simp_all [onField, setBytes, setFixed64, numberStep]
  all_goals simp [onField, setBytes, setFixed64, IsNumber, numberStep]

theorem histogramPointStep_eq (s : MetricPoint × ProcWatch.Attrs 2048) (f : Field) :
    histogramPointStep s f = ({ s.1 with
      timeNs := onField 3 (setFixed64 id) s.1.timeNs f
      count := onField 4 (setFixed64 UInt64.toInt64) s.1.count f
      value := onField 5 (setFixed64 Double.mk) s.1.value f },
      onField 9 (fun a p => setBytes (fun kv => decodePointAttrs kv a) a p) s.2 f) := by
  unfold histogramPointStep
  split
  case h_5 => obtain ⟨n, v | v | b | v⟩ := f <;> simp_all [onField, setBytes, setFixed64]
  all_goals rfl

/-- The point that comes of an encoding: what it started from, with its own time and number. -/
theorem readPointMessage_number {fs : List Field} {p : NumberPoint} (h : EncodesNumberPoint fs p)
    (hlen : (encode fs).length < 2 ^ 64) (point : MetricPoint) (hvalue : point.value = ⟨0⟩)
    (htime : point.timeNs = 0) :
    ∃ pt, readPointMessage numberPointStep point (encode fs) = some pt ∧
      pt.row = { point.row with value := p.value.value, timeNs := p.timeNs } := by
  rw [readPointMessage, pbFields_encode h.valid hlen]
  refine ⟨_, rfl, ?_⟩
  generalize hs : fs.foldl numberPointStep (point, Attrs.init 2048) = t
  have htimeNs : t.1.timeNs = p.timeNs := by
    rw [← hs]
    exact foldl_single numberPointStep (·.1.timeNs) (fun s f => by rw [numberPointStep_eq])
      (point, Attrs.init 2048) h.timeNs htime.symm
  have hnumber : t.1.value = p.value.value := by
    rw [← hs]
    refine (foldl_filter numberPointStep (·.1.value) IsNumber numberStep
      (fun s f => by rw [numberPointStep_eq]) (point, Attrs.init 2048) fs).trans ?_
    rw [h.value]
    cases p.value with
    | unset => exact hvalue
    | double bits => rfl
    | int n => simp [Number.fields, Number.value, numberStep]
  have hrest : { t.1 with value := ⟨0⟩, timeNs := 0 } = { point with value := ⟨0⟩, timeNs := 0 } := by
    rw [← hs]
    exact foldl_unchanged numberPointStep (fun s => { s.1 with value := ⟨0⟩, timeNs := 0 })
      (fun s f => by rw [numberPointStep_eq]) (point, Attrs.init 2048) fs
  rw [← hnumber, ← htimeNs]
  exact congrArg (fun p : MetricPoint => { p.row with value := t.1.value, timeNs := t.1.timeNs })
    hrest

theorem readPointMessage_histogram {fs : List Field} {p : HistogramPoint}
    (h : EncodesHistogramPoint fs p) (hlen : (encode fs).length < 2 ^ 64) (point : MetricPoint)
    (hvalue : point.value = ⟨0⟩) (hcount : point.count = 0) (htime : point.timeNs = 0) :
    ∃ pt, readPointMessage histogramPointStep point (encode fs) = some pt ∧
      pt.row = { point.row with value := ⟨p.sum⟩, count := p.count.toInt64, timeNs := p.timeNs } := by
  rw [readPointMessage, pbFields_encode h.valid hlen]
  refine ⟨_, rfl, ?_⟩
  generalize hs : fs.foldl histogramPointStep (point, Attrs.init 2048) = t
  have htimeNs : t.1.timeNs = p.timeNs := by
    rw [← hs]
    exact foldl_single histogramPointStep (·.1.timeNs) (fun s f => by rw [histogramPointStep_eq])
      (point, Attrs.init 2048) h.timeNs htime.symm
  have hcounts : t.1.count = p.count.toInt64 := by
    rw [← hs]
    exact foldl_single histogramPointStep (·.1.count) (fun s f => by rw [histogramPointStep_eq])
      (point, Attrs.init 2048) h.count hcount.symm
  have hsum : t.1.value = ⟨p.sum⟩ := by
    rw [← hs]
    exact foldl_single histogramPointStep (·.1.value) (fun s f => by rw [histogramPointStep_eq])
      (point, Attrs.init 2048) h.sum hvalue.symm
  have hrest : { t.1 with value := ⟨0⟩, count := 0, timeNs := 0 } =
      { point with value := ⟨0⟩, count := 0, timeNs := 0 } := by
    rw [← hs]
    exact foldl_unchanged histogramPointStep
      (fun s => { s.1 with value := ⟨0⟩, count := 0, timeNs := 0 })
      (fun s f => by rw [histogramPointStep_eq]) (point, Attrs.init 2048) fs
  rw [← hsum, ← hcounts, ← htimeNs]
  exact congrArg (fun p : MetricPoint =>
    { p.row with value := t.1.value, count := t.1.count, timeNs := t.1.timeNs }) hrest

/-! ## The points of a metric -/

section Items

/-- The reader of the points in a container of this kind. -/
def readPoint (ctx : MetricContext) (m : MetricLocals) (kind : Container) (r : Bytes) :
    Option MetricPoint :=
  readPointMessage (if kind = .histogram then histogramPointStep else numberPointStep)
    (MetricPoint.init ctx m kind) r

def metricStart : MetricLocals :=
  ⟨CStr.copy 256 [], CStr.copy 256 [], CStr.copy 64 [], []⟩

section Generic

variable {α : Type} (closing : Ending → Emission α)

/-- The items of containers, given those of a point. -/
def containersItems (point : Container → Bytes → Emission α) :
    List (Container × Bytes) → Emission α
  | [] => .nothing
  | (kind, r) :: pending =>
      (fieldItems closing (point kind) (pbFields r).2 (pbFields r).1).andThen
        (containersItems point pending)

/-- The items of a metric, whose points are read with what else it says. -/
def itemsOfMetric (point : MetricLocals → Container → Bytes → Emission α) (r : Bytes) :
    Emission α :=
  let m := (pbFields r).1.foldl metricStep metricStart
  (closing (pbFields r).2).andThen
    (if m.name.val = [] then .nothing else containersItems closing (point m) m.pending)

end Generic

/-- The points that `decode_metric` hands over. -/
def readMetric (r : Bytes) (ctx : MetricContext) : Emission MetricPoint :=
  itemsOfMetric loopEnd (fun m kind r => .ofOption (readPoint ctx m kind r)) r

variable {W : Type} (sink : MetricPoint → Prog W ℤ)

theorem containerLoop_eq (read : Bytes → Option MetricPoint) (point : Bytes → Prog W ℤ)
    (hpoint : ∀ r, point r = (read r).elim (return -1) sink) (ending : Ending) (fields : List Field)
    (count : ℕ) :
    containerLoop point ending fields count =
      (fieldItems loopEnd (fun r => .ofOption (read r)) ending fields).run sink count := by
  induction fields generalizing count with
  | nil =>
      funext w
      cases ending <;> rfl
  | cons f fields ih =>
      cases fieldCase f with
      | first r =>
          simp only [containerLoop, fieldItems]
          rw [Emission.run_andThen, Emission.run_ofOption, chain_bind, hpoint]
          simp only [chain_ite, chain_of_ne_zero (by decide : (-1 : ℤ) ≠ 0),
            chain_of_ne_zero (by decide : (1 : ℤ) ≠ 0), chain_zero, ih]
      | second b => exact ih count
      | other hfirst hsecond =>
          simp only [containerLoop, fieldItems]
          exact ih count

theorem decodePoint_eq (step : MetricPoint × Attrs 2048 → Field → MetricPoint × Attrs 2048)
    (point : MetricPoint) (r : Bytes) :
    decodePoint step sink point r = (readPointMessage step point r).elim (return -1) sink := by
  rw [decodePoint]
  cases readPointMessage step point r <;> rfl

theorem containersLoop_eq (ctx : MetricContext) (m : MetricLocals)
    (pending : List (Container × Bytes)) (count : ℕ) :
    containersLoop sink ctx m pending count =
      (containersItems loopEnd (fun kind r => .ofOption (readPoint ctx m kind r)) pending).run
        sink count := by
  induction pending generalizing count with
  | nil => rfl
  | cons p pending ih =>
      obtain ⟨kind, r⟩ := p
      have hpoint (r : Bytes) : (if kind = .histogram then decodeHistogramPoint sink ctx m
          else decodeNumberPoint sink ctx m kind) r =
          (readPoint ctx m kind r).elim (return -1) sink := by
        by_cases hkind : kind = .histogram
        · rw [if_pos hkind, readPoint, if_pos hkind, decodeHistogramPoint, decodePoint_eq, hkind]
        · rw [if_neg hkind, readPoint, if_neg hkind, decodeNumberPoint, decodePoint_eq]
      rw [containersLoop, containersItems, Emission.run_andThen,
        containerLoop_eq sink (readPoint ctx m kind) _ hpoint]
      simp only [chain, ih]

theorem decodeMetric_eq (r : Bytes) (ctx : MetricContext) (count : ℕ) :
    decodeMetric sink r ctx count = (readMetric r ctx).run sink count := by
  rw [decodeMetric, readMetric, itemsOfMetric, ← metricStart]
  simp only [containersLoop_eq]
  cases (pbFields r).2 with
  | badValue => rfl
  | atEnd =>
      simp only [reduceCtorEq, if_false]
      split <;> rfl
  | malformedTag =>
      simp only [reduceCtorEq, if_false]
      split <;> rfl

end Items

/-! ## One metric -/

/-- The containers put off, after a field that may hold one. -/
def dataStep (pending : List (Container × Bytes)) (f : Field) : List (Container × Bytes) :=
  match f with
  | ⟨5, .bytes r⟩ => if pending.length < PENDING_CONTAINERS then pending ++ [(.gauge, r)] else pending
  | ⟨7, .bytes r⟩ => if pending.length < PENDING_CONTAINERS then pending ++ [(.sum, r)] else pending
  | ⟨9, .bytes r⟩ =>
      if pending.length < PENDING_CONTAINERS then pending ++ [(.histogram, r)] else pending
  | _ => pending

theorem push_eq (m : MetricLocals) (kind : Container) (r : Bytes) :
    m.push kind r = { m with pending :=
      if m.pending.length < PENDING_CONTAINERS then m.pending ++ [(kind, r)] else m.pending } := by
  rw [MetricLocals.push]
  split <;> rfl

theorem metricStep_eq (m : MetricLocals) (f : Field) :
    metricStep m f = {
      name := onField 1 (setBytes (pwCopyStr 256)) m.name f
      description := onField 2 (setBytes (pwCopyStr 256)) m.description f
      unit := onField 3 (setBytes (pwCopyStr 64)) m.unit f
      pending := if IsData f then dataStep m.pending f else m.pending } := by
  unfold metricStep
  split
  case h_7 =>
    obtain ⟨n, v | v | b | v⟩ := f <;> simp_all [onField, setBytes, dataStep]
  all_goals simp [push_eq, onField, setBytes, IsData, dataStep]

/-- The locals of `decode_metric` behind its first loop. -/
theorem foldl_metricStep {fs : List Field} {m : Metric} (h : EncodesMetric fs m) :
    fs.foldl metricStep metricStart = {
      name := pwCopyStr 256 m.name
      description := pwCopyStr 256 m.description
      unit := pwCopyStr 64 m.unit
      pending := (fs.filter IsData).foldl dataStep [] } := by
  have hname := foldl_single metricStep (·.name) (fun s f => by rw [metricStep_eq]) metricStart
    h.name rfl
  have hdescription := foldl_single metricStep (·.description) (fun s f => by rw [metricStep_eq])
    metricStart h.description rfl
  have hunit := foldl_single metricStep (·.unit) (fun s f => by rw [metricStep_eq]) metricStart
    h.unit rfl
  have hpending := foldl_filter metricStep (·.pending) IsData dataStep
    (fun s f => by rw [metricStep_eq]) metricStart fs
  generalize fs.foldl metricStep metricStart = t at *
  obtain ⟨name, description, unit, pending⟩ := t
  simp only [setBytes] at hname hdescription hunit hpending
  rw [hname, hdescription, hunit, hpending]
  rfl

theorem emits_points {π : Type} {point : List Field → π → Prop} {read : Bytes → Option MetricPoint}
    {prow : π → MetricRow}
    (hread : ∀ g p, point g p → (encode g).length < 2 ^ 64 →
      ∃ pt, read (encode g) = some pt ∧ pt.row = prow p)
    {fs : List Field} {ps : List π} (h : EncodesPoints point fs ps)
    (hlen : (encode fs).length < 2 ^ 64) :
    Emits MetricPoint.row (fieldItems loopEnd (fun r => .ofOption (read r)) (pbFields (encode fs)).2
      (pbFields (encode fs)).1) (ps.map prow) := by
  obtain ⟨ms, hms, hnum⟩ := h.points
  have hlens := length_resource hnum hlen
  rw [pbFields_encode h.valid hlen, ← fieldItems_numbered, hnum]
  clear hnum h
  induction hms with
  | nil => exact ⟨rfl, rfl⟩
  | @cons g p ms ps hp _ ih =>
      obtain ⟨pt, hpt, hrow⟩ := hread g p hp (hlens g (by simp))
      have hhead : Emits MetricPoint.row (.ofOption (read (encode g))) [prow p] := by
        rw [hpt]
        exact ⟨rfl, congrArg ([·]) hrow⟩
      exact hhead.andThen (ih fun g hg => hlens g (by simp [hg]))

theorem Emits.andThen_nothing {e : Emission MetricPoint} {rs : List MetricRow}
    (h : Emits MetricPoint.row e rs) : Emits MetricPoint.row (e.andThen .nothing) rs := by
  have hnil : Emits MetricPoint.row Emission.nothing [] := ⟨rfl, rfl⟩
  simpa using h.andThen hnil

/-- The names and the label that the context gives a point. -/
def originOf (c : MetricContext) : Origin :=
  ⟨c.label.val, c.serviceName.val, c.scopeName.val, c.pidKey.val⟩

def metricRowsIn (c : MetricContext) (m : Metric) : List MetricRow :=
  m.rows (originOf c)

theorem readPoint_number {c : MetricContext} {m : Metric} (hfits : m.Fits)
    (pending : List (Container × Bytes)) {kind : Container} (hkind : kind ≠ .histogram) {g : List Field}
    {p : NumberPoint} (hp : EncodesNumberPoint g p) (hlen : (encode g).length < 2 ^ 64) :
    ∃ pt, readPoint c ⟨pwCopyStr 256 m.name, pwCopyStr 256 m.description, pwCopyStr 64 m.unit,
        pending⟩ kind (encode g) = some pt ∧
      pt.row = m.numberRow (originOf c) kind.name.val p := by
  obtain ⟨pt, hpt, hrow⟩ := readPointMessage_number hp hlen
    (MetricPoint.init c ⟨pwCopyStr 256 m.name, pwCopyStr 256 m.description,
      pwCopyStr 64 m.unit, pending⟩ kind) rfl rfl
  refine ⟨pt, ?_, ?_⟩
  · rw [readPoint, if_neg hkind, hpt]
  · rw [hrow, Metric.numberRow, Metric.row, MetricPoint.row, MetricPoint.init, if_neg hkind]
    simp only [pwCopyStr_val_of_fits hfits.name, pwCopyStr_val_of_fits hfits.description,
      pwCopyStr_val_of_fits hfits.unit, Option.map_some, originOf]

theorem readPoint_histogram {c : MetricContext} {m : Metric} (hfits : m.Fits)
    (pending : List (Container × Bytes)) {g : List Field} {p : HistogramPoint}
    (hp : EncodesHistogramPoint g p) (hlen : (encode g).length < 2 ^ 64) :
    ∃ pt, readPoint c ⟨pwCopyStr 256 m.name, pwCopyStr 256 m.description, pwCopyStr 64 m.unit,
        pending⟩ .histogram (encode g) = some pt ∧ pt.row = m.histogramRow (originOf c) p := by
  obtain ⟨pt, hpt, hrow⟩ := readPointMessage_histogram hp hlen
    (MetricPoint.init c ⟨pwCopyStr 256 m.name, pwCopyStr 256 m.description,
      pwCopyStr 64 m.unit, pending⟩ .histogram) rfl rfl rfl
  refine ⟨pt, ?_, ?_⟩
  · rw [readPoint, if_pos rfl, hpt]
  · have hkind : Container.histogram.name.val = CLib.bytes "histogram" := by decide
    rw [hrow, Metric.histogramRow, Metric.row, MetricPoint.row, MetricPoint.init]
    simp only [pwCopyStr_val_of_fits hfits.name, pwCopyStr_val_of_fits hfits.description,
      pwCopyStr_val_of_fits hfits.unit, Option.map_some, originOf, hkind]

theorem emits_metric {fs : List Field} {m : Metric} (h : EncodesMetric fs m) (hfits : m.Fits)
    (hlen : (encode fs).length < 2 ^ 64) (c : MetricContext) :
    Emits MetricPoint.row (readMetric (encode fs) c) (metricRowsIn c m) := by
  have hnamed : (pwCopyStr 256 m.name).val ≠ [] := by
    rw [pwCopyStr_val_of_fits hfits.name]
    exact hfits.named
  have hsub {n : ℕ} {g : List Field} (hg : fs.filter IsData = [⟨n, .bytes (encode g)⟩]) :
      (encode g).length < 2 ^ 64 := by
    apply length_submessage (n := n) _ hlen
    exact List.mem_of_mem_filter (hg ▸ List.mem_singleton_self _)
  rw [readMetric, itemsOfMetric, pbFields_encode h.valid hlen]
  simp only [foldl_metricStep h, if_neg hnamed]
  obtain ⟨name, description, unit, data⟩ := m
  have hdata := h.data
  generalize hfs : fs.filter IsData = ds at hdata
  cases hdata with
  | other => exact ⟨rfl, rfl⟩
  | gauge hps =>
      exact (emits_points (fun g p hp hg => readPoint_number hfits _ (by decide) hp hg) hps
        (hsub hfs)).andThen_nothing
  | sum hps =>
      exact (emits_points (fun g p hp hg => readPoint_number hfits _ (by decide) hp hg) hps
        (hsub hfs)).andThen_nothing
  | histogram hps =>
      exact (emits_points (fun g p hp hg => readPoint_histogram hfits _ hp hg) hps
        (hsub hfs)).andThen_nothing

/-! ## Requests -/

/-- The strings of a resource, of its scopes and of their metrics fit. -/
structure FitsMetrics (r : Resource Metric) : Prop extends r.Fits Metric.Fits where
  pidKey : ∀ s, (bytes "procwatch.pid_key", AnyValue.str s) ∈ r.attributes → FitsIn 64 s

def Resource.pidKey {ι : Type} (r : Resource ι) : Bytes :=
  (stringAttribute (CLib.bytes "procwatch.pid_key") r.attributes).getD []

/-- The rows of a resource: those of the points of its metrics, each with the name of its
scope. -/
def Resource.metricRows (r : Resource Metric) : List MetricRow :=
  r.scopes.flatMap fun s => s.items.flatMap (Metric.rows ⟨r.label, r.serviceName, s.name, r.pidKey⟩)

theorem readsMetrics :
    ReadsItems metricContext readMetric EncodesMetric MetricPoint.row Metric.Fits metricRowsIn where
  mapScopeName _ _ _ := rfl
  reads _ _ c henc hfits hlen := emits_metric henc hfits hlen c

theorem metricAttribute_serviceName (k value : Bytes) (c : MetricContext) :
    (metricAttribute k value c).serviceName =
      if k = bytes "service.name" then (pwAnyValueAsString 256 value).getD c.serviceName
      else c.serviceName := by
  by_cases hk : k = bytes "service.name"
  · rw [metricAttribute, if_pos hk, if_pos hk]
  · rw [metricAttribute, if_neg hk, if_neg hk]
    split
    · rfl
    · split <;> rfl

theorem metricAttribute_label (k value : Bytes) (c : MetricContext) :
    (metricAttribute k value c).label =
      if k = bytes "procwatch.label" then (pwAnyValueAsString 100 value).getD c.label
      else c.label := by
  by_cases hk : k = bytes "procwatch.label"
  · have hne : k ≠ bytes "service.name" := by
      rw [hk]
      decide
    rw [metricAttribute, if_neg hne, if_pos hk, if_pos hk]
  · rw [metricAttribute, if_neg hk, if_neg hk]
    split
    · rfl
    · split <;> rfl

theorem metricAttribute_pidKey (k value : Bytes) (c : MetricContext) :
    (metricAttribute k value c).pidKey =
      if k = bytes "procwatch.pid_key" then (pwAnyValueAsString 64 value).getD c.pidKey
      else c.pidKey := by
  by_cases hk : k = bytes "procwatch.pid_key"
  · have hservice : k ≠ bytes "service.name" := by
      rw [hk]
      decide
    have hlabel : k ≠ bytes "procwatch.label" := by
      rw [hk]
      decide
    rw [metricAttribute, if_neg hservice, if_neg hlabel, if_pos hk, if_pos hk]
  · rw [metricAttribute, if_neg hk, if_neg hk]
    split
    · rfl
    · split <;> rfl

theorem rows_metricContext {r : Resource Metric} (hfits : FitsMetrics r)
    (hlen : ∀ kv ∈ r.attributes, (encode kv.2.fields).length < 2 ^ 64) :
    r.rows metricContext metricRowsIn = r.metricRows := by
  have hservice : (attributesContext metricContext r.attributes).serviceName.val = r.serviceName :=
    attributesContext_string MetricContext.serviceName (by decide) metricAttribute_serviceName
      hfits.keys hlen hfits.serviceName
  have hlabel : (attributesContext metricContext r.attributes).label.val = r.label :=
    attributesContext_string MetricContext.label (by decide) metricAttribute_label
      hfits.keys hlen hfits.label
  have hpidKey : (attributesContext metricContext r.attributes).pidKey.val = r.pidKey :=
    attributesContext_string MetricContext.pidKey (by decide) metricAttribute_pidKey
      hfits.keys hlen hfits.pidKey
  rw [Resource.rows, Resource.metricRows]
  apply List.flatMap_congr
  intro s hs
  have hname : (pwCopyStr 256 s.name).val = s.name := pwCopyStr_val_of_fits (hfits.scopes s hs).1
  rw [Scope.rows, ← hservice, ← hlabel, ← hpidKey]
  conv_rhs => rw [← hname]
  rfl

/-- Decoding undoes encoding: of the points of the request, and of nothing else, the rows that
they have in the tree are handed over, each once. -/
theorem otlpDecodeMetrics_encode {fs : List Field} {req : Request Metric}
    (hreq : Encodes EncodesMetric fs req) (hfits : ∀ r ∈ req, FitsMetrics r)
    (hlen : (encode fs).length < 2 ^ 64) {W : Type} {sink : MetricPoint → Prog W ℤ}
    (hsink : ∀ p w, (sink p w).1 = .ret 0) (w : W) :
    ∃ points : List MetricPoint, otlpDecodeMetrics sink (encode fs) w =
        (.ret ((req.flatMap Resource.metricRows).length : ℤ),
          points.foldl (fun w p => (sink p w).2) w) ∧
      (points.map MetricPoint.row).Perm (req.flatMap Resource.metricRows) := by
  obtain ⟨points, hrun, hperm⟩ := decodeRequest_encode readsMetrics (decodeMetric_eq sink) hsink hreq
    (fun r hr s hs => ((hfits r hr).scopes s hs).2) hlen w
  have hrows : req.flatMap (Resource.rows metricContext metricRowsIn) =
      req.flatMap Resource.metricRows :=
    List.flatMap_congr fun r hr => rows_metricContext (hfits r hr) (hreq.length_value hlen r hr)
  rw [hrows] at hperm
  refine ⟨points, ?_, hperm⟩
  rw [← hperm.length_eq, List.length_map]
  exact hrun

def queuePointFields : List Field :=
  [⟨6, .fixed64 (-3 : Int64).toUInt64⟩, ⟨3, .fixed64 10⟩]

/-- A gauge with one point, its data before its name. -/
def queueFields : List Field :=
  [⟨5, .bytes (encode (submessages 1 [queuePointFields]))⟩, ⟨3, .bytes (bytes "jobs")⟩,
    ⟨1, .bytes (bytes "queue")⟩]

def queue : Metric :=
  ⟨bytes "queue", [], bytes "jobs", .gauge [⟨10, .int (-3)⟩]⟩

theorem encodesMetric_queue : EncodesMetric queueFields queue where
  valid := by decide
  name := .inl (by decide)
  description := .inr (by decide)
  unit := .inl (by decide)
  data :=
    .gauge ⟨by decide, [queuePointFields],
      .cons ⟨by decide, .inl (by decide), by decide⟩ .nil,
      by decide⟩

def workerFields : List Field :=
  ⟨1, .bytes (encode [⟨1, .bytes (bytes "worker")⟩])⟩ :: submessages 2 [queueFields]

/-- A request with the gauge alone, in the scope `worker` of a resource without attributes. -/
theorem encodes_queue : Encodes EncodesMetric (submessages 1 [submessages 2 [workerFields]])
    [⟨[], [⟨bytes "worker", [queue]⟩]⟩] := by
  have hscope : EncodesScope EncodesMetric workerFields ⟨bytes "worker", [queue]⟩ :=
    ⟨by decide, [⟨1, .bytes (bytes "worker")⟩], [queueFields], by decide, by decide,
      .cons encodesMetric_queue .nil, by decide⟩
  have hresource : EncodesResource EncodesMetric (submessages 2 [workerFields])
      ⟨[], [⟨bytes "worker", [queue]⟩]⟩ :=
    ⟨by decide, [], [workerFields], .inl ⟨rfl, rfl⟩, .cons hscope .nil, by decide⟩
  exact ⟨by decide, [submessages 2 [workerFields]], .cons hresource .nil, by decide⟩

theorem otlpDecodeMetrics_encode_queue :
    ∃ points : List MetricPoint,
      otlpDecodeMetrics (fun p => do Prog.modify (p.row :: ·); return 0)
          (encode (submessages 1 [submessages 2 [workerFields]])) [] =
        (.ret 1, points.foldl (fun w p => p.row :: w) []) ∧
      (points.map MetricPoint.row).Perm [{
        label := [], serviceName := bytes "unknown_service", scopeName := bytes "worker", pidKey := []
        metricName := bytes "queue", description := [], unit := bytes "jobs"
        metricType := some (bytes "gauge"), value := Double.ofInt (-3), count := 1, timeNs := 10 }] := by
  have hfits : ∀ r ∈ ([⟨[], [⟨bytes "worker", [queue]⟩]⟩] : Request Metric), FitsMetrics r := by
    intro r hr
    obtain rfl := List.mem_singleton.mp hr
    refine ⟨⟨by simp, by simp, by simp, fun s hs => ?_⟩, by simp⟩
    obtain rfl := List.mem_singleton.mp hs
    refine ⟨⟨by decide, by decide⟩, fun m hm => ?_⟩
    obtain rfl := List.mem_singleton.mp hm
    exact ⟨by decide, ⟨by decide, by decide⟩, ⟨by decide, by decide⟩, ⟨by decide, by decide⟩⟩
  exact otlpDecodeMetrics_encode encodes_queue hfits (by decide +kernel) (fun _ _ => rfl) []

end Otlp

end ProcWatch

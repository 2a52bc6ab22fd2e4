import ProcWatch.Library.DoubleRange
import ProcWatch.Model.Conversions
import ProcWatch.Verification.Agent.Replay

/-! # Casts of the numbers that clients send -/

namespace ProcWatch

open CLib

/-! ## Numbers and types -/

/-- The number lies strictly between the neighbours of the type's range. -/
def IntType.Fits (t : IntType) (d : Double) : Prop :=
  ∃ q, d.value = some q ∧ (t.min - 1 : ℚ) < q ∧ q < t.max + 1

theorem Conversion.defined_iff (c : Conversion) : c.Defined ↔ c.target.Fits c.value := by
  refine Double.trunc_mem_iff c.value ?_ ?_
  · cases c.target <;> decide
  · cases c.target <;> decide

/-! ## The casts of a text -/

/-- The body or line has a label, and a valid one. -/
def Labelled (text after : Bytes) : Prop :=
  (jsonStr text after (bytes "label") 100 []).1 = true ∧
    validateIdentifier (strBuf text after "label" 100 []).val = true

instance instDecidableLabelled (text after : Bytes) : Decidable (Labelled text after) :=
  inferInstanceAs (Decidable (_ ∧ _))

/-- A pid is cast where it is no string but a number. -/
def pidCasts (text after : Bytes) : List Conversion :=
  if (jsonStr text after (bytes "pid") 80 []).1 then []
  else
    let n := jsonNum text after (bytes "pid") (Double.ofNat 0)
    if n.1 then [⟨n.2, .int⟩] else []

def metricCasts (text after : Bytes) (rssKey : String) : List Conversion :=
  pidCasts text after ++
    [⟨numVar text after rssKey 0, .long⟩, ⟨numVar text after "threads" 0, .long⟩]

/-- A 64-bit number under `key`, and the time stamp. -/
def timedCasts (line : Bytes) (key : String) (initial : ℕ) : List Conversion :=
  [⟨numVar line [0] key initial, .int64⟩,
    ⟨Casting.scaledTime (strBuf line [0] "ts" 64 []).val, .uint64⟩]

/-- The casts of a line by its marker. -/
def markedCasts (line : Bytes) : List Conversion :=
  if strncmpEq line (bytes "\x7b\"k\":\"metric\"") 13 then metricCasts line [0] "rss"
  else if strncmpEq line (bytes "\x7b\"k\":\"span\"") 11 then timedCasts line "duration_ns" 0
  else if strncmpEq line (bytes "\x7b\"k\":\"otelmetric\"") 18 then timedCasts line "count" 1
  else []

/-! ## Programs and their casts -/

/-- The program does what `m'` does and makes the casts `cs` in their order. -/
def Casts {α : Type} (m : Casting.Run α) (m' : Agent α) (cs : List Conversion) : Prop :=
  ∀ x, m x = ((m' x.world).1, ⟨(m' x.world).2, x.events ++ cs⟩)

theorem casts_pure {α : Type} (a : α) : Casts (pure a) (pure a) [] := fun x => by
  simp [Prog.pure_apply]

theorem casts_lift {α : Type} (m : Agent α) : Casts (Traced.lift m) m [] := fun x => by
  simp [Traced.lift]

/-- Casts in front of a program. -/
theorem Casts.before {α β : Type} {early : Casting.Run β} {b : β} {cs cs' : List Conversion}
    {f : β → Casting.Run α} {m' : Agent α} (hearly : Casts early (pure b) cs)
    (hf : Casts (f b) m' cs') : Casts (early >>= f) m' (cs ++ cs') := by
  intro x
  rw [Prog.bind_of_ret (hearly x), hf, List.append_assoc]
  rfl

theorem casts_castLong (d : Double) : Casts (Casting.castLong d) (pure (toInt64 d)) [⟨d, .long⟩] :=
  fun _ => rfl

theorem casts_castInt64 (d : Double) :
    Casts (Casting.castInt64 d) (pure (toInt64 d)) [⟨d, .int64⟩] :=
  fun _ => rfl

theorem casts_castUInt64 (d : Double) :
    Casts (Casting.castUInt64 d) (pure d.toUInt64) [⟨d, .uint64⟩] :=
  fun _ => rfl

theorem casts_readPidKey (text after : Bytes) :
    Casts (Casting.readPidKey text after) (pure (readPidKey text after)) (pidCasts text after) := by
  unfold Casting.readPidKey readPidKey pidCasts
  by_cases hs : (jsonStr text after (bytes "pid") 80 []).1 = true
  · simp only [hs, if_true]
    exact casts_pure _
  · simp only [hs, Bool.false_eq_true, if_false]
    by_cases hn : (jsonNum text after (bytes "pid") (Double.ofNat 0)).1 = true
    · simp only [hn, if_true]
      exact fun _ => rfl
    · simp only [hn, Bool.false_eq_true, if_false]
      exact casts_pure _

theorem casts_castSpan (line : Bytes) :
    Casts (Casting.castSpan line)
      (pure (toInt64 (numVar line [0] "duration_ns" 0), nanoseconds (strBuf line [0] "ts" 64 []).val))
      (timedCasts line "duration_ns" 0) :=
  (casts_castInt64 _).before ((casts_castUInt64 _).before (casts_pure _))

theorem casts_castPoint (line : Bytes) :
    Casts (Casting.castPoint line)
      (pure (toInt64 (numVar line [0] "count" 1), nanoseconds (strBuf line [0] "ts" 64 []).val))
      (timedCasts line "count" 1) :=
  (casts_castInt64 _).before ((casts_castUInt64 _).before (casts_pure _))

/-! ## `handle_procmetrics` -/

def bodyCasts (body after : Bytes) : List Conversion :=
  if Labelled body after then metricCasts body after "rss_kb" else []

theorem casts_handleProcmetrics (body after : Bytes) :
    Casts (Casting.handleProcmetrics body after) (handleProcmetrics body after)
      (bodyCasts body after) := by
  unfold Casting.handleProcmetrics handleProcmetrics bodyCasts Labelled
  by_cases hfound : (jsonStr body after (bytes "label") 100 []).1 = true
  · by_cases hvalid : validateIdentifier (strBuf body after "label" 100 []).val = true
    · simp only [hfound, hvalid, Bool.not_true, Bool.false_eq_true, if_false, and_self, if_true]
      exact (casts_readPidKey body after).before
        ((casts_castLong _).before ((casts_castLong _).before (casts_lift _)))
    · simp only [hfound, hvalid, Bool.not_true, Bool.false_eq_true, if_false, and_false]
      exact casts_pure _
  · simp only [hfound, Bool.not_false, if_true, Bool.false_eq_true, false_and, if_false]
    exact casts_pure _

/-! ## `replay_line` -/

/-- The program does what `m'` does and makes casts of `cs` in their order, all of them over a
healthy connection with an empty label cache. -/
def CastsReplayed (m : Casting.Run ℤ) (m' : Agent ℤ) (cs : List Conversion) : Prop :=
  ∀ x, ∃ made, made <+: cs ∧ m x = ((m' x.world).1, ⟨(m' x.world).2, x.events ++ made⟩) ∧
    (Healthy x.world → x.world.user.labels = [] → made = cs)

theorem Casts.replayed {m : Casting.Run ℤ} {m' : Agent ℤ} {cs : List Conversion}
    (h : Casts m m' cs) : CastsReplayed m m' cs := fun x =>
  ⟨cs, List.prefix_rfl, h x, fun _ _ => rfl⟩

/-- Over a healthy connection an empty cache has room for any label. -/
theorem dbEnsureLabel_run_healthy {label : Bytes} {w : AgentWorld}
    (hlabel : validateIdentifier label = true) (h : Healthy w) (hempty : w.user.labels = []) :
    (dbEnsureLabel w.user.schema.val label w).1 = .ret 0 := by
  have hcache : CacheCurrent w := by simp [CacheCurrent, hempty]
  have hroom : CacheRoom label w := Or.inr (by simp [hempty, LABEL_CACHE_MAX])
  have hrun := Prog.wp_iff_run.mp (wp_dbEnsureLabel_healthy h hlabel w.user.schema.valid hcache)
  cases hres : dbEnsureLabel w.user.schema.val label w with
  | mk o w' =>
      cases o with
      | exit => exact (hrun.2 w' hres).elim
      | ret rc =>
          cases hrun.1 rc w' hres with
          | inl hdone => rw [hdone.1]
          | inr hfull => exact absurd hroom hfull.2.1

/-- The label is ensured between the early casts and those of the insert. -/
theorem casts_replayRecord {β : Type} (line : Bytes) {early : Casting.Run β} {b : β}
    {insert : CStr 100 → β → Casting.Run ℤ} {insert' : CStr 100 → Agent ℤ}
    {cs cs' : List Conversion} (hearly : Casts early (pure b) cs)
    (hinsert : ∀ label, Casts (insert label b) (insert' label) cs') :
    CastsReplayed (Casting.replayRecord line early insert) (replayRecord line insert')
      (if Labelled line [0] then cs ++ cs' else []) := by
  unfold Casting.replayRecord replayRecord Labelled
  by_cases hfound : (jsonStr line [0] (bytes "label") 100 []).1 = true
  · by_cases hvalid : validateIdentifier (strBuf line [0] "label" 100 []).val = true
    · simp only [hfound, hvalid, Bool.not_true, Bool.false_eq_true, if_false, and_self, if_true]
      intro x
      rw [Prog.bind_of_ret (hearly x)]
      have hready := dbEnsureLabel_run_healthy (w := x.world) hvalid
      cases hrun : dbEnsureLabel x.world.user.schema.val (strBuf line [0] "label" 100 []).val x.world with
      | mk o w =>
          rw [hrun] at hready
          cases o with
          | exit =>
              refine ⟨cs, List.prefix_append cs cs', ?_, fun h hempty => ?_⟩
              · simp [Prog.bind_apply, Traced.lift, Prog.get, Prog.pure_apply, hrun]
              · cases hready h hempty
          | ret rc =>
              by_cases hrc : rc = 0
              · refine ⟨cs ++ cs', List.prefix_rfl, ?_, fun _ _ => rfl⟩
                have hins := hinsert (strBuf line [0] "label" 100 [])
                  ⟨w, x.events ++ cs⟩
                simp only [Prog.bind_apply, Traced.lift, Prog.get, Prog.pure_apply, hrun, hrc,
                  ne_eq, not_true_eq_false, if_false, hins, List.append_assoc]
                cases insert' (strBuf line [0] "label" 100 []) w with
                | mk o w' =>
                    cases o with
                    | exit => rfl
                    | ret rc =>
                        dsimp only
                        split <;> rfl
              · refine ⟨cs, List.prefix_append cs cs', ?_, fun h hempty => ?_⟩
                · simp [Prog.bind_apply, Traced.lift, Prog.get, Prog.pure_apply, hrun, hrc]
                · cases hready h hempty
                  exact absurd rfl hrc
    · simp only [hfound, hvalid, Bool.not_true, Bool.false_eq_true, if_false, and_false]
      exact (casts_pure _).replayed
  · simp only [hfound, Bool.not_false, if_true, Bool.false_eq_true, false_and, if_false]
    exact (casts_pure _).replayed

/-- The insert makes no cast of its own. -/
theorem casts_replayRecord_early {β : Type} {line : Bytes} {early : Casting.Run β} {b : β}
    {insert : CStr 100 → β → Casting.Run ℤ} {insert' : CStr 100 → Agent ℤ} {cs : List Conversion}
    (hearly : Casts early (pure b) cs)
    (hinsert : ∀ label, Casts (insert label b) (insert' label) []) :
    CastsReplayed (Casting.replayRecord line early insert) (replayRecord line insert')
      (if Labelled line [0] then cs else []) := by
  have h := casts_replayRecord line hearly hinsert
  rwa [List.append_nil] at h

def lineCasts (line : Bytes) : List Conversion :=
  if Labelled line [0] then markedCasts line else []

theorem casts_replayMetric (line : Bytes) :
    CastsReplayed (Casting.replayMetric line)
      (replayRecord line fun label =>
        dbInsertMetricLabeled (readProcMetric line [0] "cpu" "rss" label))
      (if Labelled line [0] then metricCasts line [0] "rss" else []) :=
  casts_replayRecord line (casts_readPidKey line [0]) fun _ =>
    (casts_castLong _).before ((casts_castLong _).before (casts_lift _))

theorem casts_replaySpan (line : Bytes) :
    CastsReplayed (Casting.replaySpan line)
      (replayRecord line fun label => dbInsertSpan (readSpan line [0] label))
      (if Labelled line [0] then timedCasts line "duration_ns" 0 else []) :=
  casts_replayRecord_early (casts_castSpan line) fun _ => casts_lift _

theorem casts_replayOtelMetric (line : Bytes) :
    CastsReplayed (Casting.replayOtelMetric line)
      (replayRecord line fun label => dbInsertOtelMetric (readMetricPoint line [0] label))
      (if Labelled line [0] then timedCasts line "count" 1 else []) :=
  casts_replayRecord_early (casts_castPoint line) fun _ => casts_lift _

theorem casts_replayLine (line : Bytes) :
    CastsReplayed (Casting.replayLine line) (replayLine line) (lineCasts line) := by
  intro x
  unfold Casting.replayLine replayLine lineCasts markedCasts
  rw [Prog.bind_apply, Prog.bind_apply]
  simp only [Traced.lift, Prog.get]
  by_cases hconn : connOk x.world.conn = true
  · simp only [hconn, Bool.not_true, Bool.false_eq_true, if_false]
    by_cases hmetric : strncmpEq line (bytes "\x7b\"k\":\"metric\"") 13 = true
    · simp only [hmetric, if_true]
      exact casts_replayMetric line x
    · by_cases hspan : strncmpEq line (bytes "\x7b\"k\":\"span\"") 11 = true
      · simp only [hmetric, hspan, Bool.false_eq_true, if_false, if_true]
        exact casts_replaySpan line x
      · by_cases hotel : strncmpEq line (bytes "\x7b\"k\":\"otelmetric\"") 18 = true
        · simp only [hmetric, hspan, hotel, Bool.false_eq_true, if_false, if_true]
          exact casts_replayOtelMetric line x
        · simp only [hmetric, hspan, hotel, Bool.false_eq_true, if_false, ite_self]
          exact (casts_pure 0).replayed x
  · refine ⟨[], List.nil_prefix, ?_, fun h _ => absurd h.connOk hconn⟩
    simp [hconn, Prog.pure_apply]

/-! ## What clients and the spill file hand in -/

/-- A procmetrics body, with the memory behind it, or a line of the spill file. -/
inductive Intake where
  | posted (body after : Bytes)
  | replayed (line : Bytes)

namespace Intake

def run : Intake → Casting.Run ℤ
  | .posted body after => Casting.handleProcmetrics body after
  | .replayed line => Casting.replayLine line

/-- In every world, C defines each cast that is made. -/
def CastsDefined (i : Intake) : Prop :=
  ∀ w, ∀ c ∈ (i.run ⟨w, []⟩).2.events, c.Defined

end Intake

/-- The numbers of a process metric. -/
structure MetricFits (text after : Bytes) (rssKey : String) : Prop where
  pid : (jsonStr text after (bytes "pid") 80 []).1 = false →
    (jsonNum text after (bytes "pid") (Double.ofNat 0)).1 = true →
    IntType.int.Fits (jsonNum text after (bytes "pid") (Double.ofNat 0)).2
  rss : IntType.long.Fits (numVar text after rssKey 0)
  threads : IntType.long.Fits (numVar text after "threads" 0)

/-- The numbers of a span or data point: one under `key`, and its time in nanoseconds. -/
structure TimedFits (line : Bytes) (key : String) (initial : ℕ) : Prop where
  number : IntType.int64.Fits (numVar line [0] key initial)
  time : IntType.uint64.Fits (Casting.scaledTime (strBuf line [0] "ts" 64 []).val)

/-- The numbers that a line gives for its kind. -/
def LineFits (line : Bytes) : Prop :=
  if strncmpEq line (bytes "\x7b\"k\":\"metric\"") 13 then MetricFits line [0] "rss"
  else if strncmpEq line (bytes "\x7b\"k\":\"span\"") 11 then TimedFits line "duration_ns" 0
  else if strncmpEq line (bytes "\x7b\"k\":\"otelmetric\"") 18 then TimedFits line "count" 1
  else True

/-- Under a valid label, every number is finite and within its type. -/
def Intake.NumbersFit : Intake → Prop
  | .posted body after => Labelled body after → MetricFits body after "rss_kb"
  | .replayed line => Labelled line [0] → LineFits line

theorem metricFits_iff (text after : Bytes) (rssKey : String) :
    (∀ c ∈ metricCasts text after rssKey, c.Defined) ↔ MetricFits text after rssKey := by
  have hpid : (∀ c ∈ pidCasts text after, c.Defined) ↔
      ((jsonStr text after (bytes "pid") 80 []).1 = false →
        (jsonNum text after (bytes "pid") (Double.ofNat 0)).1 = true →
        IntType.int.Fits (jsonNum text after (bytes "pid") (Double.ofNat 0)).2) := by
    unfold pidCasts
    by_cases hs : (jsonStr text after (bytes "pid") 80 []).1 = true
    · simp [hs]
    · by_cases hn : (jsonNum text after (bytes "pid") (Double.ofNat 0)).1 = true
      · simp [hs, hn, Conversion.defined_iff]
      · simp [hs, hn]
  constructor
  · intro h
    have hrss := h ⟨numVar text after rssKey 0, .long⟩ (by simp [metricCasts])
    have hthreads := h ⟨numVar text after "threads" 0, .long⟩ (by simp [metricCasts])
    exact ⟨hpid.mp fun c hc => h c (List.mem_append_left _ hc), (Conversion.defined_iff _).mp hrss,
      (Conversion.defined_iff _).mp hthreads⟩
  · intro h c hc
    cases List.mem_append.mp hc with
    | inl hc => exact hpid.mpr h.pid c hc
    | inr hc =>
        simp only [List.mem_cons, List.not_mem_nil, or_false] at hc
        cases hc with
        | inl hc => exact hc ▸ (Conversion.defined_iff _).mpr h.rss
        | inr hc => exact hc ▸ (Conversion.defined_iff _).mpr h.threads

theorem timedFits_iff (line : Bytes) (key : String) (initial : ℕ) :
    (∀ c ∈ timedCasts line key initial, c.Defined) ↔ TimedFits line key initial := by
  simp only [timedCasts, List.forall_mem_cons, List.not_mem_nil, false_implies, implies_true,
    and_true, Conversion.defined_iff]
  exact ⟨fun h => ⟨h.1, h.2⟩, fun h => ⟨h.number, h.time⟩⟩

theorem lineFits_iff (line : Bytes) : (∀ c ∈ markedCasts line, c.Defined) ↔ LineFits line := by
  unfold markedCasts LineFits
  split
  · exact metricFits_iff line [0] "rss"
  · split
    · exact timedFits_iff line "duration_ns" 0
    · split
      · exact timedFits_iff line "count" 1
      · simp

/-- Each cast of a body or a line is defined, in whatever world it is made, exactly where the
numbers under a valid label are finite and fit their types. -/
theorem castsDefined_iff (i : Intake) : i.CastsDefined ↔ i.NumbersFit := by
  cases i with
  | posted body after =>
      have hevents (w : AgentWorld) :
          (Intake.run (.posted body after) ⟨w, []⟩).2.events = bodyCasts body after := by
        rw [Intake.run, casts_handleProcmetrics body after ⟨w, []⟩, List.nil_append]
      have hcasts : (∀ c ∈ bodyCasts body after, c.Defined) ↔
          (Labelled body after → MetricFits body after "rss_kb") := by
        unfold bodyCasts
        split
        · simp [*, metricFits_iff]
        · simp [*]
      simp only [Intake.CastsDefined, Intake.NumbersFit, hevents, hcasts]
      exact ⟨fun h => h (connectedAgent obligingEnv ⟨none, none, none⟩), fun h _ => h⟩
  | replayed line =>
      have hcasts : (∀ c ∈ lineCasts line, c.Defined) ↔ (Labelled line [0] → LineFits line) := by
        unfold lineCasts
        split
        · simp [*, lineFits_iff]
        · simp [*]
      rw [Intake.NumbersFit, ← hcasts]
      constructor
      · intro h
        obtain ⟨made, -, hrun, hall⟩ :=
          casts_replayLine line ⟨connectedAgent obligingEnv ⟨none, none, none⟩, []⟩
        have hmade := h (connectedAgent obligingEnv ⟨none, none, none⟩)
        rw [Intake.run, hrun, hall (healthy_connectedAgent _) rfl] at hmade
        exact hmade
      · intro h w c hc
        obtain ⟨made, hmade, hrun, -⟩ := casts_replayLine line ⟨w, []⟩
        rw [Intake.run, hrun] at hc
        exact h c (hmade.subset (by simpa using hc))

/-- A body whose resident size is past the largest `long`. -/
def largeRssBody : Bytes :=
  bytes "\x7b\"label\":\"shop\",\"rss_kb\":1e19\x7d"

theorem not_castsDefined_largeRss : ¬ ∀ i : Intake, i.CastsDefined := by
  intro h
  have hdefined := h (.posted largeRssBody [0]) (connectedAgent obligingEnv ⟨none, none, none⟩)
  rw [Intake.run, casts_handleProcmetrics largeRssBody [0] ⟨_, []⟩, List.nil_append] at hdefined
  have hmem : (⟨numVar largeRssBody [0] "rss_kb" 0, .long⟩ : Conversion) ∈
      bodyCasts largeRssBody [0] := by decide +kernel
  obtain ⟨n, hn, -, hmax⟩ := hdefined _ hmem
  have htrunc : (numVar largeRssBody [0] "rss_kb" 0).trunc = some (10 ^ 19) := by decide +kernel
  dsimp only [IntType.max] at hn hmax
  rw [htrunc] at hn
  cases hn
  norm_num at hmax

end ProcWatch

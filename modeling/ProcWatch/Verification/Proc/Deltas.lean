import ProcWatch.Model.PushTree
import ProcWatch.Verification.Proc.Tree

/-! # CPU times between sampling rounds -/

namespace ProcWatch

open CLib

/-! ## The table as a map from pids -/

/-- The time recorded for a pid. -/
def recorded (prev : List PrevSample) (p : Int32) : Option UInt64 :=
  (prev.find? fun e => e.pid = p).map PrevSample.procTime

/-- `delta_proc` over what is recorded. -/
def deltaSince (before : Option UInt64) (procTime : UInt64) : UInt64 :=
  match before with
  | some t => if t ≤ procTime then procTime - t else 0
  | none => 0

theorem recorded_cons (e : PrevSample) (prev : List PrevSample) (p : Int32) :
    recorded (e :: prev) p = if e.pid = p then some e.procTime else recorded prev p := by
  by_cases he : e.pid = p <;> simp [recorded, he]

theorem recorded_clearSeen (prev : List PrevSample) (p : Int32) :
    recorded (clearSeen prev) p = recorded prev p := by
  induction prev with
  | nil => rfl
  | cons e prev ih =>
      rw [recorded_cons, ← ih]
      exact recorded_cons _ _ _

theorem updatePrev_snd (prev : List PrevSample) (p : Int32) (procTime : UInt64) :
    (updatePrev prev p procTime).2 = deltaSince (recorded prev p) procTime := by
  induction prev with
  | nil => rfl
  | cons e prev ih =>
      rw [updatePrev, recorded_cons]
      by_cases he : e.pid = p
      · rw [if_pos he, if_pos he]
        rfl
      · rw [if_neg he, if_neg he]
        exact ih

theorem recorded_updatePrev (prev : List PrevSample) (p q : Int32) (procTime : UInt64) :
    recorded (updatePrev prev p procTime).1 q =
      if p = q then some procTime else recorded prev q := by
  induction prev with
  | nil =>
      rw [updatePrev, recorded_cons]
  | cons e prev ih =>
      rw [updatePrev]
      by_cases he : e.pid = p
      · rw [if_pos he, recorded_cons, recorded_cons, ← he]
        by_cases hq : e.pid = q
        · rw [if_pos hq, if_pos hq]
        · rw [if_neg hq, if_neg hq, if_neg hq]
      · rw [if_neg he, recorded_cons, recorded_cons, ih]
        by_cases hq : e.pid = q
        · have hp : p ≠ q := fun h => he (hq.trans h.symm)
          rw [if_pos hq, if_pos hq, if_neg hp]
        · rw [if_neg hq, if_neg hq]

/-! ## One round -/

section Rounds

variable {ν σ : Type} {pid : ν → Int32} {stat : ν → ProcStat}

/-- The process with a pid among `nodes`. -/
def nodeOf (pid : ν → Int32) (nodes : List ν) (p : Int32) : Option ν :=
  nodes.find? fun n => pid n = p

theorem nodeOf_eq_some {nodes : List ν} {p : Int32} {n : ν} (h : nodeOf pid nodes p = some n) :
    n ∈ nodes ∧ pid n = p :=
  ⟨List.mem_of_find?_eq_some h, by simpa using List.find?_some h⟩

variable (stat) in
theorem processDeltas_spec {nodes : List ν} (hpids : (nodes.map pid).Nodup)
    (prev : List PrevSample) :
    (processDeltas pid stat nodes prev).2 =
        nodes.map (fun n => (n, deltaSince (recorded prev (pid n)) (stat n).procTime)) ∧
      ∀ p, recorded (processDeltas pid stat nodes prev).1 p =
        match nodeOf pid nodes p with
        | some n => some (stat n).procTime
        | none => recorded prev p := by
  induction nodes generalizing prev with
  | nil => exact ⟨rfl, fun p => rfl⟩
  | cons n nodes ih =>
      rw [List.map_cons, List.nodup_cons] at hpids
      obtain ⟨hnew, hrest⟩ := hpids
      obtain ⟨hdeltas, htable⟩ := ih hrest (updatePrev prev (pid n) (stat n).procTime).1
      constructor
      · rw [processDeltas, List.map_cons, updatePrev_snd]
        simp only [hdeltas]
        congr 1
        apply List.map_congr_left
        intro m hm
        have hne : pid n ≠ pid m := fun h => hnew (h ▸ List.mem_map_of_mem hm)
        rw [recorded_updatePrev, if_neg hne]
      · intro p
        rw [processDeltas]
        simp only [htable p]
        by_cases hp : pid n = p
        · have hfirst : nodeOf pid (n :: nodes) p = some n := by simp [nodeOf, hp]
          have hnone : nodeOf pid nodes p = none := by
            rw [nodeOf, List.find?_eq_none]
            intro m hm hpm
            have heq : pid m = p := by simpa using hpm
            exact hnew (by rw [hp, ← heq]; exact List.mem_map_of_mem hm)
          rw [hfirst, hnone, recorded_updatePrev, if_pos hp]
        · have hskip : nodeOf pid (n :: nodes) p = nodeOf pid nodes p := by simp [nodeOf, hp]
          rw [hskip, recorded_updatePrev, if_neg hp]

/-! ## Runs of rounds -/

/-- A round that was completed, and whether its samples are reported. -/
structure Round (pid : ν → Int32) where
  totals : CpuTotals
  nodes : List ν
  reported : Bool
  distinct : (nodes.map pid).Nodup

/-- The rounds completed so far, the latest first. -/
abbrev History (pid : ν → Int32) := List (Round pid)

/-- The process that a pid stood for when it was last sampled. -/
def lastSample (h : History pid) (p : Int32) : Option ν :=
  h.findSome? fun r => nodeOf pid r.nodes p

variable (pid stat) in
/-- A pid and a start time: one instance of a process. -/
def SameInstance (m n : ν) : Prop :=
  pid m = pid n ∧ (stat m).starttime = (stat n).starttime

variable (stat) in
/-- The counters of an instance do not decrease from one sampling to a later one. A call that
returns early is `none`. -/
def Grows (h : History pid) : List (Option (Round pid)) → Prop
  | [] => True
  | none :: rounds => Grows h rounds
  | some r :: rounds =>
      (∀ r' ∈ h, ∀ m ∈ r'.nodes, ∀ n ∈ r.nodes, SameInstance pid stat m n →
        (stat m).procTime ≤ (stat n).procTime) ∧
      Grows (r :: h) rounds

variable (stat) in
/-- The operands for process `n` are about this instance since the round before, and about the
total over the same interval. -/
def Right (h : History pid) (totals : CpuTotals) (n : ν) (u : Usage) : Prop :=
  match h with
  | [] => u.deltaProc = 0
  | r :: _ =>
      u.deltaTot = cpuTotalsSum totals - cpuTotalsSum r.totals ∧
        (∀ m ∈ r.nodes, SameInstance pid stat m n →
          u.deltaProc = (stat n).procTime - (stat m).procTime) ∧
        ((∀ m ∈ r.nodes, ¬ SameInstance pid stat m n) → u.deltaProc = 0)

variable (stat) in
/-- When the pid was last sampled, it was in the round before and the same instance, or its
time was no less than that of `n`. -/
def Traceable (h : History pid) (n : ν) : Prop :=
  ∀ m, lastSample h (pid n) = some m →
    (∃ r ∈ h.head?, m ∈ r.nodes ∧ SameInstance pid stat m n) ∨
      (stat n).procTime ≤ (stat m).procTime

variable (stat) in
/-- Each round that is reported has one sample for each of its processes, of the right operands;
no other round has samples. -/
def RunRight (sample : ν → Usage → σ) (h : History pid) :
    List (Option (Round pid)) → List (List σ) → Prop
  | none :: rounds, samples :: rest => samples = [] ∧ RunRight sample h rounds rest
  | some r :: rounds, samples :: rest =>
      (if r.reported then
        List.Forall₂ (fun n s => ∃ u, s = sample n u ∧ Right stat h r.totals n u) r.nodes samples
      else samples = []) ∧
        RunRight sample (r :: h) rounds rest
  | rounds, samples => rounds = [] ∧ samples = []

variable (stat) in
/-- All reported processes of a run are traceable. -/
def RunTraceable (h : History pid) : List (Option (Round pid)) → Prop
  | [] => True
  | none :: rounds => RunTraceable h rounds
  | some r :: rounds =>
      (r.reported = true → ∀ n ∈ r.nodes, Traceable stat h n) ∧ RunTraceable (r :: h) rounds

variable (stat) in
/-- What a completed round leaves for the next one, and its samples. -/
def roundSamples (sample : ν → Usage → σ) (r : Round pid) (b : Baseline) : Baseline × List σ :=
  let d := processDeltas pid stat r.nodes (clearSeen b.prev)
  let deltaTot := cpuTotalsSum r.totals - cpuTotalsSum b.totPrev
  ({ prev := d.1, totPrev := r.totals },
    if r.reported then d.2.map fun x => sample x.1 ⟨x.2, deltaTot⟩ else [])

variable (stat) in
def runSamples (sample : ν → Usage → σ) (b : Baseline) : List (Option (Round pid)) → List (List σ)
  | [] => []
  | none :: rounds => [] :: runSamples sample b rounds
  | some r :: rounds =>
      (roundSamples stat sample r b).2 ::
        runSamples sample (roundSamples stat sample r b).1 rounds

variable (stat) in
/-- The table holds for each pid what it was when last sampled. -/
structure Tracks (b : Baseline) (h : History pid) : Prop where
  recorded : ∀ p, recorded b.prev p = (lastSample h p).map fun n => (stat n).procTime
  totals : ∀ r ∈ h.head?, b.totPrev = r.totals

theorem lastSample_cons (r : Round pid) (h : History pid) (p : Int32) :
    lastSample (r :: h) p =
      match nodeOf pid r.nodes p with
      | some n => some n
      | none => lastSample h p := by
  rw [lastSample, List.findSome?_cons]
  rfl

theorem Round.eq_of_pid (r : Round pid) {m n : ν} (hm : m ∈ r.nodes) (hn : n ∈ r.nodes)
    (h : pid m = pid n) : m = n :=
  List.inj_on_of_nodup_map r.distinct hm hn h

theorem Round.nodeOf_pid (r : Round pid) {n : ν} (hn : n ∈ r.nodes) :
    nodeOf pid r.nodes (pid n) = some n := by
  cases hnode : nodeOf pid r.nodes (pid n) with
  | none =>
      have hne := List.find?_eq_none.mp hnode n hn
      simp at hne
  | some m =>
      obtain ⟨hm, hpid⟩ := nodeOf_eq_some hnode
      rw [r.eq_of_pid hm hn hpid]

/-- A round leaves the table that tracks it. -/
theorem Tracks.round {b : Baseline} {h : History pid} (hb : Tracks stat b h) (r : Round pid)
    (sample : ν → Usage → σ) : Tracks stat (roundSamples stat sample r b).1 (r :: h) := by
  constructor
  · intro p
    have htable := (processDeltas_spec stat r.distinct (clearSeen b.prev)).2 p
    rw [roundSamples]
    simp only [htable, lastSample_cons]
    cases nodeOf pid r.nodes p with
    | none => exact (recorded_clearSeen _ _).trans (hb.recorded p)
    | some n => rfl
  · intro x hx
    obtain rfl := Option.some.inj hx
    rfl

/-- The operands for a process, from the history. -/
theorem roundSamples_snd {b : Baseline} {h : History pid} (hb : Tracks stat b h) {r : Round pid}
    (hreported : r.reported = true) (sample : ν → Usage → σ) :
    (roundSamples stat sample r b).2 = r.nodes.map fun n => sample n
      ⟨deltaSince ((lastSample h (pid n)).map fun m => (stat m).procTime) (stat n).procTime,
        cpuTotalsSum r.totals - cpuTotalsSum b.totPrev⟩ := by
  rw [roundSamples]
  simp only [if_pos hreported, (processDeltas_spec stat r.distinct _).1, List.map_map]
  apply List.map_congr_left
  intro n _
  simp only [Function.comp_apply, recorded_clearSeen, hb.recorded]

theorem deltaSince_eq_zero_iff {t procTime : UInt64} :
    deltaSince (some t) procTime = 0 ↔ procTime ≤ t := by
  rw [deltaSince]
  split
  · next hle =>
      rw [UInt64.le_iff_toNat_le] at hle
      rw [← UInt64.toNat_inj, UInt64.toNat_sub_of_le _ _ (UInt64.le_iff_toNat_le.mpr hle),
        UInt64.le_iff_toNat_le, UInt64.toNat_zero]
      omega
  · next hlt =>
      simp only [true_iff]
      rw [UInt64.le_iff_toNat_le] at hlt ⊢
      omega

/-- The operands that the table gives are right exactly for a traceable process. -/
theorem right_iff_traceable {h : History pid} {n : ν} {totals : CpuTotals} {b : Baseline}
    (hb : Tracks stat b h)
    (hgrows : ∀ r ∈ h, ∀ m ∈ r.nodes, SameInstance pid stat m n →
      (stat m).procTime ≤ (stat n).procTime) :
    Right stat h totals n
        ⟨deltaSince ((lastSample h (pid n)).map fun m => (stat m).procTime)
          (stat n).procTime, cpuTotalsSum totals - cpuTotalsSum b.totPrev⟩ ↔
      Traceable stat h n := by
  cases h with
  | nil =>
      constructor
      · intro _ m hm
        cases hm
      · intro _
        rfl
  | cons r h =>
      have htot : b.totPrev = r.totals := hb.totals r rfl
      simp only [Right, htot, true_and, Traceable, lastSample_cons, List.head?_cons,
        Option.mem_some_iff, exists_eq_left']
      cases hnode : nodeOf pid r.nodes (pid n) with
      | some m =>
          obtain ⟨hmem, hpid⟩ := nodeOf_eq_some hnode
          simp only [Option.map_some, Option.some.injEq, forall_eq']
          by_cases hsame : SameInstance pid stat m n
          · have hle := hgrows r (by simp) m hmem hsame
            have hdelta : deltaSince (some (stat m).procTime) (stat n).procTime =
                (stat n).procTime - (stat m).procTime := if_pos hle
            constructor
            · exact fun _ => .inl ⟨hmem, hsame⟩
            · intro _
              refine ⟨?_, fun hnone => absurd hsame (hnone m hmem)⟩
              intro m' hm' hsame'
              obtain rfl := r.eq_of_pid hm' hmem (hsame'.1.trans hpid.symm)
              exact hdelta
          · have hnone : ∀ m' ∈ r.nodes, ¬ SameInstance pid stat m' n := by
              intro m' hm' hsame'
              obtain rfl := r.eq_of_pid hm' hmem (hsame'.1.trans hpid.symm)
              exact hsame hsame'
            rw [← deltaSince_eq_zero_iff]
            constructor
            · exact fun hright => .inr (hright.2 hnone)
            · rintro (⟨_, h⟩ | hzero)
              · exact absurd h hsame
              · exact ⟨fun m' hm' hsame' => absurd hsame' (hnone m' hm'), fun _ => hzero⟩
      | none =>
          have hnone : ∀ m' ∈ r.nodes, ¬ SameInstance pid stat m' n := by
            intro m' hm' hsame'
            have hne := List.find?_eq_none.mp hnode m' hm'
            exact hne (by simpa using hsame'.1)
          have hvacuous : (∀ m ∈ r.nodes, SameInstance pid stat m n →
              ∀ u : UInt64, u = (stat n).procTime - (stat m).procTime) :=
            fun m hm hsame => absurd hsame (hnone m hm)
          cases hlast : lastSample h (pid n) with
          | none =>
              constructor
              · intro _ m hm
                cases hm
              · intro _
                exact ⟨fun m hm hsame => hvacuous m hm hsame _, fun _ => rfl⟩
          | some m =>
              simp only [Option.map_some, Option.some.injEq, forall_eq']
              rw [← deltaSince_eq_zero_iff]
              constructor
              · exact fun hright => .inr (hright.2 hnone)
              · rintro (⟨hm, hsame⟩ | hzero)
                · exact absurd hsame (hnone m hm)
                · exact ⟨fun m' hm' hsame' => hvacuous m' hm' hsame' _, fun _ => hzero⟩

theorem runRight_iff {sample : ν → Usage → σ} (hsample : ∀ n, (sample n).Injective)
    {rounds : List (Option (Round pid))} {b : Baseline} {h : History pid}
    (hb : Tracks stat b h) (hgrows : Grows stat h rounds) :
    RunRight stat sample h rounds (runSamples stat sample b rounds) ↔
      RunTraceable stat h rounds := by
  induction rounds generalizing b h with
  | nil => exact ⟨fun _ => trivial, fun _ => ⟨rfl, rfl⟩⟩
  | cons round rounds ih =>
      cases round with
      | none =>
          rw [runSamples, RunRight, RunTraceable, ih hb hgrows]
          exact and_iff_right rfl
      | some r =>
          obtain ⟨hround, hrest⟩ := hgrows
          rw [runSamples, RunRight, RunTraceable, ih (hb.round r sample) hrest]
          refine and_congr_left fun _ => ?_
          by_cases hreported : r.reported = true
          · rw [if_pos hreported, roundSamples_snd hb hreported sample,
              List.forall₂_map_right_iff, List.forall₂_same]
            simp only [hreported, forall_true_left]
            refine forall₂_congr fun n hn => ?_
            have hright := @right_iff_traceable ν pid stat h n r.totals b hb
              fun r' hr' m hm => hround r' hr' m hm n hn
            rw [← hright]
            constructor
            · rintro ⟨u, hu, hu'⟩
              rwa [hsample n hu]
            · exact fun hu => ⟨_, rfl, hu⟩
          · rw [if_neg hreported, roundSamples]
            simp [hreported]

/-- The empty table is right before the first round. -/
theorem Tracks.start (totPrev : CpuTotals) :
    Tracks stat { prev := [], totPrev := totPrev } ([] : History pid) := by
  constructor
  · intro p
    rfl
  · intro r hr
    cases hr

variable (pid) in
/-- The round of a call, where it could read the totals and walk the tree. -/
def Round.ofWalk (totals : Option CpuTotals) (walk : Option (Walk ν)) (reported : Bool)
    (distinct : ∀ w ∈ walk, (w.nodes.map pid).Nodup) : Option (Round pid) :=
  match totals, walk, distinct with
  | some totals, some w, distinct =>
      some { totals := totals, nodes := w.nodes, reported := reported, distinct := distinct w rfl }
  | _, _, _ => none

end Rounds

/-! ## The calls of `push_tree` -/

/-- A valid label is copied unchanged. -/
theorem copy_label_of_valid {label : Bytes} (hvalid : pwLabelValid label = true) :
    (CStr.copy 100 label).val = label := by
  rw [pwLabelValid] at hvalid
  split at hvalid
  · cases hvalid
  · next hlen =>
      apply CStr.copy_val_of_fits
      · intro h0
        have hbyte := List.all_eq_true.mp hvalid 0 h0
        revert hbyte
        decide
      · rw [PW_LABEL_MAX] at hlen
        omega

/-- No label that `main` accepts is refused. -/
theorem treeSample_label_valid (cfg : WrapConfig) (n : TreeNode) (u : Usage) :
    pwLabelValid (treeSample cfg n u).label.val = true := by
  rw [treeSample, copy_label_of_valid cfg.label_valid]
  exact cfg.label_valid

theorem pushTree_eq (cfg : WrapConfig) (totals : Option CpuTotals) (walk : Option (Walk TreeNode))
    (skipPush : Bool) (distinct : ∀ w ∈ walk, (w.nodes.map TreeNode.pid).Nodup) (b : Baseline) :
    pushTree cfg totals (walk.map Walk.nodes) skipPush b =
      match Round.ofWalk TreeNode.pid totals walk (!skipPush) distinct with
      | none => (b, [])
      | some r => roundSamples TreeNode.stat (treeSample cfg) r b := by
  have hkeep (l : List (TreeNode × UInt64)) (deltaTot : UInt64) :
      (l.map fun n => treeSample cfg n.1 ⟨n.2, deltaTot⟩).filter
          (fun s => pwLabelValid s.label.val) =
        l.map fun n => treeSample cfg n.1 ⟨n.2, deltaTot⟩ := by
    rw [List.filter_eq_self]
    intro s hs
    obtain ⟨n, _, rfl⟩ := List.mem_map.mp hs
    exact treeSample_label_valid cfg _ _
  cases totals with
  | none => rfl
  | some totals =>
      cases walk with
      | none => rfl
      | some w =>
          cases skipPush with
          | true => rfl
          | false =>
              simp only [Option.map_some, pushTree, Round.ofWalk, roundSamples, hkeep]
              rfl

/-- What a call of `push_tree` finds: `/proc/stat` and the tree below `root`. -/
structure TreeCall where
  totals : Option CpuTotals
  proc : Proc
  root : Int32
  fuel : ℕ
  skipPush : Bool

def TreeCall.walk (call : TreeCall) : Option (Walk TreeNode) :=
  snapshotTree call.proc call.fuel (Walk.start call.root)

theorem TreeCall.distinct (call : TreeCall) :
    ∀ w ∈ call.walk, (w.nodes.map TreeNode.pid).Nodup :=
  fun _ hw => call.proc.nodup_nodes_of_snapshotTree hw

/-- The round that a call completes. -/
def TreeCall.round (call : TreeCall) : Option (Round TreeNode.pid) :=
  Round.ofWalk TreeNode.pid call.totals call.walk (!call.skipPush) call.distinct

/-- The calls of a run of `procwatch-wrap`: the samples of each. -/
def pushRun (cfg : WrapConfig) (b : Baseline) : List TreeCall → List (List TreeSample)
  | [] => []
  | call :: calls =>
      let r := pushTree cfg call.totals (call.walk.map Walk.nodes) call.skipPush b
      r.2 :: pushRun cfg r.1 calls

theorem pushRun_eq (cfg : WrapConfig) (b : Baseline) (calls : List TreeCall) :
    pushRun cfg b calls =
      runSamples TreeNode.stat (treeSample cfg) b (calls.map TreeCall.round) := by
  induction calls generalizing b with
  | nil => rfl
  | cons call calls ih =>
      rw [pushRun, pushTree_eq cfg _ _ _ call.distinct, ← TreeCall.round, List.map_cons]
      cases call.round with
      | none => simp only [runSamples, ih]
      | some r => simp only [runSamples, ih]

/-! ## The loop in `main` -/

/-- What a turn of the loop finds; it ends the loop where a part is missing. -/
structure MonitorTurn where
  totals : Option CpuTotals
  proc : Proc
  root : Int32
  fuel : ℕ

def MonitorTurn.walk (turn : MonitorTurn) : Option (Walk ProcSnapshot) :=
  mainWalk turn.proc turn.fuel (Walk.start turn.root)

theorem MonitorTurn.distinct (turn : MonitorTurn) :
    ∀ w ∈ turn.walk, (w.nodes.map ProcSnapshot.pid).Nodup :=
  fun _ hw => turn.proc.nodup_snaps_of_mainWalk hw

def MonitorTurn.round (turn : MonitorTurn) : Option (Round ProcSnapshot.pid) :=
  Round.ofWalk ProcSnapshot.pid turn.totals turn.walk true turn.distinct

/-- The samples of each completed turn. -/
def monitorRun (cfg : MonitorConfig) (b : Baseline) : List MonitorTurn → List (List MonitorSample)
  | [] => []
  | turn :: turns =>
      match turn.walk.bind fun w => monitorRound cfg turn.totals w.nodes b with
      | none => []
      | some (b, samples) => samples :: monitorRun cfg b turns

/-- The rounds up to the end of the loop. -/
def monitorRounds : List MonitorTurn → List (Option (Round ProcSnapshot.pid))
  | [] => []
  | turn :: turns =>
      match turn.round with
      | none => []
      | some r => some r :: monitorRounds turns

theorem monitorRound_eq (cfg : MonitorConfig) (totals : Option CpuTotals)
    (walk : Option (Walk ProcSnapshot))
    (distinct : ∀ w ∈ walk, (w.nodes.map ProcSnapshot.pid).Nodup) (b : Baseline) :
    (walk.bind fun w => monitorRound cfg totals w.nodes b) =
      (Round.ofWalk ProcSnapshot.pid totals walk true distinct).map fun r =>
        roundSamples ProcSnapshot.stat (monitorSample cfg) r b := by
  cases walk with
  | none => cases totals <;> rfl
  | some w => cases totals <;> rfl

theorem monitorRun_eq (cfg : MonitorConfig) (b : Baseline) (turns : List MonitorTurn) :
    monitorRun cfg b turns =
      runSamples ProcSnapshot.stat (monitorSample cfg) b (monitorRounds turns) := by
  induction turns generalizing b with
  | nil => rfl
  | cons turn turns ih =>
      rw [monitorRun, monitorRound_eq cfg _ _ turn.distinct, ← MonitorTurn.round, monitorRounds]
      cases turn.round with
      | none => rfl
      | some r => simp only [Option.map_some, runSamples, ih]

/-! ## CPU time per process and round -/

theorem treeSample_injective (cfg : WrapConfig) (n : TreeNode) :
    (treeSample cfg n).Injective :=
  fun _ _ h => congrArg TreeSample.usage h

theorem monitorSample_injective (cfg : MonitorConfig) (n : ProcSnapshot) :
    (monitorSample cfg n).Injective :=
  fun _ _ h => congrArg MonitorSample.usage h

theorem pushRun_right_iff (cfg : WrapConfig) (totPrev : CpuTotals) {calls : List TreeCall}
    (hgrows : Grows TreeNode.stat [] (calls.map TreeCall.round)) :
    RunRight TreeNode.stat (treeSample cfg) [] (calls.map TreeCall.round)
        (pushRun cfg ⟨[], totPrev⟩ calls) ↔
      RunTraceable TreeNode.stat [] (calls.map TreeCall.round) := by
  rw [pushRun_eq]
  exact runRight_iff (treeSample_injective cfg) (Tracks.start totPrev) hgrows

/-- A shell with pid 5 and its child with pid 6. -/
def buildTree (child : Bytes) : Proc where
  stat := fun p =>
    if p = 5 then some (bytes "5 (make) S 1 5 5 0 -1 0 0 0 0 0 1 1 0 0 20 0 1 0 90 0 0\n")
    else some child
  status := fun _ => ⟨0, 1⟩
  tasks := fun p => some [decimalInt p.toInt]
  lists := fun p _ => some (if p = 5 then bytes "6 " else [])

def buildTotals (user : UInt64) : CpuTotals :=
  { user := user, nice := 0, system := 0, idle := 0, iowait := 0, irq := 0, softirq := 0,
    steal := 0 }

/-- The baseline call and the call after it; pid 6 is a new process at the second. -/
def reusedCalls : List TreeCall :=
  [ { totals := some (buildTotals 100)
      proc := buildTree (bytes "6 (cc) R 5 5 5 0 -1 0 0 0 0 0 2 1 0 0 20 0 1 0 95 0 0\n")
      root := 5, fuel := 2, skipPush := true },
    { totals := some (buildTotals 120)
      proc := buildTree (bytes "6 (cc) R 5 5 5 0 -1 0 0 0 0 0 7 1 0 0 20 0 1 0 99 0 0\n")
      root := 5, fuel := 2, skipPush := false } ]

/-- Pid, time and start time. -/
def TreeNode.counters (n : TreeNode) : Int32 × UInt64 × UInt64 :=
  (n.pid, n.stat.procTime, n.stat.starttime)

theorem reusedCalls_rounds :
    ∃ r r', reusedCalls.map TreeCall.round = [some r, some r'] ∧
      r.nodes.map TreeNode.counters = [(5, 2, 90), (6, 3, 95)] ∧
      r'.nodes.map TreeNode.counters = [(5, 2, 90), (6, 8, 99)] ∧ r'.reported = true := by
  have hrounds : (reusedCalls.map TreeCall.round).map
        (fun r => r.map fun r => (r.nodes.map TreeNode.counters, r.reported)) =
      [some ([(5, 2, 90), (6, 3, 95)], false), some ([(5, 2, 90), (6, 8, 99)], true)] := by
    decide +kernel
  rw [reusedCalls] at hrounds ⊢
  simp only [List.map_cons, List.map_nil, List.cons.injEq, and_true, Option.map_eq_some_iff,
    Prod.mk.injEq] at hrounds ⊢
  obtain ⟨⟨r, hr, hnodes, -⟩, r', hr', hnodes', hreported⟩ := hrounds
  exact ⟨r, r', ⟨hr, hr'⟩, hnodes, hnodes', hreported⟩

theorem reusedCalls_grows : Grows TreeNode.stat [] (reusedCalls.map TreeCall.round) := by
  obtain ⟨r, r', hrounds, hnodes, hnodes', -⟩ := reusedCalls_rounds
  rw [hrounds]
  refine ⟨fun _ h => absurd h List.not_mem_nil, ?_, trivial⟩
  intro x hx m hm n hn hsame
  obtain rfl := List.mem_singleton.mp hx
  have hm' := List.mem_map_of_mem (f := TreeNode.counters) hm
  have hn' := List.mem_map_of_mem (f := TreeNode.counters) hn
  rw [hnodes] at hm'
  rw [hnodes'] at hn'
  have hcheck : ∀ a ∈ [((5 : Int32), (2 : UInt64), (90 : UInt64)), (6, 3, 95)],
      ∀ b ∈ [((5 : Int32), (2 : UInt64), (90 : UInt64)), (6, 8, 99)],
        a.1 = b.1 ∧ a.2.2 = b.2.2 → a.2.1 ≤ b.2.1 := by
    simp
  exact hcheck _ hm' _ hn' hsame

def buildConfig : WrapConfig where
  label := bytes "build"
  label_valid := by decide
  createdStamp := CStr.copy 32 (bytes "_20260510143052")
  ncpu := 4
  pageKb := 4

theorem grows_monitorRounds_singleton (turn : MonitorTurn) :
    Grows ProcSnapshot.stat [] (monitorRounds [turn]) := by
  rw [monitorRounds]
  cases turn.round with
  | none => trivial
  | some r => exact ⟨fun _ h => absurd h List.not_mem_nil, trivial⟩

/-- The samples of a run of either program are right, each for its process and interval, exactly
when all reported processes are traceable. -/
theorem samplesRight_iff_traceable (wrapCfg : WrapConfig) (monitorCfg : MonitorConfig)
    (totPrev : CpuTotals) {calls : List TreeCall}
    (hcalls : Grows TreeNode.stat [] (calls.map TreeCall.round)) {turns : List MonitorTurn}
    (hturns : Grows ProcSnapshot.stat [] (monitorRounds turns)) :
    (RunRight TreeNode.stat (treeSample wrapCfg) [] (calls.map TreeCall.round)
          (pushRun wrapCfg ⟨[], totPrev⟩ calls) ↔
        RunTraceable TreeNode.stat [] (calls.map TreeCall.round)) ∧
      (RunRight ProcSnapshot.stat (monitorSample monitorCfg) [] (monitorRounds turns)
          (monitorRun monitorCfg ⟨[], totPrev⟩ turns) ↔
        RunTraceable ProcSnapshot.stat [] (monitorRounds turns)) := by
  constructor
  · exact pushRun_right_iff wrapCfg totPrev hcalls
  · rw [monitorRun_eq]
    exact runRight_iff (monitorSample_injective monitorCfg) (Tracks.start totPrev) hturns

theorem samplesRight_iff_traceable_reusedCalls :
    let turn : MonitorTurn :=
      { totals := some (buildTotals 100), proc := buildTree [], root := 5, fuel := 2 }
    let monitorCfg : MonitorConfig := { pidPosfix := CStr.copy 32 [], ncpu := 4, pageKb := 4 }
    (RunRight TreeNode.stat (treeSample buildConfig) [] (reusedCalls.map TreeCall.round)
          (pushRun buildConfig ⟨[], buildTotals 90⟩ reusedCalls) ↔
        RunTraceable TreeNode.stat [] (reusedCalls.map TreeCall.round)) ∧
      (RunRight ProcSnapshot.stat (monitorSample monitorCfg) [] (monitorRounds [turn])
          (monitorRun monitorCfg ⟨[], buildTotals 90⟩ [turn]) ↔
        RunTraceable ProcSnapshot.stat [] (monitorRounds [turn])) :=
  samplesRight_iff_traceable buildConfig _ (buildTotals 90) reusedCalls_grows
    (grows_monitorRounds_singleton _)

/-- The new process is reported with the 5 ticks by which it is ahead of the old one. -/
theorem not_right_reusedCalls :
    Grows TreeNode.stat [] (reusedCalls.map TreeCall.round) ∧
      ¬ RunRight TreeNode.stat (treeSample buildConfig) [] (reusedCalls.map TreeCall.round)
        (pushRun buildConfig ⟨[], buildTotals 90⟩ reusedCalls) := by
  refine ⟨reusedCalls_grows, ?_⟩
  rw [pushRun_right_iff buildConfig _ reusedCalls_grows]
  obtain ⟨r, r', hrounds, hnodes, hnodes', hreported⟩ := reusedCalls_rounds
  rw [hrounds]
  rintro ⟨-, htraceable, -⟩
  obtain ⟨m, hm, hold⟩ : ∃ m ∈ r.nodes, m.counters = (6, 3, 95) :=
    List.mem_map.mp (by simp [hnodes])
  obtain ⟨n, hn, hnew⟩ : ∃ n ∈ r'.nodes, n.counters = (6, 8, 99) :=
    List.mem_map.mp (by simp [hnodes'])
  simp only [TreeNode.counters, Prod.mk.injEq] at hold hnew
  have hlast : lastSample [r] n.pid = some m := by
    rw [lastSample_cons, hnew.1, ← hold.1, r.nodeOf_pid hm]
  rcases htraceable hreported n hn m hlast with ⟨_, -, -, -, hstart⟩ | htime
  · rw [hold.2.2, hnew.2.2] at hstart
    cases hstart
  · rw [hold.2.1, hnew.2.1] at htime
    exact absurd htime (by decide)

end ProcWatch

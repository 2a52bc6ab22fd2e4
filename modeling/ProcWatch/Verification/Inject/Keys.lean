import ProcWatch.Verification.Inject.Attrs
import ProcWatch.Verification.Proc.Deltas

/-! # Keys of process instances -/

namespace ProcWatch

open CLib

/-! ## Keys -/

theorem plain_of_mem_decimalInt {n : ℤ} {b : Byte} (h : b ∈ decimalInt n) :
    b ≠ 0 ∧ b ≠ 0x2c := by
  have hdigit : ∀ b : Byte, isDigit b = true → b ≠ 0 ∧ b ≠ 0x2c := by decide +kernel
  cases mem_decimalInt h with
  | inl h =>
      rw [h]
      decide
  | inr h => exact hdigit b h

/-- A pid and a stamp fit the buffer for the key. -/
theorem copy_key (pid : Int32) (stamp : CStr 32) :
    (CStr.copy 64 (decimalInt pid.toInt ++ stamp.val)).val =
      decimalInt pid.toInt ++ stamp.val := by
  apply CStr.copy_val_of_fits
  · intro h0
    cases List.mem_append.mp h0 with
    | inl h => exact (plain_of_mem_decimalInt h).1 rfl
    | inr h => exact stamp.nulFree h
  · have hlo := pid.le_toInt
    have hhi := pid.toInt_lt
    have hpid : (decimalInt pid.toInt).length ≤ 10 + 1 :=
      length_decimalInt_le (by decide) (by omega)
    have hstamp := stamp.length_lt
    rw [List.length_append]
    omega

theorem pidKey_val (pid : Int32) (stamp : CStr 32) :
    (pidKey pid stamp.val).val = decimalInt pid.toInt ++ stamp.val := by
  rw [← copy_key, pidKey]
  split
  · next h => rw [h, List.append_nil]
  · rfl

/-- For one stamp, keys tell pids apart. -/
theorem pidKey_inj {stamp : CStr 32} {p q : Int32} :
    pidKey p stamp.val = pidKey q stamp.val ↔ p = q := by
  constructor
  · intro h
    have hval := congrArg CStr.val h
    rw [pidKey_val, pidKey_val, List.append_left_inj] at hval
    exact Int32.toInt_inj.mp (decimalInt_injective hval)
  · exact fun h => h ▸ rfl

/-! ## The attribute and the rows of one process -/

/-- An injected Java or Python process: its attributes when the key is attached, and the times at
which the constructor and the metric thread read the clock. -/
structure Injected where
  cfg : InjectConfig
  pid : Int32
  attrs : Option Bytes
  constructedAt : ℤ
  threadAt : ℤ

/-- The attributes hold a key and no other. -/
def Carries (attrs : Option Bytes) (key : Bytes) : Prop :=
  attrValues (bytes "procwatch.pid_key") attrs ≠ [] ∧
    ∀ v ∈ attrValues (bytes "procwatch.pid_key") attrs, v = key

namespace Injected

variable (cal : Calendar) (p : Injected)

/-- The key at the time of the constructor. -/
def attachedKey : Bytes :=
  decimalInt p.pid.toInt ++ (cal.stamp p.constructedAt).val

/-- The rows of the metric thread, over what its samplings read. -/
def rows (files : List PidFiles) : List MetricRow :=
  metricsLoop p.cfg p.pid (cal.stamp p.threadAt) files

/-- The attributes that the constructor leaves hold the key of every row. -/
def KeysAgree : Prop :=
  ∀ files, ∀ row ∈ p.rows cal files,
    Carries (attachPidKeyToOtel p.pid (cal.stamp p.constructedAt) p.attrs) row.pidKey.val

/-- Both clock readings give one stamp; where the attributes have no room for the key, the
inherited ones hold it. -/
def SameStamp : Prop :=
  if AttrFits (bytes "procwatch.pid_key") (p.attachedKey cal) p.attrs then
    cal.stamp p.constructedAt = cal.stamp p.threadAt
  else Carries p.attrs (decimalInt p.pid.toInt ++ (cal.stamp p.threadAt).val)

variable {cal p}

theorem attachedKey_plain : (0 : Byte) ∉ p.attachedKey cal ∧ 0x2c ∉ p.attachedKey cal := by
  constructor
  · intro h0
    cases List.mem_append.mp h0 with
    | inl h => exact (plain_of_mem_decimalInt h).1 rfl
    | inr h => exact (cal.stamp p.constructedAt).nulFree h
  · intro hcomma
    cases List.mem_append.mp hcomma with
    | inl h => exact (plain_of_mem_decimalInt h).2 rfl
    | inr h => exact cal.comma_free _ h

/-- What is attached behind the key leaves its values. -/
theorem carries_attached {key : Bytes} :
    Carries (attachPidKeyToOtel p.pid (cal.stamp p.constructedAt) p.attrs) key ↔
      Carries (setResourceAttr (bytes "procwatch.pid_key") (p.attachedKey cal) p.attrs) key := by
  have hother := @attrValues_setResourceAttr_of_ne (bytes "service.instance.id")
    (p.attachedKey cal)
    (setResourceAttr (bytes "procwatch.pid_key") (p.attachedKey cal) p.attrs)
    (by decide) p.attachedKey_plain (bytes "procwatch.pid_key") (by decide) (by decide)
  rw [attachPidKeyToOtel, copy_key, Carries, ← attachedKey, hother]
  rfl

theorem samplePid_pid {ncpu : ℤ} {pageKb : Int64} {pid : Int32} {files : PidFiles}
    {base : Option PidBaseline} {r : PidBaseline × PidSample}
    (h : samplePid ncpu pageKb pid files base = some r) : r.2.pid = pid := by
  rw [samplePid] at h
  split at h
  · cases h
  · rw [← Option.some.inj h]

theorem metricsRows_pidKey {cfg : InjectConfig} {pid : Int32} {stamp : CStr 32}
    {base : Option PidBaseline} {files : List PidFiles} {row : MetricRow}
    (h : row ∈ metricsRows cfg pid stamp base files) : row.pidKey = pidKey pid stamp.val := by
  induction files generalizing base with
  | nil => cases h
  | cons f files ih =>
      rw [metricsRows] at h
      split at h
      · exact ih h
      · next base s hsample =>
          have hpid : s.pid = pid := samplePid_pid hsample
          dsimp only at h
          split at h
          · cases List.mem_cons.mp h with
            | inl h => rw [h, hpid]
            | inr h => exact ih h
          · exact ih h

theorem rows_pidKey {files : List PidFiles} {row : MetricRow} (h : row ∈ p.rows cal files) :
    row.pidKey = pidKey p.pid (cal.stamp p.threadAt).val := by
  cases files with
  | nil => cases h
  | cons f files => exact metricsRows_pidKey h

/-- The thread pushes a row when it can read the files. -/
theorem exists_row (cal : Calendar) (p : Injected) : ∃ files, ∃ row, row ∈ p.rows cal files := by
  let files : PidFiles :=
    { stat := some (bytes "1 (java) S 0 1 1 0 -1 0 0 0 0 0 5 6 0 0 20 0 1 0 99 0 0")
      status := none, procStat := none }
  have hread : (parseStat files.stat 64).isSome = true := by decide
  obtain ⟨stat, hstat⟩ := Option.isSome_iff_exists.mp hread
  obtain ⟨r, hsample⟩ : ∃ r, samplePid p.cfg.ncpu p.cfg.pageKb p.pid files
      ((samplePid p.cfg.ncpu p.cfg.pageKb p.pid files none).map Prod.fst) = some r := by
    rw [samplePid, hstat]
    exact ⟨_, rfl⟩
  have hlabel : pwLabelValid (CStr.copy 100 p.cfg.label).val = true := by
    rw [copy_label_of_valid p.cfg.label_valid]
    exact p.cfg.label_valid
  refine ⟨[files, files], ?_⟩
  rw [rows, metricsLoop, metricsRows, hsample]
  simp only [hlabel, if_true]
  exact ⟨_, List.mem_cons_self⟩

theorem keysAgree_iff_sameStamp : p.KeysAgree cal ↔ p.SameStamp cal := by
  have hkey : p.KeysAgree cal ↔
      Carries (setResourceAttr (bytes "procwatch.pid_key") (p.attachedKey cal) p.attrs)
        (decimalInt p.pid.toInt ++ (cal.stamp p.threadAt).val) := by
    rw [KeysAgree]
    constructor
    · intro h
      obtain ⟨files, row, hrow⟩ := exists_row cal p
      have hcarries := carries_attached.mp (h files row hrow)
      rwa [rows_pidKey hrow, pidKey_val] at hcarries
    · intro h files row hrow
      rw [rows_pidKey hrow, pidKey_val]
      exact carries_attached.mpr h
  rw [hkey, SameStamp]
  split
  · next hfits =>
      have hset := attrValues_setResourceAttr_self (by decide) p.attachedKey_plain hfits
      have hvalues : Carries (setResourceAttr (bytes "procwatch.pid_key") (p.attachedKey cal)
          p.attrs) (decimalInt p.pid.toInt ++ (cal.stamp p.threadAt).val) ↔
          p.attachedKey cal = decimalInt p.pid.toInt ++ (cal.stamp p.threadAt).val := by
        obtain ⟨v, hv⟩ := List.exists_mem_of_ne_nil _ hset.1
        constructor
        · exact fun h => (hset.2 v hv).symm.trans (h.2 v hv)
        · exact fun h => ⟨hset.1, fun v hv => (hset.2 v hv).trans h⟩
      rw [hvalues, attachedKey, List.append_right_inj]
      exact CStr.ext_iff.symm
  · next hfull =>
      rw [setResourceAttr_eq (by decide), if_neg hfull]

end Injected

/-! ## The keys of one run of `procwatch-wrap` -/

/-- Process `n` of a round is reported under a key. -/
def Reports (rounds : List (Option (Round TreeNode.pid))) (samples : List (List TreeSample))
    (n : TreeNode) (key : CStr 64) : Prop :=
  ∃ r reported, (some r, reported) ∈ rounds.zip samples ∧ n ∈ r.nodes ∧
    ∃ s ∈ reported, s.pid = n.pid ∧ s.pidKey = key

/-- No two instances are reported under one key. -/
def KeysDistinct (cfg : WrapConfig) (b : Baseline) (calls : List TreeCall) : Prop :=
  ∀ m n key, Reports (calls.map TreeCall.round) (pushRun cfg b calls) m key →
    Reports (calls.map TreeCall.round) (pushRun cfg b calls) n key →
      SameInstance TreeNode.pid TreeNode.stat m n

def IsReported (rounds : List (Option (Round TreeNode.pid))) (n : TreeNode) : Prop :=
  ∃ r, some r ∈ rounds ∧ r.reported = true ∧ n ∈ r.nodes

/-- A pid belongs to one instance among the reported processes. -/
def NoReuse (calls : List TreeCall) : Prop :=
  ∀ m n, IsReported (calls.map TreeCall.round) m → IsReported (calls.map TreeCall.round) n →
    m.pid = n.pid → m.stat.starttime = n.stat.starttime

theorem mem_roundSamples {cfg : WrapConfig} {r : Round TreeNode.pid} {b : Baseline} {n : TreeNode}
    (hn : n ∈ r.nodes) {key : CStr 64} :
    (∃ s ∈ (roundSamples TreeNode.stat (treeSample cfg) r b).2, s.pid = n.pid ∧ s.pidKey = key) ↔
      r.reported = true ∧ key = pidKey n.pid cfg.createdStamp.val := by
  rw [roundSamples]
  cases hreported : r.reported with
  | false => simp
  | true =>
      simp only [if_true, (processDeltas_spec TreeNode.stat r.distinct _).1, List.map_map,
        List.mem_map, Function.comp_apply, true_and]
      constructor
      · rintro ⟨s, ⟨m, -, rfl⟩, hpid, rfl⟩
        have hpid' : m.pid = n.pid := hpid
        rw [treeSample, hpid']
      · rintro rfl
        exact ⟨_, ⟨n, hn, rfl⟩, rfl, rfl⟩

theorem reports_cons {r : Round TreeNode.pid} {rounds : List (Option (Round TreeNode.pid))}
    {reported : List TreeSample} {samples : List (List TreeSample)} {n : TreeNode}
    {key : CStr 64} :
    Reports (some r :: rounds) (reported :: samples) n key ↔
      (n ∈ r.nodes ∧ ∃ s ∈ reported, s.pid = n.pid ∧ s.pidKey = key) ∨
        Reports rounds samples n key := by
  constructor
  · rintro ⟨r', reported', hmem, hn, hs⟩
    rw [List.zip_cons_cons, List.mem_cons, Prod.mk.injEq, Option.some.injEq] at hmem
    rcases hmem with ⟨rfl, rfl⟩ | hmem
    · exact .inl ⟨hn, hs⟩
    · exact .inr ⟨r', reported', hmem, hn, hs⟩
  · rintro (⟨hn, hs⟩ | ⟨r', reported', hmem, hn, hs⟩)
    · exact ⟨r, reported, List.mem_cons_self, hn, hs⟩
    · exact ⟨r', reported', List.mem_cons_of_mem _ hmem, hn, hs⟩

theorem isReported_cons {r : Round TreeNode.pid} {rounds : List (Option (Round TreeNode.pid))}
    {n : TreeNode} :
    IsReported (some r :: rounds) n ↔ (r.reported = true ∧ n ∈ r.nodes) ∨ IsReported rounds n := by
  constructor
  · rintro ⟨r', hmem, hr⟩
    rw [List.mem_cons, Option.some.injEq] at hmem
    rcases hmem with rfl | hmem
    · exact .inl hr
    · exact .inr ⟨r', hmem, hr⟩
  · rintro (hr | ⟨r', hmem, hr⟩)
    · exact ⟨r, List.mem_cons_self, hr⟩
    · exact ⟨r', List.mem_cons_of_mem _ hmem, hr⟩

/-- The samples of a run are those of the reported processes, each under the key of its pid. -/
theorem reports_iff {cfg : WrapConfig} {b : Baseline} {rounds : List (Option (Round TreeNode.pid))}
    {n : TreeNode} {key : CStr 64} :
    Reports rounds (runSamples TreeNode.stat (treeSample cfg) b rounds) n key ↔
      IsReported rounds n ∧ key = pidKey n.pid cfg.createdStamp.val := by
  induction rounds generalizing b with
  | nil => simp [Reports, IsReported]
  | cons round rounds ih =>
      cases round with
      | none =>
          have hreports : Reports (none :: rounds)
              ([] :: runSamples TreeNode.stat (treeSample cfg) b rounds) n key ↔
              Reports rounds (runSamples TreeNode.stat (treeSample cfg) b rounds) n key := by
            simp [Reports]
          have hreported : IsReported (none :: rounds) n ↔ IsReported rounds n := by
            simp [IsReported]
          rw [runSamples, hreports, hreported, ih]
      | some r =>
          rw [runSamples, reports_cons, isReported_cons, ih, or_and_right]
          refine or_congr ?_ Iff.rfl
          rw [and_comm (a := r.reported = true), and_assoc]
          exact and_congr_right fun hn => mem_roundSamples hn

theorem keysDistinct_iff_noReuse {cfg : WrapConfig} {b : Baseline} {calls : List TreeCall} :
    KeysDistinct cfg b calls ↔ NoReuse calls := by
  simp only [KeysDistinct, NoReuse, pushRun_eq, reports_iff]
  constructor
  · intro h m n hm hn hpid
    exact (h m n (pidKey m.pid cfg.createdStamp.val) ⟨hm, rfl⟩ ⟨hn, by rw [hpid]⟩).2
  · rintro h m n key ⟨hm, rfl⟩ ⟨hn, hkey⟩
    have hpid : m.pid = n.pid := pidKey_inj.mp hkey
    exact ⟨hpid, h m n hm hn hpid⟩

/-! ## Keys identify instances -/

/-- Keys identify instances exactly when the constructor and the thread of each injected process
read the same second and no pid is reused among the processes that a run reports. -/
theorem keysIdentify_iff (cal : Calendar) (injected : List Injected) (cfg : WrapConfig)
    (b : Baseline) (calls : List TreeCall) :
    (∀ p ∈ injected, p.KeysAgree cal) ∧ KeysDistinct cfg b calls ↔
      (∀ p ∈ injected, p.SameStamp cal) ∧ NoReuse calls :=
  and_congr (forall₂_congr fun _ _ => Injected.keysAgree_iff_sameStamp) keysDistinct_iff_noReuse

/-- Year, month and day, so many days after the first of January 1970. Years are counted from March
on, in eras of 400. -/
def civilDate (days : ℤ) : ℤ × ℤ × ℤ :=
  let era := (days + 719468) / 146097
  let dayOfEra := (days + 719468) % 146097
  let yearOfEra :=
    (dayOfEra - dayOfEra / 1460 + dayOfEra / 36524 - dayOfEra / 146096) / 365
  let dayOfYear := dayOfEra - (365 * yearOfEra + yearOfEra / 4 - yearOfEra / 100)
  let monthFromMarch := (5 * dayOfYear + 2) / 153
  let day := dayOfYear - (153 * monthFromMarch + 2) / 5 + 1
  let month := if monthFromMarch < 10 then monthFromMarch + 3 else monthFromMarch - 9
  (era * 400 + yearOfEra + if month ≤ 2 then 1 else 0, month, day)

/-- `%02d` -/
def twoDigits (n : ℤ) : Bytes :=
  if n < 10 then 0x30 :: decimalInt n else decimalInt n

/-- `_%Y%m%d%H%M%S` of a time without an offset from UTC. -/
def utcStamp (t : ℤ) : Bytes :=
  let date := civilDate (t / 86400)
  0x5f :: (decimalInt date.1 ++ twoDigits date.2.1 ++ twoDigits date.2.2 ++
    twoDigits (t % 86400 / 3600) ++ twoDigits (t % 86400 / 60 % 60) ++ twoDigits (t % 60))

example : utcStamp 1785864412 = bytes "_20260804172652" := by decide +kernel

theorem comma_notMem_twoDigits (n : ℤ) : 0x2c ∉ twoDigits n := by
  have hnumber : 0x2c ∉ decimalInt n := fun h => (plain_of_mem_decimalInt h).2 rfl
  rw [twoDigits]
  split
  · exact List.not_mem_cons_of_ne_of_not_mem (by decide) hnumber
  · exact hnumber

theorem comma_notMem_utcStamp (t : ℤ) : 0x2c ∉ (CStr.copy 32 (utcStamp t)).val := by
  have hstamp : 0x2c ∉ utcStamp t := by
    have hyear : 0x2c ∉ decimalInt (civilDate (t / 86400)).1 :=
      fun h => (plain_of_mem_decimalInt h).2 rfl
    simp [utcStamp, hyear, comma_notMem_twoDigits]
  intro h
  exact hstamp ((List.takeWhile_prefix _).subset (List.mem_of_mem_take h))

def utcCalendar : Calendar where
  stamp := fun t => CStr.copy 32 (utcStamp t)
  comma_free := comma_notMem_utcStamp

/-- A process whose thread starts a second after its constructor. -/
def slowStart : Injected where
  cfg := { label := bytes "shop", label_valid := by decide, ncpu := 4, pageKb := 4 }
  pid := 7
  attrs := none
  constructedAt := 1785864412
  threadAt := 1785864413

theorem not_keysAgree_slowStart : ¬ slowStart.KeysAgree utcCalendar := by
  rw [Injected.keysAgree_iff_sameStamp, Injected.SameStamp, if_pos (by decide +kernel)]
  decide +kernel

end ProcWatch

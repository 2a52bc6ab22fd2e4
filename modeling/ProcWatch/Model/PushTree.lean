import ProcWatch.Model.ProcPush
import ProcWatch.Model.ProcTree

/-! # Sampling rounds over a process tree (`main.c`, `wrap.c`) -/

namespace ProcWatch

open CLib

/-! ## The table of previous samples -/

/-- `prev_sample_t` -/
structure PrevSample where
  pid : Int32
  procTime : UInt64
  seen : Bool
  deriving DecidableEq

/-- The loop over the table for one process: the table afterwards and `delta_proc`. -/
def updatePrev : List PrevSample → Int32 → UInt64 → List PrevSample × UInt64
  | [], pid, procTime => ([{ pid := pid, procTime := procTime, seen := true }], 0)
  | e :: prev, pid, procTime =>
      if e.pid = pid then
        ({ e with seen := true, procTime := procTime } :: prev,
          if e.procTime ≤ procTime then procTime - e.procTime else 0)
      else
        let r := updatePrev prev pid procTime
        (e :: r.1, r.2)

/-- `stat.utime + stat.stime` -/
def ProcStat.procTime (stat : ProcStat) : UInt64 :=
  stat.utime + stat.stime

/-- The loop over the processes of a round, each with its `delta_proc`. -/
def processDeltas {ν : Type} (pid : ν → Int32) (stat : ν → ProcStat) :
    List ν → List PrevSample → List PrevSample × List (ν × UInt64)
  | [], prev => (prev, [])
  | n :: nodes, prev =>
      let r := updatePrev prev (pid n) (stat n).procTime
      let rest := processDeltas pid stat nodes r.1
      (rest.1, (n, r.2) :: rest.2)

def clearSeen (prev : List PrevSample) : List PrevSample :=
  prev.map fun e => { e with seen := false }

/-- What a round leaves for the next one. -/
structure Baseline where
  prev : List PrevSample
  totPrev : CpuTotals

/-! ## Samples -/

/-- The operands of `cpu_pct`. -/
structure Usage where
  deltaProc : UInt64
  deltaTot : UInt64
  deriving DecidableEq

def Usage.cpuPct (u : Usage) (ncpu : ℤ) : Double :=
  if 0 < u.deltaTot then
    Double.mul
      (Double.div (Double.mul (Double.ofNat 100) (Double.ofNat u.deltaProc.toNat))
        (Double.ofNat u.deltaTot.toNat))
      (Double.ofInt ncpu)
  else Double.ofNat 0

/-- The counters of `pw_proc_sample_t`, its names and its key. -/
structure TreeSample where
  label : CStr 100
  comm : CStr 64
  pidKey : CStr 64
  pid : Int32
  usage : Usage
  cpuPct : Double
  rssKb : Int64
  threads : Int64

/-- What stays the same over a run of `procwatch-wrap`, which ends at once without a valid
label. -/
structure WrapConfig where
  label : Bytes
  label_valid : pwLabelValid label = true
  createdStamp : CStr 32
  ncpu : ℤ
  pageKb : Int64

/-- The sample of a node in `push_tree`. -/
def treeSample (cfg : WrapConfig) (n : TreeNode) (u : Usage) : TreeSample where
  label := CStr.copy 100 cfg.label
  comm := CStr.copy 64 n.comm.val
  pidKey := pidKey n.pid cfg.createdStamp.val
  pid := n.pid
  usage := u
  cpuPct := u.cpuPct cfg.ncpu
  rssKb := if 0 < n.status.vmrssKb then n.status.vmrssKb else n.stat.rss * cfg.pageKb
  threads := if 0 < n.status.threads then n.status.threads else n.stat.numThreads

/-- `push_tree(...)`, on what `parse_cpu_totals` and `snapshot_tree` return; the samples are
those handed to `pw_push_sample`. -/
def pushTree (cfg : WrapConfig) (totals : Option CpuTotals) (nodes : Option (List TreeNode))
    (skipPush : Bool) (b : Baseline) : Baseline × List TreeSample :=
  match totals, nodes with
  | some totNow, some nodes =>
      let deltaTot := cpuTotalsSum totNow - cpuTotalsSum b.totPrev
      let r := processDeltas TreeNode.pid TreeNode.stat nodes (clearSeen b.prev)
      let samples := r.2.map fun n => treeSample cfg n.1 ⟨n.2, deltaTot⟩
      ({ prev := r.1, totPrev := totNow },
        if skipPush then [] else samples.filter fun s => pwLabelValid s.label.val)
  | _, _ => (b, [])

/-- A sample of the loop in `main`, with the operands of its `cpu`. -/
structure MonitorSample where
  usage : Usage
  sample : Sample

structure MonitorConfig where
  pidPosfix : CStr 32
  ncpu : ℤ
  pageKb : Int64

def monitorSample (cfg : MonitorConfig) (n : ProcSnapshot) (u : Usage) : MonitorSample where
  usage := u
  sample :=
    { pid := CStr.copy 128 (CStr.copy 64 (decimalInt n.pid.toInt ++ cfg.pidPosfix.val)).val
      cpu := u.cpuPct cfg.ncpu
      rss := if 0 < n.status.vmrssKb then n.status.vmrssKb else n.stat.rss * cfg.pageKb }

/-- One turn of the loop in `main` from its `parse_cpu_totals` on, `none` where the loop ends. -/
def monitorRound (cfg : MonitorConfig) (totals : Option CpuTotals) (snaps : List ProcSnapshot)
    (b : Baseline) : Option (Baseline × List MonitorSample) :=
  match totals with
  | none => none
  | some totNow =>
      let deltaTot := cpuTotalsSum totNow - cpuTotalsSum b.totPrev
      let r := processDeltas ProcSnapshot.pid ProcSnapshot.stat snaps (clearSeen b.prev)
      some ({ prev := r.1, totPrev := totNow },
        r.2.map fun n => monitorSample cfg n.1 ⟨n.2, deltaTot⟩)

end ProcWatch

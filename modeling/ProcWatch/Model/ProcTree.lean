import ProcWatch.Library.Double
import ProcWatch.Library.Traversal
import ProcWatch.Model.ProcScan
import ProcWatch.Model.Records

/-! # Walking and sampling a process tree (`main.c`, `wrap.c`) -/

namespace ProcWatch

open CLib

/-! ## The walks -/

/-- The counters of `proc_status_t` that are used. -/
structure ProcStatus where
  vmrssKb : Int64
  threads : Int64

/-- What `/proc` answers about each pid during a walk: the contents of its `stat`, what
`read_proc_status` stores, the names in its `task` directory and each task's list. -/
structure Proc where
  stat : Int32 → Option Bytes
  status : Int32 → ProcStatus
  tasks : Int32 → Option (List Bytes)
  lists : Int32 → Int64 → Option Bytes

/-- The children of `cur` that a walk gets to see. -/
def Proc.kids (proc : Proc) (cur : Int32) : List Int32 :=
  let r := readChildrenPids (proc.tasks cur) (proc.lists cur) []
  if r.1 = 0 then r.2 else []

/-- `proc_snapshot_t` -/
structure ProcSnapshot where
  pid : Int32
  ppid : Int32
  stat : ProcStat
  status : ProcStatus

/-- `tree_node_t` -/
structure TreeNode where
  pid : Int32
  stat : ProcStat
  status : ProcStatus
  comm : CStr 64

/-- `pid_seen(pid, queue, q_count, snaps, sn_count)`, on the pids of the snapshots. -/
def pidSeen (pid : Int32) (queue snaps : List Int32) : Bool :=
  queue.any (· == pid) || snaps.any (· == pid)

/-- The loop over the children of a process. -/
def queueKids (kids snaps queue : List Int32) : List Int32 :=
  kids.foldl (fun queue kid => if pidSeen kid queue snaps then queue else queue ++ [kid]) queue

/-- `queue`, `q_head` and the processes recorded so far. -/
structure Walk (ν : Type) where
  queue : List Int32
  head : ℕ
  nodes : List ν

def Walk.start {ν : Type} (root : Int32) : Walk ν :=
  { queue := [root], head := 0, nodes := [] }

/-- `(pid_t)stbuf.ppid` -/
def ProcStat.parent (stat : ProcStat) : Int32 :=
  stat.ppid.toUInt32.toInt32

instance neZero1 : NeZero 1 := ⟨by decide⟩

/-- The walk in `main`; it passes no buffer for the command. -/
def mainWalk (proc : Proc) : ℕ → Walk ProcSnapshot → Option (Walk ProcSnapshot)
  | 0, w => if w.head < w.queue.length then none else some w
  | fuel + 1, w =>
      match w.queue[w.head]? with
      | none => some w
      | some cur =>
          let w := { w with head := w.head + 1 }
          match readProcStat (proc.stat cur) 1 with
          | none => mainWalk proc fuel w
          | some (stat, _) =>
              let snap : ProcSnapshot :=
                { pid := cur, ppid := stat.parent, stat := stat, status := proc.status cur }
              let snaps := w.nodes ++ [snap]
              mainWalk proc fuel
                { w with
                  nodes := snaps
                  queue := queueKids (proc.kids cur) (snaps.map ProcSnapshot.pid) w.queue }

/-- The loop of `snapshot_tree`. -/
def snapshotTree (proc : Proc) : ℕ → Walk TreeNode → Option (Walk TreeNode)
  | 0, w => if w.head < w.queue.length then none else some w
  | fuel + 1, w =>
      match w.queue[w.head]? with
      | none => some w
      | some cur =>
          let w := { w with head := w.head + 1 }
          match readProcStat (proc.stat cur) 64 with
          | none => snapshotTree proc fuel w
          | some (stat, comm) =>
              let node : TreeNode :=
                { pid := cur, stat := stat, status := proc.status cur, comm := comm }
              let nodes := w.nodes ++ [node]
              -- `seen_snaps` holds the pids of the nodes
              snapshotTree proc fuel
                { w with
                  nodes := nodes
                  queue := queueKids (proc.kids cur) (nodes.map TreeNode.pid) w.queue }

end ProcWatch

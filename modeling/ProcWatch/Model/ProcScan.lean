import ProcWatch.Library.Scan

/-! # Reading `/proc` (`proc_scan.c`) -/

namespace ProcWatch

open CLib

/-! ## `/proc/stat` -/

/-- `cpu_totals_t` -/
structure CpuTotals where
  user : UInt64
  nice : UInt64
  system : UInt64
  idle : UInt64
  iowait : UInt64
  irq : UInt64
  softirq : UInt64
  steal : UInt64
  deriving DecidableEq

def isDelim (b : Byte) : Bool :=
  b == 0x20

/-- `parse_cpu_totals(t)`, on the contents of `/proc/stat`. -/
def parseCpuTotals (file : Option Bytes) : Option CpuTotals :=
  match file.bind (fgets 1024) with
  | none => none
  | some line =>
      let line := cstr line
      if ¬ bytes "cpu" <+: line then none
      else
        -- the first token is the name of the line
        let v := (((tokens isDelim line).drop 1).take 10).map fun tok => UInt64.ofNat (strtoull tok)
        some
          { user := v.getD 0 0
            nice := v.getD 1 0
            system := v.getD 2 0
            idle := v.getD 3 0
            iowait := v.getD 4 0
            irq := v.getD 5 0
            softirq := v.getD 6 0
            steal := v.getD 7 0 }

def cpuTotalsSum (t : CpuTotals) : UInt64 :=
  t.user + t.nice + t.system + t.idle + t.iowait + t.irq + t.softirq + t.steal

/-! ## `/proc/<pid>/stat` -/

/-- `proc_stat_t` -/
structure ProcStat where
  utime : UInt64
  stime : UInt64
  minflt : UInt64
  majflt : UInt64
  priority : Int64
  nice : Int64
  numThreads : Int64
  starttime : UInt64
  vsize : UInt64
  rss : Int64
  ppid : UInt64
  deriving DecidableEq

/-- The items behind `%c`. -/
def statNumbers : List Directive :=
  [.unsigned, .unsigned, .unsigned, .unsigned, .unsigned, .unsigned,
    .unsigned, .unsigned, .unsigned, .unsigned, .unsigned, .unsigned,
    .unsigned, .unsigned, .signed, .signed, .signed, .unsigned, .unsigned, .signed, .signed]

def statFormat : List Directive :=
  .char :: spaced statNumbers

/-- `read_proc_stat(pid, st, comm_buf, comm_sz)`, on the contents of the process's file. -/
def readProcStat (file : Option Bytes) (commSz : ℕ) [NeZero commSz] :
    Option (ProcStat × CStr commSz) :=
  match file.bind (fgets 4096) with
  | none => none
  | some line =>
      let line := cstr line
      match strrchr line 0x29, strchr line 0x28 with
      | some rparen, some lparen =>
          if rparen < lparen then none
          else
            let clen := rparen - lparen - 1
            let comm := CStr.copy commSz ((line.drop (lparen + 1)).take clen)
            let items := sscanf statFormat (line.drop (rparen + 2))
            if items.length < 22 then none
            else
              some (
                { ppid := items.getD 1 0
                  minflt := items.getD 7 0
                  majflt := items.getD 9 0
                  utime := items.getD 11 0
                  stime := items.getD 12 0
                  priority := (items.getD 15 0).toInt64
                  nice := (items.getD 16 0).toInt64
                  numThreads := (items.getD 17 0).toInt64
                  starttime := items.getD 19 0
                  vsize := items.getD 20 0
                  rss := (items.getD 21 0).toInt64 }, comm)
      | _, _ => none

/-! ## `/proc/<pid>/task/<tid>/children` -/

/-- The delimiters `" \n\t"`. -/
def isListSep (b : Byte) : Bool :=
  b == 0x20 || b == 0x0a || b == 0x09

def pidListContains (pid : Int32) (list : List Int32) : Bool :=
  list.contains pid

/-- One token of a list, as a `pid_t`. -/
def addChild (out : List Int32) (tok : Bytes) : List Int32 :=
  let cpid := (strtol tok).toInt32
  if 0 < cpid ∧ ¬ pidListContains cpid out then out ++ [cpid] else out

/-- The number of a task, if `name` is one. -/
def taskId (name : Bytes) : Option Int64 :=
  if name.head? = some 0x2e then none
  else
    match number name with
    | none => none
    | some (neg, v, rest) =>
        if rest = [] ∧ 0 < signedWord neg v then some (signedWord neg v) else none

/-- One directory entry; the flag is `found_any`. -/
def readTask (children : Int64 → Option Bytes) (st : Bool × List Int32) (name : Bytes) :
    Bool × List Int32 :=
  match taskId name with
  | none => st
  | some tid =>
      match (children tid).bind (fgets 4096) with
      | none => st
      | some line => (true, (tokens isListSep (cstr line)).foldl addChild st.2)

/-- `read_children_pids(pid, out, out_count, out_cap)`, on the names in the task directory and
the contents of each task's list. -/
def readChildrenPids (dir : Option (List Bytes)) (children : Int64 → Option Bytes)
    (out : List Int32) : ℤ × List Int32 :=
  match dir with
  | none => (-1, out)
  | some names =>
      let st := names.foldl (readTask children) (false, out)
      (if st.1 then 0 else -1, st.2)

end ProcWatch

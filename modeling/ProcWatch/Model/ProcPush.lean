import ProcWatch.Library.Double
import ProcWatch.Library.Scan

/-! # Sampling a process (`proc_push.c`) -/

namespace ProcWatch

open CLib

/-- `read_file(path, buf, cap)`, on the contents of the file. -/
def readFile (file : Option Bytes) (cap : ℕ) : Option Bytes :=
  match file with
  | none => none
  | some b => if b.take (cap - 1) = [] then none else some (b.take (cap - 1))

/-- The loop of `read_cpu_total`, from its `p` and `sum` on. -/
def sumNumbers : ℕ → Bytes → UInt64 → UInt64
  | 0, _, sum => sum
  | n + 1, p, sum =>
      match strtoullEnd p with
      | none => sum
      | some (v, rest) => sumNumbers n rest (sum + v)

/-- `read_cpu_total()`, on the contents of `/proc/stat`. -/
def readCpuTotal (file : Option Bytes) : UInt64 :=
  match readFile file 1024 with
  | none => 0
  | some buf =>
      let buf := cstr buf
      if buf.take 4 ≠ bytes "cpu " ∧ buf.take 4 ≠ bytes "cpu\t" then 0
      else sumNumbers 10 ((buf.drop 3).dropWhile fun b => b == 0x20 || b == 0x09) 0

/-- What `parse_stat` stores. -/
structure StatSample (commCap : ℕ) where
  utime : UInt64
  stime : UInt64
  rssPages : Int64
  threads : Int64
  comm : CStr commCap

/-- The loop of `parse_stat` over its fields. -/
def statFields : ℕ → Bytes → List UInt64
  | 0, _ => []
  | n + 1, p =>
      match strtoullEnd (p.dropWhile (· == 0x20)) with
      | none => []
      | some (v, rest) => v :: statFields n rest

/-- `parse_stat(pid, utime, stime, rss_pages, threads, comm, comm_cap)`, on the contents of the
process's file. -/
def parseStat (file : Option Bytes) (commCap : ℕ) [NeZero commCap] :
    Option (StatSample commCap) :=
  match readFile file 4096 with
  | none => none
  | some line =>
      let line := cstr line
      match strchr line 0x28, strrchr line 0x29 with
      | some lparen, some rparen =>
          if rparen ≤ lparen then none
          else
            let clen := rparen - lparen - 1
            let fields := statFields 30 (line.drop (rparen + 2))
            some
              { utime := fields.getD 11 0
                stime := fields.getD 12 0
                threads := (fields.getD 17 0).toInt64
                rssPages := (fields.getD 21 0).toInt64
                comm := CStr.copy commCap ((line.drop (lparen + 1)).take clen) }
      | _, _ => none

/-- One line of `parse_status`, on `rss_kb` and `threads`. -/
def statusLine (acc : Int64 × Int64) (line : Bytes) : Int64 × Int64 :=
  if bytes "VmRSS:" <+: line then (strtol (line.drop 6), acc.2)
  else if bytes "Threads:" <+: line then (acc.1, strtol (line.drop 8))
  else acc

/-- `parse_status(pid, rss_kb, threads)`, on the contents of the process's file. -/
def parseStatus (file : Option Bytes) (rssKb threads : Int64) : Int64 × Int64 :=
  match readFile file 4096 with
  | none => (rssKb, threads)
  | some buf => ((cstr buf).splitOn 0x0a).foldl statusLine (rssKb, threads)

/-- `pw_proc_baseline_t` with `have_baseline` set. -/
structure PidBaseline where
  procTime : UInt64
  cpuTotal : UInt64

/-- What `pw_sample_pid` stores in `out`. -/
structure PidSample where
  pid : Int32
  comm : CStr 64
  cpuPct : Double
  rssKb : Int64
  threads : Int64

/-- The files that a sampling reads. -/
structure PidFiles where
  stat : Option Bytes
  status : Option Bytes
  procStat : Option Bytes

/-- `pw_sample_pid(pid, base, out)`; `base` is `none` until the first sample. -/
def samplePid (ncpu : ℤ) (pageKb : Int64) (pid : Int32) (files : PidFiles)
    (base : Option PidBaseline) : Option (PidBaseline × PidSample) :=
  match parseStat files.stat 64 with
  | none => none
  | some stat =>
      let status := parseStatus files.status (stat.rssPages * pageKb) stat.threads
      let procTime := stat.utime + stat.stime
      let cpuTotal := readCpuTotal files.procStat
      let cpuPct :=
        match base with
        | none => Double.ofNat 0
        | some base =>
            if base.cpuTotal < cpuTotal ∧ base.procTime ≤ procTime then
              Double.mul
                (Double.div
                  (Double.mul (Double.ofNat 100) (Double.ofNat (procTime - base.procTime).toNat))
                  (Double.ofNat (cpuTotal - base.cpuTotal).toNat))
                (Double.ofInt ncpu)
            else Double.ofNat 0
      some (⟨procTime, cpuTotal⟩,
        { pid := pid, comm := stat.comm, cpuPct := cpuPct, rssKb := status.1,
          threads := status.2 })

/-! ## Identity of a sample -/

def PW_LABEL_MAX : ℕ := 100

/-- `pw_label_valid(label)` -/
def pwLabelValid (label : Bytes) : Bool :=
  let n := label.length
  if n = 0 ∨ PW_LABEL_MAX ≤ n then false
  else label.all fun c => isAlnum c || c == 0x5f

/-- What `pw_format_created_stamp(out, 32, when)` leaves in the buffer: the local time of a
`time_t`, as `strftime` writes it. -/
structure Calendar where
  stamp : ℤ → CStr 32
  comma_free : ∀ t, 0x2c ∉ (stamp t).val

/-- The key that `pw_sample_set_pid_key(out, pid, stamp)` stores. -/
def pidKey (pid : Int32) (stamp : Bytes) : CStr 64 :=
  if stamp = [] then CStr.copy 64 (decimalInt pid.toInt)
  else CStr.copy 64 (decimalInt pid.toInt ++ stamp)

end ProcWatch

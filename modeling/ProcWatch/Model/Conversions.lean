import ProcWatch.Library.Traced
import ProcWatch.Model.AgentRequests

/-! # Casts of parsed numbers (`agentd.c`)

`handle_procmetrics` and `replay_line` again, with every cast of a `double` to an integer in a
log.
-/

namespace ProcWatch

open CLib

/-- The integer types that numbers are cast to. -/
inductive IntType where
  | int
  | long
  | int64
  | uint64
  deriving DecidableEq

namespace IntType

def min : IntType → ℤ
  | .int => -2 ^ 31
  | .long => -2 ^ 63
  | .int64 => -2 ^ 63
  | .uint64 => 0

def max : IntType → ℤ
  | .int => 2 ^ 31 - 1
  | .long => 2 ^ 63 - 1
  | .int64 => 2 ^ 63 - 1
  | .uint64 => 2 ^ 64 - 1

end IntType

structure Conversion where
  value : Double
  target : IntType
  deriving DecidableEq

/-- C defines a cast where the integral part of the number is a value of the type. -/
def Conversion.Defined (c : Conversion) : Prop :=
  ∃ n, c.value.trunc = some n ∧ c.target.min ≤ n ∧ n ≤ c.target.max

namespace Casting

abbrev Run (α : Type) := Prog (Traced AgentWorld Conversion) α

/-! ## Casts -/

def castInt (d : Double) : Run ℤ := do
  Traced.log ⟨d, .int⟩
  return d.toSigned 31

def castLong (d : Double) : Run Int64 := do
  Traced.log ⟨d, .long⟩
  return toInt64 d

def castInt64 (d : Double) : Run Int64 := do
  Traced.log ⟨d, .int64⟩
  return toInt64 d

def castUInt64 (d : Double) : Run UInt64 := do
  Traced.log ⟨d, .uint64⟩
  return d.toUInt64

/-! ## Fields -/

def readPidKey (text after : Bytes) : Run (CStr 80) :=
  let s := jsonStr text after (bytes "pid") 80 []
  if s.1 then return CStr.copy 80 s.2
  else
    let n := jsonNum text after (bytes "pid") (Double.ofNat 0)
    if n.1 then do
      let pid ← castInt n.2
      return CStr.copy 80 (decimalInt pid)
    else return CStr.copy 80 []

/-- `ts * 1e9` for the text of a time stamp. -/
def scaledTime (ts : Bytes) : Double :=
  let t := if ts = [] then Double.ofNat 0 else (Double.strtod ts).getD (Double.ofNat 0)
  Double.mul t (Double.ofNat 1000000000)

/-! ## `handle_procmetrics` -/

def handleProcmetrics (body after : Bytes) : Run ℤ :=
  let label := strBuf body after "label" 100 []
  if !(jsonStr body after (bytes "label") 100 []).1 then return -1
  else if !validateIdentifier label.val then return -1
  else do
    let pid ← readPidKey body after
    let rss ← castLong (numVar body after "rss_kb" 0)
    let threads ← castLong (numVar body after "threads" 0)
    Traced.lift (writeMetric { procMetricOf body after label with
      pid := some (CStr.copy 80 (orNonempty pid.val (bytes "unknown")))
      rss := rss
      threads := threads })

/-! ## `replay_line` -/

/-- The body shared by the branches of `replay_line`: what they cast before the label is
ensured, and the insert, with its own casts, after it. -/
def replayRecord {β : Type} (line : Bytes) (early : Run β) (insert : CStr 100 → β → Run ℤ) :
    Run ℤ :=
  let label := strBuf line [0] "label" 100 []
  if !(jsonStr line [0] (bytes "label") 100 []).1 then return 0
  else if !validateIdentifier label.val then return 0
  else do
    let x ← early
    let w ← Traced.lift Prog.get
    if (← Traced.lift (dbEnsureLabel w.user.schema.val label.val)) ≠ 0 then return -1
    else if (← insert label x) ≠ 0 then return -1
    else return 0

def replayMetric (line : Bytes) : Run ℤ :=
  replayRecord line (readPidKey line [0]) fun label pid => do
    let rss ← castLong (numVar line [0] "rss" 0)
    let threads ← castLong (numVar line [0] "threads" 0)
    Traced.lift (dbInsertMetricLabeled { readProcMetric line [0] "cpu" "rss" label with
      pid := some (CStr.copy 80 (orNonempty pid.val (bytes "unknown")))
      rss := rss
      threads := threads })

def castSpan (line : Bytes) : Run (Int64 × UInt64) := do
  let duration ← castInt64 (numVar line [0] "duration_ns" 0)
  let ts ← castUInt64 (scaledTime (strBuf line [0] "ts" 64 []).val)
  return (duration, ts)

def replaySpan (line : Bytes) : Run ℤ :=
  replayRecord line (castSpan line) fun label x =>
    Traced.lift (dbInsertSpan { readSpan line [0] label with
      durationNs := x.1
      startNs := x.2
      endNs := x.2 })

def castPoint (line : Bytes) : Run (Int64 × UInt64) := do
  let count ← castInt64 (numVar line [0] "count" 1)
  let ts ← castUInt64 (scaledTime (strBuf line [0] "ts" 64 []).val)
  return (count, ts)

def replayOtelMetric (line : Bytes) : Run ℤ :=
  replayRecord line (castPoint line) fun label x =>
    Traced.lift (dbInsertOtelMetric { readMetricPoint line [0] label with
      count := x.1
      timeNs := x.2 })

def replayLine (line : Bytes) : Run ℤ := do
  let w ← Traced.lift Prog.get
  if !connOk w.conn then return -1
  else if strncmpEq line (bytes "\x7b\"k\":\"metric\"") 13 then replayMetric line
  else if strncmpEq line (bytes "\x7b\"k\":\"span\"") 11 then replaySpan line
  else if strncmpEq line (bytes "\x7b\"k\":\"otelmetric\"") 18 then replayOtelMetric line
  else return 0

end Casting

end ProcWatch

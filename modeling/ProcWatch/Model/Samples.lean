import ProcWatch.Model.Agent

/-! # Writing and replaying samples (`main.c`) -/

namespace ProcWatch

open CLib

/-- `pw_flush_ctx_t`, without its pointer to the buffer. -/
structure MonitorState where
  schema : Bytes
  label : Bytes
  stmtName : Bytes
  prepared : Bool

abbrev MonitorWorld := World MonitorState

abbrev Monitor (α : Type) := Code MonitorState α

/-- `ensure_prepared(ctx)` -/
def ensurePrepared : Monitor ℤ := do
  let w ← Prog.get
  if w.online = false ∨ w.conn = none then return -1
  else if w.user.prepared then return 0
  else
    dbEnsureTable w.user.schema w.user.label
    dbEnsureDropInactiveJob w.user.schema
    dbPrepareInsert w.user.schema w.user.label w.user.stmtName
    Prog.modify fun w => { w with user := { w.user with prepared := true } }
    return 0

/-- `replay_sample(line, len, user)` -/
def replaySample (line : Bytes) : Monitor ℤ := do
  if (← ensurePrepared) ≠ 0 then return -1
  else if !strncmpEq line (bytes "\x7b\"k\":\"sample\"") 13 then return 0
  else
    let pid := jsonStrField line (bytes "pid") 128 []
    if !pid.1 then return 0
    else
      let cpu := (jsonNumField line (bytes "cpu") (Double.ofNat 0)).2
      let rss := (jsonNumField line (bytes "rss") (Double.ofNat 0)).2
      let w ← Prog.get
      if (← dbInsertSample w.user.stmtName ⟨CStr.copy 128 pid.2, cpu, toInt64 rss⟩) ≠ 0 then
        return -1
      else return 0

/-- `spill_sample(buf, pid, cpu, rss)` -/
def spillSample (x : Sample) : Monitor Unit := do
  match sampleLine x with
  | none => return ()
  | some line =>
      let _ ← pwDbBufSpill line

/-- `dbbuf.online && ensure_prepared(&fctx) == 0 && db_insert_sample(...) == 0` -/
def tryInsertSample (x : Sample) : Monitor Bool := do
  let w ← Prog.get
  if !w.online then return false
  else if (← ensurePrepared) ≠ 0 then return false
  else
    let rc ← dbInsertSample w.user.stmtName x
    return rc = 0

/-- What the sampling loop does with a sample: insert, or else go offline and spill. -/
def writeSample (x : Sample) : Monitor Unit := do
  if ← tryInsertSample x then return ()
  else
    setOnline false
    spillSample x

end ProcWatch

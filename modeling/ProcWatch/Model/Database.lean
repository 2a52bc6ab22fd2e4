import ProcWatch.Library.Double
import ProcWatch.Model.Records
import ProcWatch.Model.World

/-! # Database helpers shared by both programs (`db.c`) -/

namespace ProcWatch

open CLib

variable {σ : Type}

/-! ## Connections -/

def setConn (conn : Option Session) : Code σ Unit :=
  Prog.modify fun w => { w with conn := conn }

/-- A successful attempt opens a session without prepared statements. -/
def dbConnect : Code σ (Option Session) := do
  if ← ask fun env n => env.connect n then
    record .connected
    return some Session.fresh
  else return none

/-- The second half of `db_reconnect`: connect anew. -/
def dbReconnectNew : Code σ Bool := do
  let conn ← dbConnect
  setConn conn
  return connOk conn

/-- `db_reconnect`: `PQreset` the connection there is, or else open a new one. -/
def dbReconnect : Code σ Bool := do
  let w ← Prog.get
  match w.conn with
  | none => dbReconnectNew
  | some c =>
      if c.ok then return true
      else if ← ask fun env n => env.reset n then
        setConn (some Session.fresh)
        record .connected
        return true
      else
        setConn none
        dbReconnectNew

/-! ## Statements -/

def exec (c : Command) : Code σ Reply :=
  issue (.exec c)

/-- A statement whose failure ends the process. -/
def execOrExit (c : Command) : Code σ Bool := do
  match ← exec c with
  | .done found => return found
  | _ => Prog.exit

/-- A statement whose failure is only reported. -/
def execWarn (c : Command) : Code σ Unit := do
  let _ ← exec c

def dbTryEnableTimescaledb : Code σ Unit :=
  execWarn .createExtension

def dbTableExists (schema table : Bytes) : Code σ Bool :=
  execOrExit (.tableExists schema table)

def dbEnsureSchema (schema : Bytes) : Code σ Unit := do
  let _ ← execOrExit (.createSchema schema)
  execWarn (.grantUsage schema)

def dbEnsureTrackerObjects (schema : Bytes) : Code σ Unit := do
  let _ ← execOrExit (.createTracker schema)
  let _ ← execOrExit (.createUpdateLastWrite schema)
  let _ ← execOrExit (.createDropInactive schema)

def dbRegisterNewTableInTracker (schema table : Bytes) : Code σ Unit := do
  let _ ← execOrExit (.registerTable schema table)

/-- A trigger name, cut at 63 characters. -/
def triggerName (pre table : Bytes) : Bytes :=
  (bounded 80 (pre ++ table)).take 63

def dbCreateActivityTriggersForTable (schema table : Bytes) : Code σ Unit := do
  execWarn (.createTrigger (triggerName (bytes "trg_ulw_ins_") table) schema table (bytes "INSERT"))
  execWarn (.createTrigger (triggerName (bytes "trg_ulw_upd_") table) schema table (bytes "UPDATE"))
  execWarn (.createTrigger (triggerName (bytes "trg_ulw_del_") table) schema table (bytes "DELETE"))

/-- What every `ensure` function does when its table has just come into being. -/
def trackNewTable (schema table : Bytes) : Code σ Unit := do
  dbEnsureTrackerObjects schema
  dbRegisterNewTableInTracker schema table
  dbCreateActivityTriggersForTable schema table

/-- The hypertable calls and the new retention policy. -/
def hypertableAndRetention (schema table : Bytes) : Code σ Unit := do
  execWarn (.createHypertable schema table)
  execWarn (.removeRetention schema table)
  execWarn (.addRetention schema table)

/-! ## The sample table of `procwatch` -/

def dbEnsureTable (schema table : Bytes) : Code σ Unit := do
  let existedBefore ← dbTableExists schema table
  dbEnsureSchema schema
  dbTryEnableTimescaledb
  let _ ← execOrExit (.createTable .sample schema table)
  hypertableAndRetention schema table
  let existedAfter ← dbTableExists schema table
  if !existedBefore && existedAfter then trackNewTable schema table

def dbPrepareInsert (schema table stmtName : Bytes) : Code σ Unit := do
  match ← issue (.prepare stmtName ⟨.sample, schema, table⟩) with
  | .done _ => return ()
  | _ => Prog.exit

/-- Run a prepared insert: 0 when it succeeds, -1 otherwise. -/
def execInsert (name : Bytes) (vals : List (Option Bytes)) : Code σ ℤ := do
  match ← issue (.execPrepared name vals) with
  | .done _ => return 0
  | _ => return -1

def sampleVals (x : Sample) : List (Option Bytes) :=
  [some x.pid.val, some (bounded 64 (Double.fmtG 10 x.cpu)),
    some (bounded 64 (decimalInt x.rss.toInt))]

def dbInsertSample (stmtName : Bytes) (x : Sample) : Code σ ℤ := do
  let w ← Prog.get
  if connOk w.conn then execInsert stmtName (sampleVals x) else return -1

/-- `db_ensure_drop_inactive_job` -/
def dbEnsureDropInactiveJob (schema : Bytes) : Code σ Unit := do
  let job := bounded 128 (bytes "drop_inactive_tables_every_5_minutes_" ++ schema)
  match ← exec (.lookupJob job) with
  | .done true => execWarn (.updateJob job)
  | .done false =>
      match ← exec (.scheduleJob job schema) with
      | .done _ => execWarn (.updateJob job)
      | _ => return ()
  | _ => return ()

end ProcWatch

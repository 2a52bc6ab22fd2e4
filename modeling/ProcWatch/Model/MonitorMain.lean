import ProcWatch.Model.PushTree
import ProcWatch.Model.Samples

/-! # The sampling loop of `procwatch` (`main.c`) -/

namespace ProcWatch

open CLib

/-! ## Upkeep -/

def setPrepared (prepared : Bool) : Monitor Unit :=
  Prog.modify fun w => { w with user := { w.user with prepared := prepared } }

/-- `pw_db_buf_init` and, if the database is up, the first preparation and flush. -/
def monitorStartup : Monitor Unit := do
  pwDbBufInit
  let w ← Prog.get
  if w.online then
    let _ ← ensurePrepared
    let _ ← pwDbBufFlush replaySample

/-- What a turn does about the database before it samples. -/
def monitorMaintenance : Monitor Unit := do
  let w ← Prog.get
  let wasOffline := !w.online
  let _ ← pwDbBufMaintain replaySample
  let w ← Prog.get
  if w.online && (wasOffline || !w.user.prepared) then
    setPrepared false
    let _ ← ensurePrepared

/-! ## The loop -/

def writeSamples : List MonitorSample → Monitor Unit
  | [] => return ()
  | s :: samples => do
      writeSample s.sample
      writeSamples samples

/-- What `/proc` answers in a turn: whether the root process is there, the totals of the
processors, and the processes that the walk finds. -/
structure ProcAnswers where
  rootThere : Bool
  totals : Option CpuTotals
  snaps : List ProcSnapshot

/-- The turns of the loop. -/
def monitorLoop (cfg : MonitorConfig) : List ProcAnswers → Baseline → Monitor Unit
  | [], _ => return ()
  | turn :: turns, b => do
      monitorMaintenance
      if !turn.rootThere then return ()
      else
        match monitorRound cfg turn.totals turn.snaps b with
        | none => return ()
        | some (b, samples) =>
            writeSamples samples
            monitorLoop cfg turns b

/-- `main` from `pw_db_buf_init` on, where `totals` is the first reading of `/proc/stat`. -/
def monitorMain (cfg : MonitorConfig) (totals : Option CpuTotals) (turns : List ProcAnswers) :
    Monitor ℤ := do
  monitorStartup
  match totals with
  | none => Prog.exit
  | some totPrev =>
      monitorLoop cfg turns { prev := [], totPrev := totPrev }
      let _ ← pwDbBufMaintain replaySample
      return 0

end ProcWatch

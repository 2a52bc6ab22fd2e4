import ProcWatch.Model.Database

/-! # Spill file and reconnect (`db_buffer.c`) -/

namespace ProcWatch

open CLib

variable {σ : Type}

/-! ## File operations

Each one may be the point at which the process dies.
-/

def setFile (p : Path) (content : Option Bytes) : Code σ Unit :=
  Prog.modify fun w => { w with files := w.files.set p content }

/-- The next file operation: dead before it, or whether it succeeds. -/
def fileOp (op : FileOp) : Code σ Bool := do
  let a ← ask fun env n => env.file n
  if a.crash then
    record (.file op .died)
    Prog.exit
  else
    record (.file op (if a.ok then .ok else .failed))
    return a.ok

inductive RenameResult where
  | ok
  | enoent
  | failed
  deriving DecidableEq

def rename (src dst : Path) : Code σ RenameResult := do
  let ok ← fileOp (.rename src dst)
  let w ← Prog.get
  match w.files.get src with
  | none => return .enoent
  | some content =>
      if ok then
        setFile src none
        setFile dst (some content)
        return .ok
      else return .failed

/-- `unlink`, its return code ignored. -/
def unlink (p : Path) : Code σ Unit := do
  let ok ← fileOp (.unlink p)
  if ok then setFile p none

/-- `fopen(path, "r")`: the contents, which nobody else changes while the handle is open. -/
def openRead (p : Path) : Code σ (Option Bytes) := do
  let ok ← fileOp (.openRead p)
  let w ← Prog.get
  return if ok then w.files.get p else none

/-- `fopen(path, "w")`: an empty file, unless it fails. -/
def openWrite (p : Path) : Code σ Bool := do
  let ok ← fileOp (.openWrite p)
  if ok then
    setFile p (some [])
    return true
  else return false

/-- `fopen(path, "a")`: the file exists afterwards, unless it fails. -/
def openAppend (p : Path) : Code σ Bool := do
  let ok ← fileOp (.openAppend p)
  if ok then
    let w ← Prog.get
    setFile p (some ((w.files.get p).getD []))
    return true
  else return false

/-- What `fprintf` or `fwrite`, and then `fclose`, report. -/
structure Written where
  wrote : Bool
  closed : Bool

/-- The record of a write that is not clean, by the bytes it left and what `fclose` reported. -/
def uncleanWrite (left : Bytes) (closed : Bool) : FileOutcome :=
  if left = [] then .unwritten closed
  else if closed then .short
  else .failed

/-- Write to a handle and close it. A write that fails, or that the process dies in, leaves a
part of the text. -/
def writeClose (p : Path) (text : Bytes) : Code σ Written := do
  let a ← ask fun env n => env.file n
  let w ← Prog.get
  let old := (w.files.get p).getD []
  if a.crash then
    setFile p (some (old ++ text.take a.written))
    record (.file (.write p) .died)
    Prog.exit
  else if a.wrote && a.ok then
    setFile p (some (old ++ text))
    record (.file (.write p) .ok)
    return ⟨true, true⟩
  else
    setFile p (some (old ++ text.take a.written))
    record (.file (.write p) (uncleanWrite (text.take a.written) a.ok))
    return ⟨a.wrote, a.ok⟩

/-! ## `pw_db_buf_spill` -/

def dropSpill (line : Bytes) : Code σ ℤ := do
  Prog.modify fun w => { w with spillDropped := w.spillDropped + 1 }
  record (.spilled line false)
  return -1

/-- Append one line; 0 when it is in the file in full. -/
def pwDbBufSpill (line : Bytes) : Code σ ℤ := do
  if ← openAppend .spill then
    let r ← writeClose .spill (cstr line ++ [0x0a])
    if r.wrote && r.closed then
      Prog.modify fun w => { w with spilled := w.spilled + 1 }
      record (.spilled line true)
      return 0
    else dropSpill line
  else dropSpill line

/-! ## `pw_db_buf_flush` -/

/-- The pieces that successive `getline` calls return: each up to and with its line feed. -/
def getlines : Bytes → List Bytes
  | [] => []
  | b :: s =>
      if b = 0x0a then [b] :: getlines s
      else
        match getlines s with
        | [] => [[b]]
        | l :: ls => (b :: l) :: ls

/-- Without the line ends at its end. -/
def stripEol (line : Bytes) : Bytes :=
  (line.reverse.dropWhile fun b => b == 0x0a || b == 0x0d).reverse

inductive Drain where
  | drained
  | stopped
  | failed
  deriving DecidableEq

/-- A refused line: write it and what follows it to `.rest`, or restore the claim. -/
def writeRest (line : Bytes) (more : List Bytes) : Code σ Drain := do
  if ← openWrite .rest then
    let r ← writeClose .rest (cstr line ++ 0x0a :: more.flatten)
    if r.closed then return .stopped
    else
      let _ ← rename .flushing .spill
      unlink .rest
      return .failed
  else
    let _ ← rename .flushing .spill
    return .failed

/-- The loop over the claimed lines. -/
def flushLoop (fn : Bytes → Code σ ℤ) : List Bytes → Code σ Drain
  | [] => return .drained
  | raw :: more => do
      let line := stripEol raw
      if line = [] then flushLoop fn more
      else
        let rc ← fn line
        record (.replayed line rc)
        if rc = 0 then
          Prog.modify fun w => { w with flushed := w.flushed + 1 }
          flushLoop fn more
        else writeRest line more

/-- Copy what was spilled meanwhile behind the kept lines. -/
def appendSpill : Code σ Unit := do
  let cur ← openRead .spill
  if ← openAppend .rest then
    match cur with
    | some content =>
        let _ ← writeClose .rest content
    | none => pure ()

/-- The remainder becomes the spill file, and the claim is done with. -/
def installRest : Code σ ℤ := do
  match ← rename .rest .spill with
  | .ok =>
      unlink .flushing
      return 1
  | _ => return -1

/-- Put the kept lines back in front of whatever was spilled meanwhile. -/
def restore : Code σ ℤ := do
  appendSpill
  unlink .spill
  installRest

/-- Remove what is left of a claim, and report success. -/
def discardClaim : Code σ ℤ := do
  unlink .flushing
  unlink .rest
  return 0

/-- `pw_db_buf_flush(b, fn, user)` -/
def pwDbBufFlush (fn : Bytes → Code σ ℤ) : Code σ ℤ := do
  let w ← Prog.get
  match w.online, w.conn with
  | false, _ => return -1
  | true, none => return -1
  | true, some c =>
      if !c.ok then
        Prog.modify fun w => { w with online := false }
        return -1
      else
        match ← rename .spill .flushing with
        | .enoent => discardClaim
        | .failed => return -1
        | .ok =>
            match ← openRead .flushing with
            | none =>
                let _ ← rename .flushing .spill
                return -1
            | some content =>
                match ← flushLoop fn (getlines content) with
                | .failed => return -1
                | .stopped => restore
                | .drained => discardClaim

/-! ## Connection upkeep -/

def setOnline (online : Bool) : Code σ Unit :=
  Prog.modify fun w => { w with online := online }

/-- `pw_db_buf_init`, on a world whose files are what earlier runs left. -/
def pwDbBufInit : Code σ Unit := do
  let conn ← dbConnect
  setConn conn
  setOnline (connOk conn)

def reconnectIntervalSec : ℤ := 5

/-- `pw_db_buf_ensure`: whether the connection is up, after at most one attempt. -/
def pwDbBufEnsure : Code σ Bool := do
  let w ← Prog.get
  if connOk w.conn then
    setOnline true
    return true
  else
    setOnline false
    let now ← ask fun env n => env.now n
    if w.lastReconnectTry ≠ 0 ∧ now - w.lastReconnectTry < reconnectIntervalSec then return false
    else
      Prog.modify fun w => { w with lastReconnectTry := now }
      if ← dbReconnect then
        setOnline true
        return true
      else return false

/-- `pw_db_buf_maintain(b, fn, user)` -/
def pwDbBufMaintain (fn : Bytes → Code σ ℤ) : Code σ ℤ := do
  if ← pwDbBufEnsure then pwDbBufFlush fn else return 0

end ProcWatch

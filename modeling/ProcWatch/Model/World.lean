import ProcWatch.Library.Prog
import ProcWatch.Model.Names

/-! # The world of a process: database session, spill files, surroundings

The code runs as programs over `World`. Whatever the surroundings decide (replies of the
database, connection attempts, the clock, file operations) is read off an `Env`, indexed by
the number of questions asked before, so a statement about every `Env` covers every
behaviour.
-/

namespace ProcWatch

open CLib

/-! ## Statements -/

/-- The rows a prepared `INSERT` adds: a record of `agentd`, or a sample of `procwatch`. -/
inductive RowKind where
  | record (kind : Kind)
  | sample
  deriving DecidableEq

/-- What a prepared `INSERT` writes to. -/
structure Target where
  rows : RowKind
  schema : Bytes
  table : Bytes
  deriving DecidableEq

/-- The other statements, by what they do and what they name. -/
inductive Command where
  | tableExists (schema table : Bytes)
  | createSchema (schema : Bytes)
  | grantUsage (schema : Bytes)
  | createExtension
  | createTable (rows : RowKind) (schema table : Bytes)
  | alterPidType (schema table : Bytes)
  | addPidColumn (schema table : Bytes)
  | createIndex (index schema table column : Bytes)
  | createHypertable (schema table : Bytes)
  | removeRetention (schema table : Bytes)
  | addRetention (schema table : Bytes)
  | createTracker (schema : Bytes)
  | createUpdateLastWrite (schema : Bytes)
  | createDropInactive (schema : Bytes)
  | registerTable (schema table : Bytes)
  | createTrigger (trigger schema table event : Bytes)
  | lookupJob (job : Bytes)
  | scheduleJob (job schema : Bytes)
  | updateJob (job : Bytes)
  deriving DecidableEq

inductive Stmt where
  | exec (c : Command)
  | prepare (name : Bytes) (target : Target)
  | execPrepared (name : Bytes) (vals : List (Option Bytes))
  deriving DecidableEq

/-- Outcome of a statement: the success status of its kind, with whether rows came back that
say yes; an error on a live connection; or a lost connection. -/
inductive Reply where
  | done (found : Bool)
  | refused
  | lost
  deriving DecidableEq

/-! ## Sessions -/

/-- A libpq connection and the server session behind it. -/
structure Session where
  ok : Bool
  prepared : List (Bytes × Target)
  deriving DecidableEq

namespace Session

/-- A new or reset session has no prepared statements. -/
def fresh : Session :=
  ⟨true, []⟩

def target? (c : Session) (name : Bytes) : Option Target :=
  c.prepared.lookup name

/-- The session after a statement to which the surroundings reply `r`. Preparing an existing
name and executing a missing one fail whatever they say. -/
def answer (c : Session) (s : Stmt) (r : Reply) : Reply × Session :=
  if c.ok = false then (.lost, c)
  else
    match r, s with
    | .lost, _ => (.lost, { c with ok := false })
    | .refused, _ => (.refused, c)
    | .done found, .exec _ => (.done found, c)
    | .done found, .prepare name target =>
        if c.target? name = none then
          (.done found, { c with prepared := (name, target) :: c.prepared })
        else (.refused, c)
    | .done found, .execPrepared name _ =>
        if c.target? name = none then (.refused, c) else (.done found, c)

end Session

/-! ## Files -/

/-- The spill file and its two companions. -/
inductive Path where
  | spill
  | flushing
  | rest
  deriving DecidableEq

/-- Contents of the three files; `none` where there is no file. -/
structure Files where
  spill : Option Bytes
  flushing : Option Bytes
  rest : Option Bytes
  deriving DecidableEq

namespace Files

def get (f : Files) : Path → Option Bytes
  | .spill => f.spill
  | .flushing => f.flushing
  | .rest => f.rest

def set (f : Files) (p : Path) (content : Option Bytes) : Files :=
  match p with
  | .spill => { f with spill := content }
  | .flushing => { f with flushing := content }
  | .rest => { f with rest := content }

end Files

/-- How a file operation goes: the process dies first, or the call succeeds or fails. For a
write `ok` is the outcome of `fclose` and `wrote` that of the writes before it; one that is
not clean leaves the first `written` bytes. -/
structure FileAnswer where
  crash : Bool
  ok : Bool
  wrote : Bool
  written : ℕ
  deriving DecidableEq

inductive FileOp where
  | rename (src dst : Path)
  | unlink (p : Path)
  | openRead (p : Path)
  | openWrite (p : Path)
  | openAppend (p : Path)
  | write (p : Path)
  deriving DecidableEq

/-- `unwritten`: a write that is not clean left none of its bytes, by what `fclose` reported.
`short`: it left some, and `fclose` did not report it. -/
inductive FileOutcome where
  | ok
  | failed
  | short
  | unwritten (closed : Bool)
  | died
  deriving DecidableEq

/-! ## Surroundings, events and the world -/

structure Env where
  reply : ℕ → Session → Stmt → Reply
  connect : ℕ → Bool
  reset : ℕ → Bool
  now : ℕ → ℤ
  file : ℕ → FileAnswer

/-- What a run leaves on record. -/
inductive Event where
  /-- A statement, what its name was prepared for when it was issued, and the outcome. -/
  | sql (s : Stmt) (known : Option Target) (r : Reply)
  | connected
  /-- A call of `pw_db_buf_spill` and whether it returned 0. -/
  | spilled (line : Bytes) (ok : Bool)
  /-- A call of the replay callback and its return code. -/
  | replayed (line : Bytes) (rc : ℤ)
  | file (op : FileOp) (outcome : FileOutcome)
  deriving DecidableEq

/-- `σ` is the state behind the `user` pointer of the replay callback. -/
structure World (σ : Type) where
  env : Env
  tick : ℕ
  files : Files
  conn : Option Session
  online : Bool
  lastReconnectTry : ℤ
  spilled : ℕ
  flushed : ℕ
  spillDropped : ℕ
  user : σ
  events : List Event

abbrev Code (σ α : Type) := Prog (World σ) α

section Primitives

variable {σ : Type} {β : Type}

/-- Put a question to the surroundings. -/
def ask (f : Env → ℕ → β) : Code σ β := do
  let w ← Prog.get
  Prog.modify fun w => { w with tick := w.tick + 1 }
  return f w.env w.tick

def record (e : Event) : Code σ Unit :=
  Prog.modify fun w => { w with events := w.events ++ [e] }

/-- `b->conn && PQstatus(b->conn) == CONNECTION_OK` -/
def connOk (conn : Option Session) : Bool :=
  match conn with
  | none => false
  | some c => c.ok

/-- The name a statement defines or runs, and what it stands for on the session. -/
def Stmt.known (s : Stmt) (c : Session) : Option Target :=
  match s with
  | .exec _ => none
  | .prepare name _ => c.target? name
  | .execPrepared name _ => c.target? name

/-- Send a statement over the connection; without one libpq reports a failure. -/
def issue (s : Stmt) : Code σ Reply := do
  let w ← Prog.get
  match w.conn with
  | none => return .lost
  | some c =>
      let r ← ask fun env n => env.reply n c s
      let answered := c.answer s r
      Prog.modify fun w => { w with conn := some answered.2 }
      record (.sql s (s.known c) answered.1)
      return answered.1

end Primitives

end ProcWatch

import ProcWatch.Model.Environ
import ProcWatch.Model.ProcPush

/-! # Environments across exec (`exec_wrap.c`) -/

namespace ProcWatch

open CLib

/-! ## `merge_env` -/

def KEEP_KEYS : List Bytes :=
  [bytes "PROCWATCH_LABEL", bytes "PROCWATCH_SERVICE", bytes "PROCWATCH_ENDPOINT",
    bytes "PROCWATCH_AGENT_DIR", bytes "PROCWATCH_POD", bytes "PROCWATCH_METRIC_INTERVAL",
    bytes "PROCWATCH_INJECT_DEBUG", bytes "LD_PRELOAD", bytes "OTEL_SERVICE_NAME",
    bytes "OTEL_EXPORTER_OTLP_ENDPOINT", bytes "OTEL_EXPORTER_OTLP_PROTOCOL",
    bytes "OTEL_RESOURCE_ATTRIBUTES", bytes "OTEL_TRACES_EXPORTER",
    bytes "OTEL_METRICS_EXPORTER", bytes "OTEL_LOGS_EXPORTER", bytes "JAVA_TOOL_OPTIONS",
    bytes "PYTHONPATH"]

/-- `env_has_key(envp, key)` -/
def envHasKey (envp : Option Environ) (key : Bytes) : Bool :=
  match envp with
  | none => false
  | some envp =>
      envp.any fun e => strncmpEq e.val key key.length && e.val[key.length]? == some 0x3d

/-- Whether neither `continue` of a pass is taken; the value that `getenv` returned. -/
def missingValue (environ : Environ) (envp : Option Environ) (key : Bytes) : Option Bytes :=
  match getenv environ key with
  | none => none
  | some val => if val = [] then none else if envHasKey envp key then none else some val

/-- The counting pass: `add`. -/
def countMissing (environ : Environ) (envp : Option Environ) : List Bytes → ℕ → ℕ
  | [], add => add
  | key :: keys, add =>
      match missingValue environ envp key with
      | none => countMissing environ envp keys add
      | some _ => countMissing environ envp keys (add + 1)

/-- The allocated array, whose slots are `NULL` at first, and `j`. -/
structure Slots where
  out : List (Option CString)
  j : ℕ

/-- `out[j] = e`, impossible past the end. -/
def Slots.write (s : Slots) (e : Option CString) : Option Slots :=
  if s.j < s.out.length then some { out := s.out.set s.j e, j := s.j + 1 } else none

/-- The loop that copies `envp`. -/
def copyEntries : List CString → Slots → Option Slots
  | [], s => some s
  | e :: envp, s =>
      match s.write (some e) with
      | none => none
      | some s => copyEntries envp s

/-- The filling pass. -/
def fillMissing (environ : Environ) (envp : Option Environ) : List Bytes → Slots → Option Slots
  | [], s => some s
  | key :: keys, s =>
      match missingValue environ envp key with
      | none => fillMissing environ envp keys s
      | some val =>
          match s.write (some (.ofBytes (key ++ 0x3d :: val))) with
          | none => none
          | some s => fillMissing environ envp keys s

/-- What `merge_env` returns: `NULL`, or the array with the number of slots written; `overrun` is
a write past its end. -/
inductive Merged where
  | null
  | array (out : List (Option CString)) (written : ℕ)
  | overrun
  deriving DecidableEq

/-- `merge_env(envp)` of a process with environment `environ`. -/
def mergeEnv (environ : Environ) (envp : Option Environ) : Merged :=
  let n := (envp.getD []).length
  let add := countMissing environ envp KEEP_KEYS 0
  if add = 0 then .null
  else
    match copyEntries (envp.getD []) ⟨List.replicate (n + add + 1) none, 0⟩ with
    | none => .overrun
    | some s =>
        match fillMissing environ envp KEEP_KEYS s with
        | none => .overrun
        | some s =>
            match s.write none with
            | none => .overrun
            | some s => .array s.out s.j

/-- The entries of an array up to its `NULL`. -/
def entries (out : List (Option CString)) : Environ :=
  (out.takeWhile Option.isSome).filterMap id

/-- `merged ? merged : envp`, as `execve`, `execvpe` and `execveat` pass it on. -/
def execEnv (environ : Environ) (envp : Option Environ) : Option Environ :=
  match mergeEnv environ envp with
  | .array out _ => some (entries out)
  | _ => envp

/-! ## The decision of `pw_init` -/

/-- `pw_resolve_label()` -/
def pwResolveLabel (env : Environ) : Option Bytes :=
  match getenv env (bytes "PROCWATCH_LABEL") with
  | none => none
  | some label => if pwLabelValid label then some label else none

/-- `off && *off && strcmp(off, "0") != 0` -/
def injectDisabled (env : Environ) : Bool :=
  match getenv env (bytes "PROCWATCH_INJECT_DISABLED") with
  | none => false
  | some off => off ≠ [] ∧ off ≠ bytes "0"

/-- Whether `pw_init` arms injection in an image with environment `env` that has loaded the library
and so runs it; what makes the loader load it is no part of this. A privileged process has an
effective user or group other than the real one. -/
def pwInitArms (privileged : Bool) (env : Environ) : Bool :=
  if injectDisabled env then false
  else if privileged then false
  else (pwResolveLabel env).isSome

end ProcWatch

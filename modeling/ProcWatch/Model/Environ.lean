import ProcWatch.Library.Fields
import ProcWatch.Library.Bytes

/-! # Environments and edits of one variable (`envmod.c`) -/

namespace ProcWatch

open CLib

/-- A C string of any length. -/
@[ext]
structure CString where
  val : Bytes
  nulFree : (0 : Byte) ∉ val

instance instDecidableEqCString : DecidableEq CString := fun _ _ =>
  decidable_of_iff _ CString.ext_iff.symm

/-- The string that a buffer holds. -/
def CString.ofBytes (s : Bytes) : CString where
  val := cstr s
  nulFree := nulFree_cstr s

def CStr.toCString {cap : ℕ} (s : CStr cap) : CString where
  val := s.val
  nulFree := s.nulFree

/-! ## `getenv` and `setenv` -/

abbrev Environ := List CString

/-- `getenv(name)`: the value of the first entry for the name. -/
def getenv (env : Environ) (name : Bytes) : Option Bytes :=
  env.findSome? fun e => valueOf (name ++ [0x3d]) e.val

/-- `setenv(name, value, overwrite)`: the first entry for the name is replaced, and a new one
comes last. -/
def setenv (name value : Bytes) (overwrite : Bool) : Environ → Environ
  | [] => [.ofBytes (name ++ 0x3d :: value)]
  | e :: env =>
      if name ++ [0x3d] <+: e.val then
        if overwrite then .ofBytes (name ++ 0x3d :: value) :: env else e :: env
      else e :: setenv name value overwrite env

/-! ## Extending a variable -/

def PW_ENV_MAX : ℕ := 8192

/-- `pw_env_append(name, addition, marker)`: the environment afterwards and the return code. -/
def pwEnvAppend (name : Bytes) (addition marker : CString) (env : Environ) : Environ × ℤ :=
  match getenv env name with
  | none => (setenv name addition.val true env, 0)
  | some cur =>
      if (strstr cur marker.val).isSome then (env, 0)
      else if cur = [] then (setenv name addition.val true env, 0)
      else if PW_ENV_MAX < cur.length + addition.val.length + 1 then (env, -1)
      else (setenv name (cur ++ addition.val) true env, 0)

/-- `pw_env_prepend(name, addition, marker, separator)`: the environment afterwards and the return
code. -/
def pwEnvPrepend (name : Bytes) (addition marker : CString) (separator : Byte) (env : Environ) :
    Environ × ℤ :=
  match getenv env name with
  | none => (setenv name addition.val true env, 0)
  | some cur =>
      if (strstr cur marker.val).isSome then (env, 0)
      else if cur = [] then (setenv name addition.val true env, 0)
      else if PW_ENV_MAX < cur.length + addition.val.length + 2 then (env, -1)
      else (setenv name (addition.val ++ separator :: cur) true env, 0)

/-- `pw_env_set_default(name, value)` -/
def pwEnvSetDefault (name value : Bytes) (env : Environ) : Environ :=
  setenv name value false env

end ProcWatch

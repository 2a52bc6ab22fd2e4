import ProcWatch.Model.ExecWrap
import ProcWatch.Model.HttpClients
import ProcWatch.Model.Inject

/-! # The constructor of an image (`detect.c`, `inject.c`) -/

namespace ProcWatch

open CLib

/-! ## Detection of the runtime -/

/-- `pw_runtime_t` -/
inductive Runtime where
  | unknown
  | java
  | python
  deriving DecidableEq

/-- What the kernel and the loader tell the constructor of an image. -/
structure Image where
  /-- `AT_EXECFN` -/
  execfn : Option CString
  /-- What `/proc/self/cmdline` can be read for. -/
  cmdline : Option Bytes
  /-- `dlsym(RTLD_DEFAULT, symbol)`, unless the weak symbol is missing. -/
  dlsym : Option (Bytes → Bool)
  privileged : Bool
  pid : Int32
  /-- The clock reading, formatted. -/
  stamp : CStr 32
  stamp_plain : 0x2c ∉ stamp.val ∧ 0x3d ∉ stamp.val
  pathExists : Bytes → Bool

/-- `basename_of(path)` -/
def basenameOf (path : Bytes) : Bytes :=
  match strrchr path 0x2f with
  | none => path
  | some slash => path.drop (slash + 1)

/-- `is_python_name(name)` -/
def isPythonName (name : Bytes) : Bool :=
  if !strncmpEq name (bytes "python") 6 then false
  else (name.drop 6).all fun c => isDigit c || c == 0x2e

/-- `classify_name(name)` -/
def classifyName (name : Bytes) : Runtime :=
  if name = bytes "java" then .java
  else if isPythonName name then .python
  else if name = bytes "gunicorn" ∨ name = bytes "uwsgi" ∨ name = bytes "celery" ∨
      name = bytes "uvicorn" ∨ name = bytes "flask" then .python
  else .unknown

/-- `read_cmdline_argv0(buf, 512)` -/
def readCmdlineArgv0 (cmdline : Option Bytes) : Option (CStr 512) :=
  match cmdline with
  | none => none
  | some text => if text = [] then none else some (CStr.copy 512 text)

/-- `pw_detect_by_name()` -/
def pwDetectByName (img : Image) : Runtime :=
  let byExecfn :=
    match img.execfn with
    | none => .unknown
    | some execfn => if execfn.val = [] then .unknown else classifyName (basenameOf execfn.val)
  if byExecfn ≠ .unknown then byExecfn
  else
    match readCmdlineArgv0 img.cmdline with
    | none => .unknown
    | some argv0 => if argv0.val = [] then .unknown else classifyName (basenameOf argv0.val)

/-- `pw_confirm_by_symbol(hint)` -/
def pwConfirmBySymbol (dlsym : Option (Bytes → Bool)) (hint : Runtime) : Runtime :=
  match dlsym with
  | none => hint
  | some found =>
      match hint with
      | .java =>
          if found (bytes "JLI_Launch") then .java
          else if found (bytes "JNI_CreateJavaVM") then .java
          else hint
      | .python =>
          if found (bytes "Py_BytesMain") then .python
          else if found (bytes "Py_Initialize") then .python
          else hint
      | .unknown => .unknown

/-- `rt` of `pw_init`. -/
def Image.runtime (img : Image) : Runtime :=
  let rt := pwDetectByName img
  if rt ≠ .unknown then pwConfirmBySymbol img.dlsym rt else rt

/-! ## Variables that every runtime gets -/

def RESOURCE_ATTRIBUTES : Bytes :=
  bytes "OTEL_RESOURCE_ATTRIBUTES"

/-- `pw_attach_label_to_otel(label)` -/
def pwAttachLabelToOtel (label : Bytes) (env : Environ) : Environ :=
  if label = [] then env
  else
    let attr := bounded 160 (bytes "procwatch.label=" ++ label)
    match getenv env RESOURCE_ATTRIBUTES with
    | none => setenv RESOURCE_ATTRIBUTES attr true env
    | some cur =>
        if (strstr cur (bytes "procwatch.label=")).isSome then env
        else if cur = [] then setenv RESOURCE_ATTRIBUTES attr true env
        else if RESOURCE_ATTRS_MAX < cur.length + 1 + attr.length + 1 then env
        else setenv RESOURCE_ATTRIBUTES (bounded RESOURCE_ATTRS_MAX (cur ++ 0x2c :: attr)) true env

/-- `pw_attach_pid_key_to_otel()` on the environment. -/
def pwAttachPidKeyToOtel (pid : Int32) (stamp : CStr 32) (env : Environ) : Environ :=
  match attachPidKeyToOtel pid stamp (getenv env RESOURCE_ATTRIBUTES) with
  | none => env
  | some attrs => setenv RESOURCE_ATTRIBUTES attrs true env

/-- `name && *name` -/
def nonEmpty (value : Option Bytes) : Option Bytes :=
  value.filter (· ≠ [])

/-- `exec_basename()` -/
def execBasename (execfn : Option CString) : Option Bytes :=
  (nonEmpty (execfn.map CString.val)).map basenameOf

/-- `resolve_service_name()` -/
def resolveServiceName (execfn : Option CString) (env : Environ) : Bytes :=
  match nonEmpty (getenv env (bytes "OTEL_SERVICE_NAME")) with
  | some name => name
  | none =>
      match nonEmpty (getenv env (bytes "PROCWATCH_SERVICE")) with
      | some name => name
      | none => (nonEmpty (execBasename execfn)).getD (bytes "unknown_service")

def PW_DEFAULT_ENDPOINT : Bytes :=
  bytes "http://127.0.0.1:4318"

/-- `pw_apply_common()` -/
def pwApplyCommon (img : Image) (env : Environ) : Environ :=
  let env :=
    match pwResolveLabel env with
    | none => env
    | some label => pwAttachLabelToOtel label env
  let env := pwAttachPidKeyToOtel img.pid img.stamp env
  let service := resolveServiceName img.execfn env
  let env := pwEnvSetDefault (bytes "OTEL_SERVICE_NAME") service env
  let env := setenv (bytes "PROCWATCH_SERVICE") service true env
  let endpoint := (nonEmpty (getenv env (bytes "PROCWATCH_ENDPOINT"))).getD PW_DEFAULT_ENDPOINT
  let env := pwEnvSetDefault (bytes "OTEL_EXPORTER_OTLP_ENDPOINT") endpoint env
  let env := pwEnvSetDefault (bytes "OTEL_EXPORTER_OTLP_PROTOCOL") (bytes "http/protobuf") env
  let env := pwEnvSetDefault (bytes "OTEL_TRACES_EXPORTER") (bytes "otlp") env
  let env := pwEnvSetDefault (bytes "OTEL_METRICS_EXPORTER") (bytes "otlp") env
  pwEnvSetDefault (bytes "OTEL_LOGS_EXPORTER") (bytes "otlp") env

/-! ## `pw_init` -/

def PW_DEFAULT_AGENT_DIR : Bytes :=
  bytes "/opt/procwatch/agent"

/-- `pw_agent_dir()` -/
def pwAgentDir (env : Environ) : CString :=
  .ofBytes ((nonEmpty (getenv env (bytes "PROCWATCH_AGENT_DIR"))).getD PW_DEFAULT_AGENT_DIR)

/-- What `pw_init` leaves: the environment, `g_armed` and `g_runtime_hint`. -/
structure Constructed where
  env : Environ
  armed : Bool
  hint : Bytes

/-- `pw_init()`, which runs once in an image. -/
def pwInit (img : Image) (env : Environ) : Constructed :=
  if injectDisabled env then ⟨env, false, bytes "other"⟩
  else if img.privileged then ⟨env, false, bytes "other"⟩
  else if (pwResolveLabel env).isNone then ⟨env, false, bytes "other"⟩
  else
    let agentDir := pwAgentDir env
    match img.runtime with
    | .java =>
        ⟨pwApplyJava img.pathExists agentDir (pwApplyCommon img env), true, bytes "java"⟩
    | .python =>
        ⟨pwApplyPython img.pathExists agentDir (pwApplyCommon img env), true, bytes "python"⟩
    | .unknown => ⟨env, true, bytes "other"⟩

/-- The hint for the metric thread that `__libc_start_main` starts, if it starts one. -/
def metricsThreadStart (c : Constructed) : Option Bytes :=
  if c.armed then
    if (pwResolveLabel c.env).isSome then some c.hint else none
  else none

end ProcWatch

import ProcWatch.Model.Environ
import ProcWatch.Model.ProcPush

/-! # Injected processes (`inject.c`, `metrics_thread.c`) -/

namespace ProcWatch

open CLib

/-! ## Resource attributes -/

/-- Size of `buf`. -/
def RESOURCE_ATTRS_MAX : ℕ := 8192

/-- A comma, if anything stands in `buf`, and a segment behind it. -/
def appendSegment (buf out : Bytes) : Option Bytes :=
  if buf ≠ [] then
    if RESOURCE_ATTRS_MAX ≤ buf.length + 1 then none
    else
      let buf := buf ++ [0x2c]
      if RESOURCE_ATTRS_MAX ≤ buf.length + out.length then none else some (buf ++ out)
  else if RESOURCE_ATTRS_MAX ≤ buf.length + out.length then none
  else some (buf ++ out)

/-- The loop of `set_resource_attr` from its `p`, `buf` and `replaced` on. -/
def rewriteAttrs (kv keyeq : Bytes) : ℕ → Bytes → Bytes → Bool → Option (Bytes × Bool)
  | 0, _, _, _ => none
  | fuel + 1, p, buf, replaced =>
      if p = [] then some (buf, replaced)
      else
        let comma := strchr p 0x2c
        let segLen := comma.getD p.length
        let isTarget := decide (keyeq.length ≤ segLen) && strncmpEq p keyeq keyeq.length
        match appendSegment buf (if isTarget then kv else p.take segLen), comma with
        | none, _ => none
        | some buf, none => some (buf, replaced || isTarget)
        | some buf, some i => rewriteAttrs kv keyeq fuel (p.drop (i + 1)) buf (replaced || isTarget)

/-- `set_resource_attr(key, value)`: `OTEL_RESOURCE_ATTRIBUTES` afterwards. -/
def setResourceAttr (key value : Bytes) (cur : Option Bytes) : Option Bytes :=
  let kv := key ++ 0x3d :: value
  let keyeq := key ++ [0x3d]
  if 192 ≤ kv.length then cur
  else if 160 ≤ keyeq.length then cur
  else
    match cur.map cstr with
    | none => some kv
    | some [] => some kv
    | some p =>
        match rewriteAttrs kv keyeq (p.length + 1) p [] false with
        | none => cur
        | some (buf, replaced) =>
            if replaced then some buf
            else
              match appendSegment buf kv with
              | none => cur
              | some buf => some buf

/-- `pw_attach_pid_key_to_otel()`, for the stamp of its clock reading. -/
def attachPidKeyToOtel (pid : Int32) (stamp : CStr 32) (cur : Option Bytes) : Option Bytes :=
  let pidKey := CStr.copy 64 (decimalInt pid.toInt ++ stamp.val)
  setResourceAttr (bytes "service.instance.id") pidKey.val
    (setResourceAttr (bytes "procwatch.pid_key") pidKey.val cur)

/-! ## Agents for the runtimes -/

/-- `opt` of `pw_apply_java`. -/
def javaOption (jar : CStr 1024) : CStr 1152 :=
  CStr.copy 1152 (bytes " -javaagent:" ++ jar.val)

/-- `pw_apply_java(agent_dir)`, where the files of `pathExists` are there. -/
def pwApplyJava (pathExists : Bytes → Bool) (agentDir : CString) (env : Environ) : Environ :=
  let jar := CStr.copy 1024 (agentDir.val ++ bytes "/java/javaagent.jar")
  if !pathExists jar.val then env
  else
    let env := (pwEnvAppend (bytes "JAVA_TOOL_OPTIONS") (CStr.toCString (javaOption jar))
      (CStr.toCString jar) env).1
    pwEnvSetDefault (bytes "OTEL_INSTRUMENTATION_RUNTIME_TELEMETRY_ENABLED") (bytes "true") env

/-- `pw_apply_python(agent_dir)` -/
def pwApplyPython (pathExists : Bytes → Bool) (agentDir : CString) (env : Environ) : Environ :=
  let shimDir := CStr.copy 1024 (agentDir.val ++ bytes "/python")
  let shim := CStr.copy 1088 (shimDir.val ++ bytes "/sitecustomize.py")
  if !pathExists shim.val then env
  else
    (pwEnvPrepend (bytes "PYTHONPATH") (CStr.toCString shimDir) (CStr.toCString shimDir) 0x3a
      env).1

/-! ## The metric thread -/

/-- A row that `metrics_loop` pushes. -/
structure MetricRow where
  label : CStr 100
  pidKey : CStr 64
  sample : PidSample

/-- What stays the same over the life of a process; the thread is not started without a valid
label. -/
structure InjectConfig where
  label : Bytes
  label_valid : pwLabelValid label = true
  ncpu : ℤ
  pageKb : Int64

/-- The endless loop of `metrics_loop`, over the files that each of its samplings reads. -/
def metricsRows (cfg : InjectConfig) (pid : Int32) (createdStamp : CStr 32) :
    Option PidBaseline → List PidFiles → List MetricRow
  | _, [] => []
  | base, files :: rest =>
      match samplePid cfg.ncpu cfg.pageKb pid files base with
      | none => metricsRows cfg pid createdStamp base rest
      | some (base, s) =>
          let row : MetricRow :=
            { label := CStr.copy 100 cfg.label
              pidKey := pidKey s.pid createdStamp.val
              sample := s }
          if pwLabelValid row.label.val then
            row :: metricsRows cfg pid createdStamp (some base) rest
          else metricsRows cfg pid createdStamp (some base) rest

/-- `metrics_loop(arg)`; the first sampling establishes the baseline only. -/
def metricsLoop (cfg : InjectConfig) (pid : Int32) (createdStamp : CStr 32) :
    List PidFiles → List MetricRow
  | [] => []
  | files :: rest =>
      metricsRows cfg pid createdStamp
        ((samplePid cfg.ncpu cfg.pageKb pid files none).map Prod.fst) rest

end ProcWatch

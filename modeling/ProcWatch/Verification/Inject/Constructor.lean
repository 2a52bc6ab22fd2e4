import ProcWatch.Verification.Inject.Tags

/-! # Variables that the constructor sets -/

namespace ProcWatch

open CLib

/-! ## The variables of every runtime -/

/-- The variables that `pw_apply_common` sets last. -/
def EXPORTER_KEYS : List Bytes :=
  [bytes "OTEL_EXPORTER_OTLP_ENDPOINT", bytes "OTEL_EXPORTER_OTLP_PROTOCOL",
    bytes "OTEL_TRACES_EXPORTER", bytes "OTEL_METRICS_EXPORTER", bytes "OTEL_LOGS_EXPORTER"]

/-- The variables of the agents. -/
def AGENT_KEYS : List Bytes :=
  [bytes "JAVA_TOOL_OPTIONS", bytes "OTEL_INSTRUMENTATION_RUNTIME_TELEMETRY_ENABLED",
    bytes "PYTHONPATH"]

/-- The variables of every runtime. -/
def COMMON_KEYS : List Bytes :=
  RESOURCE_ATTRIBUTES :: bytes "OTEL_SERVICE_NAME" :: bytes "PROCWATCH_SERVICE" :: EXPORTER_KEYS

/-- The variables that a constructor may set. -/
def CONSTRUCTED_KEYS : List Bytes :=
  COMMON_KEYS ++ AGENT_KEYS

theorem isName_constructed : ∀ name ∈ CONSTRUCTED_KEYS, IsName name := by decide

theorem isName_service : IsName (bytes "OTEL_SERVICE_NAME") ∧ IsName (bytes "PROCWATCH_SERVICE") := by
  decide

/-- The environment once the attributes are attached. -/
def attributed (img : Image) (env : Environ) : Environ :=
  pwAttachPidKeyToOtel img.pid img.stamp
    (match pwResolveLabel env with
    | none => env
    | some label => pwAttachLabelToOtel label env)

/-- The environment once the service is set, too. -/
def served (img : Image) (env : Environ) : Environ :=
  let service := resolveServiceName img.execfn (attributed img env)
  setenv (bytes "PROCWATCH_SERVICE") service true
    (setenv (bytes "OTEL_SERVICE_NAME") service false (attributed img env))

section Common

variable {img : Image} {env : Environ}

theorem leaves_pwAttachLabelToOtel {label : Bytes} :
    Leaves [RESOURCE_ATTRIBUTES] env (pwAttachLabelToOtel label env) := by
  have hname : IsName RESOURCE_ATTRIBUTES := isName_resourceAttributes
  rw [pwAttachLabelToOtel]
  split
  · exact Leaves.refl
  · dsimp only
    split
    · exact leaves_setenv hname
    · split
      · exact Leaves.refl
      · split
        · exact leaves_setenv hname
        · split
          · exact Leaves.refl
          · exact leaves_setenv hname

theorem leaves_pwAttachPidKeyToOtel {pid : Int32} {stamp : CStr 32} :
    Leaves [RESOURCE_ATTRIBUTES] env (pwAttachPidKeyToOtel pid stamp env) := by
  rw [pwAttachPidKeyToOtel]
  split
  · exact Leaves.refl
  · exact leaves_setenv isName_resourceAttributes

theorem leaves_attributed : Leaves [RESOURCE_ATTRIBUTES] env (attributed img env) := by
  refine Leaves.trans ?_ leaves_pwAttachPidKeyToOtel
  split
  · exact Leaves.refl
  · exact leaves_pwAttachLabelToOtel

theorem leaves_exporters : Leaves EXPORTER_KEYS (served img env) (pwApplyCommon img env) := by
  unfold pwApplyCommon
  simp only [pwEnvSetDefault]
  iterate 5
    refine Leaves.setenv ?_ (isName_constructed _ (by simp [CONSTRUCTED_KEYS, COMMON_KEYS, EXPORTER_KEYS]))
      (by simp [EXPORTER_KEYS])
  exact Leaves.refl

theorem leaves_served : Leaves [bytes "OTEL_SERVICE_NAME", bytes "PROCWATCH_SERVICE"]
    (attributed img env) (served img env) := by
  rw [served]
  exact (Leaves.refl.setenv isName_service.1 (by simp)).setenv isName_service.2 (by simp)

theorem pwResolveLabel_valid {label : Bytes} (h : pwResolveLabel env = some label) :
    pwLabelValid label = true := by
  rw [pwResolveLabel] at h
  split at h
  · cases h
  · split at h
    · next hvalid =>
        rw [← Option.some.inj h]
        exact hvalid
    · cases h

theorem attributed_eq {label : Bytes} (h : pwResolveLabel env = some label) :
    attributed img env =
      pwAttachPidKeyToOtel img.pid img.stamp (pwAttachLabelToOtel label env) := by
  rw [attributed, h]

theorem taggable_attributed {label : Bytes} (hlabel : pwResolveLabel env = some label)
    (h : Taggable label (getenv env RESOURCE_ATTRIBUTES)) :
    Taggable label (getenv (attributed img env) RESOURCE_ATTRIBUTES) := by
  have hcstr := cstr_getenv_pwAttachPidKeyToOtel img.pid img.stamp (pwAttachLabelToOtel label env)
  have hkeeps := keepsLabel_attachPidKeyToOtel img.pid img.stamp_plain
    (getenv (pwAttachLabelToOtel label env) RESOURCE_ATTRIBUTES)
  rw [attributed_eq hlabel, Taggable, untagged_iff_of_cstr_eq hcstr, tagged_iff_of_cstr_eq hcstr]
  exact (taggable_pwAttachLabelToOtel (pwResolveLabel_valid hlabel) h).imp hkeeps.1 (hkeeps.2 label)

theorem tagged_attributed {label : Bytes} (hlabel : pwResolveLabel env = some label)
    (h : Tagged label (getenv env RESOURCE_ATTRIBUTES) ∨
      Untagged (getenv env RESOURCE_ATTRIBUTES) ∧ TagRoom label (getenv env RESOURCE_ATTRIBUTES)) :
    Tagged label (getenv (attributed img env) RESOURCE_ATTRIBUTES) := by
  rw [attributed_eq hlabel, tagged_iff_of_cstr_eq
    (cstr_getenv_pwAttachPidKeyToOtel img.pid img.stamp (pwAttachLabelToOtel label env))]
  exact (keepsLabel_attachPidKeyToOtel img.pid img.stamp_plain _).2 label
    (tagged_pwAttachLabelToOtel (pwResolveLabel_valid hlabel) h)

/-! ## The service -/

theorem nonEmpty_some {v : Bytes} (h : v ≠ []) : nonEmpty (some v) = some v := by
  simp [nonEmpty, Option.filter, h]

theorem nonEmpty_nil : nonEmpty (some []) = none := by
  simp [nonEmpty, Option.filter]

theorem nonEmpty_eq_some {value : Option Bytes} {v : Bytes} (h : nonEmpty value = some v) :
    value = some v ∧ v ≠ [] := by
  simpa [nonEmpty] using h

/-- A service is a text that an entry can hold, and never an empty one. -/
theorem resolveServiceName_spec (execfn : Option CString) (env : Environ) :
    (0 : Byte) ∉ resolveServiceName execfn env ∧ resolveServiceName execfn env ≠ [] := by
  rw [resolveServiceName]
  split
  · next name h =>
      obtain ⟨hget, hne⟩ := nonEmpty_eq_some h
      exact ⟨nulFree_of_getenv hget, hne⟩
  · split
    · next name h =>
        obtain ⟨hget, hne⟩ := nonEmpty_eq_some h
        exact ⟨nulFree_of_getenv hget, hne⟩
    · cases hbase : nonEmpty (execBasename execfn) with
      | none => exact ⟨by decide, by decide⟩
      | some name =>
          obtain ⟨hexec, hne⟩ := nonEmpty_eq_some hbase
          refine ⟨?_, hne⟩
          rw [execBasename, Option.map_eq_some_iff] at hexec
          obtain ⟨path, hpath, rfl⟩ := hexec
          obtain ⟨e, -, rfl⟩ := Option.map_eq_some_iff.mp (nonEmpty_eq_some hpath).1
          rw [Option.getD_some, basenameOf]
          split
          · exact e.nulFree
          · exact fun hmem => e.nulFree (List.mem_of_mem_drop hmem)

/-- The service that the variables give. -/
def givenService (env : Environ) : Option Bytes :=
  (nonEmpty (getenv env (bytes "OTEL_SERVICE_NAME"))).or
    (nonEmpty (getenv env (bytes "PROCWATCH_SERVICE")))

theorem resolveServiceName_eq (execfn : Option CString) (env : Environ) :
    resolveServiceName execfn env = (givenService env).getD
      ((nonEmpty (execBasename execfn)).getD (bytes "unknown_service")) := by
  rw [resolveServiceName, givenService]
  cases nonEmpty (getenv env (bytes "OTEL_SERVICE_NAME")) with
  | some name => rfl
  | none => cases nonEmpty (getenv env (bytes "PROCWATCH_SERVICE")) <;> rfl

theorem givenService_of_leaves {names : List Bytes} {env' : Environ} (h : Leaves names env env')
    (hname : bytes "OTEL_SERVICE_NAME" ∉ names) (hservice : bytes "PROCWATCH_SERVICE" ∉ names) :
    givenService env' = givenService env := by
  rw [givenService, givenService, h _ isName_service.1 hname, h _ isName_service.2 hservice]

/-- A service that is taken over is given to what comes later. -/
theorem givenService_served (img : Image) (env : Environ) :
    givenService (served img env) = some (resolveServiceName img.execfn env) := by
  have hattributed : resolveServiceName img.execfn env =
      resolveServiceName img.execfn (attributed img env) := by
    rw [resolveServiceName_eq, resolveServiceName_eq, givenService_of_leaves
      (@leaves_attributed img env) (by decide) (by decide)]
  obtain ⟨hnul, hne⟩ := resolveServiceName_spec img.execfn (attributed img env)
  rw [hattributed, served]
  generalize hservice : resolveServiceName img.execfn (attributed img env) = service at hnul hne ⊢
  have hdefault : getenv (setenv (bytes "PROCWATCH_SERVICE") service true
      (setenv (bytes "OTEL_SERVICE_NAME") service false (attributed img env)))
      (bytes "OTEL_SERVICE_NAME") =
        some ((getenv (attributed img env) (bytes "OTEL_SERVICE_NAME")).getD service) := by
    rw [getenv_setenv_of_ne isName_service.2 isName_service.1 (by decide),
      getenv_setenv_default isName_service.1, cstr_of_nulFree hnul]
  have hset : getenv (setenv (bytes "PROCWATCH_SERVICE") service true
      (setenv (bytes "OTEL_SERVICE_NAME") service false (attributed img env)))
      (bytes "PROCWATCH_SERVICE") = some service := by
    rw [getenv_setenv_self isName_service.2.1, cstr_of_nulFree hnul]
  rw [givenService, hdefault, hset, nonEmpty_some hne]
  cases hname : getenv (attributed img env) (bytes "OTEL_SERVICE_NAME") with
  | none =>
      rw [Option.getD_none, nonEmpty_some hne]
      rfl
  | some name =>
      by_cases hempty : name = []
      · -- a name that is set and empty is kept, and the other variable decides
        rw [hempty, Option.getD_some, nonEmpty_nil]
        rfl
      · rw [resolveServiceName_eq, givenService, hname, nonEmpty_some hempty] at hservice
        rw [Option.getD_some, nonEmpty_some hempty, ← hservice]
        rfl

theorem givenService_pwApplyCommon (img : Image) (env : Environ) :
    givenService (pwApplyCommon img env) = some (resolveServiceName img.execfn env) := by
  rw [givenService_of_leaves (@leaves_exporters img env) (by decide) (by decide),
    givenService_served]

end Common

/-! ## The variables of the agents -/

section Agents

variable {name : Bytes} {addition marker : CString} {separator : Byte} {env : Environ}

theorem leaves_pwEnvAppend (hname : IsName name) :
    Leaves [name] env (pwEnvAppend name addition marker env).1 := by
  rw [pwEnvAppend]
  split
  · exact leaves_setenv hname
  · split_ifs
    · exact Leaves.refl
    · exact leaves_setenv hname
    · exact Leaves.refl
    · exact leaves_setenv hname

theorem leaves_pwEnvPrepend (hname : IsName name) :
    Leaves [name] env (pwEnvPrepend name addition marker separator env).1 := by
  rw [pwEnvPrepend]
  split
  · exact leaves_setenv hname
  · split_ifs
    · exact Leaves.refl
    · exact leaves_setenv hname
    · exact Leaves.refl
    · exact leaves_setenv hname

/-- The addition comes behind the value, unless the marker stands in it. -/
theorem getenv_pwEnvAppend (hname : IsName name) (hmarker : marker.val ≠ []) :
    (getenv (pwEnvAppend name addition marker env).1 name).getD [] = (getenv env name).getD [] ∨
      ¬ marker.val <:+: (getenv env name).getD [] ∧
        (getenv (pwEnvAppend name addition marker env).1 name).getD [] =
          (getenv env name).getD [] ++ addition.val := by
  have hwritten {v : Bytes} (hv : (0 : Byte) ∉ v) :
      (getenv (setenv name v true env) name).getD [] = v := by
    rw [getenv_setenv_self hname.1, cstr_of_nulFree hv, Option.getD_some]
  rw [pwEnvAppend]
  cases hcur : getenv env name with
  | none => exact .inr ⟨fun h => hmarker (List.infix_nil.mp h), hwritten addition.nulFree⟩
  | some cur =>
      have hnul : (0 : Byte) ∉ cur := nulFree_of_getenv hcur
      dsimp only
      by_cases hfound : marker.val <:+: cur
      · rw [if_pos ((isSome_strstr_iff hnul).mpr hfound), hcur]
        exact .inl rfl
      · rw [if_neg fun h => hfound ((isSome_strstr_iff hnul).mp h)]
        split_ifs with hempty hlong
        · exact .inr ⟨hfound, by rw [hwritten addition.nulFree, hempty]; rfl⟩
        · exact .inl (by rw [hcur])
        · exact .inr ⟨hfound, hwritten (by simp [hnul, addition.nulFree])⟩

/-- A directory in front of those that a path holds. -/
def inFront (separator : Byte) (dir path : Bytes) : Bytes :=
  if path = [] then dir else dir ++ separator :: path

theorem getenv_pwEnvPrepend (hname : IsName name) (hmarker : marker.val ≠ [])
    (hseparator : separator ≠ 0) :
    (getenv (pwEnvPrepend name addition marker separator env).1 name).getD [] =
        (getenv env name).getD [] ∨
      ¬ marker.val <:+: (getenv env name).getD [] ∧
        (getenv (pwEnvPrepend name addition marker separator env).1 name).getD [] =
          inFront separator addition.val ((getenv env name).getD []) := by
  have hwritten {v : Bytes} (hv : (0 : Byte) ∉ v) :
      (getenv (setenv name v true env) name).getD [] = v := by
    rw [getenv_setenv_self hname.1, cstr_of_nulFree hv, Option.getD_some]
  rw [pwEnvPrepend]
  cases hcur : getenv env name with
  | none => exact .inr ⟨fun h => hmarker (List.infix_nil.mp h), hwritten addition.nulFree⟩
  | some cur =>
      have hnul : (0 : Byte) ∉ cur := nulFree_of_getenv hcur
      dsimp only
      by_cases hfound : marker.val <:+: cur
      · rw [if_pos ((isSome_strstr_iff hnul).mpr hfound), hcur]
        exact .inl rfl
      · rw [if_neg fun h => hfound ((isSome_strstr_iff hnul).mp h)]
        split_ifs with hempty hlong
        · exact .inr ⟨hfound, by rw [hwritten addition.nulFree, hempty]; rfl⟩
        · exact .inl (by rw [hcur])
        · have hall : (0 : Byte) ∉ addition.val ++ separator :: cur := by
            simp [hnul, addition.nulFree, Ne.symm hseparator]
          refine .inr ⟨hfound, ?_⟩
          rw [hwritten hall, Option.getD_some, inFront, if_neg hempty]

theorem mentions_pwEnvAppend (hname : IsName name) (hmarker : marker.val <:+: addition.val)
    (hroom : ((getenv env name).getD []).length + addition.val.length < PW_ENV_MAX) :
    marker.val <:+: (getenv (pwEnvAppend name addition marker env).1 name).getD [] := by
  have hwritten {v : Bytes} (hv : (0 : Byte) ∉ v) :
      (getenv (setenv name v true env) name).getD [] = v := by
    rw [getenv_setenv_self hname.1, cstr_of_nulFree hv, Option.getD_some]
  rw [pwEnvAppend]
  cases hcur : getenv env name with
  | none => rwa [hwritten addition.nulFree]
  | some cur =>
      have hnul : (0 : Byte) ∉ cur := nulFree_of_getenv hcur
      rw [hcur, Option.getD_some] at hroom
      dsimp only
      by_cases hfound : (strstr cur marker.val).isSome
      · rw [if_pos hfound, hcur]
        exact (isSome_strstr_iff hnul).mp hfound
      · rw [if_neg hfound]
        split_ifs with hempty hlong
        · rwa [hwritten addition.nulFree]
        · omega
        · rw [hwritten (by simp [hnul, addition.nulFree])]
          exact hmarker.trans (List.suffix_append _ _).isInfix

theorem mentions_pwEnvPrepend (hname : IsName name) (hmarker : marker.val <:+: addition.val)
    (hseparator : separator ≠ 0)
    (hroom : ((getenv env name).getD []).length + addition.val.length + 1 < PW_ENV_MAX) :
    marker.val <:+: (getenv (pwEnvPrepend name addition marker separator env).1 name).getD [] := by
  have hwritten {v : Bytes} (hv : (0 : Byte) ∉ v) :
      (getenv (setenv name v true env) name).getD [] = v := by
    rw [getenv_setenv_self hname.1, cstr_of_nulFree hv, Option.getD_some]
  rw [pwEnvPrepend]
  cases hcur : getenv env name with
  | none => rwa [hwritten addition.nulFree]
  | some cur =>
      have hnul : (0 : Byte) ∉ cur := nulFree_of_getenv hcur
      rw [hcur, Option.getD_some] at hroom
      dsimp only
      by_cases hfound : (strstr cur marker.val).isSome
      · rw [if_pos hfound, hcur]
        exact (isSome_strstr_iff hnul).mp hfound
      · rw [if_neg hfound]
        split_ifs with hempty hlong
        · rwa [hwritten addition.nulFree]
        · omega
        · rw [hwritten (by simp [hnul, addition.nulFree, Ne.symm hseparator])]
          exact hmarker.trans (List.prefix_append _ _).isInfix

end Agents

/-! ## The constructor -/

def Runtime.hint : Runtime → Bytes
  | .java => bytes "java"
  | .python => bytes "python"
  | .unknown => bytes "other"

/-- The environment of an image that is armed. -/
def Image.apply (img : Image) (env : Environ) : Environ :=
  match img.runtime with
  | .java => pwApplyJava img.pathExists (pwAgentDir env) (pwApplyCommon img env)
  | .python => pwApplyPython img.pathExists (pwAgentDir env) (pwApplyCommon img env)
  | .unknown => env

section Init

variable {img : Image} {env : Environ}

theorem pwInit_eq (img : Image) (env : Environ) :
    pwInit img env =
      if pwInitArms img.privileged env then ⟨img.apply env, true, img.runtime.hint⟩
      else ⟨env, false, bytes "other"⟩ := by
  rw [pwInit, pwInitArms]
  by_cases hoff : injectDisabled env
  · simp [hoff]
  by_cases hprivileged : img.privileged
  · simp [hoff, hprivileged]
  cases hlabel : pwResolveLabel env with
  | none => simp [hoff, hprivileged]
  | some label =>
      simp only [hoff, hprivileged, Option.isNone_some, Option.isSome_some, Bool.false_eq_true,
        if_false, if_true]
      rw [Image.apply]
      cases img.runtime <;> rfl

theorem agent_key : ∀ name ∈ AGENT_KEYS, IsName name ∧ name ∉ COMMON_KEYS := by decide

/-- The archive that is passed to Java. -/
def agentJar (agentDir : CString) : CStr 1024 :=
  CStr.copy 1024 (agentDir.val ++ bytes "/java/javaagent.jar")

/-- The directory that is put on the path of Python. -/
def shimDir (agentDir : CString) : CStr 1024 :=
  CStr.copy 1024 (agentDir.val ++ bytes "/python")

theorem leaves_pwApplyJava {pathExists : Bytes → Bool} {agentDir : CString} :
    Leaves [bytes "JAVA_TOOL_OPTIONS", bytes "OTEL_INSTRUMENTATION_RUNTIME_TELEMETRY_ENABLED"] env
      (pwApplyJava pathExists agentDir env) := by
  rw [pwApplyJava]
  dsimp only
  split
  · exact Leaves.refl
  · have happend := @leaves_pwEnvAppend (bytes "JAVA_TOOL_OPTIONS")
      (CStr.toCString (javaOption (agentJar agentDir))) (CStr.toCString (agentJar agentDir)) env
      (agent_key _ (by simp [AGENT_KEYS])).1
    exact (happend.mono (by simp)).setenv (agent_key _ (by simp [AGENT_KEYS])).1 (by simp)

theorem leaves_pwApplyPython {pathExists : Bytes → Bool} {agentDir : CString} :
    Leaves [bytes "PYTHONPATH"] env (pwApplyPython pathExists agentDir env) := by
  rw [pwApplyPython]
  split
  · exact Leaves.refl
  · exact leaves_pwEnvPrepend (agent_key _ (by simp [AGENT_KEYS])).1

theorem leaves_pwApplyCommon : Leaves COMMON_KEYS env (pwApplyCommon img env) :=
  ((leaves_attributed.mono (by simp [COMMON_KEYS])).trans
    (leaves_served.mono (by simp [COMMON_KEYS]))).trans
    (leaves_exporters.mono fun key hkey => by simp [COMMON_KEYS, hkey])

theorem leaves_agents (h : img.runtime ≠ .unknown) :
    Leaves AGENT_KEYS (pwApplyCommon img env) (img.apply env) := by
  rw [Image.apply]
  split
  · exact leaves_pwApplyJava.mono (by simp [AGENT_KEYS])
  · exact leaves_pwApplyPython.mono (by simp [AGENT_KEYS])
  · next hunknown => exact absurd hunknown h

/-- A constructor touches no variable but those it may set. -/
theorem leaves_pwInit (img : Image) (env : Environ) :
    Leaves CONSTRUCTED_KEYS env (pwInit img env).env := by
  rw [pwInit_eq]
  split
  · by_cases hunknown : img.runtime = .unknown
    · rw [Image.apply, hunknown]
      exact Leaves.refl
    · exact (leaves_pwApplyCommon.mono fun key hkey => List.mem_append_left _ hkey).trans
        ((leaves_agents hunknown).mono fun key hkey => List.mem_append_right _ hkey)
  · exact Leaves.refl

/-! ### The label -/

theorem pwResolveLabel_pwInit (img : Image) (env : Environ) :
    pwResolveLabel (pwInit img env).env = pwResolveLabel env := by
  have hkey : IsName (bytes "PROCWATCH_LABEL") := KEEP_KEYS_plain _ (by decide)
  rw [pwResolveLabel, pwResolveLabel, leaves_pwInit img env _ hkey (by decide)]

theorem getenv_apply_attributes (h : img.runtime ≠ .unknown) :
    getenv (img.apply env) RESOURCE_ATTRIBUTES =
      getenv (attributed img env) RESOURCE_ATTRIBUTES := by
  have hagents : RESOURCE_ATTRIBUTES ∉ AGENT_KEYS := by decide
  have hexporters : RESOURCE_ATTRIBUTES ∉ EXPORTER_KEYS := by decide
  have hservice : RESOURCE_ATTRIBUTES ∉ [bytes "OTEL_SERVICE_NAME", bytes "PROCWATCH_SERVICE"] := by
    decide
  rw [leaves_agents h _ isName_resourceAttributes hagents,
    leaves_exporters _ isName_resourceAttributes hexporters,
    leaves_served _ isName_resourceAttributes hservice]

theorem taggable_pwInit {label : Bytes} (hlabel : pwResolveLabel env = some label)
    (h : Taggable label (getenv env RESOURCE_ATTRIBUTES)) :
    Taggable label (getenv (pwInit img env).env RESOURCE_ATTRIBUTES) := by
  rw [pwInit_eq]
  split
  · by_cases hunknown : img.runtime = .unknown
    · rw [Image.apply, hunknown]
      exact h
    · rw [getenv_apply_attributes hunknown]
      exact taggable_attributed hlabel h
  · exact h

/-! ### The service -/

theorem givenService_apply (h : img.runtime ≠ .unknown) :
    givenService (img.apply env) = some (resolveServiceName img.execfn env) := by
  rw [givenService_of_leaves (leaves_agents h) (by decide) (by decide),
    givenService_pwApplyCommon]

theorem givenService_pwInit (img : Image) {service : Bytes} (h : givenService env = some service) :
    givenService (pwInit img env).env = some service := by
  rw [pwInit_eq]
  split
  · by_cases hunknown : img.runtime = .unknown
    · rw [Image.apply, hunknown]
      exact h
    · rw [givenService_apply hunknown, resolveServiceName_eq, h]
      rfl
  · exact h

/-! ### The agents -/

theorem jar_infix_javaOption (jar : CStr 1024) : jar.val <:+: (javaOption jar).val := by
  rw [javaOption_val, javaagent]
  exact ⟨0x20 :: bytes "-javaagent:", [], by simp⟩

theorem getenv_pwApplyCommon_agent {name : Bytes} (hname : name ∈ AGENT_KEYS) :
    getenv (pwApplyCommon img env) name = getenv env name :=
  leaves_pwApplyCommon name (agent_key name hname).1 (agent_key name hname).2

theorem copy_ne_nil {n : ℕ} [NeZero n] (hn : 1 < n) (agentDir : CString) {tail : Bytes}
    (htail : tail.head? = some 0x2f) : (CStr.copy n (agentDir.val ++ tail)).val ≠ [] := by
  have hcstr : cstr (agentDir.val ++ tail) ≠ [] := by
    rw [cstr_append_of_nulFree agentDir.nulFree]
    cases tail with
    | nil => cases htail
    | cons b tail =>
        obtain rfl := Option.some.inj htail
        rw [cstr, List.takeWhile_cons_of_pos (by decide)]
        simp
  rw [CStr.copy_val]
  intro hnil
  rw [List.take_eq_nil_iff] at hnil
  cases hnil with
  | inl h => omega
  | inr h => exact hcstr h

/-- The option comes behind the others, unless they mention the archive. -/
theorem javaToolOptions_pwInit (img : Image) (env : Environ) :
    (getenv (pwInit img env).env (bytes "JAVA_TOOL_OPTIONS")).getD [] =
        (getenv env (bytes "JAVA_TOOL_OPTIONS")).getD [] ∨
      ¬ (agentJar (pwAgentDir env)).val <:+: (getenv env (bytes "JAVA_TOOL_OPTIONS")).getD [] ∧
        (getenv (pwInit img env).env (bytes "JAVA_TOOL_OPTIONS")).getD [] =
          (getenv env (bytes "JAVA_TOOL_OPTIONS")).getD [] ++
            (javaOption (agentJar (pwAgentDir env))).val := by
  have hcommon := @getenv_pwApplyCommon_agent img env (bytes "JAVA_TOOL_OPTIONS")
    (by simp [AGENT_KEYS])
  have hname := (agent_key (bytes "JAVA_TOOL_OPTIONS") (by simp [AGENT_KEYS])).1
  rw [pwInit_eq]
  split
  swap
  · exact .inl rfl
  rw [Image.apply]
  dsimp only
  split
  · rw [pwApplyJava]
    dsimp only
    split
    · exact .inl (by rw [hcommon])
    · have htelemetry : IsName (bytes "OTEL_INSTRUMENTATION_RUNTIME_TELEMETRY_ENABLED") ∧
          bytes "JAVA_TOOL_OPTIONS" ≠ bytes "OTEL_INSTRUMENTATION_RUNTIME_TELEMETRY_ENABLED" := by
        decide
      have hmarker : (CStr.toCString (agentJar (pwAgentDir env))).val ≠ [] :=
        copy_ne_nil (by decide) _ (by decide)
      have happend := @getenv_pwEnvAppend _
        (CStr.toCString (javaOption (agentJar (pwAgentDir env)))) _ (pwApplyCommon img env) hname
        hmarker
      rw [pwEnvSetDefault, getenv_setenv_of_ne htelemetry.1 hname htelemetry.2]
      rwa [hcommon] at happend
  · have hpython : bytes "JAVA_TOOL_OPTIONS" ∉ [bytes "PYTHONPATH"] := by decide
    rw [leaves_pwApplyPython _ hname hpython, hcommon]
    exact .inl rfl
  · exact .inl rfl

/-- The directory comes in front of the others, unless they mention it. -/
theorem pythonpath_pwInit (img : Image) (env : Environ) :
    (getenv (pwInit img env).env (bytes "PYTHONPATH")).getD [] =
        (getenv env (bytes "PYTHONPATH")).getD [] ∨
      ¬ (shimDir (pwAgentDir env)).val <:+: (getenv env (bytes "PYTHONPATH")).getD [] ∧
        (getenv (pwInit img env).env (bytes "PYTHONPATH")).getD [] =
          inFront 0x3a (shimDir (pwAgentDir env)).val
            ((getenv env (bytes "PYTHONPATH")).getD []) := by
  have hcommon := @getenv_pwApplyCommon_agent img env (bytes "PYTHONPATH") (by simp [AGENT_KEYS])
  have hname := (agent_key (bytes "PYTHONPATH") (by simp [AGENT_KEYS])).1
  rw [pwInit_eq]
  split
  swap
  · exact .inl rfl
  rw [Image.apply]
  dsimp only
  split
  · have hjava : bytes "PYTHONPATH" ∉ [bytes "JAVA_TOOL_OPTIONS",
        bytes "OTEL_INSTRUMENTATION_RUNTIME_TELEMETRY_ENABLED"] := by decide
    rw [leaves_pwApplyJava _ hname hjava, hcommon]
    exact .inl rfl
  · rw [pwApplyPython]
    split
    · exact .inl (by rw [hcommon])
    · have hmarker : (CStr.toCString (shimDir (pwAgentDir env))).val ≠ [] :=
        copy_ne_nil (by decide) _ (by decide)
      have hprepend := @getenv_pwEnvPrepend _ (CStr.toCString (shimDir (pwAgentDir env))) _ 0x3a
        (pwApplyCommon img env) hname hmarker (by decide)
      rwa [hcommon] at hprepend
  · exact .inl rfl

theorem neZero_shim : NeZero 1088 :=
  ⟨by decide⟩

/-- The file that is looked for in the directory. -/
def shimFile (agentDir : CString) : CStr 1088 :=
  @CStr.copy 1088 neZero_shim ((shimDir agentDir).val ++ bytes "/sitecustomize.py")

theorem mentions_javaToolOptions (harmed : (pwInit img env).armed = true)
    (hruntime : img.runtime = .java)
    (hthere : img.pathExists (agentJar (pwAgentDir env)).val = true)
    (hroom : ((getenv env (bytes "JAVA_TOOL_OPTIONS")).getD []).length +
      (javaOption (agentJar (pwAgentDir env))).val.length < PW_ENV_MAX) :
    (agentJar (pwAgentDir env)).val <:+:
      (getenv (pwInit img env).env (bytes "JAVA_TOOL_OPTIONS")).getD [] := by
  have hcommon := @getenv_pwApplyCommon_agent img env (bytes "JAVA_TOOL_OPTIONS")
    (by simp [AGENT_KEYS])
  have hname := (agent_key (bytes "JAVA_TOOL_OPTIONS") (by simp [AGENT_KEYS])).1
  have htelemetry : IsName (bytes "OTEL_INSTRUMENTATION_RUNTIME_TELEMETRY_ENABLED") ∧
      bytes "JAVA_TOOL_OPTIONS" ≠ bytes "OTEL_INSTRUMENTATION_RUNTIME_TELEMETRY_ENABLED" := by
    decide
  rw [← hcommon] at hroom
  rw [pwInit_eq] at harmed ⊢
  split at harmed
  · rw [if_pos (by assumption), Image.apply, hruntime]
    dsimp only
    have hfound : (!img.pathExists (CStr.copy 1024 ((pwAgentDir env).val ++
        bytes "/java/javaagent.jar")).val) = false := by
      rw [← agentJar, hthere]
      rfl
    rw [pwApplyJava]
    dsimp only
    rw [hfound, if_neg Bool.false_ne_true, pwEnvSetDefault,
      getenv_setenv_of_ne htelemetry.1 hname htelemetry.2]
    exact @mentions_pwEnvAppend _ (CStr.toCString (javaOption (agentJar (pwAgentDir env))))
      (CStr.toCString (agentJar (pwAgentDir env))) (pwApplyCommon img env) hname
      (jar_infix_javaOption _) hroom
  · cases harmed

theorem mentions_pythonpath (harmed : (pwInit img env).armed = true)
    (hruntime : img.runtime = .python)
    (hthere : img.pathExists (shimFile (pwAgentDir env)).val = true)
    (hroom : ((getenv env (bytes "PYTHONPATH")).getD []).length +
      (shimDir (pwAgentDir env)).val.length + 1 < PW_ENV_MAX) :
    (shimDir (pwAgentDir env)).val <:+:
      (getenv (pwInit img env).env (bytes "PYTHONPATH")).getD [] := by
  have hcommon := @getenv_pwApplyCommon_agent img env (bytes "PYTHONPATH") (by simp [AGENT_KEYS])
  have hname := (agent_key (bytes "PYTHONPATH") (by simp [AGENT_KEYS])).1
  rw [← hcommon] at hroom
  rw [pwInit_eq] at harmed ⊢
  split at harmed
  · rw [if_pos (by assumption), Image.apply, hruntime]
    dsimp only
    have hfound : (!img.pathExists (shimFile (pwAgentDir env)).val) = false := by
      rw [hthere]
      rfl
    rw [pwApplyPython]
    rw [← shimDir, ← shimFile, hfound, if_neg Bool.false_ne_true]
    exact @mentions_pwEnvPrepend _ (CStr.toCString (shimDir (pwAgentDir env))) _ 0x3a
      (pwApplyCommon img env) hname List.infix_rfl (by decide) hroom
  · cases harmed

end Init

end ProcWatch

import ProcWatch.Verification.Inject.Constructor

/-! # Images that start one another -/

namespace ProcWatch

open CLib

/-! ## From one image to the next -/

/-- The variables have the same values; one that is empty counts as missing. -/
def Same (keys : List Bytes) (env env' : Environ) : Prop :=
  ∀ key ∈ keys, (getenv env' key).getD [] = (getenv env key).getD []

/-- An image with environment `env` starts one with environment `next`, by `execve`, `execvpe` or
`execveat`. The image has loaded the library: its constructor ran, and these calls are the
library's. Between the constructor and the call its program may edit its environment, and it may
pass any other one, but the variables of `keys` are not edited, unsetting one included, and are
passed on as they are or left out. -/
def Starts (keys : List Bytes) (img : Image) (env next : Environ) : Prop :=
  ∃ environ envp, Same keys (pwInit img env).env environ ∧
    (∀ key ∈ keys, HasKey (envp.getD []) key →
      (getenv (envp.getD []) key).getD [] = (getenv environ key).getD []) ∧
    next = (execEnv environ envp).getD []

/-- Any number of images later, each of which has loaded the library. -/
def Descends (keys : List Bytes) : Environ → Environ → Prop :=
  Relation.ReflTransGen fun env next => ∃ img, Starts keys img env next

section Starts

variable {keys : List Bytes}

theorem getD_nonEmpty (value : Option Bytes) : (nonEmpty value).getD [] = value.getD [] := by
  cases value with
  | none => rfl
  | some v =>
      by_cases h : v = []
      · rw [h, nonEmpty_nil]
        rfl
      · rw [nonEmpty_some h]

/-- A value is not empty exactly where it is kept. -/
theorem nonEmpty_eq (value : Option Bytes) :
    nonEmpty value = if value.getD [] = [] then none else some (value.getD []) := by
  cases value with
  | none => rfl
  | some v =>
      by_cases h : v = []
      · rw [h, nonEmpty_nil]
        rfl
      · rw [nonEmpty_some h, Option.getD_some, if_neg h]

theorem getenv_execEnv {environ : Environ} {envp : Option Environ} {key : Bytes}
    (hkey : key ∈ KEEP_KEYS) :
    getenv ((execEnv environ envp).getD []) key =
      if HasKey (envp.getD []) key then getenv (envp.getD []) key
      else nonEmpty (getenv environ key) := by
  have hplain := KEEP_KEYS_plain key hkey
  rw [getD_execEnv, getenv_append, getenv_addedEntries hplain KEEP_KEYS_plain, if_pos hkey,
    missingValue_eq hplain.1]
  split
  · rw [Option.or_none]
  · next hhas =>
      rw [getenv_eq_none_iff.mpr hhas, Option.none_or]
      rfl

/-- The variables that are not edited arrive. -/
theorem Starts.same {img : Image} {env next : Environ} (h : Starts keys img env next)
    (hkeys : keys ⊆ KEEP_KEYS) : Same keys (pwInit img env).env next := by
  obtain ⟨environ, envp, hedited, hpassed, rfl⟩ := h
  intro key hkey
  rw [getenv_execEnv (hkeys hkey), ← hedited key hkey]
  split
  · next hhas => exact hpassed key hkey hhas
  · exact getD_nonEmpty _

/-- What a constructor keeps, and these variables decide, holds of every image. -/
theorem Descends.keeps {P : Environ → Prop} (hkeys : keys ⊆ KEEP_KEYS)
    (hinit : ∀ img env, P env → P (pwInit img env).env)
    (hsame : ∀ env env', Same keys env env' → P env → P env') {env env' : Environ}
    (h : Descends keys env env') (hP : P env) : P env' := by
  induction h with
  | refl => exact hP
  | tail _ hstep ih =>
      obtain ⟨img, hstarts⟩ := hstep
      exact hsame _ _ (hstarts.same hkeys) (hinit img _ ih)

/-- A program may pass nothing at all. -/
theorem starts_empty (keys : List Bytes) (img : Image) (env : Environ) :
    Starts keys img env ((execEnv (pwInit img env).env (some [])).getD []) := by
  refine ⟨_, some [], fun _ _ => rfl, fun key _ h => ?_, rfl⟩
  obtain ⟨e, he, -⟩ := h
  cases he

end Starts

theorem plain_sampleStamp : 0x2c ∉ (CStr.copy 32 (bytes "_20260804172652")).val ∧
    0x3d ∉ (CStr.copy 32 (bytes "_20260804172652")).val := by decide

/-- Process 7 runs a program; all files are there. -/
def sampleImage (execfn : String) : Image where
  execfn := some (.ofBytes (bytes execfn))
  cmdline := none
  dlsym := none
  privileged := false
  pid := 7
  stamp := CStr.copy 32 (bytes "_20260804172652")
  stamp_plain := plain_sampleStamp
  pathExists := fun _ => true

/-- The environment that a shop is started in. -/
def shopEnviron : Environ :=
  [.ofBytes (bytes "LD_PRELOAD=/opt/procwatch/agent/lib/libprocwatch_inject.so"),
    .ofBytes (bytes "PROCWATCH_LABEL=shop")]

/-! ## The label -/

/-- An image with environment `env` belongs to a label: it is armed unless that is switched off or
the image is privileged, it starts its metric thread if it is armed, what the thread samples is
filed under the label, and so is whatever the agent of its runtime exports. -/
structure Belongs (label : Bytes) (img : Image) (env : Environ) : Prop where
  armed : (pwInit img env).armed = (!injectDisabled env && !img.privileged)
  started : metricsThreadStart (pwInit img env) =
    if (pwInit img env).armed then some img.runtime.hint else none
  sampled : ∀ hint stamp p, (identified (pwInit img env).env hint stamp p).label.val = label
  exported : (pwInit img env).armed = true → img.runtime ≠ .unknown →
    (Untagged (getenv env RESOURCE_ATTRIBUTES) →
      TagRoom label (getenv env RESOURCE_ATTRIBUTES)) →
    Tagged label (getenv (pwInit img env).env RESOURCE_ATTRIBUTES)

theorem pwResolveLabel_eq (env : Environ) :
    pwResolveLabel env =
      if pwLabelValid ((getenv env (bytes "PROCWATCH_LABEL")).getD []) then
        some ((getenv env (bytes "PROCWATCH_LABEL")).getD [])
      else none := by
  rw [pwResolveLabel]
  cases getenv env (bytes "PROCWATCH_LABEL") with
  | none => rfl
  | some label => rfl

theorem label_of_resolved {env : Environ} {label : Bytes} (h : pwResolveLabel env = some label) :
    (getenv env (bytes "PROCWATCH_LABEL")).getD [] = label := by
  rw [pwResolveLabel_eq] at h
  split at h
  · exact Option.some.inj h
  · cases h

theorem belongs_of_taggable {label : Bytes} {env : Environ}
    (hlabel : pwResolveLabel env = some label)
    (h : Taggable label (getenv env RESOURCE_ATTRIBUTES)) (img : Image) :
    Belongs label img env where
  armed := by
    rw [pwInit_eq, pwInitArms, hlabel]
    cases injectDisabled env <;> cases img.privileged <;> rfl
  started := by
    have hkept := (pwResolveLabel_pwInit img env).trans hlabel
    rw [metricsThreadStart, hkept, pwInit_eq]
    cases pwInitArms img.privileged env <;> rfl
  sampled := by
    intro hint stamp p
    have hkept := label_of_resolved ((pwResolveLabel_pwInit img env).trans hlabel)
    show (CStr.copy 100 _).val = label
    rw [hkept, copy_label_of_valid (pwResolveLabel_valid hlabel)]
  exported := by
    intro harmed hruntime hroom
    rw [pwInit_eq] at harmed ⊢
    split at harmed
    · rw [if_pos (by assumption), getenv_apply_attributes hruntime]
      exact tagged_attributed hlabel (h.elim (fun hu => .inr ⟨hu, hroom hu⟩) .inl)
    · cases harmed

/-- The variables that tell the label, and the one that loads the library. -/
def LABEL_KEYS : List Bytes :=
  [bytes "PROCWATCH_LABEL", RESOURCE_ATTRIBUTES, bytes "LD_PRELOAD"]

/-- All images that descend from a labelled one preload what it does and belong to its label,
however each program builds the environment of the next, if it does not give the variables
another value. -/
theorem descends_labelled {label : Bytes} {env₀ env : Environ}
    (hlabel : pwResolveLabel env₀ = some label)
    (hattributes : Taggable label (getenv env₀ RESOURCE_ATTRIBUTES))
    (h : Descends LABEL_KEYS env₀ env) (img : Image) :
    Same [bytes "LD_PRELOAD"] env₀ env ∧ Belongs label img env := by
  have hkeys : LABEL_KEYS ⊆ KEEP_KEYS := by decide
  have hpreload (img : Image) (env : Environ) :
      getenv (pwInit img env).env (bytes "LD_PRELOAD") = getenv env (bytes "LD_PRELOAD") :=
    leaves_pwInit img env _ (KEEP_KEYS_plain _ (by decide)) (by decide)
  have hinit (img : Image) (env : Environ) (hP : Same [bytes "LD_PRELOAD"] env₀ env ∧
      pwResolveLabel env = some label ∧ Taggable label (getenv env RESOURCE_ATTRIBUTES)) :
      Same [bytes "LD_PRELOAD"] env₀ (pwInit img env).env ∧
        pwResolveLabel (pwInit img env).env = some label ∧
        Taggable label (getenv (pwInit img env).env RESOURCE_ATTRIBUTES) := by
    refine ⟨?_, (pwResolveLabel_pwInit img env).trans hP.2.1, taggable_pwInit hP.2.1 hP.2.2⟩
    intro key hkey
    obtain rfl := List.mem_singleton.mp hkey
    rw [hpreload]
    exact hP.1 _ hkey
  have hsame (env env' : Environ) (hsame : Same LABEL_KEYS env env')
      (hP : Same [bytes "LD_PRELOAD"] env₀ env ∧
        pwResolveLabel env = some label ∧ Taggable label (getenv env RESOURCE_ATTRIBUTES)) :
      Same [bytes "LD_PRELOAD"] env₀ env' ∧
        pwResolveLabel env' = some label ∧ Taggable label (getenv env' RESOURCE_ATTRIBUTES) := by
    have hattrs := congrArg cstr (hsame RESOURCE_ATTRIBUTES (by simp [LABEL_KEYS]))
    constructor
    · intro key hkey
      obtain rfl := List.mem_singleton.mp hkey
      rw [hsame _ (by simp [LABEL_KEYS])]
      exact hP.1 _ hkey
    · rw [pwResolveLabel_eq, hsame _ (by simp [LABEL_KEYS]), ← pwResolveLabel_eq, Taggable,
        untagged_iff_of_cstr_eq hattrs, tagged_iff_of_cstr_eq hattrs]
      exact hP.2
  obtain ⟨hloaded, hl, ha⟩ := h.keeps hkeys hinit hsame ⟨fun _ _ => rfl, hlabel, hattributes⟩
  exact ⟨hloaded, belongs_of_taggable hl ha img⟩

/-- A shell starts Python in an empty environment. -/
theorem descends_labelled_shop :
    Same [bytes "LD_PRELOAD"] shopEnviron
        ((execEnv (pwInit (sampleImage "/bin/sh") shopEnviron).env (some [])).getD []) ∧
      Belongs (bytes "shop") (sampleImage "/usr/bin/python3")
        ((execEnv (pwInit (sampleImage "/bin/sh") shopEnviron).env (some [])).getD []) :=
  descends_labelled (by decide) (.inl (by decide))
    (.single ⟨_, starts_empty LABEL_KEYS (sampleImage "/bin/sh") shopEnviron⟩) _

/-! ## The service -/

/-- The variables that tell the service. -/
def SERVICE_KEYS : List Bytes :=
  [bytes "OTEL_SERVICE_NAME", bytes "PROCWATCH_SERVICE"]

theorem sampleService_eq {env : Environ} {service : Bytes} (h : givenService env = some service)
    (comm : CStr 64) : sampleService env comm = CStr.copy 256 service := by
  rw [givenService, nonEmpty_eq, nonEmpty_eq] at h
  rw [sampleService]
  by_cases hname : (getenv env (bytes "OTEL_SERVICE_NAME")).getD [] = []
  · rw [if_pos hname, Option.none_or] at h
    rw [if_pos hname]
    split at h
    · cases h
    · next hservice => rw [if_neg hservice, Option.some.inj h]
  · rw [if_neg hname, Option.some_or] at h
    rw [if_neg hname, if_neg hname, Option.some.inj h]

/-- Once an image of Java or Python has resolved its service, all that descend from it export and
sample under that service, whatever their own names. -/
theorem descends_service {img : Image} {env next env' : Environ}
    (harms : pwInitArms img.privileged env = true) (hruntime : img.runtime ≠ .unknown)
    (hstart : Starts SERVICE_KEYS img env next) (h : Descends SERVICE_KEYS next env')
    (img' : Image) :
    resolveServiceName img'.execfn env' = resolveServiceName img.execfn env ∧
      ∀ hint stamp p, (identified (pwInit img' env').env hint stamp p).service =
        CStr.copy 256 (resolveServiceName img.execfn env) := by
  have hkeys : SERVICE_KEYS ⊆ KEEP_KEYS := by decide
  have hsame (env₁ env₂ : Environ) (hsame : Same SERVICE_KEYS env₁ env₂)
      (hP : givenService env₁ = some (resolveServiceName img.execfn env)) :
      givenService env₂ = some (resolveServiceName img.execfn env) := by
    rw [givenService, nonEmpty_eq, nonEmpty_eq, hsame _ (by simp [SERVICE_KEYS]),
      hsame _ (by simp [SERVICE_KEYS]), ← nonEmpty_eq, ← nonEmpty_eq]
    exact hP
  have hfirst : givenService (pwInit img env).env = some (resolveServiceName img.execfn env) := by
    rw [pwInit_eq, if_pos harms]
    exact givenService_apply hruntime
  have hlast := h.keeps hkeys (fun img _ => givenService_pwInit img) hsame
    (hsame _ _ (hstart.same hkeys) hfirst)
  constructor
  · rw [resolveServiceName_eq, hlast]
    rfl
  · exact fun hint stamp p => sampleService_eq (givenService_pwInit img' hlast) p.comm

/-- Java under the service of the Python program that started it. -/
theorem descends_service_python :
    let next := (execEnv (pwInit (sampleImage "/usr/bin/python3") shopEnviron).env (some [])).getD []
    resolveServiceName (sampleImage "/usr/bin/java").execfn next = bytes "python3" ∧
      ∀ hint stamp p,
        (identified (pwInit (sampleImage "/usr/bin/java") next).env hint stamp p).service =
          CStr.copy 256 (bytes "python3") := by
  have hservice : resolveServiceName (sampleImage "/usr/bin/python3").execfn shopEnviron =
      bytes "python3" := by decide
  rw [← hservice]
  exact descends_service (by decide) (by decide)
    (starts_empty SERVICE_KEYS (sampleImage "/usr/bin/python3") shopEnviron) .refl _

/-! ## The agents -/

/-- The variables that tell where the agents are and which are loaded. -/
def LOADED_KEYS : List Bytes :=
  [bytes "PROCWATCH_AGENT_DIR", bytes "JAVA_TOOL_OPTIONS", bytes "PYTHONPATH"]

/-- The options and the path of `env`, each as it was, or with one addition for the agents of a
directory if it did not mention them. -/
structure LoadedOnce (agentDir : CString) (env env' : Environ) : Prop where
  java : (getenv env' (bytes "JAVA_TOOL_OPTIONS")).getD [] =
      (getenv env (bytes "JAVA_TOOL_OPTIONS")).getD [] ∨
    ¬ (agentJar agentDir).val <:+: (getenv env (bytes "JAVA_TOOL_OPTIONS")).getD [] ∧
      (getenv env' (bytes "JAVA_TOOL_OPTIONS")).getD [] =
        (getenv env (bytes "JAVA_TOOL_OPTIONS")).getD [] ++ (javaOption (agentJar agentDir)).val
  python : (getenv env' (bytes "PYTHONPATH")).getD [] =
      (getenv env (bytes "PYTHONPATH")).getD [] ∨
    ¬ (shimDir agentDir).val <:+: (getenv env (bytes "PYTHONPATH")).getD [] ∧
      (getenv env' (bytes "PYTHONPATH")).getD [] =
        inFront 0x3a (shimDir agentDir).val ((getenv env (bytes "PYTHONPATH")).getD [])

theorem pwAgentDir_eq (env : Environ) :
    pwAgentDir env =
      .ofBytes (if (getenv env (bytes "PROCWATCH_AGENT_DIR")).getD [] = [] then PW_DEFAULT_AGENT_DIR
        else (getenv env (bytes "PROCWATCH_AGENT_DIR")).getD []) := by
  rw [pwAgentDir, nonEmpty_eq]
  split <;> rfl

theorem pwAgentDir_pwInit (img : Image) (env : Environ) :
    pwAgentDir (pwInit img env).env = pwAgentDir env := by
  have hkey : IsName (bytes "PROCWATCH_AGENT_DIR") := KEEP_KEYS_plain _ (by decide)
  rw [pwAgentDir, pwAgentDir, leaves_pwInit img env _ hkey (by decide)]

/-- A second constructor finds what the first one added. -/
theorem loadedOnce_pwInit {agentDir : CString} {env env' : Environ} (img : Image)
    (hdir : pwAgentDir env' = agentDir) (h : LoadedOnce agentDir env env') :
    LoadedOnce agentDir env (pwInit img env').env := by
  have hjar := jar_infix_javaOption (agentJar agentDir)
  constructor
  · have hstep := javaToolOptions_pwInit img env'
    rw [hdir] at hstep
    cases hstep with
    | inl hstay => rw [hstay]; exact h.java
    | inr hadd =>
        cases h.java with
        | inl hbase =>
            rw [hbase] at hadd
            exact .inr hadd
        | inr hadded =>
            refine absurd ?_ hadd.1
            rw [hadded.2]
            exact hjar.trans (List.suffix_append _ _).isInfix
  · have hstep := pythonpath_pwInit img env'
    rw [hdir] at hstep
    cases hstep with
    | inl hstay => rw [hstay]; exact h.python
    | inr hadd =>
        cases h.python with
        | inl hbase =>
            rw [hbase] at hadd
            exact .inr hadd
        | inr hadded =>
            refine absurd ?_ hadd.1
            rw [hadded.2, inFront]
            split
            · exact List.infix_rfl
            · exact (List.prefix_append _ _).isInfix

/-- What the images behind `env` load: at most one addition for each agent, and just the one for
the runtime of an armed image, where `env` did not mention the agent, its file is there and the
variable has room for it. -/
structure Loads (agentDir : CString) (env : Environ) (img : Image) (env' : Environ) : Prop where
  once : LoadedOnce agentDir env (pwInit img env').env
  java : (pwInit img env').armed = true → img.runtime = .java →
    img.pathExists (agentJar agentDir).val = true →
    ¬ (agentJar agentDir).val <:+: (getenv env (bytes "JAVA_TOOL_OPTIONS")).getD [] →
    ((getenv env' (bytes "JAVA_TOOL_OPTIONS")).getD []).length +
      (javaOption (agentJar agentDir)).val.length < PW_ENV_MAX →
    (getenv (pwInit img env').env (bytes "JAVA_TOOL_OPTIONS")).getD [] =
      (getenv env (bytes "JAVA_TOOL_OPTIONS")).getD [] ++ (javaOption (agentJar agentDir)).val
  python : (pwInit img env').armed = true → img.runtime = .python →
    img.pathExists (shimFile agentDir).val = true →
    ¬ (shimDir agentDir).val <:+: (getenv env (bytes "PYTHONPATH")).getD [] →
    ((getenv env' (bytes "PYTHONPATH")).getD []).length +
      (shimDir agentDir).val.length + 1 < PW_ENV_MAX →
    (getenv (pwInit img env').env (bytes "PYTHONPATH")).getD [] =
      inFront 0x3a (shimDir agentDir).val ((getenv env (bytes "PYTHONPATH")).getD [])

/-- However often the launcher of a runtime starts itself anew, and whatever it starts, each agent
is loaded once. -/
theorem descends_loads {env env' : Environ} (h : Descends LOADED_KEYS env env') (img : Image) :
    Loads (pwAgentDir env) env img env' := by
  have hkeys : LOADED_KEYS ⊆ KEEP_KEYS := by decide
  have hinit (img : Image) (env₁ : Environ)
      (hP : pwAgentDir env₁ = pwAgentDir env ∧ LoadedOnce (pwAgentDir env) env env₁) :
      pwAgentDir (pwInit img env₁).env = pwAgentDir env ∧
        LoadedOnce (pwAgentDir env) env (pwInit img env₁).env :=
    ⟨(pwAgentDir_pwInit img env₁).trans hP.1, loadedOnce_pwInit img hP.1 hP.2⟩
  have hsame (env₁ env₂ : Environ) (hsame : Same LOADED_KEYS env₁ env₂)
      (hP : pwAgentDir env₁ = pwAgentDir env ∧ LoadedOnce (pwAgentDir env) env env₁) :
      pwAgentDir env₂ = pwAgentDir env ∧ LoadedOnce (pwAgentDir env) env env₂ := by
    obtain ⟨hdir, hjava, hpython⟩ := hP
    refine ⟨?_, ?_, ?_⟩
    · rw [pwAgentDir_eq env₂, hsame _ (by simp [LOADED_KEYS]), ← pwAgentDir_eq, hdir]
    · rwa [hsame _ (by simp [LOADED_KEYS])]
    · rwa [hsame _ (by simp [LOADED_KEYS])]
  obtain ⟨hdir, honce⟩ := h.keeps hkeys hinit hsame ⟨rfl, .inl rfl, .inl rfl⟩
  have hlater := loadedOnce_pwInit img hdir honce
  refine ⟨hlater, fun harmed hruntime hthere hnew hroom => ?_,
    fun harmed hruntime hthere hnew hroom => ?_⟩
  · cases hlater.java with
    | inr hadded => exact hadded.2
    | inl hstayed =>
        -- the image mentions the archive, so the options cannot be those of `env`
        rw [← hdir] at hthere hroom hnew
        refine absurd ?_ hnew
        rw [← hstayed]
        exact mentions_javaToolOptions harmed hruntime hthere hroom
  · cases hlater.python with
    | inr hadded => exact hadded.2
    | inl hstayed =>
        rw [← hdir] at hthere hroom hnew
        refine absurd ?_ hnew
        rw [← hstayed]
        exact mentions_pythonpath harmed hruntime hthere hroom

/-- The launcher of Java starts itself anew. -/
theorem descends_loads_java :
    Loads (pwAgentDir shopEnviron) shopEnviron (sampleImage "/usr/bin/java")
      ((execEnv (pwInit (sampleImage "/usr/bin/java") shopEnviron).env (some [])).getD []) :=
  descends_loads (.single ⟨_, starts_empty LOADED_KEYS (sampleImage "/usr/bin/java") shopEnviron⟩) _

end ProcWatch

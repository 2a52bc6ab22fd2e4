import ProcWatch.Model.Inject
import ProcWatch.Verification.Inject.Lookup

/-! # What the edits of a variable bring about -/

namespace ProcWatch

open CLib

/-! ## Entries between separators -/

/-- The entries of a variable; one that is empty or not set has none. -/
def varEntries (sep : Byte) : Option Bytes → List Bytes
  | none => []
  | some v => if v = [] then [] else v.splitOn sep

theorem varEntries_of_ne_nil {sep : Byte} {v : Bytes} (h : v ≠ []) :
    varEntries sep (some v) = v.splitOn sep :=
  if_neg h

theorem mem_splitOn_self {sep : Byte} {entry : Bytes} :
    entry ∈ entry.splitOn sep ↔ sep ∉ entry := by
  constructor
  · exact not_mem_of_mem_splitOn
  · intro h
    rw [List.splitOn_eq_singleton h]
    exact List.mem_cons_self

/-- Among other entries too, an entry is whole if it has no separator. -/
theorem mem_append_splitOn_self {sep : Byte} {entry v : Bytes} :
    (entry ∈ v.splitOn sep ++ entry.splitOn sep) ↔ sep ∉ entry := by
  rw [List.mem_append]
  constructor
  · intro h
    cases h with
    | inl h => exact not_mem_of_mem_splitOn h
    | inr h => exact mem_splitOn_self.mp h
  · exact fun h => .inr (mem_splitOn_self.mpr h)

theorem isSome_strstr_iff {cur marker : Bytes} (hcur : (0 : Byte) ∉ cur) :
    (strstr cur marker).isSome ↔ marker <:+: cur := by
  rw [strstr, cstr_of_nulFree hcur]
  cases hfind : find marker cur with
  | none =>
      simp only [Option.isSome_none, Bool.false_eq_true, false_iff]
      intro h
      obtain ⟨s, t, rfl⟩ := h
      apply find_eq_none_iff.mp hfind s.length (by simp)
      rw [List.append_assoc, List.drop_left]
      exact List.prefix_append _ _
  | some i =>
      simp only [Option.isSome_some, true_iff]
      exact (find_spec hfind).1.isInfix.trans (List.drop_suffix i cur).isInfix

/-! ## Effects -/

/-- A return code of 0 says that `entry` is one of the entries and that all earlier ones are kept
in order, one of -1 that nothing changed. -/
def InEffect (name : Bytes) (sep : Byte) (entry : Bytes) (env : Environ) (r : Environ × ℤ) : Prop :=
  (r.2 = 0 → entry ∈ varEntries sep (getenv r.1 name) ∧
    (varEntries sep (getenv env name)).Sublist (varEntries sep (getenv r.1 name))) ∧
    (r.2 = -1 → r.1 = env)

/-- Where the marker occurs in the value, it does so in a whole entry; elsewhere the entry can be
one. -/
def Recognizable (sep : Byte) (marker entry : Bytes) (v : Option Bytes) : Prop :=
  if marker <:+: v.getD [] ∧ v.isSome then entry ∈ varEntries sep v
  else entry ≠ [] ∧ sep ∉ entry

/-- What a return code does say. -/
def InEffectIfRecognizable (name : Bytes) (sep : Byte) (marker entry : Bytes) (env : Environ)
    (r : Environ × ℤ) : Prop :=
  (r.2 = 0 → (entry ∈ varEntries sep (getenv r.1 name) ↔
      Recognizable sep marker entry (getenv env name)) ∧
    (varEntries sep (getenv env name)).Sublist (varEntries sep (getenv r.1 name))) ∧
    (r.2 = -1 → r.1 = env)

section Effects

variable {name : Bytes} {sep : Byte} {marker entry : Bytes} {env : Environ}

theorem inEffect_unchanged {cur : Bytes} (hcur : getenv env name = some cur)
    (hmarker : marker <:+: cur) :
    InEffectIfRecognizable name sep marker entry env (env, 0) := by
  refine ⟨fun _ => ⟨?_, List.Sublist.refl _⟩, fun _ => rfl⟩
  have hcond : marker <:+: (some cur).getD [] ∧ (some cur).isSome = true := ⟨hmarker, rfl⟩
  rw [hcur, Recognizable, if_pos hcond]

theorem inEffect_refused : InEffectIfRecognizable name sep marker entry env (env, -1) := by
  refine ⟨fun h => ?_, fun _ => rfl⟩
  cases h

/-- The variable was written. -/
theorem inEffect_written (hname : (0 : Byte) ∉ name) {value : Bytes} (hvalue : (0 : Byte) ∉ value)
    (habsent : ∀ cur, getenv env name = some cur → ¬ marker <:+: cur)
    (hentry : entry ∈ varEntries sep (some value) ↔ entry ≠ [] ∧ sep ∉ entry)
    (hkept : (varEntries sep (getenv env name)).Sublist (varEntries sep (some value))) :
    InEffectIfRecognizable name sep marker entry env (setenv name value true env, 0) := by
  have hafter : getenv (setenv name value true env) name = some value := by
    rw [getenv_setenv_self hname, cstr_of_nulFree hvalue]
  refine ⟨fun _ => ?_, fun h => by cases h⟩
  rw [hafter, hentry, Recognizable, if_neg]
  · exact ⟨Iff.rfl, hkept⟩
  · intro h
    obtain ⟨hmarker, hsome⟩ := h
    obtain ⟨cur, hcur⟩ := Option.isSome_iff_exists.mp hsome
    rw [hcur, Option.getD_some] at hmarker
    exact habsent cur hcur hmarker

end Effects

/-! ## `PYTHONPATH` -/

theorem pwEnvPrepend_inEffect {name : Bytes} (hname : (0 : Byte) ∉ name) {sep : Byte}
    (hsep : sep ≠ 0) (dir : CString) (env : Environ) :
    InEffectIfRecognizable name sep dir.val dir.val env (pwEnvPrepend name dir dir sep env) := by
  have halone : dir.val ∈ varEntries sep (some dir.val) ↔ dir.val ≠ [] ∧ sep ∉ dir.val := by
    by_cases hnil : dir.val = []
    · simp [varEntries, hnil]
    · rw [varEntries_of_ne_nil hnil, mem_splitOn_self, and_iff_right hnil]
  rw [pwEnvPrepend]
  cases hcur : getenv env name with
  | none =>
      apply inEffect_written hname dir.nulFree (by simp [hcur]) halone
      rw [hcur]
      exact List.nil_sublist _
  | some cur =>
      have hnul : (0 : Byte) ∉ cur := nulFree_of_getenv hcur
      simp only [isSome_strstr_iff hnul]
      by_cases hmarker : dir.val <:+: cur
      · rw [if_pos hmarker]
        exact inEffect_unchanged hcur hmarker
      have habsent : ∀ v, getenv env name = some v → ¬ dir.val <:+: v := by
        intro v hv
        rw [hcur] at hv
        rwa [← Option.some.inj hv]
      rw [if_neg hmarker]
      by_cases hempty : cur = []
      · rw [if_pos hempty]
        apply inEffect_written hname dir.nulFree habsent halone
        rw [hcur, hempty]
        exact List.nil_sublist _
      rw [if_neg hempty]
      by_cases hlong : PW_ENV_MAX < cur.length + dir.val.length + 2
      · rw [if_pos hlong]
        exact inEffect_refused
      rw [if_neg hlong]
      have hdir : dir.val ≠ [] := fun h => hmarker (h ▸ List.nil_infix)
      have hsplit : varEntries sep (some (dir.val ++ sep :: cur)) =
          dir.val.splitOn sep ++ cur.splitOn sep := by
        rw [varEntries_of_ne_nil (by simp), List.splitOn_append_cons_self]
      apply inEffect_written hname _ habsent
      · rw [hsplit, List.mem_append, or_comm, ← List.mem_append, mem_append_splitOn_self,
          and_iff_right hdir]
      · rw [hcur, varEntries_of_ne_nil hempty, hsplit]
        exact List.sublist_append_right _ _
      · simp [dir.nulFree, hnul, Ne.symm hsep]

/-! ## `JAVA_TOOL_OPTIONS` -/

/-- The option for an agent. -/
def javaagent (jar : CStr 1024) : Bytes :=
  bytes "-javaagent:" ++ jar.val

theorem javaOption_val (jar : CStr 1024) : (javaOption jar).val = 0x20 :: javaagent jar := by
  have hval : (javaOption jar).val = bytes " -javaagent:" ++ jar.val := by
    apply CStr.copy_val_of_fits
    · have hplain : (0 : Byte) ∉ bytes " -javaagent:" := by decide
      simp [hplain, jar.nulFree]
    · have hlen := jar.length_lt
      rw [List.length_append, length_bytes]
      simp
      omega
  rw [hval]
  rfl

theorem pwEnvAppend_inEffect {name : Bytes} (hname : (0 : Byte) ∉ name) (jar : CStr 1024)
    (env : Environ) :
    InEffectIfRecognizable name 0x20 jar.val (javaagent jar) env
      (pwEnvAppend name (CStr.toCString (javaOption jar)) (CStr.toCString jar) env) := by
  have hoption : (CStr.toCString (javaOption jar)).val = 0x20 :: javaagent jar :=
    javaOption_val jar
  have hnulOption : (0 : Byte) ∉ (0x20 : Byte) :: javaagent jar := by
    rw [← hoption]
    exact (CStr.toCString (javaOption jar)).nulFree
  have hne : javaagent jar ≠ [] := by simp [javaagent, bytes]
  have halone : varEntries 0x20 (some (0x20 :: javaagent jar)) =
      ([] : Bytes).splitOn 0x20 ++ (javaagent jar).splitOn 0x20 := by
    rw [varEntries_of_ne_nil (by simp), ← List.splitOn_append_cons_self, List.nil_append]
  have hmem (v : Bytes) : javaagent jar ∈ v.splitOn 0x20 ++ (javaagent jar).splitOn 0x20 ↔
      javaagent jar ≠ [] ∧ 0x20 ∉ javaagent jar := by
    rw [mem_append_splitOn_self, and_iff_right hne]
  rw [pwEnvAppend, hoption]
  cases hcur : getenv env name with
  | none =>
      apply inEffect_written hname hnulOption (by simp [hcur])
      · rw [halone, hmem]
      · rw [hcur]
        exact List.nil_sublist _
  | some cur =>
      have hnul : (0 : Byte) ∉ cur := nulFree_of_getenv hcur
      simp only [isSome_strstr_iff hnul]
      by_cases hmarker : (CStr.toCString jar).val <:+: cur
      · rw [if_pos hmarker]
        exact inEffect_unchanged hcur hmarker
      have habsent : ∀ v, getenv env name = some v → ¬ jar.val <:+: v := by
        intro v hv
        rw [hcur] at hv
        rwa [← Option.some.inj hv]
      rw [if_neg hmarker]
      by_cases hempty : cur = []
      · rw [if_pos hempty]
        apply inEffect_written hname hnulOption habsent
        · rw [halone, hmem]
        · rw [hcur, hempty]
          exact List.nil_sublist _
      rw [if_neg hempty]
      split
      · exact inEffect_refused
      have hsplit : varEntries 0x20 (some (cur ++ 0x20 :: javaagent jar)) =
          cur.splitOn 0x20 ++ (javaagent jar).splitOn 0x20 := by
        rw [varEntries_of_ne_nil (by simp), List.splitOn_append_cons_self]
      apply inEffect_written hname _ habsent
      · rw [hsplit, hmem]
      · rw [hcur, varEntries_of_ne_nil hempty, hsplit]
        exact List.sublist_append_left _ _
      · simpa [hnul] using hnulOption

/-! ## Both runtimes -/

/-- A return code of 0 keeps all earlier entries in order and puts the shim directory or the agent
option among them, if it does not occur inside a longer entry and contains no separator. -/
theorem injection_inEffect (env : Environ) (dir : CString) (jar : CStr 1024) :
    InEffectIfRecognizable (bytes "PYTHONPATH") 0x3a dir.val dir.val env
        (pwEnvPrepend (bytes "PYTHONPATH") dir dir 0x3a env) ∧
      InEffectIfRecognizable (bytes "JAVA_TOOL_OPTIONS") 0x20 jar.val (javaagent jar) env
        (pwEnvAppend (bytes "JAVA_TOOL_OPTIONS") (CStr.toCString (javaOption jar))
          (CStr.toCString jar) env) :=
  ⟨pwEnvPrepend_inEffect (by decide) (by decide) dir env, pwEnvAppend_inEffect (by decide) jar env⟩

/-- The shim directory inside a longer path, and one that contains a colon. -/
theorem not_inEffect_longerPath :
    let dir := CString.ofBytes (bytes "/opt/procwatch/agent/python")
    let env := [CString.ofBytes (bytes "PYTHONPATH=/opt/procwatch/agent/python3/site")]
    let split := CString.ofBytes (bytes "/opt/a:b/python")
    ¬ InEffect (bytes "PYTHONPATH") 0x3a dir.val env
        (pwEnvPrepend (bytes "PYTHONPATH") dir dir 0x3a env) ∧
      ¬ InEffect (bytes "PYTHONPATH") 0x3a split.val []
        (pwEnvPrepend (bytes "PYTHONPATH") split split 0x3a []) := by
  constructor
  · intro h
    have hentry := (h.1 (by decide +kernel)).1
    revert hentry
    decide +kernel
  · intro h
    have hentry := (h.1 (by decide +kernel)).1
    revert hentry
    decide +kernel

end ProcWatch

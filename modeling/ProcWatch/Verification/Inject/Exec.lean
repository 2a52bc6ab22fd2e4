import ProcWatch.Model.ExecWrap
import ProcWatch.Verification.Inject.Lookup

/-! # Environments across exec -/

namespace ProcWatch

open CLib

/-! ## Entries that are kept -/

/-- The text that a merge adds for a key: it is set and not empty in the process and absent from
`envp`. -/
def keptEntry (environ : Environ) (envp : Option Environ) (key : Bytes) : Option Bytes :=
  if HasKey (envp.getD []) key then none
  else ((getenv environ key).filter (· ≠ [])).map fun val => key ++ 0x3d :: val

theorem envHasKey_iff {envp : Option Environ} {key : Bytes} (hkey : (0 : Byte) ∉ key) :
    envHasKey envp key = true ↔ HasKey (envp.getD []) key := by
  have hentry (e : CString) :
      (strncmpEq e.val key key.length && e.val[key.length]? == some 0x3d) = true ↔
        key ++ [0x3d] <+: e.val := by
    rw [Bool.and_eq_true, strncmpEq, cstr_of_nulFree e.nulFree, cstr_of_nulFree hkey,
      List.take_length, beq_iff_eq, beq_iff_eq]
    constructor
    · intro h
      obtain ⟨hstart, heq⟩ := h
      obtain ⟨hlt, hget⟩ := List.getElem?_eq_some_iff.mp heq
      have hsplit : e.val = key ++ 0x3d :: e.val.drop (key.length + 1) := by
        rw [← hget, ← List.drop_eq_getElem_cons hlt]
        conv_rhs => rw [← hstart, List.length_take, Nat.min_eq_left hlt.le, List.take_append_drop]
      exact ⟨_, by rw [List.append_assoc, List.singleton_append, ← hsplit]⟩
    · intro h
      obtain ⟨t, ht⟩ := h
      rw [← ht, List.append_assoc]
      exact ⟨List.take_left, by simp⟩
  cases envp with
  | none => simp [envHasKey, HasKey]
  | some envp => simp only [envHasKey, List.any_eq_true, hentry, HasKey, Option.getD_some]

/-! ## The two passes -/

/-- The entries that the filling pass adds for some keys. -/
def addedEntries (environ : Environ) (envp : Option Environ) (keys : List Bytes) : Environ :=
  keys.filterMap fun key =>
    (missingValue environ envp key).map fun val => .ofBytes (key ++ 0x3d :: val)

section Passes

variable {environ : Environ} {envp : Option Environ} {keys : List Bytes}

theorem addedEntries_cons_of_none {key : Bytes} (h : missingValue environ envp key = none) :
    addedEntries environ envp (key :: keys) = addedEntries environ envp keys := by
  rw [addedEntries, List.filterMap_cons, h]
  rfl

theorem addedEntries_cons_of_some {key val : Bytes}
    (h : missingValue environ envp key = some val) :
    addedEntries environ envp (key :: keys) =
      .ofBytes (key ++ 0x3d :: val) :: addedEntries environ envp keys := by
  rw [addedEntries, List.filterMap_cons, h]
  rfl

theorem countMissing_eq (add : ℕ) :
    countMissing environ envp keys add = add + (addedEntries environ envp keys).length := by
  induction keys generalizing add with
  | nil => rfl
  | cons key keys ih =>
      rw [countMissing]
      cases hval : missingValue environ envp key with
      | none =>
          rw [addedEntries_cons_of_none hval]
          exact ih add
      | some val =>
          rw [addedEntries_cons_of_some hval, List.length_cons, ← Nat.add_assoc,
            Nat.add_right_comm]
          exact ih (add + 1)

/-- `done` has been written and `free` slots are left. -/
def Filled (done : List (Option CString)) (free : ℕ) (s : Slots) : Prop :=
  s.out = done ++ List.replicate free none ∧ s.j = done.length

variable {done : List (Option CString)} {free : ℕ} {s : Slots}

theorem write_of_filled (h : Filled done (free + 1) s) (e : Option CString) :
    ∃ s', s.write e = some s' ∧ Filled (done ++ [e]) free s' := by
  obtain ⟨hout, hj⟩ := h
  refine ⟨_, if_pos (by simp [hout, hj]), ?_, by simp [hj]⟩
  simp only [hout, hj, List.replicate_succ]
  rw [List.set_append_right _ _ le_rfl, Nat.sub_self, List.set_cons_zero, List.append_assoc,
    List.singleton_append]

theorem copyEntries_of_filled {env : List CString} (h : Filled done (env.length + free) s) :
    ∃ s', copyEntries env s = some s' ∧ Filled (done ++ env.map some) free s' := by
  induction env generalizing done s with
  | nil => exact ⟨s, rfl, by simpa using h⟩
  | cons e env ih =>
      rw [List.length_cons, Nat.add_right_comm] at h
      obtain ⟨s₁, hwrite, h₁⟩ := write_of_filled h (some e)
      obtain ⟨s₂, hcopy, h₂⟩ := ih h₁
      refine ⟨s₂, ?_, by simpa using h₂⟩
      rw [copyEntries, hwrite]
      exact hcopy

/-- The filling pass takes as many slots as the counting pass counted. -/
theorem fillMissing_of_filled
    (h : Filled done ((addedEntries environ envp keys).length + free) s) :
    ∃ s', fillMissing environ envp keys s = some s' ∧
      Filled (done ++ (addedEntries environ envp keys).map some) free s' := by
  induction keys generalizing done s with
  | nil => exact ⟨s, rfl, by simpa [addedEntries] using h⟩
  | cons key keys ih =>
      rw [fillMissing]
      cases hval : missingValue environ envp key with
      | none =>
          rw [addedEntries_cons_of_none hval] at h ⊢
          exact ih h
      | some val =>
          rw [addedEntries_cons_of_some hval] at h ⊢
          rw [List.length_cons, Nat.add_right_comm] at h
          obtain ⟨s₁, hwrite, h₁⟩ := write_of_filled h (some (.ofBytes (key ++ 0x3d :: val)))
          obtain ⟨s₂, hfill, h₂⟩ := ih h₁
          refine ⟨s₂, ?_, by simpa using h₂⟩
          simp only [hwrite]
          exact hfill

end Passes

/-! ## The merged environment -/

section Merge

variable (environ : Environ) (envp : Option Environ)

theorem mergeEnv_eq :
    mergeEnv environ envp =
      if addedEntries environ envp KEEP_KEYS = [] then .null
      else .array ((envp.getD [] ++ addedEntries environ envp KEEP_KEYS).map some ++ [none])
        ((envp.getD []).length + (addedEntries environ envp KEEP_KEYS).length + 1) := by
  have hcount : countMissing environ envp KEEP_KEYS 0 =
      (addedEntries environ envp KEEP_KEYS).length := by
    rw [countMissing_eq, Nat.zero_add]
  rw [mergeEnv]
  simp only [hcount, List.length_eq_zero_iff]
  split
  · rfl
  · have hempty : Filled []
        ((envp.getD []).length + ((addedEntries environ envp KEEP_KEYS).length + 1))
        ⟨List.replicate ((envp.getD []).length + (addedEntries environ envp KEEP_KEYS).length + 1)
          none, 0⟩ :=
      ⟨by rw [List.nil_append, Nat.add_assoc], rfl⟩
    obtain ⟨s₁, hcopy, h₁⟩ := copyEntries_of_filled hempty
    obtain ⟨s₂, hfill, h₂⟩ := fillMissing_of_filled h₁
    obtain ⟨s₃, hlast, hout, hj⟩ := write_of_filled h₂ none
    simp only [hcopy, hfill, hlast, hout, hj]
    simp [Nat.add_assoc]

theorem entries_map_some (env : Environ) : entries (env.map some ++ [none]) = env := by
  rw [entries, List.takeWhile_append_of_pos]
  · simp
  · simp

/-- What the new image gets. -/
theorem getD_execEnv :
    (execEnv environ envp).getD [] = envp.getD [] ++ addedEntries environ envp KEEP_KEYS := by
  rw [execEnv, mergeEnv_eq]
  split
  · next out written h =>
      split at h
      · cases h
      · cases h
        exact entries_map_some _
  · next h =>
      split at h
      · next hnone => rw [hnone, List.append_nil]
      · exact absurd rfl (h _ _)

end Merge

/-! ## Exactness of a merge -/

theorem KEEP_KEYS_plain : ∀ key ∈ KEEP_KEYS, (0 : Byte) ∉ key ∧ 0x3d ∉ key := by
  decide

section Exact

variable {environ : Environ} {envp : Option Environ}

theorem missingValue_eq {key : Bytes} (hkey : (0 : Byte) ∉ key) :
    missingValue environ envp key =
      if HasKey (envp.getD []) key then none else (getenv environ key).filter (· ≠ []) := by
  rw [missingValue]
  by_cases hhas : HasKey (envp.getD []) key
  · have htrue : envHasKey envp key = true := (envHasKey_iff hkey).mpr hhas
    rw [if_pos hhas, htrue]
    cases getenv environ key <;> simp
  · have hfalse : envHasKey envp key = false :=
      Bool.eq_false_iff.mpr fun h => hhas ((envHasKey_iff hkey).mp h)
    rw [if_neg hhas, hfalse]
    cases getenv environ key with
    | none => rfl
    | some val => by_cases hval : val = [] <;> simp [hval, Option.filter]

theorem getenv_of_missingValue {key val : Bytes} (h : missingValue environ envp key = some val) :
    getenv environ key = some val := by
  rw [missingValue] at h
  split at h
  · cases h
  · next v hget =>
      split at h
      · cases h
      · split at h
        · cases h
        · rw [hget, h]

theorem ofBytes_keyValue {key val : Bytes} (hkey : (0 : Byte) ∉ key)
    (h : missingValue environ envp key = some val) :
    (CString.ofBytes (key ++ 0x3d :: val)).val = key ++ 0x3d :: val := by
  have hval : (0 : Byte) ∉ val := nulFree_of_getenv (getenv_of_missingValue h)
  exact cstr_of_nulFree (by simp [hkey, hval])

theorem map_val_addedEntries {keys : List Bytes} (hkeys : ∀ key ∈ keys, (0 : Byte) ∉ key) :
    (addedEntries environ envp keys).map CString.val =
      keys.filterMap (keptEntry environ envp) := by
  rw [addedEntries, List.map_filterMap]
  apply List.filterMap_congr
  intro key hmem
  have hkept : keptEntry environ envp key =
      (missingValue environ envp key).map fun val => key ++ 0x3d :: val := by
    rw [keptEntry, missingValue_eq (hkeys key hmem)]
    split <;> rfl
  rw [hkept, Option.map_map]
  cases hval : missingValue environ envp key with
  | none => rfl
  | some val => exact congrArg some (ofBytes_keyValue (hkeys key hmem) hval)

/-- A key that is kept is there afterwards. -/
theorem hasKey_execEnv {key val : Bytes} (hkey : key ∈ KEEP_KEYS)
    (h : missingValue environ envp key = some val) :
    HasKey ((execEnv environ envp).getD []) key := by
  have hmem : CString.ofBytes (key ++ 0x3d :: val) ∈ addedEntries environ envp KEEP_KEYS :=
    List.mem_filterMap.mpr ⟨key, hkey, by rw [h, Option.map_some]⟩
  rw [getD_execEnv]
  refine ⟨_, List.mem_append_right _ hmem, val, ?_⟩
  rw [ofBytes_keyValue (KEEP_KEYS_plain key hkey).1 h, List.append_assoc, List.singleton_append]

theorem missingValue_execEnv {key : Bytes} (hkey : key ∈ KEEP_KEYS) :
    missingValue environ (execEnv environ envp) key = none := by
  have hnul : (0 : Byte) ∉ key := (KEEP_KEYS_plain key hkey).1
  rw [missingValue_eq hnul]
  cases h : missingValue environ envp key with
  | some val => rw [if_pos (hasKey_execEnv hkey h)]
  | none =>
      rw [missingValue_eq hnul] at h
      by_cases hhas : HasKey (envp.getD []) key
      · obtain ⟨e, he, hstart⟩ := hhas
        rw [if_pos]
        rw [getD_execEnv]
        exact ⟨e, List.mem_append_left _ he, hstart⟩
      · rw [if_neg hhas] at h
        rw [h, ite_self]

theorem mergeEnv_execEnv : mergeEnv environ (execEnv environ envp) = .null := by
  rw [mergeEnv_eq, if_pos]
  apply List.filterMap_eq_nil_iff.mpr
  intro key hkey
  rw [missingValue_execEnv hkey, Option.map_none]

end Exact

/-- A merge returns the entries of `envp` followed by one for each kept key, in as many slots as
were counted, or `NULL` if there is none; merging again adds nothing. -/
theorem mergeEnv_exact (environ : Environ) (envp : Option Environ) :
    KEEP_KEYS.Nodup ∧
      ∃ added : Environ,
        added.map CString.val = KEEP_KEYS.filterMap (keptEntry environ envp) ∧
        (mergeEnv environ envp = .null ↔ added = []) ∧
        (added ≠ [] → mergeEnv environ envp =
          .array ((envp.getD [] ++ added).map some ++ [none])
            ((envp.getD []).length + countMissing environ envp KEEP_KEYS 0 + 1)) ∧
        countMissing environ envp KEEP_KEYS 0 = added.length ∧
        mergeEnv environ (execEnv environ envp) = .null := by
  have hcount : countMissing environ envp KEEP_KEYS 0 =
      (addedEntries environ envp KEEP_KEYS).length := by
    rw [countMissing_eq, Nat.zero_add]
  refine ⟨by decide +kernel, addedEntries environ envp KEEP_KEYS,
    map_val_addedEntries fun key hkey => (KEEP_KEYS_plain key hkey).1, ?_, ?_, hcount,
    mergeEnv_execEnv⟩
  · rw [mergeEnv_eq]
    split
    · next hnone => simp [hnone]
    · next hsome => simp [hsome]
  · intro hsome
    rw [mergeEnv_eq, if_neg hsome, hcount]

/-! ## The kill switch -/

/-- A process that must not be instrumented. -/
def KillSwitchSet (environ : Environ) : Prop :=
  ∃ v, getenv environ (bytes "PROCWATCH_INJECT_DISABLED") = some v ∧ v ≠ bytes "0"

/-- A switched-off process does not arm an image that `envp` alone leaves unarmed. -/
def SwitchSurvives (privileged : Bool) (environ : Environ) (envp : Option Environ) : Prop :=
  KillSwitchSet environ → pwInitArms privileged (envp.getD []) = false →
    pwInitArms privileged ((execEnv environ envp).getD []) = false

section Switch

variable {environ : Environ} {envp : Option Environ}

theorem getenv_addedEntries {name : Bytes} (hname : (0 : Byte) ∉ name ∧ 0x3d ∉ name)
    {keys : List Bytes} (hkeys : ∀ key ∈ keys, (0 : Byte) ∉ key ∧ 0x3d ∉ key) :
    getenv (addedEntries environ envp keys) name =
      if name ∈ keys then missingValue environ envp name else none := by
  induction keys with
  | nil => rfl
  | cons key keys ih =>
      have hkey := hkeys key List.mem_cons_self
      have hrest := ih fun key hmem => hkeys key (List.mem_cons_of_mem _ hmem)
      cases hval : missingValue environ envp key with
      | none =>
          rw [addedEntries_cons_of_none hval, hrest]
          by_cases heq : name = key
          · rw [heq, hval, ite_self, ite_self]
          · simp [heq]
      | some val =>
          rw [addedEntries_cons_of_some hval, getenv, List.findSome?_cons,
            ofBytes_keyValue hkey.1 hval]
          by_cases heq : name = key
          · have hsplit : key ++ 0x3d :: val = (key ++ [0x3d]) ++ val := by simp
            rw [heq, hsplit, valueOf_append, if_pos List.mem_cons_self, hval]
          · rw [valueOf, if_neg fun h => heq ((append_eq_isPrefix_iff hkey.2 hname.2 val).mp h)]
            simp only [List.mem_cons, heq, false_or]
            exact hrest

/-- The switch itself is not kept. -/
theorem injectDisabled_execEnv :
    injectDisabled ((execEnv environ envp).getD []) = injectDisabled (envp.getD []) := by
  have hkeys : bytes "PROCWATCH_INJECT_DISABLED" ∉ KEEP_KEYS := by decide
  rw [injectDisabled, getD_execEnv, getenv_append,
    getenv_addedEntries (by decide) KEEP_KEYS_plain, if_neg hkeys, Option.or_none]
  rfl

theorem pwResolveLabel_execEnv :
    pwResolveLabel ((execEnv environ envp).getD []) =
      if HasKey (envp.getD []) (bytes "PROCWATCH_LABEL") then pwResolveLabel (envp.getD [])
      else pwResolveLabel environ := by
  have hkey : bytes "PROCWATCH_LABEL" ∈ KEEP_KEYS := by decide
  have hplain := KEEP_KEYS_plain _ hkey
  rw [pwResolveLabel, getD_execEnv, getenv_append, getenv_addedEntries hplain KEEP_KEYS_plain,
    if_pos hkey, missingValue_eq hplain.1]
  by_cases hhas : HasKey (envp.getD []) (bytes "PROCWATCH_LABEL")
  · rw [if_pos hhas, if_pos hhas, Option.or_none]
    rfl
  · rw [if_neg hhas, if_neg hhas, getenv_eq_none_iff.mpr hhas, Option.none_or, pwResolveLabel]
    cases getenv environ (bytes "PROCWATCH_LABEL") with
    | none => rfl
    | some label =>
        by_cases hnil : label = []
        · subst hnil
          have hinvalid : pwLabelValid [] = false := by decide
          simp [hinvalid, Option.filter]
        · simp [hnil, Option.filter]

end Switch

/-- The switch survives unless the new image has a label only through the merge. -/
theorem switchSurvives_iff (privileged : Bool) (environ : Environ) (envp : Option Environ) :
    SwitchSurvives privileged environ envp ↔
      ¬ (KillSwitchSet environ ∧ privileged = false ∧ injectDisabled (envp.getD []) = false ∧
        ¬ HasKey (envp.getD []) (bytes "PROCWATCH_LABEL") ∧
        (pwResolveLabel environ).isSome) := by
  have hlabel (hkey : ¬ HasKey (envp.getD []) (bytes "PROCWATCH_LABEL")) :
      pwResolveLabel (envp.getD []) = none := by
    rw [pwResolveLabel, getenv_eq_none_iff.mpr hkey]
  rw [SwitchSurvives, pwInitArms, pwInitArms, injectDisabled_execEnv, pwResolveLabel_execEnv]
  cases privileged with
  | true => simp
  | false =>
      cases injectDisabled (envp.getD []) with
      | true => simp
      | false =>
          by_cases hkey : HasKey (envp.getD []) (bytes "PROCWATCH_LABEL")
          · simp [hkey]
          · simp [hkey, hlabel hkey]

/-- A process that is switched off and rebuilds the environment of its child from nothing. -/
def switchedOff : Environ :=
  [.ofBytes (bytes "LD_PRELOAD=/opt/procwatch/agent/libprocwatch_inject.so"),
    .ofBytes (bytes "PROCWATCH_LABEL=shop"), .ofBytes (bytes "PROCWATCH_INJECT_DISABLED=1")]

theorem not_switchSurvives_switchedOff : ¬ SwitchSurvives false switchedOff (some []) := by
  intro h
  have harmed := h ⟨bytes "1", by decide +kernel, by decide⟩ (by decide)
  revert harmed
  decide +kernel

end ProcWatch

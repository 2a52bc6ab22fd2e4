import ProcWatch.Library.Occurrences
import ProcWatch.Model.Constructor
import ProcWatch.Verification.Inject.Exec
import ProcWatch.Verification.Inject.InEffect
import ProcWatch.Verification.Inject.Keys

/-! # The label among the resource attributes -/

namespace ProcWatch

open CLib

/-! ## Other variables -/

/-- A name that an entry can start with. -/
def IsName (name : Bytes) : Prop :=
  (0 : Byte) ∉ name ∧ 0x3d ∉ name

instance (name : Bytes) : Decidable (IsName name) :=
  inferInstanceAs (Decidable (_ ∧ _))

/-- Only the values of some variables may differ. -/
def Leaves (names : List Bytes) (env env' : Environ) : Prop :=
  ∀ name, IsName name → name ∉ names → getenv env' name = getenv env name

section Leaves

variable {names names' : List Bytes} {env env' env'' : Environ}

theorem Leaves.refl : Leaves names env env :=
  fun _ _ _ => rfl

theorem Leaves.trans (h : Leaves names env env') (h' : Leaves names env' env'') :
    Leaves names env env'' :=
  fun name hname hother => (h' name hname hother).trans (h name hname hother)

theorem Leaves.mono (h : Leaves names env env') (hsub : names ⊆ names') :
    Leaves names' env env' :=
  fun name hname hother => h name hname fun hmem => hother (hsub hmem)

end Leaves

section Setenv

variable {name name' value : Bytes} {overwrite : Bool} {env : Environ}

/-- An entry for one name is not one for another. -/
theorem valueOf_entry_of_ne (hname : IsName name) (hname' : IsName name') (hne : name' ≠ name)
    {entry : Bytes} (h : name ++ [0x3d] <+: entry) : valueOf (name' ++ [0x3d]) entry = none := by
  apply valueOf_eq_none_of_isPrefix h
  · exact fun hpre => hne ((append_eq_isPrefix_iff hname.2 hname'.2 []).mp hpre)
  · exact fun hpre => hne ((append_eq_isPrefix_iff hname'.2 hname.2 []).mp hpre).symm

theorem isPrefix_entry (hname : IsName name) (value : Bytes) :
    name ++ [0x3d] <+: (CString.ofBytes (name ++ 0x3d :: value)).val := by
  have hkey : (0 : Byte) ∉ name ++ [0x3d] := by simpa using hname.1
  have hval : (CString.ofBytes (name ++ 0x3d :: value)).val = (name ++ [0x3d]) ++ cstr value := by
    rw [← cstr_append_of_nulFree hkey, List.append_assoc, List.singleton_append]
    rfl
  rw [hval]
  exact List.prefix_append _ _

theorem getenv_setenv_of_ne (hname : IsName name) (hname' : IsName name') (hne : name' ≠ name) :
    getenv (setenv name value overwrite env) name' = getenv env name' := by
  have hnew : valueOf (name' ++ [0x3d]) (CString.ofBytes (name ++ 0x3d :: value)).val = none :=
    valueOf_entry_of_ne hname hname' hne (isPrefix_entry hname value)
  induction env with
  | nil => rw [setenv, getenv, List.findSome?_cons, hnew]; rfl
  | cons e env ih =>
      rw [setenv]
      split
      · next hentry =>
          split
          · rw [getenv, List.findSome?_cons, hnew, getenv, List.findSome?_cons,
              valueOf_entry_of_ne hname hname' hne hentry]
          · rfl
      · rw [getenv, List.findSome?_cons, getenv, List.findSome?_cons]
        cases valueOf (name' ++ [0x3d]) e.val with
        | none => exact ih
        | some v => rfl

theorem leaves_setenv (hname : IsName name) : Leaves [name] env (setenv name value overwrite env) :=
  fun _ hother hne => getenv_setenv_of_ne hname hother fun heq => hne (by simp [heq])

/-- A default is for a variable that is not set. -/
theorem setenv_default (name value : Bytes) (env : Environ) :
    setenv name value false env =
      if HasKey env name then env else setenv name value true env := by
  induction env with
  | nil => simp [setenv, HasKey]
  | cons e env ih =>
      have hcons : HasKey (e :: env) name ↔ name ++ [0x3d] <+: e.val ∨ HasKey env name := by
        simp [HasKey]
      rw [setenv, setenv]
      by_cases hentry : name ++ [0x3d] <+: e.val
      · simp [hentry, hcons]
      · simp only [hentry, if_false, hcons, false_or, ih]
        split <;> rfl

theorem getenv_setenv_default (hname : IsName name) :
    getenv (setenv name value false env) name = some ((getenv env name).getD (cstr value)) := by
  rw [setenv_default]
  split
  · next hhas =>
      cases hcur : getenv env name with
      | none => exact absurd hhas (getenv_eq_none_iff.mp hcur)
      | some v => rfl
  · next hhas =>
      rw [getenv_setenv_self hname.1, getenv_eq_none_iff.mpr hhas]
      rfl

theorem Leaves.setenv {names : List Bytes} {env env' : Environ} (h : Leaves names env env')
    (hname : IsName name) (hmem : name ∈ names) :
    Leaves names env (ProcWatch.setenv name value overwrite env') :=
  h.trans ((leaves_setenv hname).mono (by simpa using hmem))

end Setenv

/-! ## The label among the attributes -/

theorem isName_resourceAttributes : IsName RESOURCE_ATTRIBUTES := by decide

/-- The attributes do not mention the label. -/
def Untagged (attrs : Option Bytes) : Prop :=
  ¬ bytes "procwatch.label=" <:+: cstr (attrs.getD [])

/-- The attributes hold the label, and no other one. -/
def Tagged (label : Bytes) (attrs : Option Bytes) : Prop :=
  attrValues (bytes "procwatch.label") attrs = [label]

instance (attrs : Option Bytes) : Decidable (Untagged attrs) :=
  inferInstanceAs (Decidable (¬ _))

/-- There is room for the label and a comma. -/
def TagRoom (label : Bytes) (attrs : Option Bytes) : Prop :=
  (attrs.getD []).length + 18 + label.length ≤ RESOURCE_ATTRS_MAX

instance (label : Bytes) (attrs : Option Bytes) : Decidable (TagRoom label attrs) :=
  inferInstanceAs (Decidable (_ ≤ _))

/-- The entry for a label. -/
def labelEntry (label : Bytes) : Bytes :=
  bytes "procwatch.label=" ++ label

section Attributes

variable {label : Bytes} {attrs : Option Bytes} {env : Environ}

theorem plain_of_label (h : pwLabelValid label = true) :
    label ≠ [] ∧ label.length < 100 ∧ (0 : Byte) ∉ label ∧ 0x2c ∉ label := by
  have hbyte : ∀ c : Byte, (isAlnum c || c == 0x5f) = true → c ≠ 0 ∧ c ≠ 0x2c := by decide +kernel
  rw [pwLabelValid] at h
  split at h
  · cases h
  · next hlen =>
      have hall (c : Byte) (hc : c ∈ label) : c ≠ 0 ∧ c ≠ 0x2c :=
        hbyte c (List.all_eq_true.mp h c hc)
      have hmax : PW_LABEL_MAX = 100 := rfl
      refine ⟨?_, by omega, fun hmem => (hall _ hmem).1 rfl, fun hmem => (hall _ hmem).2 rfl⟩
      intro hnil
      simp [hnil] at hlen

theorem values_of_untagged (h : Untagged attrs) :
    attrValues (bytes "procwatch.label") attrs = [] := by
  by_contra hvalues
  exact h (infix_of_valuesOf_ne_nil hvalues)

theorem tagged_glue (hlabel : pwLabelValid label = true) (h : Untagged attrs)
    (hnul : (0 : Byte) ∉ attrs.getD []) :
    Tagged label (some (glue 0x2c (attrs.getD []) (labelEntry label))) := by
  obtain ⟨-, -, hzero, hcomma⟩ := plain_of_label hlabel
  have hentry : (0 : Byte) ∉ labelEntry label ∧ 0x2c ∉ labelEntry label := by
    have hkey : (0 : Byte) ∉ bytes "procwatch.label=" ∧ 0x2c ∉ bytes "procwatch.label=" := by
      decide
    simp [labelEntry, hkey, hzero, hcomma]
  have hglue : (0 : Byte) ∉ glue 0x2c (attrs.getD []) (labelEntry label) := by
    rw [glue]
    split
    · exact hentry.1
    · simp [hnul, hentry.1]
  have hvalues := values_of_untagged h
  rw [attrValues, cstr_of_nulFree hnul] at hvalues
  have hvalue : valueOf (bytes "procwatch.label" ++ [0x3d]) (labelEntry label) = some label :=
    valueOf_append _ _
  rw [Tagged, attrValues, Option.getD_some, cstr_of_nulFree hglue,
    valuesOf_glue (by decide) _ hentry.2, hvalues]
  simp [hvalue]

theorem pwAttachLabelToOtel_eq (hlabel : pwLabelValid label = true) :
    pwAttachLabelToOtel label env =
      if Untagged (getenv env RESOURCE_ATTRIBUTES) ∧ TagRoom label (getenv env RESOURCE_ATTRIBUTES)
      then setenv RESOURCE_ATTRIBUTES
        (glue 0x2c ((getenv env RESOURCE_ATTRIBUTES).getD []) (labelEntry label)) true env
      else env := by
  obtain ⟨hne, hlen, -, -⟩ := plain_of_label hlabel
  have hentry : (labelEntry label).length = 16 + label.length := by
    rw [labelEntry, List.length_append, length_bytes]
    rfl
  have hattr : bounded 160 (bytes "procwatch.label=" ++ label) = labelEntry label :=
    bounded_of_length_lt (by rw [← labelEntry, hentry]; omega)
  have hmax : RESOURCE_ATTRS_MAX = 8192 := rfl
  rw [pwAttachLabelToOtel, if_neg hne]
  dsimp only
  rw [hattr]
  cases hcur : getenv env RESOURCE_ATTRIBUTES with
  | none =>
      have huntagged : Untagged none := by decide
      have hroom : TagRoom label none := by
        rw [TagRoom, Option.getD_none, List.length_nil]
        omega
      rw [if_pos ⟨huntagged, hroom⟩]
      rfl
  | some cur =>
      have hnul : (0 : Byte) ∉ cur := nulFree_of_getenv hcur
      have huntagged : Untagged (some cur) ↔ ¬ (strstr cur (bytes "procwatch.label=")).isSome := by
        rw [isSome_strstr_iff hnul, Untagged, Option.getD_some, cstr_of_nulFree hnul]
      dsimp only
      by_cases hfound : (strstr cur (bytes "procwatch.label=")).isSome
      · rw [if_pos hfound, if_neg fun h => huntagged.mp h.1 hfound]
      rw [if_neg hfound]
      by_cases hempty : cur = []
      · have hroom : TagRoom label (some cur) := by
          rw [TagRoom, hempty, Option.getD_some, List.length_nil]
          omega
        rw [if_pos hempty, if_pos ⟨huntagged.mpr hfound, hroom⟩, hempty]
        rfl
      rw [if_neg hempty]
      have hroom : TagRoom label (some cur) ↔
          ¬ RESOURCE_ATTRS_MAX < cur.length + 1 + (labelEntry label).length + 1 := by
        rw [TagRoom, Option.getD_some, hentry]
        omega
      by_cases hlong : RESOURCE_ATTRS_MAX < cur.length + 1 + (labelEntry label).length + 1
      · rw [if_pos hlong, if_neg fun h => hroom.mp h.2 hlong]
      · have hglue : glue 0x2c ((some cur).getD []) (labelEntry label) =
            cur ++ 0x2c :: labelEntry label := if_neg hempty
        rw [if_neg hlong, if_pos ⟨huntagged.mpr hfound, hroom.mpr hlong⟩, hglue,
          bounded_of_length_lt]
        rw [List.length_append, List.length_cons]
        omega

/-- Attaching the label works where there is room, and is done once. -/
theorem tagged_pwAttachLabelToOtel (hlabel : pwLabelValid label = true)
    (h : Tagged label (getenv env RESOURCE_ATTRIBUTES) ∨
      Untagged (getenv env RESOURCE_ATTRIBUTES) ∧ TagRoom label (getenv env RESOURCE_ATTRIBUTES)) :
    Tagged label (getenv (pwAttachLabelToOtel label env) RESOURCE_ATTRIBUTES) := by
  rw [pwAttachLabelToOtel_eq hlabel]
  split
  · next hnew =>
      have hnul : (0 : Byte) ∉ (getenv env RESOURCE_ATTRIBUTES).getD [] := by
        cases hcur : getenv env RESOURCE_ATTRIBUTES with
        | none => exact List.not_mem_nil
        | some cur => exact nulFree_of_getenv hcur
      have htagged := tagged_glue hlabel hnew.1 hnul
      rw [getenv_setenv_self isName_resourceAttributes.1]
      rw [Tagged, attrValues, Option.getD_some] at htagged ⊢
      rwa [cstr_of_nulFree (nulFree_cstr _)]
  · next hold => exact h.resolve_right hold

/-- An update of another key neither adds nor removes a label. -/
def KeepsLabel (f : Option Bytes → Option Bytes) : Prop :=
  ∀ attrs, (Untagged attrs → Untagged (f attrs)) ∧ ∀ label, Tagged label attrs → Tagged label (f attrs)

theorem keepsLabel_setResourceAttr {key value : Bytes} (hkey : (0 : Byte) ∉ key ∧ 0x2c ∉ key)
    (hkeyName : 0x3d ∉ key) (hvalue : (0 : Byte) ∉ value ∧ 0x2c ∉ value)
    (hvaluePlain : 0x3d ∉ value) (hother : ¬ bytes "procwatch.label" <:+ key)
    (hne : ¬ bytes "procwatch.label" ++ [0x3d] <+: key ++ [0x3d])
    (hne' : ¬ key ++ [0x3d] <+: bytes "procwatch.label" ++ [0x3d]) :
    KeepsLabel (setResourceAttr key value) := by
  intro attrs
  constructor
  · intro h hmention
    rw [setResourceAttr_eq hkey.1] at hmention
    split at hmention
    · have hwritten := hmention.trans (cstr_isPrefix _).isInfix
      rw [Option.getD_some, updatedAttrs] at hwritten
      cases infix_glueAll (by decide) (by decide) hwritten with
      | inl hnil => exact absurd (List.infix_nil.mp hnil) (by decide)
      | inr hsome =>
          obtain ⟨seg, hseg, hin⟩ := hsome
          have hnew : ¬ bytes "procwatch.label=" <:+: key ++ 0x3d :: value := fun hin =>
            hother (suffix_of_infix_assignment hkeyName hvaluePlain hin)
          rw [updatedSegments, List.mem_append] at hseg
          cases hseg with
          | inl hseg =>
              obtain ⟨old, hold, rfl⟩ := List.mem_map.mp hseg
              rw [rewriteSegment] at hin
              split at hin
              · exact hnew hin
              · exact h (hin.trans (infix_of_mem_splitOn (mem_splitOn_of_mem_segments hold)))
          | inr hseg =>
              split at hseg
              · cases hseg
              · exact hnew (List.mem_singleton.mp hseg ▸ hin)
    · exact h hmention
  · intro label h
    rw [Tagged, attrValues_setResourceAttr_of_ne hkey hvalue hne hne']
    exact h

theorem keepsLabel_attachPidKeyToOtel (pid : Int32) {stamp : CStr 32}
    (hstamp : 0x2c ∉ stamp.val ∧ 0x3d ∉ stamp.val) :
    KeepsLabel (attachPidKeyToOtel pid stamp) := by
  have hdigit : ∀ b : Byte, isDigit b = true → b ≠ 0x3d := by decide +kernel
  have hcomma : 0x2c ∉ decimalInt pid.toInt ++ stamp.val := by
    intro hmem
    cases List.mem_append.mp hmem with
    | inl h => exact (plain_of_mem_decimalInt h).2 rfl
    | inr h => exact hstamp.1 h
  have hnul : (0 : Byte) ∉ decimalInt pid.toInt ++ stamp.val := by
    intro hmem
    cases List.mem_append.mp hmem with
    | inl h => exact (plain_of_mem_decimalInt h).1 rfl
    | inr h => exact stamp.nulFree h
  have hequals : 0x3d ∉ decimalInt pid.toInt ++ stamp.val := by
    intro hmem
    cases List.mem_append.mp hmem with
    | inl h =>
        cases mem_decimalInt h with
        | inl h => exact absurd h (by decide)
        | inr h => exact hdigit _ h rfl
    | inr h => exact hstamp.2 h
  have hkey := @keepsLabel_setResourceAttr (bytes "procwatch.pid_key") _ (by decide)
    (by decide) ⟨hnul, hcomma⟩ hequals (by decide) (by decide)
    (by decide)
  have hinstance := @keepsLabel_setResourceAttr (bytes "service.instance.id") _ (by decide)
    (by decide) ⟨hnul, hcomma⟩ hequals (by decide) (by decide)
    (by decide)
  intro attrs
  rw [attachPidKeyToOtel, copy_key]
  exact ⟨fun h => (hinstance _).1 ((hkey _).1 h), fun l h => (hinstance _).2 l ((hkey _).2 l h)⟩

theorem setResourceAttr_eq_none {key value : Bytes} (hkey : (0 : Byte) ∉ key)
    (h : setResourceAttr key value attrs = none) : attrs = none := by
  rw [setResourceAttr_eq hkey] at h
  split at h
  · cases h
  · exact h

theorem cstr_getenv_pwAttachPidKeyToOtel (pid : Int32) (stamp : CStr 32) (env : Environ) :
    cstr ((getenv (pwAttachPidKeyToOtel pid stamp env) RESOURCE_ATTRIBUTES).getD []) =
      cstr ((attachPidKeyToOtel pid stamp (getenv env RESOURCE_ATTRIBUTES)).getD []) := by
  rw [pwAttachPidKeyToOtel]
  split
  · next h =>
      rw [h, setResourceAttr_eq_none (by decide)
        (setResourceAttr_eq_none (by decide) h)]
  · next v h =>
      rw [h, getenv_setenv_self isName_resourceAttributes.1, Option.getD_some, Option.getD_some,
        cstr_of_nulFree (nulFree_cstr v)]

theorem untagged_iff_of_cstr_eq {attrs' : Option Bytes}
    (h : cstr (attrs.getD []) = cstr (attrs'.getD [])) : Untagged attrs ↔ Untagged attrs' := by
  rw [Untagged, Untagged, h]

theorem tagged_iff_of_cstr_eq {attrs' : Option Bytes}
    (h : cstr (attrs.getD []) = cstr (attrs'.getD [])) :
    Tagged label attrs ↔ Tagged label attrs' := by
  rw [Tagged, Tagged, attrValues, attrValues, h]

/-- The attributes mention no label, or hold this one alone. -/
def Taggable (label : Bytes) (attrs : Option Bytes) : Prop :=
  Untagged attrs ∨ Tagged label attrs

theorem taggable_pwAttachLabelToOtel (hlabel : pwLabelValid label = true)
    (h : Taggable label (getenv env RESOURCE_ATTRIBUTES)) :
    Taggable label (getenv (pwAttachLabelToOtel label env) RESOURCE_ATTRIBUTES) := by
  by_cases hroom : TagRoom label (getenv env RESOURCE_ATTRIBUTES)
  · exact .inr (tagged_pwAttachLabelToOtel hlabel (h.elim (fun hu => .inr ⟨hu, hroom⟩) .inl))
  · rw [pwAttachLabelToOtel_eq hlabel, if_neg fun hnew => hroom hnew.2]
    exact h

end Attributes

end ProcWatch

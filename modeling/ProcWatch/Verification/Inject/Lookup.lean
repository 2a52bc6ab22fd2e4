import ProcWatch.Model.Environ

/-! # Variables of an environment -/

namespace ProcWatch

open CLib

/-! ## Entries for a key -/

/-- An entry of the environment is for the key. -/
def HasKey (env : Environ) (key : Bytes) : Prop :=
  ∃ e ∈ env, key ++ [0x3d] <+: e.val

instance (env : Environ) (key : Bytes) : Decidable (HasKey env key) :=
  inferInstanceAs (Decidable (∃ e ∈ env, key ++ [0x3d] <+: e.val))

theorem append_eq_isPrefix_iff {key name : Bytes} (hkey : (0x3d : Byte) ∉ key)
    (hname : (0x3d : Byte) ∉ name) (val : Bytes) :
    name ++ [0x3d] <+: key ++ 0x3d :: val ↔ name = key := by
  have hstop (s t : Bytes) (hs : (0x3d : Byte) ∉ s) :
      (s ++ 0x3d :: t).takeWhile (· ≠ 0x3d) = s := by
    rw [List.takeWhile_append_of_pos]
    · simp
    · intro b hb
      simp only [ne_eq, decide_eq_true_eq]
      exact fun heq => hs (heq ▸ hb)
  constructor
  · intro h
    obtain ⟨t, ht⟩ := h
    rw [List.append_assoc, List.singleton_append] at ht
    rw [← hstop name t hname, ht, hstop key val hkey]
  · intro h
    rw [h]
    exact ⟨val, by simp⟩

/-! ## `getenv` -/

theorem nulFree_of_getenv {env : Environ} {name val : Bytes} (h : getenv env name = some val) :
    (0 : Byte) ∉ val := by
  obtain ⟨e, -, hval⟩ := List.exists_of_findSome?_eq_some h
  rw [valueOf] at hval
  split at hval
  · rw [← Option.some.inj hval]
    exact fun h0 => e.nulFree (List.mem_of_mem_drop h0)
  · cases hval

theorem getenv_append (env env' : Environ) (name : Bytes) :
    getenv (env ++ env') name = (getenv env name).or (getenv env' name) :=
  List.findSome?_append

theorem getenv_eq_none_iff {env : Environ} {name : Bytes} :
    getenv env name = none ↔ ¬ HasKey env name := by
  rw [getenv, List.findSome?_eq_none_iff, HasKey]
  push Not
  refine forall₂_congr fun e _ => ?_
  rw [valueOf]
  split <;> simp [*]

/-! ## `setenv` -/

theorem cstr_append_of_nulFree {s : Bytes} (h : (0 : Byte) ∉ s) (t : Bytes) :
    cstr (s ++ t) = s ++ cstr t := by
  apply List.takeWhile_append_of_pos
  intro b hb
  simp only [ne_eq, decide_eq_true_eq]
  exact fun heq => h (heq ▸ hb)

theorem getenv_setenv_self {name : Bytes} (hname : (0 : Byte) ∉ name) (value : Bytes)
    (env : Environ) : getenv (setenv name value true env) name = some (cstr value) := by
  have hentry : valueOf (name ++ [0x3d]) (CString.ofBytes (name ++ 0x3d :: value)).val =
      some (cstr value) := by
    have hkey : (0 : Byte) ∉ name ++ [0x3d] := by simpa using hname
    have hval : (CString.ofBytes (name ++ 0x3d :: value)).val = (name ++ [0x3d]) ++ cstr value := by
      rw [← cstr_append_of_nulFree hkey, List.append_assoc, List.singleton_append]
      rfl
    rw [hval, valueOf_append]
  induction env with
  | nil => rw [setenv, getenv, List.findSome?_cons, hentry]
  | cons e env ih =>
      rw [setenv]
      split
      · rw [if_pos rfl, getenv, List.findSome?_cons, hentry]
      · next h =>
          rw [getenv, List.findSome?_cons, valueOf, if_neg h]
          exact ih

end ProcWatch

import ProcWatch.Library.Fields

/-! # Occurrences of a pattern in text in fields -/

namespace CLib

section Occurrences

variable {α : Type*} {sep : α} {pat : List α}

/-- A pattern without separators occurs on one side of a separator. -/
theorem infix_append_sep_iff (hsep : sep ∉ pat) {s t : List α} (hne : pat ≠ []) :
    pat <:+: s ++ sep :: t ↔ pat <:+: s ∨ pat <:+: t := by
  have htail : pat <:+: sep :: t ↔ pat <:+: t := by
    rw [List.infix_cons_iff]
    constructor
    · intro h
      cases h with
      | inl h =>
          obtain ⟨a, rest, rfl⟩ := List.exists_cons_of_ne_nil hne
          exact absurd ((List.cons_prefix_cons.mp h).1 ▸ List.mem_cons_self) hsep
      | inr h => exact h
    · exact .inr
  rw [List.infix_append_iff_ne_nil, htail]
  constructor
  · intro h
    rcases h with h | h | h
    · exact .inl h
    · exact .inr h
    · -- the part behind the border starts with the separator
      obtain ⟨l₁, l₂, -, hne₂, rfl, -, hl₂⟩ := h
      obtain ⟨a, rest, rfl⟩ := List.exists_cons_of_ne_nil hne₂
      obtain rfl := (List.cons_prefix_cons.mp hl₂).1
      exact absurd (List.mem_append_right _ List.mem_cons_self) hsep
  · exact fun h => h.imp_right .inl

theorem infix_glueAll (hsep : sep ∉ pat) (hne : pat ≠ []) {buf : List α} {outs : List (List α)}
    (h : pat <:+: glueAll sep buf outs) : pat <:+: buf ∨ ∃ out ∈ outs, pat <:+: out := by
  induction outs generalizing buf with
  | nil => exact .inl h
  | cons out outs ih =>
      cases ih h with
      | inr hout =>
          obtain ⟨o, ho, hpat⟩ := hout
          exact .inr ⟨o, List.mem_cons_of_mem _ ho, hpat⟩
      | inl hglue =>
          rw [glue] at hglue
          split at hglue
          · exact .inr ⟨out, List.mem_cons_self, hglue⟩
          · cases (infix_append_sep_iff hsep hne).mp hglue with
            | inl hbuf => exact .inl hbuf
            | inr hout => exact .inr ⟨out, List.mem_cons_self, hout⟩

/-- In an assignment the text up to the equality sign belongs to the key. -/
theorem suffix_of_infix_assignment {key value : List α} (hkey : sep ∉ key) (hvalue : sep ∉ value)
    (h : pat ++ [sep] <:+: key ++ sep :: value) : pat <:+ key := by
  obtain ⟨s, t, heq⟩ := h
  have hsplit : key ++ sep :: value = (s ++ pat) ++ sep :: t := by simpa using heq.symm
  exact ⟨s, ((List.append_cons_inj_of_notMem hkey hvalue).mp hsplit).1.symm⟩

variable [DecidableEq α]

theorem infix_of_mem_splitOn {p seg : List α} (h : seg ∈ p.splitOn sep) : seg <:+: p := by
  induction hlen : p.length using Nat.strong_induction_on generalizing p with
  | _ n ih =>
      by_cases hsep : sep ∈ p
      · obtain ⟨s, t, rfl, hs⟩ := List.eq_append_cons_of_mem hsep
        rw [List.splitOn_append_cons_self, List.splitOn_eq_singleton hs, List.singleton_append] at h
        cases List.mem_cons.mp h with
        | inl heq => exact heq ▸ ⟨[], sep :: t, rfl⟩
        | inr hrest =>
            have hshorter : t.length < n := by
              rw [← hlen, List.length_append, List.length_cons]
              omega
            exact (ih t.length hshorter hrest rfl).trans ⟨s ++ [sep], [], by simp⟩
      · rw [List.splitOn_eq_singleton hsep, List.mem_singleton] at h
        exact h ▸ List.infix_rfl

/-- A key with a value occurs in the text. -/
theorem infix_of_valuesOf_ne_nil {key p : List α} (h : valuesOf sep key p ≠ []) : key <:+: p := by
  obtain ⟨v, hv⟩ := List.exists_mem_of_ne_nil _ h
  obtain ⟨seg, hseg, hval⟩ := List.mem_filterMap.mp hv
  have hkey : key <+: seg := by
    by_contra hkey
    rw [valueOf, if_neg hkey] at hval
    cases hval
  exact hkey.isInfix.trans (infix_of_mem_splitOn hseg)

end Occurrences

end CLib

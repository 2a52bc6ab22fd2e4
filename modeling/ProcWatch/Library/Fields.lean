import Mathlib

/-! # Text in fields -/

namespace CLib

section Fields

variable {α : Type*} (sep : α)

/-! ## Writing field by field -/

/-- `out` behind `buf`, with a separator if anything stands before it. -/
def glue (buf out : List α) : List α :=
  if buf = [] then out else buf ++ sep :: out

def glueAll (buf : List α) (outs : List (List α)) : List α :=
  outs.foldl (glue sep) buf

variable {sep}

theorem length_le_length_glue (buf out : List α) : buf.length ≤ (glue sep buf out).length := by
  rw [glue]
  split
  · next h => simp [h]
  · simp

theorem length_le_length_glueAll (buf : List α) (outs : List (List α)) :
    buf.length ≤ (glueAll sep buf outs).length := by
  induction outs generalizing buf with
  | nil => exact le_rfl
  | cons out outs ih => exact (length_le_length_glue buf out).trans (ih _)

theorem glueAll_append (buf : List α) (outs outs' : List (List α)) :
    glueAll sep buf (outs ++ outs') = glueAll sep (glueAll sep buf outs) outs' :=
  List.foldl_append

theorem mem_glueAll {buf : List α} {outs : List (List α)} {a : α} (h : a ∈ glueAll sep buf outs) :
    a = sep ∨ a ∈ buf ∨ ∃ out ∈ outs, a ∈ out := by
  induction outs generalizing buf with
  | nil => exact .inr (.inl h)
  | cons out outs ih =>
      rcases ih h with hsep | hglue | ⟨o, ho, ha⟩
      · exact .inl hsep
      · rw [glue] at hglue
        split at hglue
        · exact .inr (.inr ⟨out, List.mem_cons_self, hglue⟩)
        · rcases List.mem_append.mp hglue with hbuf | hout
          · exact .inr (.inl hbuf)
          · rcases List.mem_cons.mp hout with hsep | hout
            · exact .inl hsep
            · exact .inr (.inr ⟨out, List.mem_cons_self, hout⟩)
      · exact .inr (.inr ⟨o, List.mem_cons_of_mem _ ho, ha⟩)

/-! ## Reading the values of a key -/

variable [DecidableEq α]

/-- What follows `key` in a field that starts with it. -/
def valueOf (key field : List α) : Option (List α) :=
  if key <+: field then some (field.drop key.length) else none

theorem valueOf_append (key value : List α) : valueOf key (key ++ value) = some value := by
  rw [valueOf, if_pos (List.prefix_append key value), List.drop_left]

theorem valueOf_nil {key : List α} (hkey : key ≠ []) : valueOf key [] = none := by
  rw [valueOf, if_neg]
  exact fun h => hkey (List.prefix_nil.mp h)

/-- A field has at most one of two keys, unless one of them starts the other. -/
theorem valueOf_eq_none_of_isPrefix {key key' field : List α} (h : key' <+: field)
    (hne : ¬ key <+: key') (hne' : ¬ key' <+: key) : valueOf key field = none := by
  rw [valueOf, if_neg]
  intro hkey
  cases List.prefix_or_prefix_of_prefix hkey h with
  | inl hkey => exact hne hkey
  | inr hkey => exact hne' hkey

variable (sep) in
/-- The values of `key` among the fields of a text. -/
def valuesOf (key text : List α) : List (List α) :=
  (text.splitOn sep).filterMap (valueOf key)

theorem valuesOf_nil {key : List α} (hkey : key ≠ []) : valuesOf sep key [] = [] := by
  rw [valuesOf, List.splitOn_nil, List.filterMap_cons, valueOf_nil hkey, List.filterMap_nil]

theorem valuesOf_glue {key : List α} (hkey : key ≠ []) (buf : List α) {out : List α}
    (hout : sep ∉ out) :
    valuesOf sep key (glue sep buf out) =
      valuesOf sep key buf ++ [out].filterMap (valueOf key) := by
  have hplain : out.splitOn sep = [out] := List.splitOn_eq_singleton hout
  rw [glue]
  split
  · next h => rw [h, valuesOf_nil hkey, List.nil_append, valuesOf, hplain]
  · rw [valuesOf, List.splitOn_append_cons_self, hplain, List.filterMap_append, valuesOf]

theorem valuesOf_glueAll {key : List α} (hkey : key ≠ []) (buf : List α)
    {outs : List (List α)} (houts : ∀ out ∈ outs, sep ∉ out) :
    valuesOf sep key (glueAll sep buf outs) =
      valuesOf sep key buf ++ outs.filterMap (valueOf key) := by
  induction outs generalizing buf with
  | nil => simp [glueAll]
  | cons out outs ih =>
      have hrest : ∀ out ∈ outs, sep ∉ out := fun o ho => houts o (List.mem_cons_of_mem _ ho)
      have hstep : glueAll sep buf (out :: outs) = glueAll sep (glue sep buf out) outs := rfl
      rw [hstep, ih _ hrest, valuesOf_glue hkey buf (houts out List.mem_cons_self),
        List.append_assoc, ← List.filterMap_append, List.singleton_append]

/-! ## The fields that a loop visits -/

variable (sep) in
/-- The fields of a text, without an empty one at its end. -/
def segments (p : List α) : List (List α) :=
  if (p.splitOn sep).getLast? = some [] then (p.splitOn sep).dropLast else p.splitOn sep

theorem segments_nil : segments sep ([] : List α) = [] := by
  simp [segments]

theorem segments_of_plain {p : List α} (hne : p ≠ []) (h : sep ∉ p) : segments sep p = [p] := by
  rw [segments, List.splitOn_eq_singleton h, if_neg]
  simpa using hne

theorem segments_append_cons {seg : List α} (h : sep ∉ seg) (p : List α) :
    segments sep (seg ++ sep :: p) = seg :: segments sep p := by
  have hne : p.splitOn sep ≠ [] := List.splitOn_ne_nil sep p
  have hsplit : (seg ++ sep :: p).splitOn sep = seg :: p.splitOn sep := by
    rw [List.splitOn_append_cons_self, List.splitOn_eq_singleton h, List.singleton_append]
  have hlast : (seg :: p.splitOn sep).getLast? = (p.splitOn sep).getLast? := by
    rw [List.getLast?_cons, List.getLast?_eq_some_getLast hne, Option.getD_some]
  rw [segments, hsplit, hlast, segments]
  split
  · rw [List.dropLast_cons_of_ne_nil hne]
  · rfl

/-- Leaving out an empty field loses no value. -/
theorem filterMap_segments {key : List α} (hkey : key ≠ []) (p : List α) :
    (segments sep p).filterMap (valueOf key) = valuesOf sep key p := by
  rw [segments, valuesOf]
  split
  · next h =>
      have hsplit := List.dropLast_append_getLast? [] h
      conv_rhs => rw [← hsplit, List.filterMap_append]
      rw [List.filterMap_cons, valueOf_nil hkey, List.filterMap_nil, List.append_nil]
  · rfl

theorem not_mem_of_mem_splitOn {p seg : List α} (h : seg ∈ p.splitOn sep) : sep ∉ seg := by
  induction p generalizing seg with
  | nil =>
      rw [List.splitOn_nil, List.mem_singleton] at h
      simp [h]
  | cons a p ih =>
      rw [List.splitOn_cons_eq_if_modifyHead] at h
      split at h
      · cases List.mem_cons.mp h with
        | inl h => simp [h]
        | inr h => exact ih h
      · next ha =>
          have hsep : sep ≠ a := fun heq => ha (beq_iff_eq.mpr heq.symm)
          obtain ⟨first, rest, hsplit⟩ := List.exists_cons_of_ne_nil (List.splitOn_ne_nil sep p)
          rw [hsplit] at h ih
          cases List.mem_cons.mp h with
          | inl h => simp [h, hsep, ih List.mem_cons_self]
          | inr h => exact ih (List.mem_cons_of_mem _ h)

theorem mem_of_mem_splitOn {p seg : List α} (h : seg ∈ p.splitOn sep) {a : α} (ha : a ∈ seg) :
    a ∈ p := by
  induction p generalizing seg with
  | nil =>
      rw [List.splitOn_nil, List.mem_singleton] at h
      rwa [h] at ha
  | cons b p ih =>
      rw [List.splitOn_cons_eq_if_modifyHead] at h
      obtain ⟨first, rest, hsplit⟩ := List.exists_cons_of_ne_nil (List.splitOn_ne_nil sep p)
      split at h
      · cases List.mem_cons.mp h with
        | inl h => simp [h] at ha
        | inr h => exact List.mem_cons_of_mem b (ih h ha)
      · rw [hsplit] at h ih
        cases List.mem_cons.mp h with
        | inl h =>
            rw [h] at ha
            cases List.mem_cons.mp ha with
            | inl ha => exact ha ▸ List.mem_cons_self
            | inr ha => exact List.mem_cons_of_mem b (ih List.mem_cons_self ha)
        | inr h => exact List.mem_cons_of_mem b (ih (List.mem_cons_of_mem _ h) ha)

theorem mem_splitOn_of_mem_segments {p seg : List α} (h : seg ∈ segments sep p) :
    seg ∈ p.splitOn sep := by
  rw [segments] at h
  split at h
  · exact List.mem_of_mem_dropLast h
  · exact h

theorem mem_of_mem_segments {p seg : List α} (h : seg ∈ segments sep p) {a : α} (ha : a ∈ seg) :
    a ∈ p :=
  mem_of_mem_splitOn (mem_splitOn_of_mem_segments h) ha

theorem not_mem_of_mem_segments {p seg : List α} (h : seg ∈ segments sep p) : sep ∉ seg :=
  not_mem_of_mem_splitOn (mem_splitOn_of_mem_segments h)

/-! ## Texts that were written field by field -/

omit [DecidableEq α] in
theorem glueAll_of_ne_nil {buf : List α} (h : buf ≠ []) (outs : List (List α)) :
    glueAll sep buf outs = [sep].intercalate (buf :: outs) := by
  induction outs generalizing buf with
  | nil => simp [glueAll]
  | cons out outs ih =>
      have hstep : glueAll sep buf (out :: outs) = glueAll sep (glue sep buf out) outs := rfl
      rw [hstep, glue, if_neg h, ih (by simp)]
      cases outs <;> simp [List.intercalate_cons_cons]

omit [DecidableEq α] in
/-- Only empty fields at the front are lost. -/
theorem glueAll_nil (outs : List (List α)) :
    glueAll sep [] outs = [sep].intercalate (outs.dropWhile List.isEmpty) := by
  induction outs with
  | nil => simp [glueAll]
  | cons out outs ih =>
      have hstep : glueAll sep [] (out :: outs) = glueAll sep out outs := rfl
      cases out with
      | nil => simpa [hstep] using ih
      | cons a out => rw [hstep, glueAll_of_ne_nil (by simp), List.dropWhile_cons_of_neg (by simp)]

omit [DecidableEq α] in
theorem glueAll_dropWhile (outs : List (List α)) :
    glueAll sep [] (outs.dropWhile List.isEmpty) = glueAll sep [] outs := by
  rw [glueAll_nil, glueAll_nil, List.dropWhile_idempotent]

section Written

variable {outs : List (List α)}

theorem splitOn_glueAll (hplain : ∀ out ∈ outs, sep ∉ out)
    (hne : outs.dropWhile List.isEmpty ≠ []) :
    (glueAll sep [] outs).splitOn sep = outs.dropWhile List.isEmpty := by
  rw [glueAll_nil, List.splitOn_intercalate sep _ hne]
  exact fun out hout => hplain out ((List.dropWhile_sublist _).subset hout)

omit [DecidableEq α] in
theorem filter_dropWhile_isEmpty (outs : List (List α)) :
    (outs.dropWhile List.isEmpty).filter (fun out => !out.isEmpty) =
      outs.filter fun out => !out.isEmpty := by
  induction outs with
  | nil => rfl
  | cons out outs ih =>
      cases out with
      | nil => simpa using ih
      | cons a out => rw [List.dropWhile_cons_of_neg (by simp)]

omit [DecidableEq α] in
theorem dropWhile_isEmpty_ne_nil {out : List α} (hout : out ∈ outs) (hne : out ≠ []) :
    outs.dropWhile List.isEmpty ≠ [] := by
  intro hnil
  have hmem : out ∈ outs.filter fun out => !out.isEmpty :=
    List.mem_filter.mpr ⟨hout, by simpa using hne⟩
  rw [← filter_dropWhile_isEmpty, hnil] at hmem
  cases hmem

omit [DecidableEq α] in
theorem getLast?_dropWhile_isEmpty (hne : outs.dropWhile List.isEmpty ≠ []) :
    (outs.dropWhile List.isEmpty).getLast? = outs.getLast? := by
  have hsplit : outs.takeWhile List.isEmpty ++ outs.dropWhile List.isEmpty = outs :=
    List.takeWhile_append_dropWhile
  conv_rhs => rw [← hsplit]
  rw [List.getLast?_append_of_ne_nil _ hne]

/-- The fields that a loop visits in a text that another one wrote. -/
theorem segments_glueAll (hplain : ∀ out ∈ outs, sep ∉ out)
    (hne : outs.dropWhile List.isEmpty ≠ []) :
    segments sep (glueAll sep [] outs) =
      if outs.getLast? = some [] then (outs.dropWhile List.isEmpty).dropLast
      else outs.dropWhile List.isEmpty := by
  rw [segments, splitOn_glueAll hplain hne, getLast?_dropWhile_isEmpty hne]

end Written

theorem filter_segments (p : List α) :
    (segments sep p).filter (fun seg => !seg.isEmpty) =
      (p.splitOn sep).filter fun seg => !seg.isEmpty := by
  rw [segments]
  split
  · next h =>
      have hsplit := List.dropLast_append_getLast? [] h
      conv_rhs => rw [← hsplit, List.filter_append]
      simp
  · rfl

omit [DecidableEq α] in
theorem exists_last_field {p : List α} (h : sep ∈ p) : ∃ s t, p = s ++ sep :: t ∧ sep ∉ t := by
  obtain ⟨s, t, hsplit, hfirst⟩ := List.eq_append_cons_of_mem (List.mem_reverse.mpr h)
  refine ⟨t.reverse, s.reverse, ?_, by simpa using hfirst⟩
  rw [← List.reverse_reverse p, hsplit]
  simp

/-- The last field of a text is empty only behind a separator. -/
theorem getLast?_splitOn_eq_nil_iff {p : List α} :
    (p.splitOn sep).getLast? = some [] ↔ p = [] ∨ ∃ s, p = s ++ [sep] := by
  by_cases h : sep ∈ p
  · obtain ⟨s, t, rfl, ht⟩ := exists_last_field h
    rw [List.splitOn_append_cons_self, List.splitOn_eq_singleton ht, List.getLast?_concat]
    constructor
    · intro hlast
      rw [Option.some.inj hlast]
      exact .inr ⟨s, rfl⟩
    · intro hor
      cases hor with
      | inl hnil => simp at hnil
      | inr hend =>
          obtain ⟨s', hs'⟩ := hend
          cases t with
          | nil => rfl
          | cons a t =>
              have hlast := congrArg List.getLast? hs'
              rw [List.getLast?_append_of_ne_nil _ (List.cons_ne_nil _ _), List.getLast?_cons_cons,
                List.getLast?_concat] at hlast
              exact absurd (List.mem_of_getLast? hlast) ht
  · rw [List.splitOn_eq_singleton h, List.getLast?_singleton, Option.some.injEq]
    constructor
    · exact .inl
    · intro hor
      cases hor with
      | inl hnil => exact hnil
      | inr hend =>
          obtain ⟨s, rfl⟩ := hend
          simp at h

/-- A text whose last visited field is empty ends in two separators, or is one. -/
theorem getLast?_segments_eq_nil_iff {p : List α} :
    (segments sep p).getLast? = some [] ↔ p = [sep] ∨ [sep, sep] <:+ p := by
  rw [segments]
  split
  · next hlast =>
      cases getLast?_splitOn_eq_nil_iff.mp hlast with
      | inl hnil => simp [hnil]
      | inr hend =>
          obtain ⟨s, rfl⟩ := hend
          have hsplit : (s ++ [sep]).splitOn sep = s.splitOn sep ++ [[]] := by
            rw [List.splitOn_append_cons_self, List.splitOn_nil]
          rw [hsplit, List.dropLast_concat, getLast?_splitOn_eq_nil_iff]
          constructor
          · intro hor
            cases hor with
            | inl hnil => exact .inl (by rw [hnil, List.nil_append])
            | inr hend =>
                obtain ⟨s', rfl⟩ := hend
                exact .inr ⟨s', by simp⟩
          · intro hor
            cases hor with
            | inl hone => exact .inl (by simpa using hone)
            | inr htwo =>
                obtain ⟨s', hs'⟩ := htwo
                refine .inr ⟨s', ?_⟩
                have hcut : s' ++ [sep] ++ [sep] = s ++ [sep] := by simpa using hs'
                exact (List.append_cancel_right hcut).symm
  · next hlast =>
      constructor
      · exact fun h => absurd h hlast
      · intro hor
        refine absurd (getLast?_splitOn_eq_nil_iff.mpr (.inr ?_)) hlast
        cases hor with
        | inl hone => exact ⟨[], hone⟩
        | inr htwo =>
            obtain ⟨s', hs'⟩ := htwo
            exact ⟨s' ++ [sep], by rw [← hs', List.append_assoc, List.singleton_append]⟩

end Fields

end CLib

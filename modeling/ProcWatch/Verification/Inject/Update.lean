import ProcWatch.Verification.Inject.Attrs

/-! # Updates of one resource attribute -/

namespace ProcWatch

open CLib

/-- The entries of a variable. -/
def attrEntries (attrs : Option Bytes) : List Bytes :=
  ((cstr (attrs.getD [])).splitOn 0x2c).filter fun e => !e.isEmpty

/-- The entries of a variable that a loop over it visits. -/
def attrSegments (attrs : Option Bytes) : List Bytes :=
  segments 0x2c (cstr (attrs.getD []))

/-- A key and a value that fit `keyeq` and `kv`. -/
structure ResourceAttr where
  key : Bytes
  value : Bytes
  key_plain : (0 : Byte) ∉ key ∧ 0x2c ∉ key
  value_plain : (0 : Byte) ∉ value ∧ 0x2c ∉ value
  fits : (key ++ 0x3d :: value).length < 192 ∧ (key ++ [0x3d]).length < 160

namespace ResourceAttr

variable (a : ResourceAttr) (cur : Option Bytes)

/-- The entry that is written. -/
def kv : Bytes :=
  a.key ++ 0x3d :: a.value

/-- An entry is for the key. -/
def IsFor (e : Bytes) : Prop :=
  a.key ++ [0x3d] <+: e

instance (e : Bytes) : Decidable (a.IsFor e) :=
  inferInstanceAs (Decidable (a.key ++ [0x3d] <+: e))

/-- The variable after an update. -/
def set : Option Bytes :=
  setResourceAttr a.key a.value cur

/-- The text that an update is to write. -/
def updated : Bytes :=
  updatedAttrs a.key a.value cur

/-- An update leaves a variable that gets too long, and changes the entries for its key alone
otherwise; a second one changes nothing. -/
def UpdatesOneKey : Prop :=
  ((RESOURCE_ATTRS_MAX ≤ (a.updated cur).length ∧ a.set cur = cur) ∨
      ((∀ e ∈ attrEntries (a.set cur), a.IsFor e → e = a.kv) ∧ a.kv ∈ attrEntries (a.set cur) ∧
        (attrEntries (a.set cur)).filter (fun e => ¬ a.IsFor e) =
          (attrEntries cur).filter fun e => ¬ a.IsFor e)) ∧
    a.set (a.set cur) = a.set cur

/-! ## What is written -/

def rewritten (seg : Bytes) : Bytes :=
  rewriteSegment a.kv (a.key ++ [0x3d]) seg

/-- The segments of the updated text. -/
def outs : List Bytes :=
  updatedSegments a.key a.value cur

variable {a cur}

theorem isFor_kv : a.IsFor a.kv :=
  ⟨a.value, by rw [kv, List.append_assoc, List.singleton_append]⟩

theorem kv_ne_nil : a.kv ≠ [] := by
  simp [kv]

theorem rewritten_of_isFor {seg : Bytes} (h : a.IsFor seg) : a.rewritten seg = a.kv :=
  if_pos h

theorem rewritten_of_not_isFor {seg : Bytes} (h : ¬ a.IsFor seg) : a.rewritten seg = seg :=
  if_neg h

theorem eq_kv_of_isFor_rewritten {seg : Bytes} (h : a.IsFor (a.rewritten seg)) :
    a.rewritten seg = a.kv := by
  by_cases hseg : a.IsFor seg
  · exact rewritten_of_isFor hseg
  · rw [rewritten_of_not_isFor hseg] at h
    exact absurd h hseg

theorem outs_eq :
    a.outs cur = (attrSegments cur).map a.rewritten ++
      if ∃ seg ∈ attrSegments cur, a.IsFor seg then [] else [a.kv] := by
  rw [outs, updatedSegments]
  simp only [List.any_eq_true, decide_eq_true_eq]
  rfl

theorem kv_mem_outs : a.kv ∈ a.outs cur := by
  rw [outs_eq]
  split
  · next h =>
      obtain ⟨seg, hseg, hfor⟩ := h
      exact List.mem_append_left _ (List.mem_map.mpr ⟨seg, hseg, rewritten_of_isFor hfor⟩)
  · exact List.mem_append_right _ List.mem_cons_self

theorem eq_kv_of_mem_outs {e : Bytes} (he : e ∈ a.outs cur) (hfor : a.IsFor e) : e = a.kv := by
  rw [outs_eq] at he
  cases List.mem_append.mp he with
  | inl he =>
      obtain ⟨seg, -, rfl⟩ := List.mem_map.mp he
      exact eq_kv_of_isFor_rewritten hfor
  | inr he =>
      split at he
      · cases he
      · exact List.mem_singleton.mp he

theorem plain_of_mem_outs {e : Bytes} (he : e ∈ a.outs cur) : (0 : Byte) ∉ e ∧ 0x2c ∉ e :=
  plain_of_mem_updatedSegments a.key_plain a.value_plain he

theorem outs_ne_nil : (a.outs cur).dropWhile List.isEmpty ≠ [] :=
  dropWhile_isEmpty_ne_nil kv_mem_outs kv_ne_nil

theorem updated_eq : a.updated cur = glueAll 0x2c [] (a.outs cur) :=
  rfl

theorem nulFree_updated : (0 : Byte) ∉ a.updated cur := by
  intro h0
  rcases mem_glueAll h0 with h | h | ⟨e, he, h⟩
  · cases h
  · cases h
  · exact (plain_of_mem_outs he).1 h

theorem set_eq :
    a.set cur =
      if (a.updated cur).length < RESOURCE_ATTRS_MAX then some (a.updated cur) else cur := by
  have hfits : AttrFits a.key a.value cur ↔ (a.updated cur).length < RESOURCE_ATTRS_MAX :=
    ⟨fun h => h.2.2, fun h => ⟨a.fits.1, a.fits.2, h⟩⟩
  rw [set, setResourceAttr_eq a.key_plain.1]
  simp only [hfits]
  rfl

/-! ## The entries afterwards -/

theorem attrEntries_updated :
    attrEntries (some (a.updated cur)) = (a.outs cur).filter fun e => !e.isEmpty := by
  rw [attrEntries, Option.getD_some, cstr_of_nulFree nulFree_updated, updated_eq,
    splitOn_glueAll (fun e he => (plain_of_mem_outs he).2) outs_ne_nil, filter_dropWhile_isEmpty]

/-- The entries for other keys are the old ones. -/
theorem filter_outs :
    (a.outs cur).filter (fun e => !e.isEmpty && decide (¬ a.IsFor e)) =
      (attrSegments cur).filter fun e => !e.isEmpty && decide (¬ a.IsFor e) := by
  have hnew : (if ∃ seg ∈ attrSegments cur, a.IsFor seg then [] else [a.kv]).filter
      (fun e => !e.isEmpty && decide (¬ a.IsFor e)) = [] := by
    split
    · rfl
    · simp [isFor_kv]
  rw [outs_eq, List.filter_append, hnew, List.append_nil]
  induction attrSegments cur with
  | nil => rfl
  | cons seg segs ih =>
      rw [List.map_cons, List.filter_cons, List.filter_cons, ih]
      by_cases hfor : a.IsFor seg
      · simp [rewritten_of_isFor hfor, hfor, isFor_kv]
      · rw [rewritten_of_not_isFor hfor]

theorem entries_of_fits (h : (a.updated cur).length < RESOURCE_ATTRS_MAX) :
    (∀ e ∈ attrEntries (a.set cur), a.IsFor e → e = a.kv) ∧ a.kv ∈ attrEntries (a.set cur) ∧
      (attrEntries (a.set cur)).filter (fun e => ¬ a.IsFor e) =
        (attrEntries cur).filter fun e => ¬ a.IsFor e := by
  rw [set_eq, if_pos h, attrEntries_updated]
  refine ⟨?_, ?_, ?_⟩
  · exact fun e he hfor => eq_kv_of_mem_outs (List.mem_filter.mp he).1 hfor
  · exact List.mem_filter.mpr ⟨kv_mem_outs, by simpa using kv_ne_nil⟩
  · have hall := @filter_outs a cur
    simp only [Bool.and_comm (!_)] at hall
    rw [attrEntries, ← filter_segments, ← attrSegments]
    simpa only [List.filter_filter] using hall

/-! ## A second update -/

/-- Where the text written ends in an empty segment. -/
theorem getLast?_outs :
    (a.outs cur).getLast? = some [] ↔
      (∃ seg ∈ attrSegments cur, a.IsFor seg) ∧
        (attrSegments cur).getLast? = some [] := by
  rw [outs_eq]
  split
  · next h =>
      rw [List.append_nil, List.getLast?_map, and_iff_right h, Option.map_eq_some_iff]
      constructor
      · intro hlast
        obtain ⟨seg, hseg, hnil⟩ := hlast
        by_cases hfor : a.IsFor seg
        · exact absurd ((rewritten_of_isFor hfor).symm.trans hnil) kv_ne_nil
        · rw [rewritten_of_not_isFor hfor] at hnil
          rw [hseg, hnil]
      · intro hlast
        refine ⟨[], hlast, rewritten_of_not_isFor ?_⟩
        exact fun hfor => by simpa using hfor.length_le
  · next h =>
      rw [List.getLast?_concat]
      simp [kv_ne_nil, h]

/-- Segments that hold the entry already stay as they are. -/
theorem outs_of_written {p : Bytes} (hp : (0 : Byte) ∉ p) (hmem : a.kv ∈ segments 0x2c p)
    (hall : ∀ seg ∈ segments 0x2c p, a.IsFor seg → seg = a.kv) :
    a.outs (some p) = segments 0x2c p := by
  have hsegs : attrSegments (some p) = segments 0x2c p := by
    rw [attrSegments, Option.getD_some, cstr_of_nulFree hp]
  rw [outs_eq, hsegs, if_pos ⟨a.kv, hmem, isFor_kv⟩, List.append_nil]
  conv_rhs => rw [← List.map_id (segments 0x2c p)]
  apply List.map_congr_left
  intro seg hseg
  by_cases hfor : a.IsFor seg
  · rw [rewritten_of_isFor hfor, hall seg hseg hfor, id]
  · rw [rewritten_of_not_isFor hfor, id]

theorem mem_dropLast_of_getLast {outs : List Bytes} {e : Bytes} (he : e ∈ outs)
    (hlast : outs.getLast? = some []) (hne : e ≠ []) : e ∈ outs.dropLast := by
  rw [← List.dropLast_append_getLast? [] hlast, List.mem_append, List.mem_singleton] at he
  exact he.resolve_right hne

/-- What a second update visits: all that the first one wrote, but for an empty segment at the
end. -/
theorem outs_updated :
    a.outs (some (a.updated cur)) =
      if (a.outs cur).getLast? = some [] then ((a.outs cur).dropWhile List.isEmpty).dropLast
      else (a.outs cur).dropWhile List.isEmpty := by
  have hsegs := @segments_glueAll _ (0x2c : Byte) _ (a.outs cur)
    (fun e he => (plain_of_mem_outs he).2) outs_ne_nil
  rw [← updated_eq] at hsegs
  have hsub : (segments 0x2c (a.updated cur)).Sublist (a.outs cur) := by
    rw [hsegs]
    split
    · exact (List.dropLast_sublist _).trans (List.dropWhile_sublist _)
    · exact List.dropWhile_sublist _
  have hkv : a.kv ∈ (a.outs cur).dropWhile List.isEmpty := by
    have hmem : a.kv ∈ (a.outs cur).filter fun e => !e.isEmpty :=
      List.mem_filter.mpr ⟨kv_mem_outs, by simpa using kv_ne_nil⟩
    rw [← filter_dropWhile_isEmpty] at hmem
    exact (List.mem_filter.mp hmem).1
  have hmem : a.kv ∈ segments 0x2c (a.updated cur) := by
    rw [hsegs]
    split
    · next hlast =>
        rw [← getLast?_dropWhile_isEmpty outs_ne_nil] at hlast
        exact mem_dropLast_of_getLast hkv hlast kv_ne_nil
    · exact hkv
  rw [outs_of_written nulFree_updated hmem fun seg hseg => eq_kv_of_mem_outs (hsub.subset hseg),
    hsegs]

/-- A second update only takes off a comma at the end. -/
theorem updated_updated :
    a.updated cur =
      if (a.outs cur).getLast? = some [] then a.updated (some (a.updated cur)) ++ [0x2c]
      else a.updated (some (a.updated cur)) := by
  have hwritten : a.updated cur = glueAll 0x2c [] ((a.outs cur).dropWhile List.isEmpty) := by
    rw [glueAll_dropWhile, updated_eq]
  rw [@updated_eq a (some (a.updated cur)), outs_updated]
  split
  · next hlast =>
      rw [← getLast?_dropWhile_isEmpty outs_ne_nil] at hlast
      have hsplit := List.dropLast_append_getLast? [] hlast
      have hne : a.updated cur ≠ [] := by
        intro hnil
        have hentries := @attrEntries_updated a cur
        have hmem : a.kv ∈ (a.outs cur).filter fun e => !e.isEmpty :=
          List.mem_filter.mpr ⟨kv_mem_outs, by simpa using kv_ne_nil⟩
        rw [← hentries, hnil] at hmem
        cases hmem
      have hglue : a.updated cur =
          glue 0x2c (glueAll 0x2c [] ((a.outs cur).dropWhile List.isEmpty).dropLast) [] := by
        rw [hwritten]
        conv_lhs => rw [← hsplit, glueAll_append]
        rfl
      rw [glue] at hglue
      split at hglue
      · exact absurd hglue hne
      · exact hglue
  · exact hwritten

theorem set_set_iff :
    a.set (a.set cur) = a.set cur ↔
      ¬ ((a.updated cur).length < RESOURCE_ATTRS_MAX ∧ (a.outs cur).getLast? = some []) := by
  by_cases hfits : (a.updated cur).length < RESOURCE_ATTRS_MAX
  · have hstep := @updated_updated a cur
    have hset : a.set cur = some (a.updated cur) := by rw [set_eq, if_pos hfits]
    have hshort : (a.updated (some (a.updated cur))).length < RESOURCE_ATTRS_MAX := by
      refine lt_of_le_of_lt ?_ hfits
      conv_rhs => rw [hstep]
      split <;> simp
    rw [hset, set_eq, if_pos hshort, Option.some.injEq]
    by_cases hlast : (a.outs cur).getLast? = some []
    · rw [if_pos hlast] at hstep
      have hne : a.updated (some (a.updated cur)) ≠ a.updated cur := by
        intro heq
        have hlen := congrArg List.length hstep
        rw [heq, List.length_append, List.length_singleton] at hlen
        omega
      simp [hfits, hlast, hne]
    · rw [if_neg hlast] at hstep
      simp [hlast, ← hstep]
  · have hset : a.set cur = cur := by rw [set_eq, if_neg hfits]
    simp [hset, hfits]

/-- The condition on the text that was there. -/
theorem getLast?_outs_iff :
    (a.outs cur).getLast? = some [] ↔
      (∃ e ∈ attrEntries cur, a.IsFor e) ∧ [0x2c, 0x2c] <:+ cstr (cur.getD []) := by
  have hentries : attrEntries cur = (attrSegments cur).filter fun e => !e.isEmpty := by
    rw [attrEntries, ← filter_segments, attrSegments]
  have htarget : (∃ e ∈ attrEntries cur, a.IsFor e) ↔ ∃ seg ∈ attrSegments cur, a.IsFor seg := by
    rw [hentries]
    constructor
    · intro h
      obtain ⟨e, he, hfor⟩ := h
      exact ⟨e, (List.mem_filter.mp he).1, hfor⟩
    · intro h
      obtain ⟨seg, hseg, hfor⟩ := h
      refine ⟨seg, List.mem_filter.mpr ⟨hseg, ?_⟩, hfor⟩
      cases seg with
      | nil => simpa using hfor.length_le
      | cons b seg => rfl
  rw [getLast?_outs, htarget, attrSegments, getLast?_segments_eq_nil_iff]
  refine and_congr_right fun h => ⟨fun hor => ?_, .inr⟩
  cases hor with
  | inr htwo => exact htwo
  | inl hone =>
      -- a single comma has no entry at all
      obtain ⟨seg, hseg, hfor⟩ := h
      have hempty : segments 0x2c [(0x2c : Byte)] = [[]] := by decide
      rw [hone, hempty, List.mem_singleton] at hseg
      rw [hseg] at hfor
      simpa using hfor.length_le

end ResourceAttr

/-- One key is updated and a second update changes nothing, unless an entry for the key was there
and the text that fits ends in two commas. -/
theorem updatesOneKey_iff (a : ResourceAttr) (cur : Option Bytes) :
    a.UpdatesOneKey cur ↔
      ¬ ((a.updated cur).length < RESOURCE_ATTRS_MAX ∧
        (∃ e ∈ attrEntries cur, a.IsFor e) ∧ [0x2c, 0x2c] <:+ cstr (cur.getD [])) := by
  rw [ResourceAttr.UpdatesOneKey, ResourceAttr.set_set_iff, ResourceAttr.getLast?_outs_iff]
  refine and_iff_right ?_
  by_cases hfits : (a.updated cur).length < RESOURCE_ATTRS_MAX
  · exact .inr (ResourceAttr.entries_of_fits hfits)
  · exact .inl ⟨not_lt.mp hfits, by rw [ResourceAttr.set_eq, if_neg hfits]⟩

/-- The key of a process, as the constructor sets it. -/
def pidKeyAttr : ResourceAttr where
  key := bytes "procwatch.pid_key"
  value := bytes "7_20260804172652"
  key_plain := by decide
  value_plain := by decide
  fits := by decide

/-- Inherited attributes that end in two commas. -/
theorem not_updatesOneKey_pidKeyAttr :
    ¬ pidKeyAttr.UpdatesOneKey (some (bytes "procwatch.pid_key=3_20260804172601,,")) := by
  intro h
  have hagain := h.2
  revert hagain
  decide +kernel

end ProcWatch

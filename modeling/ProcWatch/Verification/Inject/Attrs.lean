import ProcWatch.Library.Fields
import ProcWatch.Model.Inject

/-! # Rewriting the resource attributes -/

namespace ProcWatch

open CLib

/-! ## The loop over the segments -/

/-- A segment is copied, or replaced where it is for the key. -/
def rewriteSegment (kv keyeq seg : Bytes) : Bytes :=
  if keyeq <+: seg then kv else seg

theorem appendSegment_eq (buf out : Bytes) :
    appendSegment buf out =
      if (glue 0x2c buf out).length < RESOURCE_ATTRS_MAX then some (glue 0x2c buf out)
      else none := by
  by_cases hbuf : buf = []
  · subst hbuf
    have hglue : glue 0x2c [] out = out := if_pos rfl
    rw [appendSegment, if_neg (fun h => h rfl), hglue, List.length_nil, Nat.zero_add,
      List.nil_append]
    by_cases hfits : out.length < RESOURCE_ATTRS_MAX
    · rw [if_pos hfits, if_neg (by omega)]
    · rw [if_neg hfits, if_pos (by omega)]
  · have hglue : glue 0x2c buf out = buf ++ 0x2c :: out := if_neg hbuf
    rw [appendSegment, if_pos hbuf, hglue]
    simp only [List.length_append, List.length_cons, List.length_nil, List.append_assoc,
      List.singleton_append]
    by_cases hfits : buf.length + (out.length + 1) < RESOURCE_ATTRS_MAX
    · rw [if_pos hfits, if_neg (by omega), if_neg (by omega)]
    · rw [if_neg hfits]
      split
      · rfl
      · rw [if_pos (by omega)]

/-- A comma splits off the first segment. -/
theorem segments_of_strchr {p : Bytes} (hp : (0 : Byte) ∉ p) {i : ℕ}
    (h : strchr p 0x2c = some i) :
    segments 0x2c p = p.take i :: segments 0x2c (p.drop (i + 1)) := by
  rw [strchr, cstr_of_nulFree hp, List.findIdx?_eq_some_iff_getElem] at h
  obtain ⟨hi, hcomma, hplain⟩ := h
  have hseg : (0x2c : Byte) ∉ p.take i := by
    intro hmem
    obtain ⟨j, hj, heq⟩ := List.mem_take_iff_getElem.mp hmem
    have hne := hplain j (by omega)
    simp [heq] at hne
  have hsplit : p.take i ++ 0x2c :: p.drop (i + 1) = p := by
    have hget : p[i] = 0x2c := by simpa using hcomma
    rw [← hget, ← List.drop_eq_getElem_cons hi, List.take_append_drop]
  conv_lhs => rw [← hsplit]
  exact segments_append_cons hseg _

theorem segments_of_strchr_none {p : Bytes} (hp : (0 : Byte) ∉ p) (hne : p ≠ [])
    (h : strchr p 0x2c = none) : segments 0x2c p = [p] := by
  rw [strchr, cstr_of_nulFree hp, List.findIdx?_eq_none_iff] at h
  apply segments_of_plain hne
  intro hmem
  simpa using h _ hmem

/-- `is_target` asks whether the segment starts with the key. -/
theorem isTarget_eq {p keyeq : Bytes} (hp : (0 : Byte) ∉ p) (hkey : (0 : Byte) ∉ keyeq)
    (segLen : ℕ) :
    (decide (keyeq.length ≤ segLen) && strncmpEq p keyeq keyeq.length) =
      decide (keyeq <+: p.take segLen) := by
  rw [Bool.eq_iff_iff, Bool.and_eq_true, decide_eq_true_eq, decide_eq_true_eq, strncmpEq,
    cstr_of_nulFree hp, cstr_of_nulFree hkey, List.take_length, beq_iff_eq]
  constructor
  · rintro ⟨hle, heq⟩
    rw [List.prefix_iff_eq_take, List.take_take, Nat.min_eq_left hle]
    exact heq.symm
  · intro h
    have hle : keyeq.length ≤ segLen := h.length_le.trans (List.length_take_le _ _)
    rw [List.prefix_iff_eq_take, List.take_take, Nat.min_eq_left hle] at h
    exact ⟨hle, h.symm⟩

/-- The loop writes the rewritten segments, if they fit. -/
theorem rewriteAttrs_eq {kv keyeq : Bytes} (hkey : (0 : Byte) ∉ keyeq) {fuel : ℕ} {p : Bytes}
    (hp : (0 : Byte) ∉ p) (hfuel : p.length < fuel) {buf : Bytes}
    (hbuf : buf.length < RESOURCE_ATTRS_MAX) (replaced : Bool) :
    rewriteAttrs kv keyeq fuel p buf replaced =
      let written := glueAll 0x2c buf ((segments 0x2c p).map (rewriteSegment kv keyeq))
      if written.length < RESOURCE_ATTRS_MAX then
        some (written, replaced || (segments 0x2c p).any fun seg => decide (keyeq <+: seg))
      else none := by
  induction fuel generalizing p buf replaced with
  | zero => omega
  | succ fuel ih =>
      rw [rewriteAttrs]
      split
      · next hnil =>
          rw [hnil, segments_nil]
          simp only [List.map_nil, List.any_nil, Bool.or_false]
          exact (if_pos hbuf).symm
      · next hne =>
          have hout (seg : Bytes) :
              (if decide (keyeq <+: seg) = true then kv else seg) =
                rewriteSegment kv keyeq seg := by
            simp only [decide_eq_true_eq, rewriteSegment]
          simp only [isTarget_eq hp hkey, hout, appendSegment_eq]
          cases hcomma : strchr p 0x2c with
          | none =>
              rw [segments_of_strchr_none hp hne hcomma, Option.getD_none, List.take_length]
              simp only [List.map_cons, List.map_nil, List.any_cons, List.any_nil, Bool.or_false]
              have hlast : glueAll 0x2c buf [rewriteSegment kv keyeq p] =
                  glue 0x2c buf (rewriteSegment kv keyeq p) := rfl
              rw [hlast]
              by_cases hfits :
                  (glue 0x2c buf (rewriteSegment kv keyeq p)).length < RESOURCE_ATTRS_MAX
              · simp only [if_pos hfits]
              · simp only [if_neg hfits]
          | some i =>
              rw [segments_of_strchr hp hcomma, Option.getD_some]
              simp only [List.map_cons, List.any_cons]
              have hstep (outs : List Bytes) :
                  glueAll 0x2c buf (rewriteSegment kv keyeq (p.take i) :: outs) =
                    glueAll 0x2c (glue 0x2c buf (rewriteSegment kv keyeq (p.take i))) outs := rfl
              rw [hstep]
              by_cases hfits : (glue 0x2c buf (rewriteSegment kv keyeq (p.take i))).length <
                  RESOURCE_ATTRS_MAX
              · have hrest : (0 : Byte) ∉ p.drop (i + 1) := fun h => hp (List.mem_of_mem_drop h)
                have hlen : (p.drop (i + 1)).length < fuel := by
                  have := List.length_pos_iff.mpr hne
                  rw [List.length_drop]
                  omega
                simp only [if_pos hfits]
                rw [ih hrest hlen hfits, Bool.or_assoc]
              · -- what follows only adds to a text that is too long
                have hlong := @length_le_length_glueAll _ (0x2c : Byte)
                  (glue 0x2c buf (rewriteSegment kv keyeq (p.take i)))
                  ((segments 0x2c (p.drop (i + 1))).map (rewriteSegment kv keyeq))
                simp only [if_neg hfits]
                rw [if_neg (by omega)]

/-! ## The variable afterwards -/

/-- The segments written for `key`: the rewritten ones, and a new one if none was for the key. -/
def updatedSegments (key value : Bytes) (cur : Option Bytes) : List Bytes :=
  let kv := key ++ 0x3d :: value
  let keyeq := key ++ [0x3d]
  let segs := segments 0x2c (cstr (cur.getD []))
  segs.map (rewriteSegment kv keyeq) ++
    if segs.any fun seg => decide (keyeq <+: seg) then [] else [kv]

def updatedAttrs (key value : Bytes) (cur : Option Bytes) : Bytes :=
  glueAll 0x2c [] (updatedSegments key value cur)

/-- Key and value fit their buffers and the text fits its own. -/
def AttrFits (key value : Bytes) (cur : Option Bytes) : Prop :=
  (key ++ 0x3d :: value).length < 192 ∧ (key ++ [0x3d]).length < 160 ∧
    (updatedAttrs key value cur).length < RESOURCE_ATTRS_MAX

instance (key value : Bytes) (cur : Option Bytes) : Decidable (AttrFits key value cur) :=
  inferInstanceAs (Decidable (_ ∧ _))

theorem updatedAttrs_nil {key value : Bytes} {cur : Option Bytes} (h : cstr (cur.getD []) = []) :
    updatedAttrs key value cur = key ++ 0x3d :: value := by
  rw [updatedAttrs, updatedSegments, h, segments_nil]
  rfl

theorem setResourceAttr_eq {key : Bytes} (hkey : (0 : Byte) ∉ key) (value : Bytes)
    (cur : Option Bytes) :
    setResourceAttr key value cur =
      if AttrFits key value cur then some (updatedAttrs key value cur) else cur := by
  have hkeyeq : (0 : Byte) ∉ key ++ [0x3d] := by simpa using hkey
  rw [setResourceAttr]
  by_cases hkv : (key ++ 0x3d :: value).length < 192
  swap
  · rw [if_pos (by omega), if_neg (fun h => hkv h.1)]
  by_cases hlen : (key ++ [0x3d]).length < 160
  swap
  · rw [if_neg (by omega), if_pos (by omega), if_neg (fun h => hlen h.2.1)]
  rw [if_neg (by omega), if_neg (by omega)]
  have hfits : AttrFits key value cur ↔
      (updatedAttrs key value cur).length < RESOURCE_ATTRS_MAX :=
    ⟨fun h => h.2.2, fun h => ⟨hkv, hlen, h⟩⟩
  have hshort : (key ++ 0x3d :: value).length < RESOURCE_ATTRS_MAX := by
    rw [RESOURCE_ATTRS_MAX]
    omega
  simp only [hfits]
  cases cur with
  | none =>
      rw [updatedAttrs_nil rfl, if_pos hshort]
      rfl
  | some v =>
      rw [Option.map_some]
      by_cases hv : cstr v = []
      · have hupdated : updatedAttrs key value (some v) = key ++ 0x3d :: value :=
          updatedAttrs_nil hv
        rw [hupdated, hv, if_pos hshort]
      · have hloop := @rewriteAttrs_eq (key ++ 0x3d :: value) (key ++ [0x3d]) hkeyeq _ (cstr v)
          (nulFree_cstr v) (Nat.lt_succ_self _) [] (by decide) false
        have hupdated : updatedAttrs key value (some v) =
            glueAll 0x2c [] (updatedSegments key value (some v)) := rfl
        rw [updatedSegments, Option.getD_some, glueAll_append] at hupdated
        simp only [Bool.false_or] at hloop
        obtain ⟨b, p, hp⟩ := List.exists_cons_of_ne_nil hv
        rw [hupdated]
        rw [hp] at hloop ⊢
        simp only [hloop]
        generalize glueAll 0x2c [] ((segments 0x2c (b :: p)).map
          (rewriteSegment (key ++ 0x3d :: value) (key ++ [0x3d]))) = written
        have hlonger (outs : List Bytes) : written.length ≤ (glueAll 0x2c written outs).length :=
          length_le_length_glueAll written outs
        by_cases hwritten : written.length < RESOURCE_ATTRS_MAX
        · rw [if_pos hwritten]
          cases (segments 0x2c (b :: p)).any fun seg => decide (key ++ [0x3d] <+: seg) with
          | true => exact (if_pos hwritten).symm
          | false =>
              have hnew : glueAll 0x2c written [key ++ 0x3d :: value] =
                  glue 0x2c written (key ++ 0x3d :: value) := rfl
              simp only [Bool.false_eq_true, if_false, appendSegment_eq, hnew]
              by_cases hfits : (glue 0x2c written (key ++ 0x3d :: value)).length <
                  RESOURCE_ATTRS_MAX
              · simp only [if_pos hfits]
              · simp only [if_neg hfits]
        · rw [if_neg hwritten, if_neg (fun h => hwritten ((hlonger _).trans_lt h))]

/-! ## Values of the attributes -/

/-- The values that a variable holds for a key. -/
def attrValues (key : Bytes) (attrs : Option Bytes) : List Bytes :=
  valuesOf 0x2c (key ++ [0x3d]) (cstr (attrs.getD []))

section Values

variable {key value : Bytes} {cur : Option Bytes}

/-- Neither commas nor NUL bytes are added. -/
theorem plain_of_mem_updatedSegments (hkey : (0 : Byte) ∉ key ∧ 0x2c ∉ key)
    (hvalue : (0 : Byte) ∉ value ∧ 0x2c ∉ value) {seg : Bytes}
    (h : seg ∈ updatedSegments key value cur) : (0 : Byte) ∉ seg ∧ 0x2c ∉ seg := by
  have hkv : (0 : Byte) ∉ key ++ 0x3d :: value ∧ 0x2c ∉ key ++ 0x3d :: value := by
    simp [hkey, hvalue]
  rw [updatedSegments, List.mem_append] at h
  cases h with
  | inl h =>
      obtain ⟨old, hold, rfl⟩ := List.mem_map.mp h
      rw [rewriteSegment]
      split
      · exact hkv
      · exact ⟨fun h0 => nulFree_cstr _ (mem_of_mem_segments hold h0),
          not_mem_of_mem_segments hold⟩
  | inr h =>
      split at h
      · cases h
      · rw [List.mem_singleton.mp h]
        exact hkv

theorem attrValues_updatedAttrs (hkey : (0 : Byte) ∉ key ∧ 0x2c ∉ key)
    (hvalue : (0 : Byte) ∉ value ∧ 0x2c ∉ value) (key' : Bytes) :
    attrValues key' (some (updatedAttrs key value cur)) =
      (updatedSegments key value cur).filterMap (valueOf (key' ++ [0x3d])) := by
  have hplain : ∀ seg ∈ updatedSegments key value cur, (0 : Byte) ∉ seg ∧ 0x2c ∉ seg :=
    fun seg hseg => plain_of_mem_updatedSegments hkey hvalue hseg
  have hnul : (0 : Byte) ∉ updatedAttrs key value cur := by
    intro h0
    rcases mem_glueAll h0 with h | h | ⟨seg, hseg, h⟩
    · cases h
    · cases h
    · exact (hplain seg hseg).1 h
  rw [attrValues, Option.getD_some, cstr_of_nulFree hnul, updatedAttrs,
    valuesOf_glueAll (by simp) [] (fun seg hseg => (hplain seg hseg).2), valuesOf_nil (by simp),
    List.nil_append]

theorem valueOf_rewriteSegment {seg : Bytes} :
    valueOf (key ++ [0x3d]) (rewriteSegment (key ++ 0x3d :: value) (key ++ [0x3d]) seg) =
      if key ++ [0x3d] <+: seg then some value else none := by
  have hkv : key ++ 0x3d :: value = (key ++ [0x3d]) ++ value := by simp
  rw [rewriteSegment]
  split
  · rw [hkv, valueOf_append]
  · next h => exact if_neg h

/-- A key that was set holds its value and no other. -/
theorem attrValues_setResourceAttr_self (hkey : (0 : Byte) ∉ key ∧ 0x2c ∉ key)
    (hvalue : (0 : Byte) ∉ value ∧ 0x2c ∉ value) (hfits : AttrFits key value cur) :
    attrValues key (setResourceAttr key value cur) ≠ [] ∧
      ∀ v ∈ attrValues key (setResourceAttr key value cur), v = value := by
  have hkv : valueOf (key ++ [0x3d]) (key ++ 0x3d :: value) = some value := by
    have hsplit : key ++ 0x3d :: value = (key ++ [0x3d]) ++ value := by simp
    rw [hsplit, valueOf_append]
  rw [setResourceAttr_eq hkey.1, if_pos hfits, attrValues_updatedAttrs hkey hvalue,
    updatedSegments, List.filterMap_append, List.filterMap_map]
  simp only [Function.comp_def, valueOf_rewriteSegment]
  constructor
  · cases hany : (segments 0x2c (cstr (cur.getD []))).any fun seg =>
      decide (key ++ [0x3d] <+: seg) with
    | true =>
        obtain ⟨seg, hseg, htarget⟩ := List.any_eq_true.mp hany
        have hmem : value ∈ (segments 0x2c (cstr (cur.getD []))).filterMap fun seg =>
            if key ++ [0x3d] <+: seg then some value else none :=
          List.mem_filterMap.mpr ⟨seg, hseg, if_pos (by simpa using htarget)⟩
        exact List.append_ne_nil_of_left_ne_nil (List.ne_nil_of_mem hmem) _
    | false => simp [hkv]
  · intro v hv
    cases List.mem_append.mp hv with
    | inl hv =>
        obtain ⟨seg, -, hvalue⟩ := List.mem_filterMap.mp hv
        split at hvalue
        · exact (Option.some.inj hvalue).symm
        · cases hvalue
    | inr hv =>
        split at hv
        · cases hv
        · simpa [hkv] using hv

/-- Values of other keys stay as they are. -/
theorem attrValues_setResourceAttr_of_ne (hkey : (0 : Byte) ∉ key ∧ 0x2c ∉ key)
    (hvalue : (0 : Byte) ∉ value ∧ 0x2c ∉ value) {key' : Bytes}
    (hne : ¬ key' ++ [0x3d] <+: key ++ [0x3d]) (hne' : ¬ key ++ [0x3d] <+: key' ++ [0x3d]) :
    attrValues key' (setResourceAttr key value cur) = attrValues key' cur := by
  have hkv : valueOf (key' ++ [0x3d]) (key ++ 0x3d :: value) = none := by
    have htarget : key ++ [0x3d] <+: key ++ 0x3d :: value := ⟨value, by simp⟩
    exact valueOf_eq_none_of_isPrefix htarget hne hne'
  have hrewrite (seg : Bytes) :
      valueOf (key' ++ [0x3d]) (rewriteSegment (key ++ 0x3d :: value) (key ++ [0x3d]) seg) =
        valueOf (key' ++ [0x3d]) seg := by
    rw [rewriteSegment]
    split
    · next htarget => rw [hkv, valueOf_eq_none_of_isPrefix htarget hne hne']
    · rfl
  rw [setResourceAttr_eq hkey.1]
  split
  · rw [attrValues_updatedAttrs hkey hvalue, updatedSegments, List.filterMap_append,
      List.filterMap_map]
    simp only [Function.comp_def, hrewrite]
    rw [filterMap_segments (by simp), attrValues]
    split <;> simp [hkv]
  · rfl

end Values

end ProcWatch

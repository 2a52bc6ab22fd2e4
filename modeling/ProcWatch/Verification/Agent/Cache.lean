import ProcWatch.Verification.Agent.Labels

/-! # The label cache around `db_ensure_label`

A fact that the statements of a label bring about holds of every label in use: the same
argument for any such fact.
-/

namespace ProcWatch

open CLib

/-! ## Facts about labels -/

/-- The world with other entries in its cache. -/
def recache (labels : List LabelEntry) (w : AgentWorld) : AgentWorld :=
  { w with user := { w.user with labels := labels } }

/-- A fact about labels that neither statements nor the cache can undo. -/
structure Lasting (F : Bytes → AgentWorld → Prop) : Prop where
  issues : ∀ (P : Stmt → Prop) (U : AgentState → AgentState → Prop) (w w' : AgentWorld)
    (label : Bytes), Issues P U w w' → F label w → F label w'
  recache : ∀ (labels : List LabelEntry) (w : AgentWorld) (label : Bytes),
    F label w → F label (recache labels w)

/-- The labels in use have the fact. -/
def ReadyAll (F : Bytes → AgentWorld → Prop) (w : AgentWorld) : Prop :=
  ∀ e ∈ w.user.labels, e.ready = true → F e.label w

/-- The labels with an entry, in use or not. -/
def cachedLabels (w : AgentWorld) : List Bytes :=
  w.user.labels.map fun e => e.label

/-- The cache has the label, which it has taken in at its end if it is new. -/
def Caches (label : Bytes) (w w' : AgentWorld) : Prop :=
  (label ∈ cachedLabels w ∧ cachedLabels w' = cachedLabels w) ∨
    (label ∉ cachedLabels w ∧ cachedLabels w' = cachedLabels w ++ [label])

theorem Caches.nodup {label : Bytes} {w w' : AgentWorld} (h : Caches label w w')
    (hw : (cachedLabels w).Nodup) : (cachedLabels w').Nodup := by
  cases h with
  | inl hold =>
      rw [hold.2]
      exact hw
  | inr hnew =>
      rw [hnew.2, List.nodup_append]
      refine ⟨hw, List.nodup_singleton label, fun a ha b hb => ?_⟩
      obtain rfl := List.mem_singleton.mp hb
      exact fun heq => hnew.1 (heq ▸ ha)

theorem Caches.mem_iff {label : Bytes} {w w' : AgentWorld} (h : Caches label w w') (l : Bytes) :
    l ∈ cachedLabels w' ↔ l ∈ cachedLabels w ∨ l = label := by
  cases h with
  | inl hold =>
      rw [hold.2, or_iff_left_of_imp]
      exact fun heq => heq ▸ hold.1
  | inr hnew => rw [hnew.2, List.mem_append, List.mem_singleton]

theorem mem_cachedLabels_of_findLabel {w : AgentWorld} {label : Bytes} {e : LabelEntry}
    (h : findLabel w.user.labels label = some e) : label ∈ cachedLabels w :=
  List.mem_map.mpr ⟨e, List.mem_of_find?_eq_some h, findLabel_label h⟩

theorem notMem_cachedLabels_iff {w : AgentWorld} {label : Bytes} :
    label ∉ cachedLabels w ↔ findLabel w.user.labels label = none := by
  simp [cachedLabels, findLabel]

theorem setReady_label (e : LabelEntry) : e.setReady.label = e.label := rfl

theorem map_label_setReady (labels : List LabelEntry) (label : Bytes) :
    (labels.map fun e => if e.label = label then e.setReady else e).map (fun e => e.label) =
      labels.map fun e => e.label := by
  rw [List.map_map]
  refine List.map_congr_left fun e _ => ?_
  rw [Function.comp_apply]
  split
  · exact setReady_label e
  · rfl

/-! ## One call -/

section Ensure

variable {F : Bytes → AgentWorld → Prop} {schema label : Bytes} {w : AgentWorld}

theorem Issues.readyAll {P : Stmt → Prop} {w w' : AgentWorld} (h : Issues P Eq w w')
    (hF : Lasting F) (hw : ReadyAll F w) : ReadyAll F w' := by
  intro e he hready
  rw [← h.user] at he
  exact hF.issues P Eq w w' _ h (hw e he hready)

/-- The label is marked once its statements have been sent. -/
theorem wp_prepareLabel_ready (hF : Lasting F) (e : LabelEntry)
    (hcreate : Prog.wp (createLabel schema e) (fun _ w' => F e.label w') (fun _ => True) w)
    (hw : ReadyAll F w) :
    Prog.wp (prepareLabel schema e)
      (fun _ w' => ReadyAll F w' ∧ F e.label w' ∧ cachedLabels w' = cachedLabels w)
      (fun _ => True) w := by
  have hkeep := (keeps_createLabel (U := Eq) schema e).wp w
  simp only [prepareLabel, Prog.wp_bind]
  refine Prog.wp_mono (Prog.wp_and hcreate hkeep) ?_ fun _ _ => trivial
  intro _ w' hw'
  obtain ⟨hlabel, hissues⟩ := hw'
  have hready := hissues.readyAll hF hw
  refine ⟨?_, hF.recache _ w' _ hlabel, ?_⟩
  · intro e' he' hmarked
    obtain ⟨e₀, he₀, rfl⟩ := List.mem_map.mp he'
    by_cases hl : e₀.label = e.label
    · rw [if_pos hl, setReady_label, hl]
      exact hF.recache _ w' _ hlabel
    · rw [if_neg hl] at hmarked ⊢
      exact hF.recache _ w' _ (hready e₀ he₀ hmarked)
  · rw [cachedLabels, cachedLabels, hissues.user]
    exact map_label_setReady w'.user.labels e.label

/-- What `db_ensure_label` brings about for a label is true of every label in use. -/
theorem wp_dbEnsureLabel_ready (hF : Lasting F)
    (hcreate : connOk w.conn = true → ∀ (labels : List LabelEntry) (e : LabelEntry),
      e.label = label →
      Prog.wp (createLabel schema e) (fun _ w' => F e.label w') (fun _ => True) (recache labels w))
    (hw : ReadyAll F w) :
    Prog.wp (dbEnsureLabel schema label)
      (fun rc w' => ReadyAll F w' ∧ (rc = 0 → F label w' ∧ Caches label w w'))
      (fun _ => True) w := by
  have hfail : ReadyAll F w ∧ ((-1 : ℤ) = 0 → F label w ∧ Caches label w w) :=
    ⟨hw, fun h => absurd h (by decide)⟩
  simp only [dbEnsureLabel, Prog.wp_bind, Prog.wp_get, Prog.wp_ite]
  refine ⟨fun _ => hfail, fun hconn => ⟨fun _ => hfail, fun _ => ?_⟩⟩
  have hok : connOk w.conn = true := by simpa using hconn
  cases hfind : findLabel w.user.labels label with
  | some e =>
      have hmem := mem_cachedLabels_of_findLabel hfind
      obtain rfl := findLabel_label hfind
      simp only
      by_cases hready : e.ready = true
      · rw [if_pos hready]
        exact ⟨hw, fun _ => ⟨hw e (List.mem_of_find?_eq_some hfind) hready, Or.inl ⟨hmem, rfl⟩⟩⟩
      · rw [if_neg hready]
        exact Prog.wp_mono (wp_prepareLabel_ready hF e (hcreate hok w.user.labels e rfl) hw)
          (fun _ _ h => ⟨h.1, fun _ => ⟨h.2.1, Or.inl ⟨hmem, h.2.2⟩⟩⟩) fun _ => id
  | none =>
      simp only
      by_cases hfull : LABEL_CACHE_MAX ≤ w.user.labels.length
      · rw [if_pos hfull]
        exact hfail
      · rw [if_neg hfull, Prog.wp_bind, setLabels, Prog.wp_modify]
        refine Prog.wp_mono (wp_prepareLabel_ready hF (LabelEntry.ofLabel label)
          (hcreate hok _ _ rfl) ?_) ?_ fun _ => id
        · intro e he hready
          cases List.mem_append.mp he with
          | inl he => exact hF.recache _ w _ (hw e he hready)
          | inr he =>
              obtain rfl := List.mem_singleton.mp he
              cases hready
        · intro _ w' h
          refine ⟨h.1, fun _ => ⟨h.2.1, Or.inr ⟨notMem_cachedLabels_iff.mpr hfind, ?_⟩⟩⟩
          rw [h.2.2]
          exact List.map_append

end Ensure

/-! ## Inserts -/

def PreparesNothing (s : Stmt) : Prop :=
  ∀ name target, s ≠ .prepare name target

theorem keeps_insertKind (kind : Kind) (label : Bytes) (vals : List (Option Bytes)) :
    Prog.Keeps (Issues PreparesNothing (Eq : AgentState → AgentState → Prop))
      (insertKind kind label vals) := by
  have hinsert (name : Bytes) : PreparesNothing (.execPrepared name vals) := by
    simp [PreparesNothing]
  refine Prog.keeps_bind Prog.keeps_get fun w => ?_
  split
  · exact Prog.keeps_pure (-1)
  · cases findLabel w.user.labels label with
    | none => exact Prog.keeps_pure (-1)
    | some e =>
        simp only
        split
        · refine Prog.keeps_bind (keeps_issue (hinsert _)) fun r => ?_
          cases r with
          | done found => exact Prog.keeps_pure 0
          | refused => exact Prog.keeps_pure (-1)
          | lost => exact Prog.keeps_pure (-1)
        · exact Prog.keeps_pure (-1)

end ProcWatch

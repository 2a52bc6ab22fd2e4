import ProcWatch.Library.Sinks

/-! # Accounts of the items that a run handles

A triple whose postcondition says what became of the items that the program was given. Runs
that end the process are not accounted for.
-/

namespace CLib

/-! ## Dealing out a list -/

/-- The items are dealt out to two lists, each in order. -/
inductive Dealt {ι : Type} : List ι → List ι → List ι → Prop where
  | nil : Dealt [] [] []
  | left (x : ι) {xs ls rs : List ι} (h : Dealt xs ls rs) : Dealt (x :: xs) (x :: ls) rs
  | right (x : ι) {xs ls rs : List ι} (h : Dealt xs ls rs) : Dealt (x :: xs) ls (x :: rs)

theorem Dealt.append {ι : Type} {xs ls rs xs' ls' rs' : List ι} (h : Dealt xs ls rs)
    (h' : Dealt xs' ls' rs') : Dealt (xs ++ xs') (ls ++ ls') (rs ++ rs') := by
  induction h with
  | nil => exact h'
  | left x _ ih => exact .left x ih
  | right x _ ih => exact .right x ih

theorem Dealt.allLeft {ι : Type} (xs : List ι) : Dealt xs xs [] := by
  induction xs with
  | nil => exact .nil
  | cons x xs ih => exact .left x ih

theorem Dealt.right_subset {ι : Type} {xs ls rs : List ι} (h : Dealt xs ls rs) : rs ⊆ xs := by
  induction h with
  | nil => exact List.Subset.refl _
  | left x _ ih => exact List.subset_cons_of_subset x ih
  | right x _ ih => exact List.cons_subset_cons x ih

/-! ## Ledgers -/

/-- What the world before and the world after say of the items handled in between. -/
structure Ledger (W ι : Type) where
  entry : List ι → W → W → Prop
  nil : ∀ w, entry [] w w
  append : ∀ {xs ys w w' w''}, entry xs w w' → entry ys w' w'' → entry (xs ++ ys) w w''

namespace Prog

variable {W ι α β : Type}

/-- From a world in `P` a run that returns ends in `Q`, with the items entered. -/
def Tallies (L : Ledger W ι) (P : W → Prop) (xs : List ι) (Q : α → W → Prop) (m : Prog W α) : Prop :=
  ∀ w, P w → wp m (fun a w' => Q a w' ∧ L.entry xs w w') (fun _ => True) w

variable {L : Ledger W ι} {P P' : W → Prop} {Q Q' : α → W → Prop} {xs ys : List ι}

theorem tallies_pure (a : α) : Tallies L P [] (fun _ => P) (Pure.pure a : Prog W α) :=
  fun w hw => ⟨hw, L.nil w⟩

theorem tallies_bind {m : Prog W α} {f : α → Prog W β} {S : β → W → Prop}
    (hm : Tallies L P xs Q m) (hf : ∀ a, Tallies L (Q a) ys S (f a)) :
    Tallies L P (xs ++ ys) S (m >>= f) := by
  intro w hw
  rw [wp_bind]
  refine wp_mono (hm w hw) (fun a w' h => ?_) fun _ => id
  exact wp_mono (hf a w' h.1) (fun _ _ h' => ⟨h'.1, L.append h.2 h'.2⟩) fun _ => id

/-- A first program that handles nothing. -/
theorem tallies_bind_left {m : Prog W α} {f : α → Prog W β} {S : β → W → Prop}
    (hm : Tallies L P [] Q m) (hf : ∀ a, Tallies L (Q a) xs S (f a)) :
    Tallies L P xs S (m >>= f) :=
  tallies_bind hm hf

theorem tallies_get_bind {f : W → Prog W β} {S : β → W → Prop}
    (h : ∀ w, P w → Tallies L (· = w) xs S (f w)) : Tallies L P xs S (get >>= f) := by
  intro w hw
  rw [wp_bind, wp_get]
  exact h w hw w rfl

theorem Tallies.mono {m : Prog W α} (h : Tallies L P xs Q m) (hP : ∀ w, P' w → P w)
    (hQ : ∀ a w, Q a w → Q' a w) : Tallies L P' xs Q' m :=
  fun w hw => wp_mono (h w (hP w hw)) (fun a _ h' => ⟨hQ a _ h'.1, h'.2⟩) fun _ => id

theorem tallies_ite {c : Prop} [Decidable c] {m₁ m₂ : Prog W α} (h₁ : c → Tallies L P xs Q m₁)
    (h₂ : ¬ c → Tallies L P xs Q m₂) : Tallies L P xs Q (if c then m₁ else m₂) := by
  split
  · exact h₁ ‹_›
  · exact h₂ ‹_›

/-- One item after the other. -/
theorem tallies_forEach {body : ι → Prog W Unit}
    (h : ∀ x, Tallies L P [x] (fun _ => P) (body x)) (xs : List ι) :
    Tallies L P xs (fun _ => P) (forEach body xs) := by
  induction xs with
  | nil => exact tallies_pure ()
  | cons x xs ih => exact tallies_bind (h x) fun _ => ih

end Prog

end CLib

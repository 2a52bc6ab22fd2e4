import ProcWatch.Library.Prog

/-! # How programs end

A triple whose postconditions relate the world at the end to the one at the start, one for a
return and one for an end of the process.
-/

namespace CLib

/-- What a run that returns does to a world, and what one that ends the process does. -/
structure Course (W : Type) where
  going : W → W → Prop
  ending : W → W → Prop
  refl : ∀ w, going w w
  trans : ∀ {w w' w''}, going w w' → going w' w'' → going w w''
  after : ∀ {w w' w''}, going w w' → ending w' w'' → ending w w''

namespace Prog

variable {W α β : Type}

/-- From a world in `P` the program takes this course, and where it returns it ends in `Q`. -/
def Ends (C : Course W) (P : W → Prop) (Q : α → W → Prop) (m : Prog W α) : Prop :=
  ∀ w, P w → wp m (fun a w' => C.going w w' ∧ Q a w') (C.ending w) w

section Ends

variable {C : Course W} {P P' : W → Prop} {Q Q' : α → W → Prop}

theorem ends_pure (a : α) : Ends C P (fun _ => P) (Pure.pure a : Prog W α) :=
  fun w hw => ⟨C.refl w, hw⟩

theorem ends_bind {m : Prog W α} {f : α → Prog W β} {S : β → W → Prop} (hm : Ends C P Q m)
    (hf : ∀ a, Ends C (Q a) S (f a)) : Ends C P S (m >>= f) := by
  intro w hw
  rw [wp_bind]
  refine wp_mono (hm w hw) (fun a w' h => ?_) fun _ => id
  refine wp_mono (hf a w' h.2) (fun b w'' h' => ?_) fun w'' h' => ?_
  · exact ⟨C.trans h.1 h'.1, h'.2⟩
  · exact C.after h.1 h'

/-- Reading the world first. -/
theorem ends_get_bind {f : W → Prog W β} {S : β → W → Prop}
    (h : ∀ w, P w → Ends C (· = w) S (f w)) : Ends C P S (get >>= f) := by
  intro w hw
  rw [wp_bind, wp_get]
  exact h w hw w rfl

/-- The consequence rule. -/
theorem Ends.mono {m : Prog W α} (h : Ends C P Q m) (hP : ∀ w, P' w → P w)
    (hQ : ∀ a w, Q a w → Q' a w) : Ends C P' Q' m :=
  fun w hw => wp_mono (h w (hP w hw)) (fun a _ h' => ⟨h'.1, hQ a _ h'.2⟩) fun _ => id

/-- Where one course is part of another, and keeps `I` as it goes. -/
theorem Ends.within {C' : Course W} {I : W → Prop} {m : Prog W α} (h : Ends C P Q m)
    (hgoing : ∀ w w', C.going w w' → C'.going w w')
    (hending : ∀ w w', C.ending w w' → C'.ending w w')
    (hI : ∀ w w', C.going w w' → I w → I w') :
    Ends C' (fun w => P w ∧ I w) (fun a w => Q a w ∧ I w) m := by
  intro w hw
  refine wp_mono (h w hw.1) (fun a w' h' => ?_) fun w' => hending w w'
  exact ⟨hgoing w w' h'.1, h'.2, hI w w' h'.1 hw.2⟩

theorem ends_ite {c : Prop} [Decidable c] {m₁ m₂ : Prog W α} (h₁ : c → Ends C P Q m₁)
    (h₂ : ¬ c → Ends C P Q m₂) : Ends C P Q (if c then m₁ else m₂) := by
  split
  · exact h₁ ‹_›
  · exact h₂ ‹_›

theorem ends_modify {f : W → W} (h : ∀ w, P w → C.going w (f w) ∧ P (f w)) :
    Ends C P (fun _ => P) (modify f) :=
  fun w hw => h w hw

end Ends

end Prog

end CLib

import Mathlib

/-! # Programs over a world that may end the process

A program reads and changes a world and either returns a value or ends the process, leaving
the world as it is. `wp` is its weakest precondition and `Keeps` its frame rule.
-/

namespace CLib

/-- How a program ends: with a value, or with the process. -/
inductive Outcome (α : Type*) where
  | ret (a : α)
  | exit
  deriving DecidableEq

def Prog (W α : Type) : Type :=
  W → Outcome α × W

namespace Prog

variable {W α β : Type}

def pure (a : α) : Prog W α :=
  fun w => (.ret a, w)

def bind (m : Prog W α) (f : α → Prog W β) : Prog W β := fun w =>
  match m w with
  | (.ret a, w') => f a w'
  | (.exit, w') => (.exit, w')

instance : Monad (Prog W) where
  pure := pure
  bind := bind

/-- `exit()`. -/
def exit : Prog W α :=
  fun w => (.exit, w)

def get : Prog W W :=
  fun w => (.ret w, w)

def modify (f : W → W) : Prog W Unit :=
  fun w => (.ret (), f w)

theorem pure_apply (a : α) (w : W) : (Pure.pure a : Prog W α) w = (.ret a, w) := rfl

theorem bind_apply (m : Prog W α) (f : α → Prog W β) (w : W) :
    (m >>= f) w = match m w with
      | (.ret a, w') => f a w'
      | (.exit, w') => (.exit, w') := rfl

/-- Sequencing after a run that returned. -/
theorem bind_of_ret {m : Prog W α} {f : α → Prog W β} {w w' : W} {a : α}
    (h : m w = (.ret a, w')) : (m >>= f) w = f a w' := by
  rw [bind_apply, h]

/-- A run whose outcome is known. -/
theorem eq_of_outcome {x : Outcome α × W} {o : Outcome α} (h : x.1 = o) : x = (o, x.2) := by
  rw [← h]

theorem bind_assoc {γ : Type} (m : Prog W α) (f : α → Prog W β) (g : β → Prog W γ) :
    m >>= f >>= g = m >>= fun a => f a >>= g := by
  funext w
  simp only [bind_apply]
  cases m w with
  | mk o w' => cases o <;> rfl

theorem pure_bind (a : α) (f : α → Prog W β) : Pure.pure a >>= f = f a := rfl

/-! ## Weakest preconditions -/

/-- From `w` the program returns a value and a world in `Q`, or ends the process in `X`. -/
def wp (m : Prog W α) (Q : α → W → Prop) (X : W → Prop) (w : W) : Prop :=
  match m w with
  | (.ret a, w') => Q a w'
  | (.exit, w') => X w'

section Wp

variable {Q : α → W → Prop} {X : W → Prop} {w : W}

@[simp]
theorem wp_pure {a : α} : wp (Pure.pure a : Prog W α) Q X w ↔ Q a w := Iff.rfl

@[simp]
theorem wp_bind {m : Prog W α} {f : α → Prog W β} {Q : β → W → Prop} :
    wp (m >>= f) Q X w ↔ wp m (fun a w' => wp (f a) Q X w') X w := by
  simp only [wp, bind_apply]
  cases m w with
  | mk o w' => cases o <;> rfl

@[simp]
theorem wp_exit : wp (exit : Prog W α) Q X w ↔ X w := Iff.rfl

@[simp]
theorem wp_get {Q : W → W → Prop} : wp (get : Prog W W) Q X w ↔ Q w w := Iff.rfl

@[simp]
theorem wp_modify {f : W → W} {Q : Unit → W → Prop} :
    wp (modify f) Q X w ↔ Q () (f w) := Iff.rfl

theorem wp_ite {c : Prop} [Decidable c] {m₁ m₂ : Prog W α} :
    wp (if c then m₁ else m₂) Q X w ↔ (c → wp m₁ Q X w) ∧ (¬ c → wp m₂ Q X w) := by
  split <;> simp_all

/-- The consequence rule. -/
theorem wp_mono {m : Prog W α} {Q' : α → W → Prop} {X' : W → Prop}
    (h : wp m Q X w) (hQ : ∀ a w', Q a w' → Q' a w') (hX : ∀ w', X w' → X' w') :
    wp m Q' X' w := by
  simp only [wp] at h ⊢
  cases hm : m w with
  | mk o w' =>
      rw [hm] at h
      cases o with
      | ret a => exact hQ a w' h
      | exit => exact hX w' h

theorem wp_true (m : Prog W α) (w : W) : wp m (fun _ _ => True) (fun _ => True) w := by
  simp only [wp]
  split <;> trivial

theorem wp_and {m : Prog W α} {Q' : α → W → Prop} {X' : W → Prop}
    (h : wp m Q X w) (h' : wp m Q' X' w) :
    wp m (fun a w' => Q a w' ∧ Q' a w') (fun w' => X w' ∧ X' w') w := by
  simp only [wp] at h h' ⊢
  cases hm : m w with
  | mk o w' =>
      rw [hm] at h h'
      cases o <;> exact ⟨h, h'⟩

/-- Some end is always reached. -/
theorem not_wp_false (m : Prog W α) (w : W) : ¬ wp m (fun _ _ => False) (fun _ => False) w := by
  rw [wp]
  cases m w with
  | mk o w' => cases o <;> exact id

/-- What a weakest precondition says of the run itself. -/
theorem wp_iff_run {m : Prog W α} :
    wp m Q X w ↔ (∀ a w', m w = (.ret a, w') → Q a w') ∧ ∀ w', m w = (.exit, w') → X w' := by
  simp only [wp]
  cases hm : m w with
  | mk o w' =>
      cases o with
      | ret a => exact ⟨fun h => ⟨by rintro _ _ ⟨⟩; exact h, by rintro _ ⟨⟩⟩, fun h => h.1 a w' rfl⟩
      | exit => exact ⟨fun h => ⟨by rintro _ _ ⟨⟩, by rintro _ ⟨⟩; exact h⟩, fun h => h.2 w' rfl⟩

end Wp

/-! ## Relations kept by every run -/

/-- However the program ends, the world before and the world after are related. -/
def Keeps (R : W → W → Prop) (m : Prog W α) : Prop :=
  ∀ w, R w (m w).2

theorem Keeps.mono {R R' : W → W → Prop} {m : Prog W α} (h : Keeps R m)
    (hR : ∀ w w', R w w' → R' w w') : Keeps R' m :=
  fun w => hR w _ (h w)

/-- A kept relation as a weakest precondition. -/
theorem Keeps.wp {R : W → W → Prop} {m : Prog W α} (h : Keeps R m) (w : W) :
    wp m (fun _ w' => R w w') (fun w' => R w w') w := by
  have hw := h w
  simp only [Prog.wp]
  cases hm : m w with
  | mk o w' =>
      rw [hm] at hw
      cases o <;> exact hw

section Keeps

variable {R : W → W → Prop} [IsPreorder W R]

theorem keeps_pure (a : α) : Keeps R (Pure.pure a : Prog W α) :=
  fun w => refl_of R w

theorem keeps_exit : Keeps R (exit : Prog W α) :=
  fun w => refl_of R w

theorem keeps_get : Keeps R (get : Prog W W) :=
  fun w => refl_of R w

theorem keeps_bind {m : Prog W α} {f : α → Prog W β} (hm : Keeps R m) (hf : ∀ a, Keeps R (f a)) :
    Keeps R (m >>= f) := by
  intro w
  have h := hm w
  rw [bind_apply]
  cases hmw : m w with
  | mk o w' =>
      rw [hmw] at h
      cases o with
      | ret a => exact trans_of R h (hf a w')
      | exit => exact h

end Keeps

end Prog

end CLib

import ProcWatch.Library.Prog

/-! # Programs that keep a log

A program over a world with a log beside it refines a program over the world alone, when it
does the same and logs only events of a kind.
-/

namespace CLib

structure Traced (W E : Type) where
  world : W
  events : List E

namespace Traced

variable {W E α β γ δ : Type}

def log (e : E) : Prog (Traced W E) Unit :=
  Prog.modify fun x => { x with events := x.events ++ [e] }

/-- A program of the world, which logs nothing. -/
def lift (m : Prog W α) : Prog (Traced W E) α := fun x =>
  ((m x.world).1, { x with world := (m x.world).2 })

/-- Both ended the process, or both returned, with values so related. -/
inductive SameOutcome (P : α → β → Prop) : Outcome α → Outcome β → Prop where
  | ret {a : α} {b : β} (h : P a b) : SameOutcome P (.ret a) (.ret b)
  | exit : SameOutcome P .exit .exit

/-- The run of `m` is that of `m'`, with values so related, and with safe events alone. -/
structure SameRun (safe : E → Prop) (P : α → β → Prop) (x : Traced W E)
    (run : Outcome α × Traced W E) (run' : Outcome β × W) : Prop where
  outcome : SameOutcome P run.1 run'.1
  world : run.2.world = run'.2
  events : ∃ events, run.2.events = x.events ++ events ∧ ∀ e ∈ events, safe e

/-- `m` does what `m'` does, up to the relation between their values, and is safe. -/
def Refines (safe : E → Prop) (P : α → β → Prop) (m : Prog (Traced W E) α) (m' : Prog W β) : Prop :=
  ∀ x, SameRun safe P x (m x) (m' x.world)

variable {safe : E → Prop} {P : α → β → Prop} {Q : γ → δ → Prop}

theorem refines_pure {a : α} {b : β} (h : P a b) :
    Refines (W := W) safe P (Pure.pure a) (Pure.pure b) := fun x =>
  ⟨.ret h, rfl, [], (List.append_nil x.events).symm, fun _ he => absurd he List.not_mem_nil⟩

theorem refines_lift (m : Prog W α) : Refines safe (· = ·) (lift m) m := fun x => by
  refine ⟨?_, rfl, [], (List.append_nil x.events).symm, fun _ he => absurd he List.not_mem_nil⟩
  rw [lift]
  cases (m x.world).1 with
  | ret a => exact .ret rfl
  | exit => exact .exit

/-- Sequencing. -/
theorem Refines.bind {m : Prog (Traced W E) α} {m' : Prog W β} {f : α → Prog (Traced W E) γ}
    {f' : β → Prog W δ} (h : Refines safe P m m')
    (hf : ∀ a b, P a b → Refines safe Q (f a) (f' b)) : Refines safe Q (m >>= f) (m' >>= f') := by
  intro x
  obtain ⟨houtcome, hworld, events, hevents, hsafe⟩ := h x
  rw [Prog.bind_apply, Prog.bind_apply]
  cases hm : m x with
  | mk o y =>
      cases hm' : m' x.world with
      | mk o' w =>
          rw [hm, hm'] at houtcome hworld
          rw [hm] at hevents
          cases houtcome with
          | exit => exact ⟨.exit, hworld, events, hevents, hsafe⟩
          | @ret a b hab =>
              have hnext := hf a b hab y
              obtain ⟨houtcome', hworld', events', hevents', hsafe'⟩ := hnext
              change y.world = w at hworld
              rw [hworld] at houtcome' hworld'
              refine ⟨houtcome', hworld', events ++ events', ?_, ?_⟩
              · change y.events = x.events ++ events at hevents
                rw [← List.append_assoc, ← hevents]
                exact hevents'
              · intro e he
                cases List.mem_append.mp he with
                | inl he => exact hsafe e he
                | inr he => exact hsafe' e he

theorem SameOutcome.mono {P' : α → β → Prop} {o : Outcome α} {o' : Outcome β}
    (h : SameOutcome P o o') (hP : ∀ a b, P a b → P' a b) : SameOutcome P' o o' := by
  cases h with
  | ret h => exact .ret (hP _ _ h)
  | exit => exact .exit

theorem Refines.mono {P' : α → β → Prop} {m : Prog (Traced W E) α} {m' : Prog W β}
    (h : Refines safe P m m') (hP : ∀ a b, P a b → P' a b) : Refines safe P' m m' := fun x =>
  ⟨(h x).outcome.mono hP, (h x).world, (h x).events⟩

/-- Sequencing behind a program that only computes a value. -/
theorem Refines.bind_value {m : Prog (Traced W E) α} {b : β} {f : α → Prog (Traced W E) γ}
    {m' : Prog W δ} (h : Refines safe P m (Pure.pure b))
    (hf : ∀ a, P a b → Refines safe Q (f a) m') : Refines safe Q (m >>= f) m' := by
  have hvalue : Refines safe (fun a b' => b' = b ∧ P a b') m (Pure.pure b) := fun x => by
    refine ⟨?_, (h x).world, (h x).events⟩
    have houtcome := (h x).outcome
    rw [Prog.pure_apply] at houtcome ⊢
    cases hm : (m x).1 with
    | exit =>
        rw [hm] at houtcome
        cases houtcome
    | ret a =>
        rw [hm] at houtcome
        cases houtcome with
        | ret hab => exact .ret ⟨rfl, hab⟩
  have hnext (a : α) (b' : β) (hab : b' = b ∧ P a b') : Refines safe Q (f a) m' := by
    obtain ⟨rfl, hab⟩ := hab
    exact hf a hab
  have hbind : Refines safe Q (m >>= f) (Pure.pure b >>= fun _ => m') := hvalue.bind hnext
  exact hbind

theorem refines_log {e : E} (h : safe e) {f : Unit → Prog (Traced W E) γ} {m' : Prog W δ}
    (hf : Refines safe Q (f ()) m') : Refines safe Q (log e >>= f) m' := by
  have hlog : Refines (W := W) safe (fun _ _ => True) (log e) (Pure.pure ()) := fun x =>
    ⟨.ret trivial, rfl, [e], rfl, fun _ he => List.mem_singleton.mp he ▸ h⟩
  exact hlog.bind_value fun _ _ => hf

end Traced

end CLib

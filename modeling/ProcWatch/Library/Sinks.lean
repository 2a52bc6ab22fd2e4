import ProcWatch.Library.Emission

/-! # Sinks that take whatever they are given

A walk into such a sink is a run over its items, and its result does not depend on the world.
-/

namespace CLib

variable {W α β : Type}

/-- Do something with each item. -/
def forEach (body : α → Prog W Unit) : List α → Prog W Unit
  | [] => return ()
  | a :: items => do
      body a
      forEach body items

theorem forEach_map (body : β → Prog W Unit) (f : α → β) (items : List α) :
    forEach body (items.map f) = forEach (fun a => body (f a)) items := by
  induction items with
  | nil => rfl
  | cons a items ih => rw [List.map_cons, forEach, forEach, ih]

/-- A sink that works on each item and then returns 0. -/
def Takes (sink : α → Prog W ℤ) (body : α → Prog W Unit) : Prop :=
  ∀ a, sink a = body a >>= fun _ => return 0

variable {sink : α → Prog W ℤ} {body : α → Prog W Unit}

theorem Takes.offer_eq (h : Takes sink body) (items : List α) (count : ℕ) :
    offer sink items count = forEach body items >>= fun _ => return (0, count + items.length) := by
  induction items generalizing count with
  | nil => rfl
  | cons a items ih =>
      rw [offer, h a, forEach, Prog.bind_assoc, Prog.bind_assoc]
      congr 1
      funext _
      rw [Prog.pure_bind, if_neg (by decide), if_neg (by decide), ih, List.length_cons,
        Nat.add_assoc, Nat.add_comm 1]

/-- The walk: its items one after the other, with a result that is known beforehand. -/
theorem Takes.run_eq (h : Takes sink body) (e : Emission α) :
    e.run sink 0 = forEach body e.items >>= fun _ =>
      return (if e.ok then 0 else -1, e.items.length) := by
  rw [Emission.run, h.offer_eq, chain_bind]
  congr 1
  funext _
  rw [chain_zero, Nat.zero_add]

end CLib

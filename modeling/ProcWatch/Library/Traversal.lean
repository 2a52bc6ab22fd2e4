import Mathlib

/-! # Breadth-first traversal of a finite graph

A vertex that `next` does not answer for is queued, but nothing is reached through it. -/

namespace Traversal

variable {α : Type*} [DecidableEq α] (next : α → Option (List α))

/-- Append what is not in the queue yet. -/
def enqueue (queue : List α) (vertices : List α) : List α :=
  vertices.foldl (fun queue v => if v ∈ queue then queue else queue ++ [v]) queue

/-- The successors of an answered vertex. -/
def successors (a : α) : List α :=
  (next a).getD []

/-- The queue at the end, from the vertices done and the ones pending on. -/
def explore : ℕ → List α → List α → Option (List α)
  | _, done, [] => some done
  | 0, _, _ :: _ => none
  | fuel + 1, done, a :: pending =>
      let queue := enqueue (done ++ a :: pending) (successors next a)
      explore fuel (done ++ [a]) (queue.drop (done.length + 1))

/-- One step along an edge. -/
def Edge (a b : α) : Prop :=
  b ∈ successors next a

/-! ## Growing the queue -/

theorem enqueue_cons (queue : List α) (v : α) (vertices : List α) :
    enqueue queue (v :: vertices) =
      enqueue (if v ∈ queue then queue else queue ++ [v]) vertices := rfl

theorem isPrefix_enqueue (queue vertices : List α) : queue <+: enqueue queue vertices := by
  induction vertices generalizing queue with
  | nil => exact List.prefix_refl _
  | cons v vertices ih =>
      rw [enqueue_cons]
      split
      · exact ih queue
      · exact (List.prefix_append _ _).trans (ih _)

theorem mem_enqueue {queue vertices : List α} {b : α} :
    b ∈ enqueue queue vertices ↔ b ∈ queue ∨ b ∈ vertices := by
  induction vertices generalizing queue with
  | nil => simp [enqueue]
  | cons v vertices ih =>
      rw [enqueue_cons, ih, List.mem_cons]
      split
      · next hv =>
          constructor
          · rintro (h | h)
            · exact .inl h
            · exact .inr (.inr h)
          · rintro (h | rfl | h)
            · exact .inl h
            · exact .inl hv
            · exact .inr h
      · rw [List.mem_append, List.mem_singleton]
        tauto

theorem nodup_enqueue {queue : List α} (h : queue.Nodup) (vertices : List α) :
    (enqueue queue vertices).Nodup := by
  induction vertices generalizing queue with
  | nil => exact h
  | cons v vertices ih =>
      rw [enqueue_cons]
      split
      · exact ih h
      · next hv =>
          apply ih
          rw [List.nodup_append]
          refine ⟨h, List.nodup_singleton v, ?_⟩
          intro a ha b hb
          rw [List.mem_singleton.mp hb]
          exact fun hav => hv (hav ▸ ha)

/-- The new queue, again split behind the vertex that is then done. -/
theorem split_enqueue (done pending vertices : List α) (a : α) :
    done ++ [a] ++ (enqueue (done ++ a :: pending) vertices).drop (done.length + 1) =
      enqueue (done ++ a :: pending) vertices := by
  have hprefix : done ++ [a] <+: enqueue (done ++ a :: pending) vertices := by
    have hqueue : done ++ [a] <+: done ++ a :: pending := ⟨pending, by simp⟩
    exact hqueue.trans (isPrefix_enqueue _ _)
  obtain ⟨t, ht⟩ := hprefix
  have hlen : (done ++ [a]).length = done.length + 1 := by simp
  rw [← ht, ← hlen, List.drop_left]

/-! ## The invariant -/

variable (root : α) (S : Finset α)

/-- What holds of the vertices done and pending in front of every step. -/
structure Explored (done pending : List α) : Prop where
  nodup : (done ++ pending).Nodup
  root_mem : root ∈ done ++ pending
  reached : ∀ a ∈ done ++ pending, Relation.ReflTransGen (Edge next) root a
  closed : ∀ a ∈ done, ∀ b, Edge next a b → b ∈ done ++ pending
  bounded : ∀ a ∈ done ++ pending, a ∈ S

variable {next root S}

omit [DecidableEq α] in
theorem Explored.start (hroot : root ∈ S) : Explored next root S [] [root] where
  nodup := List.nodup_singleton root
  root_mem := List.mem_singleton.mpr rfl
  reached := by
    intro a ha
    rw [List.mem_singleton.mp ha]
  closed := by simp
  bounded := by
    intro a ha
    rw [List.mem_singleton.mp ha]
    exact hroot

theorem Explored.step (hS : ∀ a ∈ S, ∀ b, Edge next a b → b ∈ S) {done pending : List α} {a : α}
    (h : Explored next root S done (a :: pending)) :
    Explored next root S (done ++ [a])
      ((enqueue (done ++ a :: pending) (successors next a)).drop (done.length + 1)) := by
  have ha : a ∈ done ++ a :: pending := by simp
  constructor
  · rw [split_enqueue]
    exact nodup_enqueue h.nodup _
  · rw [split_enqueue, mem_enqueue]
    exact .inl h.root_mem
  · intro b hb
    rw [split_enqueue, mem_enqueue] at hb
    cases hb with
    | inl hb => exact h.reached b hb
    | inr hb => exact (h.reached a ha).tail hb
  · intro c hc b hedge
    rw [split_enqueue, mem_enqueue]
    cases List.mem_append.mp hc with
    | inl hc => exact .inl (h.closed c hc b hedge)
    | inr hc =>
        rw [List.mem_singleton.mp hc] at hedge
        exact .inr hedge
  · intro b hb
    rw [split_enqueue, mem_enqueue] at hb
    cases hb with
    | inl hb => exact h.bounded b hb
    | inr hb => exact hS a (h.bounded a ha) b hb

theorem Explored.length_le {done pending : List α} (h : Explored next root S done pending) :
    (done ++ pending).length ≤ S.card := by
  rw [← List.toFinset_card_of_nodup h.nodup]
  apply Finset.card_le_card
  intro a ha
  exact h.bounded a (List.mem_toFinset.mp ha)

omit [DecidableEq α] in
/-- At the end the queue holds exactly what the root reaches. -/
theorem Explored.mem_iff {done : List α} (h : Explored next root S done []) (a : α) :
    a ∈ done ↔ Relation.ReflTransGen (Edge next) root a := by
  have hclosed := h.closed
  have hroot := h.root_mem
  have hreached := h.reached
  rw [List.append_nil] at hclosed hroot hreached
  constructor
  · exact hreached a
  · intro hpath
    induction hpath with
    | refl => exact hroot
    | tail _ hedge ih => exact hclosed _ ih _ hedge

theorem explore_of_explored (hS : ∀ a ∈ S, ∀ b, Edge next a b → b ∈ S) {fuel : ℕ}
    {done pending : List α} (h : Explored next root S done pending)
    (hfuel : S.card ≤ done.length + fuel) :
    ∃ queue, explore next fuel done pending = some queue ∧ Explored next root S queue [] := by
  induction fuel generalizing done pending with
  | zero =>
      have hlen := h.length_le
      rw [List.length_append] at hlen
      obtain rfl : pending = [] := List.eq_nil_of_length_eq_zero (by omega)
      exact ⟨done, rfl, h⟩
  | succ fuel ih =>
      cases pending with
      | nil => exact ⟨done, rfl, h⟩
      | cons a pending =>
          rw [explore]
          apply ih (h.step hS)
          rw [List.length_append, List.length_singleton]
          omega

/-- A queue without repetitions stays so, however far the traversal goes. -/
theorem nodup_of_explore {fuel : ℕ} {done pending queue : List α}
    (h : explore next fuel done pending = some queue) (hnodup : (done ++ pending).Nodup) :
    queue.Nodup := by
  induction fuel generalizing done pending with
  | zero =>
      cases pending with
      | nil =>
          obtain rfl := Option.some.inj h
          rwa [List.append_nil] at hnodup
      | cons a pending => cases h
  | succ fuel ih =>
      cases pending with
      | nil =>
          obtain rfl := Option.some.inj h
          rwa [List.append_nil] at hnodup
      | cons a pending =>
          rw [explore] at h
          apply ih h
          rw [split_enqueue]
          exact nodup_enqueue hnodup _

/-- The traversal ends, queues no vertex twice and queues what the root reaches. -/
theorem explore_spec (hroot : root ∈ S) (hS : ∀ a ∈ S, ∀ b, Edge next a b → b ∈ S) {fuel : ℕ}
    (hfuel : S.card ≤ fuel) :
    ∃ queue, explore next fuel [] [root] = some queue ∧ queue.Nodup ∧
      ∀ a, a ∈ queue ↔ Relation.ReflTransGen (Edge next) root a := by
  obtain ⟨queue, hrun, hexplored⟩ :=
    explore_of_explored hS (Explored.start hroot) (hfuel.trans_eq (Nat.zero_add fuel).symm)
  have hnodup := hexplored.nodup
  rw [List.append_nil] at hnodup
  exact ⟨queue, hrun, hnodup, hexplored.mem_iff⟩

end Traversal

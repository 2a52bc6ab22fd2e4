import ProcWatch.Library.Prog

/-! # Items handed to a sink

A walk that hands items to a sink, one after the other, until the sink returns other than 0.
-/

namespace CLib

variable {W α : Type}

/-- Go on where the return code is 0. -/
def chain (m : Prog W (ℤ × ℕ)) (k : ℕ → Prog W (ℤ × ℕ)) : Prog W (ℤ × ℕ) := do
  let (rc, count) ← m
  if rc ≠ 0 then return (rc, count) else k count

theorem chain_zero (count : ℕ) (k : ℕ → Prog W (ℤ × ℕ)) :
    chain (return (0, count)) k = k count := rfl

theorem chain_of_ne_zero {rc : ℤ} (h : rc ≠ 0) (count : ℕ) (k : ℕ → Prog W (ℤ × ℕ)) :
    chain (return (rc, count)) k = return (rc, count) := by
  funext w
  simp [chain, Prog.bind_apply, Prog.pure_apply, h]

theorem chain_bind {β : Type} (m : Prog W β) (f : β → Prog W (ℤ × ℕ))
    (k : ℕ → Prog W (ℤ × ℕ)) : chain (m >>= f) k = m >>= fun b => chain (f b) k := by
  funext w
  simp only [chain, Prog.bind_apply]
  cases m w with
  | mk o w' => cases o <;> rfl

theorem chain_ite {c : Prop} [Decidable c] (m m' : Prog W (ℤ × ℕ)) (k : ℕ → Prog W (ℤ × ℕ)) :
    chain (if c then m else m') k = if c then chain m k else chain m' k := by
  split <;> rfl

theorem chain_assoc (m : Prog W (ℤ × ℕ)) (k l : ℕ → Prog W (ℤ × ℕ)) :
    chain (chain m k) l = chain m fun count => chain (k count) l := by
  have hstep (x : ℤ × ℕ) : chain (if x.1 ≠ 0 then return (x.1, x.2) else k x.2) l =
      if x.1 ≠ 0 then return (x.1, x.2) else chain (k x.2) l := by
    rw [chain_ite]
    split
    · rename_i h
      exact chain_of_ne_zero h x.2 l
    · rfl
  exact (chain_bind m _ l).trans (congrArg (m >>= ·) (funext hstep))

/-- The items of a walk, and whether it gets to its end behind them. -/
structure Emission (α : Type) where
  items : List α
  ok : Bool
  deriving DecidableEq

/-- Hand over items, counting those for which the sink returns 0. -/
def offer (sink : α → Prog W ℤ) : List α → ℕ → Prog W (ℤ × ℕ)
  | [], count => return (0, count)
  | a :: items, count => do
      let rc ← sink a
      if rc < 0 then return (-1, count)
      else if 0 < rc then return (1, count)
      else offer sink items (count + 1)

namespace Emission

/-- The walk as a program: 0, or -1 where it fails, or what the sink made of it. -/
def run (sink : α → Prog W ℤ) (e : Emission α) (count : ℕ) : Prog W (ℤ × ℕ) :=
  chain (offer sink e.items count) fun count => return (if e.ok then 0 else -1, count)

def nothing : Emission α :=
  ⟨[], true⟩

def failure : Emission α :=
  ⟨[], false⟩

/-- An item, or a failure. -/
def ofOption : Option α → Emission α
  | some a => ⟨[a], true⟩
  | none => failure

/-- The second walk, unless the first one fails. -/
def andThen (e e' : Emission α) : Emission α :=
  if e.ok then ⟨e.items ++ e'.items, e'.ok⟩ else e

/-- Walks one after the other. -/
def sequence : List (Emission α) → Emission α
  | [] => .nothing
  | e :: es => e.andThen (sequence es)

/-- The walk with other items in their places. -/
def map {β : Type} (f : α → β) (e : Emission α) : Emission β :=
  ⟨e.items.map f, e.ok⟩

theorem andThen_nothing (e : Emission α) : e.andThen nothing = e := by
  obtain ⟨items, ok⟩ := e
  cases ok <;> simp [andThen, nothing]

theorem andThen_assoc (e e' e'' : Emission α) :
    (e.andThen e').andThen e'' = e.andThen (e'.andThen e'') := by
  obtain ⟨items, ok⟩ := e
  obtain ⟨items', ok'⟩ := e'
  cases ok <;> cases ok' <;> simp [andThen]

theorem map_andThen {β : Type} (f : α → β) (e e' : Emission α) :
    (e.andThen e').map f = (e.map f).andThen (e'.map f) := by
  obtain ⟨items, ok⟩ := e
  cases ok <;> simp [andThen, map]

theorem map_sequence {β : Type} (f : α → β) (es : List (Emission α)) :
    (sequence es).map f = sequence (es.map (map f)) := by
  induction es with
  | nil => rfl
  | cons e es ih => rw [sequence, map_andThen, ih, List.map_cons, sequence]

theorem sequence_append (es es' : List (Emission α)) :
    sequence (es ++ es') = (sequence es).andThen (sequence es') := by
  induction es with
  | nil => rfl
  | cons e es ih => rw [List.cons_append, sequence, ih, sequence, andThen_assoc]

end Emission

theorem items_andThen_of_ok {e e' : Emission α} (h : e.ok = true) :
    e.andThen e' = ⟨e.items ++ e'.items, e'.ok⟩ := by
  rw [Emission.andThen, if_pos h]

theorem items_isPrefix_andThen (e e' : Emission α) : e.items <+: (e.andThen e').items := by
  rw [Emission.andThen]
  split
  · exact List.prefix_append _ _
  · exact List.prefix_rfl

theorem mem_items_andThen {e e' : Emission α} {a : α} (h : a ∈ e.items) :
    a ∈ (e.andThen e').items :=
  (items_isPrefix_andThen e e').subset h

theorem mem_items_andThen_iff {e e' : Emission α} {a : α} :
    a ∈ (e.andThen e').items ↔ a ∈ e.items ∨ e.ok = true ∧ a ∈ e'.items := by
  rw [Emission.andThen]
  split
  · simp_all
  · simp_all

theorem ok_of_andThen {e e' : Emission α} (h : (e.andThen e').ok = true) : e.ok = true := by
  rw [Emission.andThen] at h
  split at h
  · assumption
  · exact h

theorem ok_andThen (e e' : Emission α) : (e.andThen e').ok = (e.ok && e'.ok) := by
  rw [Emission.andThen]
  split
  · simp_all
  · simp_all

theorem ok_sequence (es : List (Emission α)) :
    (Emission.sequence es).ok = true ↔ ∀ e ∈ es, e.ok = true := by
  induction es with
  | nil => simp [Emission.sequence, Emission.nothing]
  | cons e es ih => simp [Emission.sequence, ok_andThen, ih]

/-- An item of walks one after the other comes from one of them that is reached. -/
theorem mem_items_sequence {β : Type} {f : β → Emission α} {bs : List β} {a : α} :
    a ∈ (Emission.sequence (bs.map f)).items ↔
      ∃ before b after, bs = before ++ b :: after ∧ (∀ x ∈ before, (f x).ok = true) ∧
        a ∈ (f b).items := by
  induction bs with
  | nil => simp [Emission.sequence, Emission.nothing]
  | cons b bs ih =>
      rw [List.map_cons, Emission.sequence, mem_items_andThen_iff, ih]
      constructor
      · intro h
        cases h with
        | inl ha => exact ⟨[], b, bs, rfl, by simp, ha⟩
        | inr h =>
            obtain ⟨hok, before, b', after, rfl, hbefore, ha⟩ := h
            exact ⟨b :: before, b', after, rfl, by simpa using ⟨hok, hbefore⟩, ha⟩
      · rintro ⟨before, b', after, heq, hbefore, ha⟩
        cases before with
        | nil =>
            obtain ⟨rfl, rfl⟩ := List.cons.inj heq
            exact .inl ha
        | cons x before =>
            obtain ⟨rfl, rfl⟩ := List.cons.inj heq
            refine .inr ⟨hbefore _ List.mem_cons_self, before, b', after, rfl, ?_, ha⟩
            exact fun y hy => hbefore y (List.mem_cons_of_mem _ hy)

theorem offer_append (sink : α → Prog W ℤ) (xs ys : List α) (count : ℕ) :
    offer sink (xs ++ ys) count = chain (offer sink xs count) (offer sink ys) := by
  induction xs generalizing count with
  | nil => rfl
  | cons a xs ih =>
      rw [List.cons_append, offer, offer, chain_bind]
      congr 1
      funext rc
      rw [chain_ite, chain_ite, ih, chain_of_ne_zero (by decide), chain_of_ne_zero (by decide)]

theorem Emission.run_ofOption (sink : α → Prog W ℤ) (o : Option α) (count : ℕ) :
    (ofOption o).run sink count = (do
      let rc ← o.elim (Pure.pure (-1)) sink
      if rc < 0 then return (-1, count)
      else if 0 < rc then return (1, count)
      else return (0, count + 1)) := by
  cases o with
  | none => rfl
  | some a =>
      simp only [ofOption, run, offer, chain_bind, chain_ite]
      rfl

theorem Emission.run_andThen (sink : α → Prog W ℤ) (e e' : Emission α) (count : ℕ) :
    (e.andThen e').run sink count = chain (e.run sink count) (e'.run sink) := by
  obtain ⟨items, ok⟩ := e
  cases ok with
  | false =>
      rw [run, run, chain_assoc]
      rfl
  | true =>
      have happend : (andThen ⟨items, true⟩ e').items = items ++ e'.items := rfl
      rw [run, run, happend, offer_append, chain_assoc, chain_assoc]
      rfl

/-- A sink that always returns 0 gets every item. -/
theorem offer_of_zero {sink : α → Prog W ℤ} (hsink : ∀ a w, (sink a w).1 = .ret 0)
    (items : List α) (count : ℕ) (w : W) :
    offer sink items count w =
      (.ret (0, count + items.length), items.foldl (fun w a => (sink a w).2) w) := by
  induction items generalizing count w with
  | nil => rfl
  | cons a items ih =>
      have ha : sink a w = (.ret 0, (sink a w).2) := by
        rw [← hsink a w]
      rw [offer, Prog.bind_of_ret ha]
      simp only [lt_irrefl, if_false]
      rw [ih, List.length_cons, List.foldl_cons, Nat.add_assoc, Nat.add_comm 1]

/-! ## Sinks that never ask to stop -/

/-- A sink that returns 0, unless it ends the process. -/
def NeverStops (sink : α → Prog W ℤ) : Prop :=
  ∀ a w, Prog.wp (sink a) (fun rc _ => rc = 0) (fun _ => True) w

/-- A sink that counts its calls. -/
def counted (sink : α → Prog W ℤ) (a : α) : Prog (W × ℕ) ℤ := fun x =>
  ((sink a x.1).1, (sink a x.1).2, x.2 + 1)

theorem wp_offer {sink : α → Prog W ℤ} (hsink : NeverStops sink) (items : List α) (count : ℕ)
    (w : W) :
    Prog.wp (offer sink items count)
      (fun x w' => x = (0, count + items.length) ∧ (items = [] → w' = w)) (fun _ => True) w := by
  induction items generalizing count w with
  | nil => exact ⟨rfl, fun _ => rfl⟩
  | cons a items ih =>
      rw [offer, Prog.wp_bind]
      apply Prog.wp_mono (hsink a w)
      · intro rc w' hrc
        rw [hrc, if_neg (by decide), if_neg (by decide)]
        apply Prog.wp_mono (ih (count + 1) w')
        · intro x w'' hx
          refine ⟨?_, by simp⟩
          rw [hx.1, List.length_cons, Nat.add_assoc, Nat.add_comm 1]
        · exact fun _ h => h
      · exact fun _ h => h

theorem wp_counted {sink : α → Prog W ℤ} (hsink : NeverStops sink) (a : α) (x : W × ℕ) :
    Prog.wp (counted sink a) (fun rc y => rc = 0 ∧ y.2 = x.2 + 1) (fun _ => True) x := by
  have h := hsink a x.1
  simp only [Prog.wp] at h ⊢
  rw [counted]
  cases hrun : sink a x.1 with
  | mk o w' =>
      rw [hrun] at h
      cases o with
      | ret rc => exact ⟨h, rfl⟩
      | exit => trivial

theorem wp_offer_counted {sink : α → Prog W ℤ} (hsink : NeverStops sink) (items : List α)
    (count : ℕ) (x : W × ℕ) :
    Prog.wp (offer (counted sink) items count)
      (fun y z => y = (0, count + items.length) ∧ z.2 = x.2 + items.length) (fun _ => True) x := by
  induction items generalizing count x with
  | nil => exact ⟨rfl, rfl⟩
  | cons a items ih =>
      rw [offer, Prog.wp_bind]
      apply Prog.wp_mono (wp_counted hsink a x)
      · intro rc y hy
        rw [hy.1, if_neg (by decide), if_neg (by decide)]
        apply Prog.wp_mono (ih (count + 1) y)
        · intro z u hz
          rw [hz.1, hz.2, hy.2, List.length_cons]
          exact ⟨by rw [Nat.add_assoc, Nat.add_comm 1], by omega⟩
        · exact fun _ h => h
      · exact fun _ h => h

end CLib

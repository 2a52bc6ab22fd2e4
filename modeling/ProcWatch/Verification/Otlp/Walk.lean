import ProcWatch.Library.Emission
import ProcWatch.Model.OtlpWalk

/-! # What a walk hands to its sink

A payload determines the items of the walk, whatever the sink does: the sink gets them one
after the other, until it returns other than 0.
-/

namespace ProcWatch

open CLib

variable {W C α : Type}

/-! ## The items of each loop -/

section Items

variable (closing : Ending → Emission α) (ops : WalkContext C) (read : Bytes → C → Emission α)

/-- The items of the submessages of number 1, and then what the end of the loop adds. -/
def fieldItems (items : Bytes → Emission α) (ending : Ending) : List Wire.Field → Emission α
  | [] => closing ending
  | f :: fields =>
      match f with
      | ⟨1, .bytes r⟩ => (items r).andThen (fieldItems items ending fields)
      | _ => fieldItems items ending fields

def scopeItems (ending : Ending) : List Wire.Field → C → Emission α
  | [], _ => closing ending
  | f :: fields, ctx =>
      match f with
      | ⟨F_SS_SCOPE, .bytes scope⟩ =>
          scopeItems ending fields
            (ops.mapScopeName (fun name => (pbFields scope).1.foldl scopeStep name) ctx)
      | ⟨F_SS_SPANS, .bytes r⟩ => (read r ctx).andThen (scopeItems ending fields ctx)
      | _ => scopeItems ending fields ctx

/-- The context a scope leaves. -/
def scopeContext : List Wire.Field → C → C
  | [], ctx => ctx
  | f :: fields, ctx =>
      match f with
      | ⟨F_SS_SCOPE, .bytes scope⟩ =>
          scopeContext fields
            (ops.mapScopeName (fun name => (pbFields scope).1.foldl scopeStep name) ctx)
      | _ => scopeContext fields ctx

/-- The items and the context of a scope, by its bytes. -/
def itemsOfScope (r : Bytes) (ctx : C) : Emission α :=
  scopeItems closing ops read (pbFields r).2 (pbFields r).1 ctx

def contextAfter (r : Bytes) (ctx : C) : C :=
  scopeContext ops (pbFields r).1 ctx

def pendingItems : List Bytes → C → Emission α
  | [], _ => .nothing
  | scope :: pending, ctx =>
      (itemsOfScope closing ops read scope ctx).andThen
        (pendingItems pending (contextAfter ops scope ctx))

def resourceItems (ending : Ending) : List Wire.Field → C → List Bytes → Emission α
  | [], ctx, pending => (closing ending).andThen (pendingItems closing ops read pending ctx)
  | f :: fields, ctx, pending =>
      match f with
      | ⟨F_RS_RESOURCE, .bytes res⟩ =>
          resourceItems ending fields ((pbFields res).1.foldl (resourceStep ops) ctx) pending
      | ⟨F_RS_SCOPE_SPANS, .bytes scope⟩ =>
          if pending.length < PENDING_SCOPES then
            resourceItems ending fields ctx (pending ++ [scope])
          else (itemsOfScope closing ops read scope ctx).andThen
            (resourceItems ending fields (contextAfter ops scope ctx) pending)
      | _ => resourceItems ending fields ctx pending

def itemsOfResource (r : Bytes) : Emission α :=
  resourceItems closing ops read (pbFields r).2 (pbFields r).1 ops.init []

/-- The items of a payload. -/
def itemsOf (data : Bytes) : Emission α :=
  fieldItems closing (itemsOfResource closing ops read) (pbFields data).2 (pbFields data).1

end Items

/-- What the loops of the decoders make of their end: only a value that runs past the end of
the message is an error. -/
def loopEnd : Ending → Emission α
  | .badValue => .failure
  | _ => .nothing

/-! ## Fields that matter

In requests, resources and scopes alike only submessages under the numbers 1 and 2 do.
-/

inductive FieldCase : Wire.Field → Prop where
  | first (b : Bytes) : FieldCase ⟨1, .bytes b⟩
  | second (b : Bytes) : FieldCase ⟨2, .bytes b⟩
  | other {f : Wire.Field} (hfirst : ∀ b, f ≠ ⟨1, .bytes b⟩) (hsecond : ∀ b, f ≠ ⟨2, .bytes b⟩) :
      FieldCase f

theorem fieldCase (f : Wire.Field) : FieldCase f := by
  by_cases hfirst : ∃ b, f = ⟨1, .bytes b⟩
  · obtain ⟨b, rfl⟩ := hfirst
    exact .first b
  · by_cases hsecond : ∃ b, f = ⟨2, .bytes b⟩
    · obtain ⟨b, rfl⟩ := hsecond
      exact .second b
    · exact .other (fun b h => hfirst ⟨b, h⟩) fun b h => hsecond ⟨b, h⟩

/-! ## The walk with a sink -/

section Walk

variable {ops : WalkContext C} {read : Bytes → C → Emission α} {sink : α → Prog W ℤ}
  {item : ItemDecoder W C}

/-- Go on with the context, where the return code of a scope is 0. -/
def chainContext (m : Prog W (ℤ × C × ℕ)) (k : C → ℕ → Prog W (ℤ × ℕ)) : Prog W (ℤ × ℕ) := do
  let (rc, ctx, count) ← m
  if rc ≠ 0 then return (rc, count) else k ctx count

theorem chainContext_bind {β : Type} (m : Prog W β) (f : β → Prog W (ℤ × C × ℕ))
    (k : C → ℕ → Prog W (ℤ × ℕ)) :
    chainContext (m >>= f) k = m >>= fun b => chainContext (f b) k := by
  funext w
  simp only [chainContext, Prog.bind_apply]
  cases m w with
  | mk o w' => cases o <;> rfl

/-- The return code of a scope's item, passed on as -1, 1 or 0. -/
theorem chainContext_rc (rc : ℤ) (ctx : C) (count : ℕ) (m : Prog W (ℤ × C × ℕ))
    (k : C → ℕ → Prog W (ℤ × ℕ)) :
    chainContext (if rc < 0 then return (-1, ctx, count)
      else if 0 < rc then return (1, ctx, count) else m) k =
    if rc < 0 then return (-1, count) else if 0 < rc then return (1, count)
      else chainContext m k := by
  split
  · rfl
  · split <;> rfl

/-- The return codes of an emission are -1, 0 and 1 already. -/
theorem run_sign (e : Emission α) (count : ℕ) (k : ℕ → Prog W (ℤ × ℕ)) :
    (e.run sink count >>= fun x =>
      if x.1 < 0 then return (-1, x.2) else if 0 < x.1 then return (1, x.2) else k x.2) =
    chain (e.run sink count) k := by
  have hoffer (items : List α) (count : ℕ) (l : ℕ → Prog W (ℤ × ℕ)) :
      (chain (offer sink items count) fun c => return (if e.ok then 0 else -1, c)) >>= (fun x =>
        if x.1 < 0 then return (-1, x.2) else if 0 < x.1 then return (1, x.2) else l x.2) =
      chain (chain (offer sink items count) fun c => return (if e.ok then 0 else -1, c)) l := by
    induction items generalizing count with
    | nil =>
        funext w
        cases e.ok <;> rfl
    | cons a items ih =>
        funext w
        simp only [offer, chain_bind, Prog.bind_apply]
        cases sink a w with
        | mk o w' =>
            cases o with
            | exit => rfl
            | ret rc =>
                simp only [chain_ite]
                by_cases hneg : rc < 0
                · simp [hneg, chain, Prog.bind_apply, Prog.pure_apply]
                · by_cases hpos : 0 < rc
                  · simp [hneg, hpos, chain, Prog.bind_apply, Prog.pure_apply]
                  · simpa [hneg, hpos, Prog.bind_apply] using congrFun (ih (count + 1)) w'
  exact hoffer e.items count k

theorem chainContext_scopeLoop (hitem : ∀ r ctx count, item r ctx count = (read r ctx).run sink count)
    (ending : Ending) (fields : List Wire.Field) (ctx : C) (count : ℕ)
    (k : C → ℕ → Prog W (ℤ × ℕ)) :
    chainContext (scopeLoop ops item ending fields ctx count) k =
      chain ((scopeItems loopEnd ops read ending fields ctx).run sink count)
        (k (scopeContext ops fields ctx)) := by
  induction fields generalizing ctx count with
  | nil =>
      rw [scopeLoop, scopeItems, scopeContext]
      cases ending <;> rfl
  | cons f fields ih =>
      cases fieldCase f with
      | first scope => exact ih _ _
      | second r =>
          have hrest : (fun x : ℤ × ℕ => chainContext (if x.1 < 0 then return (-1, ctx, x.2)
              else if 0 < x.1 then return (1, ctx, x.2)
              else scopeLoop ops item ending fields ctx x.2) k) = fun x : ℤ × ℕ =>
            if x.1 < 0 then return (-1, x.2) else if 0 < x.1 then return (1, x.2)
              else chain ((scopeItems loopEnd ops read ending fields ctx).run sink x.2)
                (k (scopeContext ops fields ctx)) := by
            funext x
            rw [chainContext_rc, ih]
          simp only [scopeLoop, scopeItems, scopeContext]
          rw [chainContext_bind, Emission.run_andThen, chain_assoc, hitem]
          exact (congrArg ((read r ctx).run sink count >>= ·) hrest).trans
            (run_sign (read r ctx) count fun c =>
              chain ((scopeItems loopEnd ops read ending fields ctx).run sink c)
                (k (scopeContext ops fields ctx)))
      | other hfirst hsecond =>
          simp only [scopeLoop, scopeItems, scopeContext]
          exact ih _ _

theorem decodeScope_then (hitem : ∀ r ctx count, item r ctx count = (read r ctx).run sink count)
    (r : Bytes) (ctx : C) (count : ℕ) (k : C → ℕ → Prog W (ℤ × ℕ)) :
    chainContext (decodeScope ops item r ctx count) k =
      chain ((itemsOfScope loopEnd ops read r ctx).run sink count) (k (contextAfter ops r ctx)) :=
  chainContext_scopeLoop hitem _ _ ctx count k

theorem pendingLoop_eq (hitem : ∀ r ctx count, item r ctx count = (read r ctx).run sink count)
    (pending : List Bytes) (ctx : C) (count : ℕ) :
    pendingLoop ops item pending ctx count =
      (pendingItems loopEnd ops read pending ctx).run sink count := by
  induction pending generalizing ctx count with
  | nil => rfl
  | cons scope pending ih =>
      have hrest : pendingLoop ops item (scope :: pending) ctx count =
          chainContext (decodeScope ops item scope ctx count) (pendingLoop ops item pending) := rfl
      rw [hrest, decodeScope_then hitem, pendingItems, Emission.run_andThen]
      congr 1
      funext c
      exact ih _ c

theorem resourceLoop_eq (hitem : ∀ r ctx count, item r ctx count = (read r ctx).run sink count)
    (ending : Ending) (fields : List Wire.Field) (ctx : C) (pending : List Bytes) (count : ℕ) :
    resourceLoop ops item ending fields ctx pending count =
      (resourceItems loopEnd ops read ending fields ctx pending).run sink count := by
  induction fields generalizing ctx pending count with
  | nil =>
      rw [resourceLoop, resourceItems, pendingLoop_eq hitem]
      cases ending <;> rfl
  | cons f fields ih =>
      cases fieldCase f with
      | first res => exact ih _ _ _
      | second scope =>
          simp only [resourceLoop, resourceItems]
          split
          · exact ih _ _ _
          · rw [Emission.run_andThen]
            refine (decodeScope_then hitem scope ctx count fun ctx count =>
              resourceLoop ops item ending fields ctx pending count).trans ?_
            congr 1
            funext c
            exact ih _ _ c
      | other hfirst hsecond =>
          simp only [resourceLoop, resourceItems]
          exact ih _ _ _

theorem decodeResource_eq (hitem : ∀ r ctx count, item r ctx count = (read r ctx).run sink count)
    (r : Bytes) (count : ℕ) :
    decodeResource ops item r count = (itemsOfResource loopEnd ops read r).run sink count :=
  resourceLoop_eq hitem _ _ _ [] count

/-- The return value for the return code and the count of a walk. -/
def requestResult (x : ℤ × ℕ) : ℤ :=
  if x.1 < 0 then countOrError x.2 else x.2

theorem requestResult_chain (m : Prog W (ℤ × ℕ)) (k : ℕ → Prog W (ℤ × ℕ)) :
    (chain m k >>= fun x => return requestResult x) = m >>= fun x =>
      if x.1 < 0 then return countOrError x.2
      else if 0 < x.1 then return (x.2 : ℤ)
      else k x.2 >>= fun x => return requestResult x := by
  funext w
  simp only [chain, Prog.bind_apply]
  cases m w with
  | mk o w' =>
      cases o with
      | exit => rfl
      | ret x =>
          rcases lt_trichotomy x.1 0 with hneg | hzero | hpos
          · simp [hneg, hneg.ne, Prog.pure_apply, requestResult]
          · simp [hzero, Prog.bind_apply]
          · simp [hpos.not_gt, hpos, hpos.ne', Prog.pure_apply, requestResult]

theorem requestLoop_eq (hitem : ∀ r ctx count, item r ctx count = (read r ctx).run sink count)
    (ending : Ending) (fields : List Wire.Field) (count : ℕ) :
    requestLoop ops item ending fields count =
      (fieldItems loopEnd (itemsOfResource loopEnd ops read) ending fields).run sink count >>= fun x => return requestResult x := by
  induction fields generalizing count with
  | nil =>
      funext w
      cases ending <;> rfl
  | cons f fields ih =>
      cases fieldCase f with
      | first r =>
          simp only [requestLoop, fieldItems]
          rw [Emission.run_andThen, requestResult_chain, decodeResource_eq hitem]
          congr 1
          funext x
          rw [ih]
      | second b => exact ih count
      | other hfirst hsecond =>
          simp only [requestLoop, fieldItems]
          exact ih count

/-- The decoder hands the items of the payload to the sink. -/
theorem decodeRequest_eq (hitem : ∀ r ctx count, item r ctx count = (read r ctx).run sink count)
    (data : Bytes) :
    decodeRequest ops item data =
      (itemsOf loopEnd ops read data).run sink 0 >>= fun x => return requestResult x :=
  requestLoop_eq hitem _ _ 0

end Walk

end ProcWatch

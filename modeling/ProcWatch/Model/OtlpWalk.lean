import ProcWatch.Library.Prog
import ProcWatch.Model.OtlpCommon

/-! # Walking a request (`otlp_trace.c`, `otlp_metric.c`)

The two decoders go through requests, resources and scopes alike and with the same field
numbers. What they share is written once here, over the context type and the decoder of what
a scope holds; each decoder instantiates it under its own names.
-/

namespace ProcWatch

open CLib

variable {W C : Type}

/-! ## Field numbers -/

@[match_pattern]
abbrev F_ETSR_RESOURCE_SPANS : ℕ := 1

@[match_pattern]
abbrev F_RS_RESOURCE : ℕ := 1

@[match_pattern]
abbrev F_RS_SCOPE_SPANS : ℕ := 2

@[match_pattern]
abbrev F_RES_ATTRIBUTES : ℕ := 1

@[match_pattern]
abbrev F_SS_SCOPE : ℕ := 1

@[match_pattern]
abbrev F_SS_SPANS : ℕ := 2

@[match_pattern]
abbrev F_IS_NAME : ℕ := 1

/-! ## Scopes -/

/-- What the walk does with `span_context_t` and `metric_context_t`. -/
structure WalkContext (C : Type) where
  init : C
  mapScopeName : (CStr 256 → CStr 256) → C → C
  /-- Take over an attribute of the resource: its key and its value. -/
  takeAttribute : Bytes → Bytes → C → C

/-- The decoder of a span or metric of a scope: its reader, the context and the count, to a
return code and the new count. -/
abbrev ItemDecoder (W C : Type) := Bytes → C → ℕ → Prog W (ℤ × ℕ)

/-- One turn of the loop over an `InstrumentationScope`. -/
def scopeStep (name : CStr 256) (f : Wire.Field) : CStr 256 :=
  match f with
  | ⟨F_IS_NAME, .bytes s⟩ => pwCopyStr 256 s
  | _ => name

def scopeLoop (ops : WalkContext C) (item : ItemDecoder W C) (ending : Ending) :
    List Wire.Field → C → ℕ → Prog W (ℤ × C × ℕ)
  | [], ctx, count => return (if ending = .badValue then -1 else 0, ctx, count)
  | f :: fields, ctx, count =>
      match f with
      | ⟨F_SS_SCOPE, .bytes scope⟩ =>
          let ctx := ops.mapScopeName (fun name => (pbFields scope).1.foldl scopeStep name) ctx
          scopeLoop ops item ending fields ctx count
      | ⟨F_SS_SPANS, .bytes r⟩ => do
          let (rc, count) ← item r ctx count
          if rc < 0 then return (-1, ctx, count)
          else if 0 < rc then return (1, ctx, count)
          else scopeLoop ops item ending fields ctx count
      | _ => scopeLoop ops item ending fields ctx count

/-- `decode_scope_spans` and `decode_scope_metrics`: the return code, the context they leave
and the count. -/
def decodeScope (ops : WalkContext C) (item : ItemDecoder W C) (r : Bytes) (ctx : C) (count : ℕ) :
    Prog W (ℤ × C × ℕ) :=
  scopeLoop ops item (pbFields r).2 (pbFields r).1 ctx count

/-! ## Resources -/

/-- One turn of the loop over a `Resource`. -/
def resourceStep (ops : WalkContext C) (ctx : C) (f : Wire.Field) : C :=
  match f with
  | ⟨F_RES_ATTRIBUTES, .bytes kv⟩ =>
      match pwParseKv kv with
      | (key, some value) => ops.takeAttribute key.val value ctx
      | (_, none) => ctx
  | _ => ctx

/-- The scopes put off, decoded one after the other. -/
def pendingLoop (ops : WalkContext C) (item : ItemDecoder W C) :
    List Bytes → C → ℕ → Prog W (ℤ × ℕ)
  | [], _, count => return (0, count)
  | scope :: pending, ctx, count => do
      let (rc, ctx, count) ← decodeScope ops item scope ctx count
      if rc ≠ 0 then return (rc, count) else pendingLoop ops item pending ctx count

/-- `sizeof pending / sizeof pending[0]` -/
abbrev PENDING_SCOPES : ℕ := 64

def resourceLoop (ops : WalkContext C) (item : ItemDecoder W C) (ending : Ending) :
    List Wire.Field → C → List Bytes → ℕ → Prog W (ℤ × ℕ)
  | [], ctx, pending, count =>
      if ending = .badValue then return (-1, count) else pendingLoop ops item pending ctx count
  | f :: fields, ctx, pending, count =>
      match f with
      | ⟨F_RS_RESOURCE, .bytes res⟩ =>
          resourceLoop ops item ending fields ((pbFields res).1.foldl (resourceStep ops) ctx)
            pending count
      | ⟨F_RS_SCOPE_SPANS, .bytes scope⟩ =>
          if pending.length < PENDING_SCOPES then
            resourceLoop ops item ending fields ctx (pending ++ [scope]) count
          else do
            let (rc, ctx, count) ← decodeScope ops item scope ctx count
            if rc ≠ 0 then return (rc, count)
            else resourceLoop ops item ending fields ctx pending count
      | _ => resourceLoop ops item ending fields ctx pending count

/-- `decode_resource_spans` and `decode_resource_metrics` -/
def decodeResource (ops : WalkContext C) (item : ItemDecoder W C) (r : Bytes) (count : ℕ) :
    Prog W (ℤ × ℕ) :=
  resourceLoop ops item (pbFields r).2 (pbFields r).1 ops.init [] count

/-! ## Requests -/

/-- `count ? count : -1` -/
def countOrError (count : ℕ) : ℤ :=
  if count = 0 then -1 else count

def requestLoop (ops : WalkContext C) (item : ItemDecoder W C) (ending : Ending) :
    List Wire.Field → ℕ → Prog W ℤ
  | [], count => return if ending = .badValue then countOrError count else count
  | f :: fields, count =>
      match f with
      | ⟨F_ETSR_RESOURCE_SPANS, .bytes r⟩ => do
          let (rc, count) ← decodeResource ops item r count
          if rc < 0 then return countOrError count
          else if 0 < rc then return count
          else requestLoop ops item ending fields count
      | _ => requestLoop ops item ending fields count

/-- `otlp_decode_traces` and `otlp_decode_metrics`. Their count is an `int`; a payload of more
items would be larger than a message can be. -/
def decodeRequest (ops : WalkContext C) (item : ItemDecoder W C) (data : Bytes) : Prog W ℤ :=
  requestLoop ops item (pbFields data).2 (pbFields data).1 0

end ProcWatch

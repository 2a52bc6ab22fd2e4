import ProcWatch.Verification.Otlp.Reader
import ProcWatch.Verification.Otlp.Walk

/-! # Requests as trees, and their encodings

A request is a list of resources, each with attributes and scopes, each of which has a name and
items: spans or metrics. Its encodings are the messages that have the fields of the tree, in
any order but that a resource precedes its scopes and a scope its items, among fields of other
numbers.
-/

namespace ProcWatch.Otlp

open CLib Wire

/-! ## Attribute values -/

inductive AnyValue where
  | empty
  | str (s : Bytes)
  | bool (b : Bool)
  | int (n : Int64)
  | double (bits : UInt64)
  | array (vs : List AnyValue)
  | kvlist (kvs : List (Bytes × AnyValue))
  | bytes (b : Bytes)

/-- The fields of a `KeyValue`; an empty key is left out. -/
def pairFields (key value : Bytes) : List Field :=
  (if key = [] then [] else [⟨1, .bytes key⟩]) ++ [⟨2, .bytes value⟩]

mutual

def AnyValue.fields : AnyValue → List Field
  | .empty => []
  | .str s => [⟨1, .bytes s⟩]
  | .bool b => [⟨2, .varint (if b then 1 else 0)⟩]
  | .int n => [⟨3, .varint n.toUInt64⟩]
  | .double bits => [⟨4, .fixed64 bits⟩]
  | .array vs => [⟨5, .bytes (encode (arrayFields vs))⟩]
  | .kvlist kvs => [⟨6, .bytes (encode (kvlistFields kvs))⟩]
  | .bytes b => [⟨7, .bytes b⟩]

/-- The fields of an `ArrayValue`. -/
def arrayFields : List AnyValue → List Field
  | [] => []
  | v :: vs => ⟨1, .bytes (encode v.fields)⟩ :: arrayFields vs

/-- The fields of a `KeyValueList`. -/
def kvlistFields : List (Bytes × AnyValue) → List Field
  | [] => []
  | (key, v) :: kvs => ⟨1, .bytes (encode (pairFields key (encode v.fields)))⟩ :: kvlistFields kvs

end

abbrev KeyValue := Bytes × AnyValue

def encodePair (kv : KeyValue) : Bytes :=
  encode (pairFields kv.1 (encode kv.2.fields))

def AnyValue.string? : AnyValue → Option Bytes
  | .str s => some s
  | _ => none

/-- The string of the last attribute of a key that is a string. -/
def stringAttribute (key : Bytes) (attrs : List KeyValue) : Option Bytes :=
  (attrs.filterMap fun kv => if kv.1 = key then kv.2.string? else none).getLast?

/-! ## Scopes, resources and requests -/

structure Scope (ι : Type) where
  name : Bytes
  items : List ι

structure Resource (ι : Type) where
  attributes : List KeyValue
  scopes : List (Scope ι)

abbrev Request (ι : Type) := List (Resource ι)

/-- The service name of a resource, if it has one. -/
def Resource.serviceName {ι : Type} (r : Resource ι) : Bytes :=
  (stringAttribute (CLib.bytes "service.name") r.attributes).getD (CLib.bytes "unknown_service")

def Resource.label {ι : Type} (r : Resource ι) : Bytes :=
  (stringAttribute (CLib.bytes "procwatch.label") r.attributes).getD []

/-- NUL-free and short enough for a buffer. -/
def FitsIn (cap : ℕ) (s : Bytes) : Prop :=
  (0 : Byte) ∉ s ∧ s.length < cap

/-- The strings of a resource and of its scopes fit, and so does what is in them. -/
structure Resource.Fits {ι : Type} (itemFits : ι → Prop) (r : Resource ι) : Prop where
  keys : ∀ kv ∈ r.attributes, (0 : Byte) ∉ kv.1
  serviceName : ∀ s, (CLib.bytes "service.name", AnyValue.str s) ∈ r.attributes → FitsIn 256 s
  label : ∀ s, (CLib.bytes "procwatch.label", AnyValue.str s) ∈ r.attributes → FitsIn 100 s
  scopes : ∀ s ∈ r.scopes, FitsIn 256 s.name ∧ ∀ x ∈ s.items, itemFits x

/-- Submessages in fields of one number. -/
def submessages (n : ℕ) (ms : List (List Field)) : List Field :=
  ms.map fun fs => ⟨n, .bytes (encode fs)⟩

/-- The fields of the numbers 1 and 2, in order. -/
def outline (fs : List Field) : List Field :=
  fs.filter fun f => f.number = 1 ∨ f.number = 2

section Encodings

variable {ι : Type} (item : List Field → ι → Prop)

structure EncodesScope (fs : List Field) (s : Scope ι) : Prop where
  valid : ∀ f ∈ fs, f.Valid
  outline : ∃ scope items, (∀ f ∈ scope, f.Valid) ∧ numbered 1 scope = [⟨1, .bytes s.name⟩] ∧
    List.Forall₂ item items s.items ∧
    outline fs = ⟨1, .bytes (encode scope)⟩ :: submessages 2 items

/-- The field of a resource, which may be left out when there are no attributes. -/
def EncodesAttributes (fs : List Field) (attrs : List KeyValue) : Prop :=
  fs = [] ∧ attrs = [] ∨ ∃ resource, (∀ f ∈ resource, f.Valid) ∧
    numbered 1 resource = attrs.map (fun kv => ⟨1, .bytes (encodePair kv)⟩) ∧
    fs = [⟨1, .bytes (encode resource)⟩]

structure EncodesResource (fs : List Field) (r : Resource ι) : Prop where
  valid : ∀ f ∈ fs, f.Valid
  outline : ∃ resource scopes, EncodesAttributes resource r.attributes ∧
    List.Forall₂ (EncodesScope item) scopes r.scopes ∧
    outline fs = resource ++ submessages 2 scopes

structure Encodes (fs : List Field) (req : Request ι) : Prop where
  valid : ∀ f ∈ fs, f.Valid
  resources : ∃ ms, List.Forall₂ (EncodesResource item) ms req ∧ numbered 1 fs = submessages 1 ms

end Encodings

end ProcWatch.Otlp

import ProcWatch.Library.Wire

/-! # The wire-format reader (`pb_decode.c`)

A reader is the list of bytes from `ptr` up to `end`.
-/

namespace ProcWatch

open CLib

@[match_pattern]
abbrev PB_WIRE_VARINT : ℕ := 0

@[match_pattern]
abbrev PB_WIRE_FIXED64 : ℕ := 1

@[match_pattern]
abbrev PB_WIRE_BYTES : ℕ := 2

@[match_pattern]
abbrev PB_WIRE_FIXED32 : ℕ := 5

abbrev PB_VARINT_MAX_BYTES : ℕ := 10

/-! ## Values -/

/-- The loop of `pb_varint`, with the bytes still allowed, the shift and the value so far. -/
def pbVarintLoop : ℕ → ℕ → ℕ → Bytes → Option (ℕ × Bytes)
  | 0, _, _, _ => none
  | _ + 1, _, _, [] => none
  | n + 1, shift, value, byte :: r =>
      let value := value ||| ((byte.toNat &&& 0x7f) <<< shift) % 2 ^ 64
      if byte.toNat &&& 0x80 = 0 then some (value, r)
      else pbVarintLoop n (shift + 7) value r

/-- `pb_varint(r, out)` -/
def pbVarint (r : Bytes) : Option (ℕ × Bytes) :=
  pbVarintLoop PB_VARINT_MAX_BYTES 0 0 r

/-- The value of the `n` bytes at the reader, the last one the highest. -/
def pbFixed (n : ℕ) (r : Bytes) : Option (ℕ × Bytes) :=
  if r.length < n then none
  else some ((r.take n).foldr (fun byte value => (value <<< 8) ||| byte.toNat) 0, r.drop n)

/-- `pb_fixed32(r, out)` -/
def pbFixed32 (r : Bytes) : Option (UInt32 × Bytes) :=
  (pbFixed 4 r).map fun v => (UInt32.ofNat v.1, v.2)

/-- `pb_fixed64(r, out)` -/
def pbFixed64 (r : Bytes) : Option (UInt64 × Bytes) :=
  (pbFixed 8 r).map fun v => (UInt64.ofNat v.1, v.2)

/-- `pb_bytes(r, out, out_len)`, and `pb_submsg(r, sub)`, whose reader is these bytes. -/
def pbBytes (r : Bytes) : Option (Bytes × Bytes) :=
  match pbVarint r with
  | none => none
  | some (len, r) => if r.length < len then none else some (r.take len, r.drop len)

/-- `pb_skip(r, wire)` -/
def pbSkip (r : Bytes) : ℕ → Option Bytes
  | PB_WIRE_VARINT => (pbVarint r).map Prod.snd
  | PB_WIRE_FIXED64 => (pbFixed64 r).map Prod.snd
  | PB_WIRE_FIXED32 => (pbFixed32 r).map Prod.snd
  | PB_WIRE_BYTES => (pbBytes r).map Prod.snd
  | _ => none

/-! ## Tags -/

/-- What `pb_next` returns: 0, -1, or 1 with a tag. -/
inductive PbNext where
  | atEnd
  | malformed
  | tag (field wire : ℕ) (r : Bytes)
  deriving DecidableEq

/-- `pb_next(r, tag)` -/
def pbNext (r : Bytes) : PbNext :=
  if r = [] then .atEnd
  else
    match pbVarint r with
    | none => .malformed
    | some (key, r) =>
        let wire := key &&& 0x07
        let field := (key >>> 3) % 2 ^ 32
        if field = 0 then .malformed
        else if wire ≠ PB_WIRE_VARINT ∧ wire ≠ PB_WIRE_FIXED64 ∧ wire ≠ PB_WIRE_BYTES ∧
            wire ≠ PB_WIRE_FIXED32 then .malformed
        else .tag field wire r

/-! ## Walking a message

Each `while (pb_next(r, &tag) == 1)` loop of the decoders reads, behind every tag, the value of
the tag's wire type, either to use it or through `pb_skip`. So it sees the fields of the
message one after the other, and ends for one of three reasons.
-/

/-- The value behind a tag. -/
def pbValue (r : Bytes) : ℕ → Option (Wire.Payload × Bytes)
  | PB_WIRE_VARINT => (pbVarint r).map fun v => (.varint (UInt64.ofNat v.1), v.2)
  | PB_WIRE_FIXED64 => (pbFixed64 r).map fun v => (.fixed64 v.1, v.2)
  | PB_WIRE_FIXED32 => (pbFixed32 r).map fun v => (.fixed32 v.1, v.2)
  | PB_WIRE_BYTES => (pbBytes r).map fun v => (.bytes v.1, v.2)
  | _ => none

/-- How a loop over a message ends: at its end, at a tag that is none, or at a value that runs
past the end. -/
inductive Ending where
  | atEnd
  | malformedTag
  | badValue
  deriving DecidableEq

/-- The fields a loop sees, with room for so many of them. -/
def pbFieldsFrom : ℕ → Bytes → List Wire.Field × Ending
  | 0, _ => ([], .atEnd)
  | n + 1, r =>
      match pbNext r with
      | .atEnd => ([], .atEnd)
      | .malformed => ([], .malformedTag)
      | .tag field wire r =>
          match pbValue r wire with
          | none => ([], .badValue)
          | some (v, r) =>
              let rest := pbFieldsFrom n r
              (⟨field, v⟩ :: rest.1, rest.2)

/-- The fields a loop sees; each takes at least a byte. -/
def pbFields (r : Bytes) : List Wire.Field × Ending :=
  pbFieldsFrom (r.length + 1) r

end ProcWatch

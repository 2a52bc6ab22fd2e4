import ProcWatch.Library.Traced
import ProcWatch.Model.PbDecode

/-! # The wire-format reader over memory (`pb_decode.c`)

In `PbDecode` a reader is the list of bytes that it has still to read. Here it is what it is in
the source, two addresses, over a memory that has bytes everywhere. What the decoders do that
could go wrong is logged.
-/

namespace ProcWatch.Memory

open CLib Wire Traced

/-- `pb_reader_t`; `stop` is its `end`. -/
structure PbReader where
  ptr : ℕ
  stop : ℕ
  deriving DecidableEq

/-- The memory, by address. -/
abbrev Contents := ℕ → Byte

inductive Event where
  /-- A byte is read. -/
  | load (address : ℕ)
  /-- A length is added to a pointer. -/
  | add (address n : ℕ)
  /-- A reader moves. -/
  | move (before after : PbReader)
  /-- A reader is made for a submessage at the reader of its message. -/
  | submessage (parent sub : PbReader)
  /-- An element of an array is accessed. -/
  | index (i size : ℕ)
  /-- So many activations of `decode_any_value` are nested. -/
  | activation (nested : ℕ)
  /-- A loop or a recursion of the model is cut off. -/
  | endless

variable {W : Type} (mem : Contents)

/-- Programs of the decoders, around whatever their sinks do. -/
abbrev Reading (W : Type) := Prog (Traced W Event)

def load (address : ℕ) : Reading W Byte := do
  log (.load address)
  return mem address

/-- The `n` bytes at an address. -/
def loadBytes : ℕ → ℕ → Reading W Bytes
  | 0, _ => return []
  | n + 1, address => do
      let byte ← load mem address
      let rest ← loadBytes n (address + 1)
      return byte :: rest

/-- A pointer plus a length, with addresses of 64 bits. -/
def add (address n : ℕ) : Reading W ℕ := do
  log (.add address n)
  return (address + n) % 2 ^ 64

/-- `r->ptr += n` -/
def advance (r : PbReader) (n : ℕ) : Reading W PbReader := do
  let ptr ← add r.ptr n
  log (.move r { r with ptr := ptr })
  return { r with ptr := ptr }

/-- `pb_reader_init(r, data, len)` -/
def pbReaderInit (data len : ℕ) : Reading W PbReader := do
  let stop ← add data len
  return ⟨data, stop⟩

/-- `r->end - r->ptr` -/
def PbReader.left (r : PbReader) : ℤ :=
  r.stop - r.ptr

/-! ## Values

Each reader returns its value, if it returns 1, and the reader it leaves.
-/

/-- The loop of `pb_varint`, with the bytes still allowed, the shift and the value so far. -/
def pbVarintLoop : ℕ → ℕ → ℕ → PbReader → Reading W (Option ℕ × PbReader)
  | 0, _, _, r => return (none, r)
  | n + 1, shift, value, r =>
      if r.stop ≤ r.ptr then return (none, r)
      else do
        let byte ← load mem r.ptr
        let r ← advance r 1
        let value := value ||| ((byte.toNat &&& 0x7f) <<< shift) % 2 ^ 64
        if byte.toNat &&& 0x80 = 0 then return (some value, r)
        else pbVarintLoop n (shift + 7) value r

/-- `pb_varint(r, out)` -/
def pbVarint (r : PbReader) : Reading W (Option ℕ × PbReader) :=
  pbVarintLoop mem PB_VARINT_MAX_BYTES 0 0 r

/-- The value of the `n` bytes at the reader, the last one the highest. -/
def pbFixed (n : ℕ) (r : PbReader) : Reading W (Option ℕ × PbReader) :=
  if r.left < n then return (none, r)
  else do
    let bytes ← loadBytes mem n r.ptr
    let r ← advance r n
    return (some (bytes.foldr (fun byte value => (value <<< 8) ||| byte.toNat) 0), r)

/-- `pb_fixed32(r, out)` -/
def pbFixed32 (r : PbReader) : Reading W (Option UInt32 × PbReader) := do
  let (v, r) ← pbFixed mem 4 r
  return (v.map UInt32.ofNat, r)

/-- `pb_fixed64(r, out)` -/
def pbFixed64 (r : PbReader) : Reading W (Option UInt64 × PbReader) := do
  let (v, r) ← pbFixed mem 8 r
  return (v.map UInt64.ofNat, r)

/-- What `pb_bytes` finds: `out` and `out_len`. -/
structure Slice where
  data : ℕ
  len : ℕ

/-- `pb_bytes(r, out, out_len)` -/
def pbBytes (r : PbReader) : Reading W (Option Slice × PbReader) := do
  match ← pbVarint mem r with
  | (none, r) => return (none, r)
  | (some len, r) =>
      if r.left % 2 ^ 64 < len then return (none, r)
      else do
        let after ← advance r len
        return (some ⟨r.ptr, len⟩, after)

/-- `pb_submsg(r, sub)` -/
def pbSubmsg (r : PbReader) : Reading W (Option PbReader × PbReader) := do
  match ← pbBytes mem r with
  | (none, after) => return (none, after)
  | (some s, after) => do
      let sub ← pbReaderInit s.data s.len
      log (.submessage r sub)
      return (some sub, after)

/-- `pb_skip(r, wire)` -/
def pbSkip (r : PbReader) : ℕ → Reading W (Option Unit × PbReader)
  | PB_WIRE_VARINT => do
      let (v, r) ← pbVarint mem r
      return (v.map fun _ => (), r)
  | PB_WIRE_FIXED64 => do
      let (v, r) ← pbFixed64 mem r
      return (v.map fun _ => (), r)
  | PB_WIRE_FIXED32 => do
      let (v, r) ← pbFixed32 mem r
      return (v.map fun _ => (), r)
  | PB_WIRE_BYTES => do
      let (v, r) ← pbBytes mem r
      return (v.map fun _ => (), r)
  | _ => return (none, r)

/-! ## Tags -/

/-- What `pb_next` returns: 0, -1, or 1 with a tag. -/
inductive PbNext where
  | atEnd
  | malformed
  | tag (field wire : ℕ) (r : PbReader)

/-- `pb_next(r, tag)` -/
def pbNext (r : PbReader) : Reading W PbNext :=
  if r.stop ≤ r.ptr then return .atEnd
  else do
    match ← pbVarint mem r with
    | (none, _) => return .malformed
    | (some key, r) =>
        let wire := key &&& 0x07
        let field := (key >>> 3) % 2 ^ 32
        if field = 0 then return .malformed
        else if wire ≠ PB_WIRE_VARINT ∧ wire ≠ PB_WIRE_FIXED64 ∧ wire ≠ PB_WIRE_BYTES ∧
            wire ≠ PB_WIRE_FIXED32 then return .malformed
        else return .tag field wire r

/-! ## Walking a message -/

/-- Turns enough for a loop over the reader: each takes at least a byte. -/
def PbReader.turns (r : PbReader) : ℕ :=
  r.stop - r.ptr + 1

/-- `while (pb_next(r, &tag) == 1)` with the statements behind it. The body is given how the
loop goes on. -/
def pbWhile {σ γ : Type} (body : ℕ → ℕ → PbReader → σ → (PbReader → σ → Reading W γ) → Reading W γ)
    (after : σ → Reading W γ) : ℕ → PbReader → σ → Reading W γ
  | 0, _, s => do
      log .endless
      after s
  | n + 1, r, s => do
      match ← pbNext mem r with
      | .tag field wire r => body field wire r s (pbWhile body after n)
      | _ => after s

/-- The reader matching a wire type, with the content of what it finds. -/
def readPayload (r : PbReader) : ℕ → Reading W (Option Payload × PbReader)
  | PB_WIRE_VARINT => do
      let (v, r) ← pbVarint mem r
      return (v.map fun v => .varint (UInt64.ofNat v), r)
  | PB_WIRE_FIXED64 => do
      let (v, r) ← pbFixed64 mem r
      return (v.map .fixed64, r)
  | PB_WIRE_FIXED32 => do
      let (v, r) ← pbFixed32 mem r
      return (v.map .fixed32, r)
  | PB_WIRE_BYTES => do
      match ← pbBytes mem r with
      | (none, r) => return (none, r)
      | (some s, r) => do
          let content ← loadBytes mem s.len s.data
          return (some (.bytes content), r)
  | _ => return (none, r)

/-- A walk that reads some of the records, by their position, and skips the others. -/
def readRecords (keep : ℕ → Bool) : ℕ → ℕ → PbReader → Reading W (List Field × Ending)
  | 0, _, _ => do
      log .endless
      return ([], .badValue)
  | n + 1, i, r => do
      match ← pbNext mem r with
      | .atEnd => return ([], .atEnd)
      | .malformed => return ([], .malformedTag)
      | .tag field wire r =>
          if keep i then do
            match ← readPayload mem r wire with
            | (none, _) => return ([], .badValue)
            | (some v, r) => do
                let (fields, ending) ← readRecords keep n (i + 1) r
                return (⟨field, v⟩ :: fields, ending)
          else do
            match ← pbSkip mem r wire with
            | (none, _) => return ([], .badValue)
            | (some _, r) => readRecords keep n (i + 1) r

end ProcWatch.Memory

import ProcWatch.Library.Bytes

/-! # Inflating a body (`gzip_inflate` of `http_server.c`) -/

namespace ProcWatch

open CLib

/-! ## zlib -/

/-- What `inflate` returns: `Z_OK`, `Z_STREAM_END` or an error. -/
inductive ZCode where
  | ok
  | streamEnd
  | error
  deriving DecidableEq

/-- The effect of one call: the input it takes and the bytes it writes to `next_out`. -/
structure InflateCall (ζ : Type) where
  state : ζ
  consumed : ℕ
  produced : Bytes
  rc : ZCode

/-- `inflateInit2`, and `inflate` on the bytes at `next_in` and `avail_out` bytes of room. -/
structure Zlib (ζ : Type) where
  inflateInit2 : Option ζ
  inflate : ζ → Bytes → ℕ → InflateCall ζ

/-! ## The output buffer -/

/-- Allocated memory; bytes that nobody wrote are `none`. -/
abbrev Memory := List (Option Byte)

def malloc (size : ℕ) : Memory :=
  List.replicate size none

def realloc (buf : Memory) (size : ℕ) : Memory :=
  buf.take size ++ List.replicate (size - buf.length) none

/-- Writing at an offset, impossible past the end. -/
def store (buf : Memory) (off : ℕ) (b : Bytes) : Option Memory :=
  if off + b.length ≤ buf.length then
    some (buf.take off ++ b.map some ++ buf.drop (off + b.length))
  else none

/-! ## `gzip_inflate` -/

/-- The loop's variables; `nextOut` is the offset of `next_out` in the buffer. -/
structure Inflation (ζ : Type) where
  state : ζ
  nextIn : Bytes
  buf : Memory
  cap : ℕ
  nextOut : ℕ
  availOut : ℕ

/-- How the call ends; `overrun` is a write past the buffer. -/
inductive InflateResult where
  | success (buf : Memory) (outLen : ℕ)
  | failure
  | overrun
  deriving DecidableEq

inductive Turn (ζ : Type) where
  | again (s : Inflation ζ)
  | finished (r : InflateResult)

section Inflate

variable {ζ : Type} (z : Zlib ζ)

/-- The variables in front of the loop, over a 64-bit `size_t` and a 32-bit `uInt`. -/
def inflationStart (state : ζ) (input : Bytes) (maxOut : ℕ) : Inflation ζ :=
  let cap := min ((input.length * 4 + 1024) % 2 ^ 64) maxOut
  { state := state
    nextIn := input.take (input.length % 2 ^ 32)
    buf := malloc cap
    cap := cap
    nextOut := 0
    availOut := cap % 2 ^ 32 }

/-- One turn of the loop. -/
def inflateTurn (maxOut : ℕ) (s : Inflation ζ) : Turn ζ :=
  let call := z.inflate s.state s.nextIn s.availOut
  match store s.buf s.nextOut call.produced with
  | none => .finished .overrun
  | some buf =>
      let s := { s with
        state := call.state
        nextIn := s.nextIn.drop call.consumed
        buf := buf
        nextOut := s.nextOut + call.produced.length
        availOut := s.availOut - call.produced.length }
      match call.rc with
      | .streamEnd => .finished (.success s.buf (s.cap - s.availOut))
      | .error => .finished .failure
      | .ok =>
          if s.availOut = 0 then
            if maxOut ≤ s.cap then .finished .failure
            else
              let newcap := min (s.cap * 2 % 2 ^ 64) maxOut
              .again { s with
                buf := realloc s.buf newcap
                nextOut := s.cap
                availOut := (newcap + 2 ^ 64 - s.cap) % 2 ^ 32
                cap := newcap }
          else .again s

def inflateLoop (maxOut : ℕ) : ℕ → Inflation ζ → Option InflateResult
  | 0, _ => none
  | fuel + 1, s =>
      match inflateTurn z maxOut s with
      | .again s => inflateLoop maxOut fuel s
      | .finished r => some r

/-- `gzip_inflate(in, in_len, max_out, out, out_len)`, `none` if `fuel` turns are not enough. -/
def gzipInflate (input : Bytes) (maxOut fuel : ℕ) : Option InflateResult :=
  match z.inflateInit2 with
  | none => some .failure
  | some state => inflateLoop z maxOut fuel (inflationStart state input maxOut)

end Inflate

end ProcWatch

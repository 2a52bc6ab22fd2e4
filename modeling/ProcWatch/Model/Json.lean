import ProcWatch.Library.Double

/-! # JSON text: escaping and field extraction (`db_buffer.c`, `agentd.c`, `main.c`) -/

namespace ProcWatch

open CLib

/-! ## `pw_json_escape` -/

def hexDigit (n : ℕ) : Byte :=
  if n < 10 then UInt8.ofNat (0x30 + n) else UInt8.ofNat (0x57 + n)

/-- Replacement of a byte, or `none` where it is copied. -/
def escapeRep (b : Byte) : Option Bytes :=
  if b = 0x5c then some [0x5c, 0x5c]
  else if b = 0x22 then some [0x5c, 0x22]
  else if b = 0x0a then some [0x5c, 0x6e]
  else if b = 0x0d then some [0x5c, 0x72]
  else if b = 0x09 then some [0x5c, 0x74]
  else if b < 0x20 then
    some [0x5c, 0x75, 0x30, 0x30, hexDigit (b.toNat / 16), hexDigit (b.toNat % 16)]
  else none

/-- The loop, with the output written so far. -/
def escapeLoop (outCap : ℕ) : Bytes → Bytes → Option Bytes
  | out, [] => some out
  | out, b :: s =>
      match escapeRep b with
      | some rep =>
          if outCap < out.length + rep.length + 1 then none
          else escapeLoop outCap (out ++ rep) s
      | none =>
          if outCap < out.length + 2 then none
          else escapeLoop outCap (out ++ [b]) s

/-- The escaped text, or `none` where the C code returns -1 and blanks the buffer. -/
def pwJsonEscape (outCap : ℕ) (s : Bytes) : Option Bytes :=
  if outCap = 0 then none else escapeLoop outCap [] (cstr s)

/-- Contents of the output buffer of a call whose return code is ignored. -/
def escaped (outCap : ℕ) (s : Bytes) : Bytes :=
  (pwJsonEscape outCap s).getD []

/-! ## `json_str` and `json_num`

A pointer into the text is the list of bytes from it up to `end`; `after` is the memory
behind `end`, which `strstr` and `strtod` can run into.
-/

/-- The pattern `"key"`, through its 128-byte buffer. -/
def keyPat (key : Bytes) : Bytes :=
  bounded 128 (0x22 :: key ++ [0x22])

def isJsonSpace (b : Byte) : Bool :=
  b == 0x20 || b == 0x09 || b == 0x0a || b == 0x0d

def isBlank (b : Byte) : Bool :=
  b == 0x20 || b == 0x09

/-- Past the colon after a hit, when there is one. -/
def afterColon (c : Bytes) : Option Bytes :=
  match c.dropWhile isJsonSpace with
  | [] => none
  | b :: c => if b = 0x3a then some (c.dropWhile isBlank) else none

/-- The search loop shared by `json_str` and `json_num`. `read` takes the text at the value
and the caller's output, and returns whether it accepts and the output it leaves. -/
def keyLoop {β : Type*} (pat after : Bytes) (read : Bytes → β → Bool × β) :
    ℕ → Bytes → β → Bool × β
  | 0, _, out => (false, out)
  | fuel + 1, p, out =>
      if p = [] then (false, out)
      else
        match strstr (p ++ after) pat with
        | none => (false, out)
        | some i =>
            if p.length ≤ i then (false, out)
            else
              match afterColon (p.drop (i + pat.length)) with
              | none => keyLoop pat after read fuel (p.drop (i + 1)) out
              | some c =>
                  let r := read c out
                  if r.1 then r else keyLoop pat after read fuel (p.drop (i + 1)) r.2

/-- The copy loop: at most `room` bytes, up to a quote, dropping each backslash. -/
def unescapeLoop : ℕ → Bytes → Bytes
  | 0, _ => []
  | _ + 1, [] => []
  | room + 1, b :: c =>
      if b = 0x22 then []
      else
        match c with
        | [] => [b]
        | b' :: c' =>
            if b = 0x5c then b' :: unescapeLoop room c'
            else b :: unescapeLoop room (b' :: c')

/-- What `json_str` does at a value: accept an opening quote and fill the buffer. -/
def readStr (outCap : ℕ) (c : Bytes) (out : Bytes) : Bool × Bytes :=
  match c with
  | [] => (false, out)
  | b :: c => if b = 0x22 then (true, cstr (unescapeLoop (outCap - 1) c)) else (false, out)

/-- `json_str(body, len, key, out, out_cap)`: whether it returned 0, and the buffer. -/
def jsonStr (body after key : Bytes) (outCap : ℕ) (out : Bytes) : Bool × Bytes :=
  keyLoop (keyPat key) after (readStr outCap) body.length body out

/-- What `json_num` does at a value: the output is overwritten also where nothing converts. -/
def readNum (after c : Bytes) (_ : Double) : Bool × Double :=
  match Double.strtod (c ++ after) with
  | some d => (true, d)
  | none => (false, Double.ofNat 0)

/-- `json_num(body, len, key, out)`. -/
def jsonNum (body after key : Bytes) (out : Double) : Bool × Double :=
  keyLoop (keyPat key) after (readNum after) body.length body out

/-! ## `json_str_field` and `json_num_field` -/

/-- First hit of `pat` in the line, and the text behind it up to the NUL. -/
def fieldAt (line pat : Bytes) : Option Bytes :=
  (strstr line pat).map fun i => (cstr line).drop (i + pat.length)

def jsonStrField (line key : Bytes) (outCap : ℕ) (out : Bytes) : Bool × Bytes :=
  match fieldAt line (bounded 128 (0x22 :: key ++ [0x22, 0x3a, 0x22])) with
  | none => (false, out)
  | some c => (true, unescapeLoop (outCap - 1) c)

def jsonNumField (line key : Bytes) (out : Double) : Bool × Double :=
  match fieldAt line (bounded 128 (0x22 :: key ++ [0x22, 0x3a])) with
  | none => (false, out)
  | some c =>
      match Double.strtod c with
      | some d => (true, d)
      | none => (false, Double.ofNat 0)

end ProcWatch

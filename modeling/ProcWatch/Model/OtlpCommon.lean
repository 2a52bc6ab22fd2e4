import ProcWatch.Library.Double
import ProcWatch.Model.Json
import ProcWatch.Model.PbDecode

/-! # Attributes (`otlp_common.c`) -/

namespace ProcWatch

open CLib

/-! ## The bounded string builder -/

/-- `pw_sb_t` over a buffer of `cap` bytes, without the flag that records a lost byte: nothing
reads it. -/
@[ext]
structure Sb (cap : ℕ) where
  text : Bytes
  length_lt : text.length < cap

variable {cap : ℕ}

/-- `pw_sb_init(sb, buf, cap)` -/
def pwSbInit (cap : ℕ) [NeZero cap] : Sb cap :=
  ⟨[], NeZero.pos cap⟩

/-- `pw_sb_putc(sb, c)` -/
def pwSbPutc (sb : Sb cap) (c : Byte) : Sb cap :=
  if h : sb.text.length + 1 < cap then ⟨sb.text ++ [c], by simpa using h⟩ else sb

/-- `pw_sb_puts(sb, s)` -/
def pwSbPuts (sb : Sb cap) (s : Bytes) : Sb cap :=
  s.foldl pwSbPutc sb

/-- `sb->len = mark; sb->buf[mark] = '\0'` -/
def Sb.rollback (sb : Sb cap) (mark : ℕ) : Sb cap :=
  ⟨sb.text.take mark, (List.length_take_le' mark sb.text).trans_lt sb.length_lt⟩

/-! ## Strings -/

/-- `utf8_seq_len(s, avail)`, at the first of the `avail` bytes. -/
def utf8SeqLen (s : Bytes) : ℕ :=
  let c := s.headD 0
  if c < 0x80 then 1
  else
    let need := if c &&& 0xe0 = 0xc0 then 2
      else if c &&& 0xf0 = 0xe0 then 3
      else if c &&& 0xf8 = 0xf0 then 4
      else 0
    if need = 0 then 0
    else if s.length < need then 0
    else if ((s.take need).drop 1).any fun b => b &&& 0xc0 ≠ 0x80 then 0
    else if need = 2 ∧ c < 0xc2 then 0
    else if need = 3 ∧ c = 0xe0 ∧ s.getD 1 0 < 0xa0 then 0
    else if need = 4 ∧ (0xf4 < c ∨ (c = 0xf0 ∧ s.getD 1 0 < 0x90)) then 0
    else need

/-- `snprintf(esc, sizeof esc, "\\u%04x", c)` -/
def unicodeEscape (c : Byte) : Bytes :=
  [0x5c, 0x75, 0x30, 0x30, hexDigit (c.toNat / 16), hexDigit (c.toNat % 16)]

/-- The loop of `pw_sb_json_string`, with room for so many turns. -/
def jsonStringLoop : ℕ → Bytes → Sb cap → Sb cap
  | 0, _, sb => sb
  | _ + 1, [], sb => sb
  | n + 1, c :: p, sb =>
      if c = 0x22 ∨ c = 0x5c then jsonStringLoop n p (pwSbPutc (pwSbPutc sb 0x5c) c)
      else if c = 0x0a then jsonStringLoop n p (pwSbPuts sb (bytes "\\n"))
      else if c = 0x0d then jsonStringLoop n p (pwSbPuts sb (bytes "\\r"))
      else if c = 0x09 then jsonStringLoop n p (pwSbPuts sb (bytes "\\t"))
      else if c < 0x20 then jsonStringLoop n p (pwSbPuts sb (unicodeEscape c))
      else if c < 0x80 then jsonStringLoop n p (pwSbPutc sb c)
      else
        let len := utf8SeqLen (c :: p)
        if len = 0 then jsonStringLoop n p (pwSbPuts sb (bytes "\\ufffd"))
        else jsonStringLoop n ((c :: p).drop len) (((c :: p).take len).foldl pwSbPutc sb)

/-- `pw_sb_json_string(sb, s, len)` -/
def pwSbJsonString (sb : Sb cap) (s : Bytes) : Sb cap :=
  pwSbPutc (jsonStringLoop s.length s (pwSbPutc sb 0x22)) 0x22

/-- `pw_copy_str(dst, cap, src, len)`: the C string then in `dst`. -/
def pwCopyStr (cap : ℕ) [NeZero cap] (src : Bytes) : CStr cap where
  val := cstr (src.take (cap - 1))
  length_lt := by
    have := NeZero.pos cap
    have := length_cstr_le (src.take (cap - 1))
    simp only [List.length_take] at this
    omega
  nulFree := nulFree_cstr _

/-- Two hex digits for each byte. -/
def hexText (src : Bytes) : Bytes :=
  src.flatMap fun b => [hexDigit (b.toNat / 16), hexDigit (b.toNat % 16)]

theorem length_hexText (src : Bytes) : (hexText src).length = 2 * src.length := by
  induction src with
  | nil => rfl
  | cons b src ih =>
      rw [hexText, List.flatMap_cons, List.length_append, ← hexText, ih]
      simp only [List.length_cons, List.length_nil]
      omega

theorem hexDigit_ne_zero {n : ℕ} (h : n < 16) : hexDigit n ≠ 0 := by
  have hall : ∀ i : Fin 16, hexDigit i ≠ 0 := by decide
  exact hall ⟨n, h⟩

theorem nulFree_hexText (src : Bytes) : (0 : Byte) ∉ hexText src := by
  intro h
  obtain ⟨b, -, hb⟩ := List.mem_flatMap.mp h
  have hlt := b.toNat_lt
  simp only [List.mem_cons, List.not_mem_nil, or_false] at hb
  cases hb with
  | inl hb => exact hexDigit_ne_zero (by omega) hb.symm
  | inr hb => exact hexDigit_ne_zero (by omega) hb.symm

/-- `pw_to_hex(dst, dst_cap, src, len)` -/
def pwToHex (cap : ℕ) [NeZero cap] (src : Bytes) : CStr cap where
  val := hexText (src.take ((cap - 1) / 2))
  length_lt := by
    have := NeZero.pos cap
    rw [length_hexText, List.length_take]
    omega
  nulFree := nulFree_hexText _

/-! ## Key-value pairs -/

@[match_pattern]
abbrev F_KV_KEY : ℕ := 1

@[match_pattern]
abbrev F_KV_VALUE : ℕ := 2

@[match_pattern]
abbrev F_AV_STRING : ℕ := 1

@[match_pattern]
abbrev F_AV_BOOL : ℕ := 2

@[match_pattern]
abbrev F_AV_INT : ℕ := 3

@[match_pattern]
abbrev F_AV_DOUBLE : ℕ := 4

@[match_pattern]
abbrev F_AV_ARRAY : ℕ := 5

@[match_pattern]
abbrev F_AV_KVLIST : ℕ := 6

@[match_pattern]
abbrev F_AV_BYTES : ℕ := 7

@[match_pattern]
abbrev F_LIST_VALUES : ℕ := 1

abbrev PW_ATTR_MAX_DEPTH : ℕ := 4

/-- One turn of the loop of `pw_parse_kv`. -/
def parseKvStep (kv : CStr 256 × Option Bytes) (f : Wire.Field) : CStr 256 × Option Bytes :=
  match f with
  | ⟨F_KV_KEY, .bytes s⟩ => (pwCopyStr 256 s, kv.2)
  | ⟨F_KV_VALUE, .bytes value⟩ => (kv.1, some value)
  | _ => kv

/-- `pw_parse_kv(kv, key, key_cap, value_out, have_value)`; every caller declares
`char key[256]`. -/
def pwParseKv (kv : Bytes) : CStr 256 × Option Bytes :=
  (pbFields kv).1.foldl parseKvStep (CStr.copy 256 [], none)

/-- `pw_any_value_as_string(value, out, cap)`: what it copies to `out`, if it returns 1. -/
def pwAnyValueAsString (cap : ℕ) [NeZero cap] (value : Bytes) : Option (CStr cap) :=
  (pbFields value).1.findSome? fun f =>
    match f with
    | ⟨F_AV_STRING, .bytes s⟩ => some (pwCopyStr cap s)
    | _ => none

/-- `pw_append_kv_json(kv, sb, depth)`, given `decode_any_value` at the next depth; `none` where
it returns 0, before anything is written. -/
def pwAppendKvJson (any : Bytes → Sb cap → Sb cap) (kv : Bytes) (sb : Sb cap) : Option (Sb cap) :=
  let (key, value) := pwParseKv kv
  if key.val = [] then none
  else
    let sb := pwSbPutc (pwSbJsonString sb key.val) 0x3a
    match value with
    | some value => some (any value sb)
    | none => some (pwSbPuts sb (bytes "null"))

/-- `decode_value_list(r, sb, depth)`, given `decode_any_value` at the next depth. -/
def decodeValueList (any : Bytes → Sb cap → Sb cap) (r : Bytes) (sb : Sb cap) : Sb cap :=
  let step (s : Bool × Sb cap) (f : Wire.Field) : Bool × Sb cap :=
    match f with
    | ⟨F_LIST_VALUES, .bytes sub⟩ => (false, any sub (if s.1 then s.2 else pwSbPutc s.2 0x2c))
    | _ => s
  pwSbPutc ((pbFields r).1.foldl step (true, pwSbPutc sb 0x5b)).2 0x5d

/-- A separator and a member, or neither where there is no key. -/
def appendMember (any : Bytes → Sb cap → Sb cap) (s : Bool × Sb cap) (kv : Bytes) :
    Bool × Sb cap :=
  let mark := s.2.text.length
  let sb := if s.1 then s.2 else pwSbPutc s.2 0x2c
  match pwAppendKvJson any kv sb with
  | some sb => (false, sb)
  | none => (s.1, sb.rollback mark)

/-- `decode_kvlist(r, sb, depth)`, given `decode_any_value` at the next depth. -/
def decodeKvlist (any : Bytes → Sb cap → Sb cap) (r : Bytes) (sb : Sb cap) : Sb cap :=
  let step (s : Bool × Sb cap) (f : Wire.Field) : Bool × Sb cap :=
    match f with
    | ⟨F_LIST_VALUES, .bytes kv⟩ => appendMember any s kv
    | _ => s
  pwSbPutc ((pbFields r).1.foldl step (true, pwSbPutc sb 0x7b)).2 0x7d

/-- `decode_any_value(r, sb, depth)`, by the levels still allowed, that is
`PW_ATTR_MAX_DEPTH + 1 - depth`. -/
def decodeAnyValue : ℕ → Bytes → Sb cap → Sb cap
  | 0, _, sb => pwSbPuts sb (bytes "null")
  | left + 1, r, sb =>
      let step (s : Bool × Sb cap) (f : Wire.Field) : Bool × Sb cap :=
        match f with
        | ⟨F_AV_STRING, .bytes b⟩ => (true, pwSbJsonString s.2 b)
        | ⟨F_AV_BOOL, .varint v⟩ =>
            (true, pwSbPuts s.2 (if v ≠ 0 then bytes "true" else bytes "false"))
        | ⟨F_AV_INT, .varint v⟩ => (true, pwSbPuts s.2 (decimalInt v.toInt64.toInt))
        | ⟨F_AV_DOUBLE, .fixed64 bits⟩ => (true, pwSbPuts s.2 (Double.fmtG 17 ⟨bits⟩))
        | ⟨F_AV_ARRAY, .bytes sub⟩ => (true, decodeValueList (decodeAnyValue left) sub s.2)
        | ⟨F_AV_KVLIST, .bytes sub⟩ => (true, decodeKvlist (decodeAnyValue left) sub s.2)
        | ⟨F_AV_BYTES, .bytes b⟩ => (true, pwSbJsonString s.2 (pwToHex 129 b).val)
        | _ => s
      let s := (pbFields r).1.foldl step (false, sb)
      if s.1 then s.2 else pwSbPuts s.2 (bytes "null")

/-! ## The attributes of a span or data point -/

/-- The locals `attrs`, `first_attr` and `have_attrs`. -/
structure Attrs (cap : ℕ) where
  sb : Sb cap
  first : Bool
  haveAttrs : Bool

def Attrs.init (cap : ℕ) [NeZero cap] : Attrs cap :=
  ⟨pwSbPutc (pwSbInit cap) 0x7b, true, false⟩

/-- `decode_point_attrs`, and the same steps in `decode_span`. -/
def decodePointAttrs (kv : Bytes) (a : Attrs cap) : Attrs cap :=
  let mark := a.sb.text.length
  let sb := if a.first then a.sb else pwSbPutc a.sb 0x2c
  match pwAppendKvJson (decodeAnyValue PW_ATTR_MAX_DEPTH) kv sb with
  | some sb => ⟨sb, false, true⟩
  | none => ⟨sb.rollback mark, a.first, a.haveAttrs⟩

/-- What is in `attributes_json` in the end. -/
def Attrs.finish [NeZero cap] (a : Attrs cap) : CStr cap :=
  if a.haveAttrs then CStr.copy cap (pwSbPutc a.sb 0x7d).text
  else CStr.copy cap (bytes "\x7b\x7d")

end ProcWatch

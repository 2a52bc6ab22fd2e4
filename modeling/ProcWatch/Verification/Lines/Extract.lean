import ProcWatch.Verification.Lines.Escape

/-! # The extractors on flat objects -/

namespace ProcWatch

open CLib

/-! ## The search loop -/

/-- What the loop tests at one position: the pattern, and a colon behind it. -/
def keyHit (pat s : Bytes) : Option Bytes :=
  if pat <+: s then afterColon (s.drop pat.length) else none

section KeyLoop

variable {β : Type*} {pat after : Bytes} {read : Bytes → β → Bool × β}

theorem keyHit_eq_afterColon {p : Bytes} (h : pat <+: p ++ after) :
    keyHit pat p = afterColon (p.drop pat.length) := by
  unfold keyHit
  split
  · rfl
  · rename_i hp
    have hlt : p.length < pat.length := by
      by_contra hle
      exact hp (List.prefix_of_prefix_length_le h (List.prefix_append p after) (by omega))
    rw [List.drop_of_length_le hlt.le]
    rfl

theorem keyLoop_cons_of_nul {fuel : ℕ} {p : Bytes} {out : β} (hne : pat ≠ []) :
    keyLoop pat after read (fuel + 1) (0 :: p) out = (false, out) := by
  simp [keyLoop, strstr, cstr, find, hne]

theorem strstr_cons_of_not_isPrefix {b : Byte} {p : Bytes} (hb : b ≠ 0) (h0 : (0 : Byte) ∉ pat)
    (hp : ¬ pat <+: b :: p) : strstr (b :: p) pat = (strstr p pat).map (· + 1) := by
  have hcons : cstr (b :: p) = b :: cstr p := by simp [cstr, hb]
  rw [strstr, hcons, find_cons_of_not_isPrefix]
  · rfl
  · rwa [← hcons, prefix_cstr_iff h0]

/-- A position without the pattern is passed over. -/
theorem keyLoop_cons_of_not_isPrefix {fuel : ℕ} {b : Byte} {p : Bytes} {out : β} (hb : b ≠ 0)
    (h0 : (0 : Byte) ∉ pat) (hp : ¬ pat <+: b :: (p ++ after)) :
    keyLoop pat after read (fuel + 1) (b :: p) out = keyLoop pat after read (fuel + 1) p out := by
  have hstr := strstr_cons_of_not_isPrefix hb h0 hp
  rw [keyLoop, if_neg (List.cons_ne_nil b p), List.cons_append, hstr]
  cases hs : strstr (p ++ after) pat with
  | none =>
      by_cases hnil : p = [] <;> simp [keyLoop, hs, hnil]
  | some i =>
      by_cases hnil : p = []
      · subst hnil
        simp [keyLoop]
      · have hsucc : i + 1 + pat.length = (i + pat.length) + 1 := by omega
        simp only [Option.map_some, List.length_cons, Nat.add_le_add_iff_right, hsucc,
          List.drop_succ_cons]
        rw [keyLoop, if_neg hnil, hs]

theorem keyLoop_cons_of_isPrefix {fuel : ℕ} {b : Byte} {p : Bytes} {out : β}
    (h0 : (0 : Byte) ∉ pat) (hp : pat <+: b :: (p ++ after)) :
    keyLoop pat after read (fuel + 1) (b :: p) out =
      match keyHit pat (b :: p) with
      | none => keyLoop pat after read fuel p out
      | some c =>
          let r := read c out
          if r.1 then r else keyLoop pat after read fuel p r.2 := by
  have hstr : strstr (b :: (p ++ after)) pat = some 0 :=
    find_of_isPrefix ((prefix_cstr_iff h0).mpr hp)
  rw [keyLoop, if_neg (List.cons_ne_nil b p), List.cons_append, hstr,
    keyHit_eq_afterColon (by simpa using hp)]
  cases hc : afterColon ((b :: p).drop pat.length) with
  | none => simp [hc]
  | some c => simp [hc]

/-- The loop is a scan of the text up to a NUL; what lies behind the text plays no part. -/
theorem keyLoop_eq_scan (hne : pat ≠ []) (h0 : (0 : Byte) ∉ pat) (p : Bytes) :
    ∀ (fuel : ℕ) (out : β), p.length ≤ fuel →
      keyLoop pat after read fuel p out = scan (keyHit pat) read p out := by
  induction p with
  | nil =>
      intro fuel out _
      cases fuel <;> simp [keyLoop, scan]
  | cons b p ih =>
      intro fuel out hfuel
      obtain ⟨fuel, rfl⟩ : ∃ f, fuel = f + 1 := ⟨fuel - 1, by simp at hfuel; omega⟩
      have hp : p.length ≤ fuel := by simpa using hfuel
      by_cases hb : b = 0
      · subst hb
        rw [keyLoop_cons_of_nul hne]
        simp [scan]
      · by_cases hpre : pat <+: b :: (p ++ after)
        · rw [keyLoop_cons_of_isPrefix h0 hpre, scan, if_neg hb]
          cases keyHit pat (b :: p) with
          | none => exact ih fuel out hp
          | some c => simp only [ih fuel _ hp]
        · have hnone : keyHit pat (b :: p) = none := by
            rw [keyHit, if_neg]
            intro h
            exact hpre (h.trans (by simp))
          rw [keyLoop_cons_of_not_isPrefix hb h0 hpre, ih (fuel + 1) out (by omega), scan,
            if_neg hb, hnone]

end KeyLoop

/-! ## Hits are key occurrences -/

/-- A key the 128-byte pattern buffers hold in full. -/
structure ShortKey (key : Bytes) : Prop where
  isKey : IsKey key
  length_le : key.length ≤ 100

instance (key : Bytes) : Decidable (ShortKey key) :=
  decidable_of_iff (IsKey key ∧ key.length ≤ 100) ⟨fun h => ⟨h.1, h.2⟩, fun h => ⟨h.1, h.2⟩⟩

variable {key : Bytes}

theorem ShortKey.keyPat_eq (h : ShortKey key) : keyPat key = 0x22 :: key ++ [0x22] := by
  have := h.length_le
  exact bounded_of_length_lt (by simp; omega)

theorem ShortKey.nul_not_mem_keyPat (h : ShortKey key) : (0 : Byte) ∉ keyPat key := by
  have h0 : (0 : Byte) ∉ key := h.isKey.not_mem (by decide)
  simp [h.keyPat_eq, h0]

theorem isJsonSpace_ne {b : Byte} (h : isJsonSpace b = true) : b ≠ 0x2c ∧ b ≠ 0x7d := by
  constructor <;> rintro rfl <;> revert h <;> decide

theorem keyHit_eq_none_of_not_keyOcc (hk : ShortKey key) {s : Bytes} (h : ¬ KeyOcc key s) :
    keyHit (keyPat key) s = none := by
  unfold keyHit
  split
  · rename_i hp
    obtain ⟨t, rfl⟩ := hp
    rw [List.drop_left]
    unfold afterColon
    split
    · rfl
    · rename_i b c hdrop
      split
      · rename_i hb
        exfalso
        apply h
        have hsplit := List.takeWhile_append_dropWhile (p := isJsonSpace) (l := t)
        rw [hdrop, hb] at hsplit
        refine ⟨t.takeWhile isJsonSpace, c, by rw [hsplit, hk.keyPat_eq]; simp, ?_⟩
        exact fun b hb => isJsonSpace_ne (List.mem_takeWhile_imp hb)
      · rfl
  · rfl

/-- Right at a member of the key, the hit is the member's value. -/
theorem keyHit_render (hk : ShortKey key) {m : Member} (hm : m.key = key) (post : Bytes)
    (hblank : ∀ b ∈ (m.value ++ post).head?, isBlank b = false) :
    keyHit (keyPat key) (m.render ++ post) = some (m.value ++ post) := by
  have hsplit : m.render ++ post = keyPat key ++ 0x3a :: (m.value ++ post) := by
    rw [hk.keyPat_eq, Member.render, hm]
    simp
  rw [keyHit, if_pos (by rw [hsplit]; exact List.prefix_append _ _), hsplit, List.drop_left,
    afterColon, List.dropWhile_cons_of_neg (by decide)]
  simp only [if_pos]
  congr 1
  cases hv : m.value ++ post with
  | nil => rfl
  | cons b c => exact List.dropWhile_cons_of_neg (by simpa using hblank b (by simp [hv]))

/-! ## Reading a member of an object -/

section Object

variable {ms : List Member} {text : Bytes}

/-- What every reader of a spill line relies on. -/
structure ReadableObject (ms : List Member) : Prop where
  wf : ∀ m ∈ ms, m.WF
  nodup : (ms.map Member.key).Nodup
  nulFree : (0 : Byte) ∉ object ms

/-- `json_str` finds the string member of its key, whatever memory follows the text. -/
theorem jsonStr_object (h : ReadableObject ms) (hk : ShortKey key) (hm : .str key text ∈ ms)
    (after : Bytes) (outCap : ℕ) (out : Bytes) :
    ∃ rest, jsonStr (object ms) after key outCap out =
      (true, cstr ((unescape (text ++ 0x22 :: rest)).take (outCap - 1))) := by
  obtain ⟨pre, post, t, rest, hobj, rfl, ht, hfree⟩ := object_split h.wf h.nodup hm rfl
  have hnul : (0 : Byte) ∉ pre := fun hmem => h.nulFree (by rw [hobj]; simp [hmem])
  refine ⟨t :: rest, ?_⟩
  have hhit := keyHit_render hk (m := .str key text) rfl (t :: rest)
    (by simp [Member.value]; decide)
  rw [jsonStr, keyLoop_eq_scan (by simp [hk.keyPat_eq]) hk.nul_not_mem_keyPat _ _ _ le_rfl, hobj,
    scan_append (fun s hs => keyHit_eq_none_of_not_keyOcc hk hs) hfree hnul]
  refine scan_cons_of_accepts (by decide) hhit ?_
  simp [Member.value, readStr, unescapeLoop_eq_take]

/-- `json_num` hands the text of the member, and what follows it, to `strtod`. -/
theorem jsonNum_object (h : ReadableObject ms) (hk : ShortKey key) (hm : .num key text ∈ ms)
    (hblank : ∀ b ∈ text, isBlank b = false) (after : Bytes) (out : Double) :
    ∃ t rest, (t = 0x2c ∨ t = 0x7d) ∧ ∀ d,
      Double.strtod (text ++ t :: rest) = some d →
        jsonNum (object ms) after key out = (true, d) := by
  obtain ⟨pre, post, t, rest, hobj, rfl, ht, hfree⟩ := object_split h.wf h.nodup hm rfl
  have hnul : (0 : Byte) ∉ pre := fun hmem => h.nulFree (by rw [hobj]; simp [hmem])
  have htb : isBlank t = false := by rcases ht with rfl | rfl <;> decide
  have hhit := keyHit_render hk (m := .num key text) rfl (t :: rest) (by
    cases text with
    | nil => simpa [Member.value] using htb
    | cons b text => simpa [Member.value] using hblank b (by simp))
  refine ⟨t, rest ++ after, ht, fun d hd => ?_⟩
  rw [jsonNum, keyLoop_eq_scan (by simp [hk.keyPat_eq]) hk.nul_not_mem_keyPat _ _ _ le_rfl, hobj,
    scan_append (fun s hs => keyHit_eq_none_of_not_keyOcc hk hs) hfree hnul]
  refine scan_cons_of_accepts (by decide) hhit ?_
  simp [Member.value, readNum, hd]

/-- `json_str_field` finds the string member of its key. -/
theorem jsonStrField_object (h : ReadableObject ms) (hk : ShortKey key) (hm : .str key text ∈ ms)
    (outCap : ℕ) (out : Bytes) :
    ∃ rest, jsonStrField (object ms) key outCap out =
      (true, (unescape (text ++ 0x22 :: rest)).take (outCap - 1)) := by
  obtain ⟨pre, post, t, rest, hobj, rfl, ht, hfree⟩ := object_split h.wf h.nodup hm rfl
  refine ⟨t :: rest, ?_⟩
  have hpat : bounded 128 (0x22 :: key ++ [0x22, 0x3a, 0x22]) = 0x22 :: key ++ [0x22, 0x3a, 0x22] :=
    bounded_of_length_lt (by have := hk.length_le; simp; omega)
  have hocc : ∀ s, 0x22 :: key ++ [0x22, 0x3a, 0x22] <+: s → KeyOcc key s := by
    rintro s ⟨u, rfl⟩
    exact ⟨[], 0x22 :: u, by simp, by simp⟩
  have hrender : Member.render (.str key text) ++ t :: rest =
      (0x22 :: key ++ [0x22, 0x3a, 0x22]) ++ (text ++ 0x22 :: t :: rest) := by
    simp [Member.render, Member.key, Member.value]
  have hfind : strstr (object ms) (0x22 :: key ++ [0x22, 0x3a, 0x22]) = some pre.length := by
    rw [strstr, cstr_of_nulFree h.nulFree, hobj,
      find_append_of_not_isPrefix (hfree.not_isPrefix hocc), hrender,
      find_of_isPrefix (List.prefix_append _ _)]
    simp
  rw [jsonStrField, fieldAt, hpat, hfind, cstr_of_nulFree h.nulFree, hobj, hrender, Option.map_some,
    ← List.drop_drop, List.drop_left, List.drop_left]
  simp only [unescapeLoop_eq_take]

end Object

end ProcWatch

import ProcWatch.Library.JsonRejected
import ProcWatch.Verification.Otlp.Strings

/-! # The text that `decode_any_value` writes -/

namespace ProcWatch

open CLib Wire

variable {cap : ℕ}

/-! ## What an attribute value writes -/

/-- What a field of an `AnyValue` makes the decoder write. -/
inductive Part where
  | str (s : Bytes)
  | bool (b : Bool)
  | int (n : ℤ)
  | double (d : Double)
  | array (vs : List Bytes)
  | kvlist (ms : List (Bytes × Option Bytes))

/-- A member of a list of pairs; there is none without a key. -/
def memberIn (kv : Bytes) : Option (Bytes × Option Bytes) :=
  if (pwParseKv kv).1.val = [] then none else some ((pwParseKv kv).1.val, (pwParseKv kv).2)

def partAt (f : Field) : Option Part :=
  match f with
  | ⟨F_AV_STRING, .bytes b⟩ => some (.str b)
  | ⟨F_AV_BOOL, .varint v⟩ => some (.bool (v ≠ 0))
  | ⟨F_AV_INT, .varint v⟩ => some (.int v.toInt64.toInt)
  | ⟨F_AV_DOUBLE, .fixed64 bits⟩ => some (.double ⟨bits⟩)
  | ⟨F_AV_ARRAY, .bytes sub⟩ => some (.array (messagesAt F_LIST_VALUES (pbFields sub).1))
  | ⟨F_AV_KVLIST, .bytes sub⟩ =>
      some (.kvlist ((messagesAt F_LIST_VALUES (pbFields sub).1).filterMap memberIn))
  | ⟨F_AV_BYTES, .bytes b⟩ => some (.str (pwToHex 129 b).val)
  | _ => none

/-- All that a message makes it write, in order. -/
def partsIn (r : Bytes) : List Part :=
  (pbFields r).1.filterMap partAt

section Texts

variable (any : Bytes → Bytes)

/-- A member, given the texts of values. -/
def memberText (m : Bytes × Option Bytes) : Bytes :=
  literalOf m.1 ++ 0x3a :: m.2.elim (bytes "null") any

def Part.text : Part → Bytes
  | .str s => literalOf s
  | .bool b => if b then bytes "true" else bytes "false"
  | .int n => decimalInt n
  | .double d => Double.fmtG 17 d
  | .array vs => 0x5b :: Json.separated true (vs.map any) ++ [0x5d]
  | .kvlist ms => 0x7b :: Json.separated true (ms.map (memberText any)) ++ [0x7d]

/-- One after the other, or `null` where there is nothing. -/
def textOf (ws : List Part) : Bytes :=
  if ws.isEmpty then bytes "null" else (ws.map (Part.text any)).flatten

end Texts

/-- The text of a value, with so many levels still allowed, however long it gets. -/
def valueText : ℕ → Bytes → Bytes
  | 0, _ => bytes "null"
  | left + 1, r => textOf (valueText left) (partsIn r)

/-! ## The decoder writes that text -/

section Decoder

variable {any : Bytes → Sb cap → Sb cap} {anyText : Bytes → Bytes}

theorem rollback_putc (sb : Sb cap) (c : Byte) : (pwSbPutc sb c).rollback sb.text.length = sb := by
  apply Sb.ext
  rw [pwSbPutc]
  split
  · exact List.take_left
  · exact List.take_length

theorem rollback_self (sb : Sb cap) : sb.rollback sb.text.length = sb :=
  Sb.ext List.take_length

theorem pwAppendKvJson_eq (hany : ∀ r sb, any r sb = pwSbPuts sb (anyText r)) (kv : Bytes)
    (sb : Sb cap) :
    pwAppendKvJson any kv sb = (memberIn kv).map fun m => pwSbPuts sb (memberText anyText m) := by
  unfold pwAppendKvJson memberIn
  generalize pwParseKv kv = pair
  obtain ⟨key, value⟩ := pair
  by_cases hkey : key.val = []
  · rw [if_pos hkey]
    exact if_pos hkey
  · simp only [if_neg hkey, Option.map_some, memberText]
    rw [pwSbPuts_append, ← pwSbJsonString_eq, pwSbPuts_cons]
    cases value with
    | none => rfl
    | some value => exact congrArg some (hany _ _)

/-- One turn of the loop over a list. -/
def elementStep (any : Bytes → Sb cap → Sb cap) (s : Bool × Sb cap) (f : Field) : Bool × Sb cap :=
  match f with
  | ⟨F_LIST_VALUES, .bytes sub⟩ => (false, any sub (if s.1 then s.2 else pwSbPutc s.2 0x2c))
  | _ => s

/-- One turn of the loop over a list of pairs. -/
def memberStep (any : Bytes → Sb cap → Sb cap) (s : Bool × Sb cap) (f : Field) : Bool × Sb cap :=
  match f with
  | ⟨F_LIST_VALUES, .bytes kv⟩ => appendMember any s kv
  | _ => s

theorem elementStep_other {f : Field} (hf : ∀ b, f ≠ ⟨F_LIST_VALUES, .bytes b⟩)
    (any : Bytes → Sb cap → Sb cap) (s : Bool × Sb cap) : elementStep any s f = s := by
  unfold elementStep
  split
  · exact absurd rfl (hf _)
  · rfl

theorem memberStep_other {f : Field} (hf : ∀ b, f ≠ ⟨F_LIST_VALUES, .bytes b⟩)
    (any : Bytes → Sb cap → Sb cap) (s : Bool × Sb cap) : memberStep any s f = s := by
  unfold memberStep
  split
  · exact absurd rfl (hf _)
  · rfl

theorem foldl_elements (hany : ∀ r sb, any r sb = pwSbPuts sb (anyText r)) (fs : List Field)
    (first : Bool) (sb : Sb cap) :
    (fs.foldl (elementStep any) (first, sb)).2 =
      pwSbPuts sb (Json.separated first ((messagesAt F_LIST_VALUES fs).map anyText)) := by
  induction fs generalizing first sb with
  | nil => rfl
  | cons f fs ih =>
      by_cases hf : ∃ b, f = ⟨F_LIST_VALUES, .bytes b⟩
      · obtain ⟨b, rfl⟩ := hf
        rw [messagesAt_cons, List.map_cons, Json.separated, pwSbPuts_append, pwSbPuts_append, ← hany,
          ← ih]
        cases first <;> rfl
      · have hother : ∀ b, f ≠ ⟨F_LIST_VALUES, .bytes b⟩ := fun b hb => hf ⟨b, hb⟩
        rw [messagesAt_cons_other hother, ← ih, List.foldl_cons, elementStep_other hother]

theorem decodeValueList_eq (hany : ∀ r sb, any r sb = pwSbPuts sb (anyText r)) (sub : Bytes)
    (sb : Sb cap) :
    decodeValueList any sub sb = pwSbPuts sb
      (0x5b :: Json.separated true ((messagesAt F_LIST_VALUES (pbFields sub).1).map anyText) ++
        [0x5d]) := by
  rw [List.cons_append, pwSbPuts_cons, pwSbPuts_append, ← foldl_elements hany]
  rfl

theorem appendMember_eq (hany : ∀ r sb, any r sb = pwSbPuts sb (anyText r)) (kv : Bytes)
    (first : Bool) (sb : Sb cap) :
    appendMember any (first, sb) kv =
      match memberIn kv with
      | none => (first, sb)
      | some m => (false, pwSbPuts (if first then sb else pwSbPutc sb 0x2c) (memberText anyText m)) := by
  rw [appendMember]
  simp only [pwAppendKvJson_eq hany]
  cases memberIn kv with
  | some m => rfl
  | none =>
      cases first with
      | true => exact congrArg (Prod.mk true) (rollback_self sb)
      | false => exact congrArg (Prod.mk false) (rollback_putc sb 0x2c)

theorem foldl_members (hany : ∀ r sb, any r sb = pwSbPuts sb (anyText r)) (fs : List Field)
    (first : Bool) (sb : Sb cap) :
    (fs.foldl (memberStep any) (first, sb)).2 =
      pwSbPuts sb (Json.separated first
        (((messagesAt F_LIST_VALUES fs).filterMap memberIn).map (memberText anyText))) := by
  induction fs generalizing first sb with
  | nil => rfl
  | cons f fs ih =>
      by_cases hf : ∃ b, f = ⟨F_LIST_VALUES, .bytes b⟩
      · obtain ⟨kv, rfl⟩ := hf
        have hstep : memberStep any (first, sb) ⟨F_LIST_VALUES, .bytes kv⟩ =
            appendMember any (first, sb) kv := rfl
        rw [messagesAt_cons, List.foldl_cons, hstep, appendMember_eq hany]
        cases hm : memberIn kv with
        | none =>
            rw [List.filterMap_cons_none hm, ← ih]
        | some m =>
            rw [List.filterMap_cons_some hm, List.map_cons, Json.separated, pwSbPuts_append,
              pwSbPuts_append, ← ih]
            cases first <;> rfl
      · have hother : ∀ b, f ≠ ⟨F_LIST_VALUES, .bytes b⟩ := fun b hb => hf ⟨b, hb⟩
        rw [messagesAt_cons_other hother, ← ih, List.foldl_cons, memberStep_other hother]

theorem decodeKvlist_eq (hany : ∀ r sb, any r sb = pwSbPuts sb (anyText r)) (sub : Bytes)
    (sb : Sb cap) :
    decodeKvlist any sub sb = pwSbPuts sb
      (0x7b :: Json.separated true (((messagesAt F_LIST_VALUES (pbFields sub).1).filterMap
        memberIn).map (memberText anyText)) ++ [0x7d]) := by
  rw [List.cons_append, pwSbPuts_cons, pwSbPuts_append, ← foldl_members hany]
  rfl

/-- One turn of the loop over the fields of a value. -/
def anyStep (any : Bytes → Sb cap → Sb cap) (s : Bool × Sb cap) (f : Field) : Bool × Sb cap :=
  match f with
  | ⟨F_AV_STRING, .bytes b⟩ => (true, pwSbJsonString s.2 b)
  | ⟨F_AV_BOOL, .varint v⟩ =>
      (true, pwSbPuts s.2 (if v ≠ 0 then bytes "true" else bytes "false"))
  | ⟨F_AV_INT, .varint v⟩ => (true, pwSbPuts s.2 (decimalInt v.toInt64.toInt))
  | ⟨F_AV_DOUBLE, .fixed64 bits⟩ => (true, pwSbPuts s.2 (Double.fmtG 17 ⟨bits⟩))
  | ⟨F_AV_ARRAY, .bytes sub⟩ => (true, decodeValueList any sub s.2)
  | ⟨F_AV_KVLIST, .bytes sub⟩ => (true, decodeKvlist any sub s.2)
  | ⟨F_AV_BYTES, .bytes b⟩ => (true, pwSbJsonString s.2 (pwToHex 129 b).val)
  | _ => s

theorem anyStep_eq (hany : ∀ r sb, any r sb = pwSbPuts sb (anyText r)) (s : Bool × Sb cap)
    (f : Field) :
    anyStep any s f =
      match partAt f with
      | none => s
      | some w => (true, pwSbPuts s.2 (w.text anyText)) := by
  unfold anyStep partAt
  split
  · exact congrArg (Prod.mk true) (pwSbJsonString_eq _ _)
  · rename_i v
    by_cases hv : v = 0 <;> simp [hv, Part.text]
  · rfl
  · rfl
  · exact congrArg (Prod.mk true) (decodeValueList_eq hany _ _)
  · exact congrArg (Prod.mk true) (decodeKvlist_eq hany _ _)
  · exact congrArg (Prod.mk true) (pwSbJsonString_eq _ _)
  · rfl

theorem foldl_anyStep (hany : ∀ r sb, any r sb = pwSbPuts sb (anyText r)) (fs : List Field)
    (wrote : Bool) (sb : Sb cap) :
    fs.foldl (anyStep any) (wrote, sb) =
      (wrote || !(fs.filterMap partAt).isEmpty,
        pwSbPuts sb ((fs.filterMap partAt).map (Part.text anyText)).flatten) := by
  induction fs generalizing wrote sb with
  | nil => simp [pwSbPuts]
  | cons f fs ih =>
      rw [List.foldl_cons, anyStep_eq hany]
      cases hw : partAt f with
      | none => rw [List.filterMap_cons_none hw, ← ih]
      | some w =>
          rw [List.filterMap_cons_some hw, List.map_cons, List.flatten_cons, pwSbPuts_append]
          simp only [ih, Bool.true_or, List.isEmpty_cons, Bool.not_false, Bool.or_true]

end Decoder

theorem decodeAnyValue_eq (left : ℕ) (r : Bytes) (sb : Sb cap) :
    decodeAnyValue left r sb = pwSbPuts sb (valueText left r) := by
  induction left generalizing r sb with
  | zero => rfl
  | succ left ih =>
      have hfold := foldl_anyStep ih (pbFields r).1 false sb
      have hdecode : decodeAnyValue (left + 1) r sb =
          if ((pbFields r).1.foldl (anyStep (decodeAnyValue left)) (false, sb)).1 then
            ((pbFields r).1.foldl (anyStep (decodeAnyValue left)) (false, sb)).2
          else pwSbPuts ((pbFields r).1.foldl (anyStep (decodeAnyValue left)) (false, sb)).2
            (bytes "null") := rfl
      rw [hdecode, hfold, valueText, textOf, ← partsIn]
      cases partsIn r with
      | nil => rfl
      | cons w ws => rfl

/-! ## Messages that write one value -/

/-- A number that JSON has. -/
def Part.IsNumber : Part → Prop
  | .int _ => True
  | .double d => ∃ neg m e, d.view = .finite neg m e
  | _ => False

def Part.numberText : Part → Bytes
  | .int n => decimalInt n
  | .double d => Double.fmtG 17 d
  | _ => []

section Condition

variable (one : Bytes → Prop)

/-- A value by itself, given which nested messages write one value. -/
def Part.IsValue : Part → Prop
  | .str s => NothingBeyond s
  | .bool _ => True
  | .int n => Part.IsNumber (.int n)
  | .double d => Part.IsNumber (.double d)
  | .array vs => ∀ v ∈ vs, one v
  | .kvlist ms => ∀ m ∈ ms, NothingBeyond m.1 ∧ ∀ v ∈ m.2, one v

/-- Nothing, for which `null` stands; or one value; or numbers that make up one. -/
inductive OnePart : List Part → Prop where
  | nothing : OnePart []
  | single {w : Part} (h : w.IsValue one) : OnePart [w]
  | numbers {w v : Part} {ws : List Part} (hnumbers : ∀ x ∈ w :: v :: ws, x.IsNumber)
      (h : Json.OneNumber w.numberText ((v :: ws).map Part.numberText)) :
      OnePart (w :: v :: ws)

end Condition

/-- With so many levels still allowed; what is deeper is `null`. -/
def OneValue : ℕ → Bytes → Prop
  | 0, _ => True
  | left + 1, r => OnePart (OneValue left) (partsIn r)

theorem dead_literalOf {s : Bytes} (h : ¬ NothingBeyond s) :
    Json.DeadString (literalBody s.length s) := by
  obtain ⟨e, out, bad, rest, heq, hread, -, hnone, hbad⟩ := literalBody_beyond le_rfl h
  rw [heq]
  refine Json.Reads.deadString hread fun tail => ?_
  rw [List.append_assoc]
  exact Json.readString_run_none hnone hbad _

theorem Part.IsNumber.numberText {w : Part} (h : w.IsNumber) :
    Json.NumberText w.numberText := by
  cases w with
  | int n => exact Json.numberText_decimalInt n
  | double d =>
      obtain ⟨neg, m, e, hd⟩ := h
      exact Json.numberText_fmtG (by decide) hd
  | _ => exact h.elim

theorem Part.IsNumber.text {w : Part} (h : w.IsNumber) (any : Bytes → Bytes) :
    w.text any = w.numberText := by
  cases w with
  | int n => rfl
  | double d => rfl
  | _ => exact h.elim

section Parts

variable {one : Bytes → Prop} {any : Bytes → Bytes}

theorem memberDenotes {m : Bytes × Option Bytes} (hkey : NothingBeyond m.1)
    (hvalue : ∀ v ∈ m.2, ∃ j, Json.Denotes (any v) j) :
    ∃ x, Json.MemberDenotes (memberText any m) x := by
  obtain ⟨key, value⟩ := m
  have htext := (literalBody_reads le_rfl hkey).1
  have hsplit (t : Bytes) : literalOf key ++ 0x3a :: t =
      0x22 :: literalBody key.length key ++ 0x22 :: 0x3a :: t := by
    simp [literalOf]
  cases value with
  | none => exact ⟨(_, _), ⟨_, _, hsplit _, htext, Json.denotes_null⟩⟩
  | some v =>
      obtain ⟨j, hj⟩ := hvalue v rfl
      exact ⟨(_, _), ⟨_, _, hsplit _, htext, hj⟩⟩

theorem memberBlocks {m : Bytes × Option Bytes}
    (h : ¬ NothingBeyond m.1 ∨ NothingBeyond m.1 ∧ ∃ v ∈ m.2, Json.Blocks (any v)) :
    Json.MemberBlocks (memberText any m) := by
  obtain ⟨key, value⟩ := m
  have hsplit (t : Bytes) : literalOf key ++ 0x3a :: t =
      0x22 :: literalBody key.length key ++ 0x22 :: 0x3a :: t := by
    simp [literalOf]
  rcases h with hkey | ⟨hkey, v, rfl, hv⟩
  · exact ⟨_, _, hsplit _, .inl (dead_literalOf hkey)⟩
  · exact ⟨_, _, hsplit _, .inr ⟨⟨_, (literalBody_reads le_rfl hkey).1⟩, hv⟩⟩

theorem deadArray (hone : ∀ r, one r → ∃ v, Json.Denotes (any r) v)
    (hnot : ∀ r, ¬ one r → Json.Blocks (any r)) {vs : List Bytes}
    (h : ¬ (Part.array vs).IsValue one) : Json.Dead ((Part.array vs).text any) := by
  apply Json.dead_array
  · intro t ht
    obtain ⟨v, -, rfl⟩ := List.mem_map.mp ht
    by_cases hv : one v
    · exact .inl (hone v hv)
    · exact .inr (hnot v hv)
  · obtain ⟨v, hv⟩ := not_forall.mp h
    obtain ⟨hmem, hv⟩ := Classical.not_imp.mp hv
    exact ⟨any v, List.mem_map_of_mem hmem, hnot v hv⟩

theorem member_cases (hone : ∀ r, one r → ∃ v, Json.Denotes (any r) v)
    (hnot : ∀ r, ¬ one r → Json.Blocks (any r)) (m : Bytes × Option Bytes) :
    (NothingBeyond m.1 ∧ ∀ v ∈ m.2, one v) ∧ (∃ x, Json.MemberDenotes (memberText any m) x) ∨
      ¬ (NothingBeyond m.1 ∧ ∀ v ∈ m.2, one v) ∧ Json.MemberBlocks (memberText any m) := by
  by_cases hkey : NothingBeyond m.1
  · by_cases hvalue : ∀ v ∈ m.2, one v
    · exact .inl ⟨⟨hkey, hvalue⟩, memberDenotes hkey fun v hv => hone v (hvalue v hv)⟩
    · obtain ⟨v, hv⟩ := not_forall.mp hvalue
      obtain ⟨hmem, hv⟩ := Classical.not_imp.mp hv
      exact .inr ⟨fun h => hvalue h.2, memberBlocks (.inr ⟨hkey, v, hmem, hnot v hv⟩)⟩
  · exact .inr ⟨fun h => hkey h.1, memberBlocks (.inl hkey)⟩

theorem deadKvlist (hone : ∀ r, one r → ∃ v, Json.Denotes (any r) v)
    (hnot : ∀ r, ¬ one r → Json.Blocks (any r)) {ms : List (Bytes × Option Bytes)}
    (h : ¬ (Part.kvlist ms).IsValue one) : Json.Dead ((Part.kvlist ms).text any) := by
  apply Json.dead_object
  · intro t ht
    obtain ⟨m, -, rfl⟩ := List.mem_map.mp ht
    exact (member_cases hone hnot m).imp And.right And.right
  · obtain ⟨m, hm⟩ := not_forall.mp h
    obtain ⟨hmem, hm⟩ := Classical.not_imp.mp hm
    exact ⟨_, List.mem_map_of_mem hmem,
      ((member_cases hone hnot m).resolve_left fun h => hm h.1).2⟩

theorem arrayDenotes (hone : ∀ r, one r → ∃ v, Json.Denotes (any r) v) {vs : List Bytes}
    (h : (Part.array vs).IsValue one) :
    ∃ js, Json.Denotes ((Part.array vs).text any) (.array js) := by
  have hall : ∀ t ∈ vs.map any, ∃ j, Json.Denotes t j := by
    intro t ht
    obtain ⟨v, hv, rfl⟩ := List.mem_map.mp ht
    exact hone v (h v hv)
  obtain ⟨js, hjs⟩ := Json.forall₂_of_exists hall
  exact ⟨js, Json.denotes_array hjs⟩

theorem kvlistDenotes (hone : ∀ r, one r → ∃ v, Json.Denotes (any r) v)
    {ms : List (Bytes × Option Bytes)} (h : (Part.kvlist ms).IsValue one) :
    ∃ xs, Json.Denotes ((Part.kvlist ms).text any) (.object xs) := by
  have hall : ∀ t ∈ ms.map (memberText any), ∃ x, Json.MemberDenotes t x := by
    intro t ht
    obtain ⟨m, hm, rfl⟩ := List.mem_map.mp ht
    obtain ⟨hkey, hvalue⟩ := h m hm
    exact memberDenotes hkey fun v hv => hone v (hvalue v hv)
  obtain ⟨xs, hxs⟩ := Json.forall₂_of_exists hall
  exact ⟨xs, Json.denotes_object hxs⟩

theorem denotes_of_isValue (hone : ∀ r, one r → ∃ v, Json.Denotes (any r) v) {w : Part}
    (h : w.IsValue one) : ∃ v, Json.Denotes (w.text any) v := by
  cases w with
  | str s => exact ⟨_, Json.denotes_string (literalBody_reads le_rfl h).1⟩
  | bool b => exact ⟨_, Json.denotes_bool b⟩
  | int n => exact ⟨_, (Json.numberText_decimalInt n).denotes⟩
  | double d =>
      obtain ⟨neg, m, e, hd⟩ := h
      exact ⟨_, (Json.numberText_fmtG (by decide) hd).denotes⟩
  | array vs =>
      obtain ⟨js, hjs⟩ := arrayDenotes hone h
      exact ⟨_, hjs⟩
  | kvlist ms =>
      obtain ⟨xs, hxs⟩ := kvlistDenotes hone h
      exact ⟨_, hxs⟩

theorem blocks_of_not_isValue (hone : ∀ r, one r → ∃ v, Json.Denotes (any r) v)
    (hnot : ∀ r, ¬ one r → Json.Blocks (any r)) {w : Part} (h : ¬ w.IsValue one) :
    Json.Blocks (w.text any) := by
  cases w with
  | str s => exact (Json.dead_string (dead_literalOf h)).blocks
  | bool b => exact absurd trivial h
  | int n => exact absurd trivial h
  | double d => exact Json.blocks_fmtG h
  | array vs => exact (deadArray hone hnot h).blocks
  | kvlist ms => exact (deadKvlist hone hnot h).blocks

theorem piece_text (hone : ∀ r, one r → ∃ v, Json.Denotes (any r) v)
    (hnot : ∀ r, ¬ one r → Json.Blocks (any r)) (w : Part) : Json.Piece (w.text any) := by
  have hhead {b : Byte} (hb : Json.isNumberByte b = false) {s : Bytes} :
      ∀ c ∈ (b :: s).head?, Json.isNumberByte c = false :=
    fun c hc => Option.some.inj hc ▸ hb
  cases w with
  | str s =>
      by_cases h : NothingBeyond s
      · exact (Json.denotes_string (literalBody_reads le_rfl h).1).piece (by simp)
          (hhead (by decide))
      · exact (Json.dead_string (dead_literalOf h)).piece (hhead (by decide))
  | bool b =>
      refine (Json.denotes_bool b).piece (by simp) ?_
      cases b with
      | false => exact hhead (b := 0x66) (by decide)
      | true => exact hhead (b := 0x74) (by decide)
  | int n => exact (Json.numberText_decimalInt n).piece
  | double d => exact Json.piece_fmtG (by decide) d
  | array vs =>
      by_cases h : (Part.array vs).IsValue one
      · obtain ⟨js, hjs⟩ := arrayDenotes hone h
        exact hjs.piece (by simp) (hhead (by decide))
      · exact (deadArray hone hnot h).piece (hhead (by decide))
  | kvlist ms =>
      by_cases h : (Part.kvlist ms).IsValue one
      · obtain ⟨xs, hxs⟩ := kvlistDenotes hone h
        exact hxs.piece (by simp) (hhead (by decide))
      · exact (deadKvlist hone hnot h).piece (hhead (by decide))

/-- Only numbers are written in bytes of numbers. -/
theorem isNumber_of_bytes {w : Part}
    (h : ∀ b ∈ w.text any, Json.isNumberByte b = true) : w.IsNumber := by
  have hhead {b : Byte} {s : Bytes} (hb : Json.isNumberByte b = false)
      (hs : ∀ c ∈ b :: s, Json.isNumberByte c = true) : False := by
    have htrue := hs b List.mem_cons_self
    rw [hb] at htrue
    cases htrue
  cases w with
  | str s => exact (hhead (by decide) h).elim
  | bool b =>
      cases b with
      | false => exact (hhead (b := 0x66) (by decide) h).elim
      | true => exact (hhead (b := 0x74) (by decide) h).elim
  | int n => trivial
  | double d => exact Json.finite_of_numberBytes h
  | array vs => exact (hhead (by decide) h).elim
  | kvlist ms => exact (hhead (by decide) h).elim

theorem textOf_cases (hone : ∀ r, one r → ∃ v, Json.Denotes (any r) v)
    (hnot : ∀ r, ¬ one r → Json.Blocks (any r)) (ws : List Part) :
    OnePart one ws ∧ (∃ v, Json.Denotes (textOf any ws) v) ∨
      ¬ OnePart one ws ∧ Json.Blocks (textOf any ws) := by
  match ws with
  | [] => exact .inl ⟨.nothing, _, Json.denotes_null⟩
  | [w] =>
      have htext : textOf any [w] = w.text any := List.append_nil _
      rw [htext]
      by_cases hw : w.IsValue one
      · exact .inl ⟨.single hw, denotes_of_isValue hone hw⟩
      · refine .inr ⟨fun h => ?_, blocks_of_not_isValue hone hnot hw⟩
        cases h with
        | single h => exact hw h
  | w :: v :: ws =>
      have htexts (h : ∀ x ∈ w :: v :: ws, x.IsNumber) :
          (w :: v :: ws).map (Part.text any) = (w :: v :: ws).map Part.numberText :=
        List.map_congr_left fun x hx => (h x hx).text any
      have hnumbers (h : ∀ x ∈ w :: v :: ws, x.IsNumber) :
          Json.isNumber (textOf any (w :: v :: ws)) = true ↔
            Json.OneNumber w.numberText ((v :: ws).map Part.numberText) := by
        have hall : ∀ t ∈ (w :: v :: ws).map Part.numberText, Json.NumberText t := by
          intro t ht
          obtain ⟨x, hx, rfl⟩ := List.mem_map.mp ht
          exact (h x hx).numberText
        have hflatten := Json.isNumber_flatten hall
        rwa [← List.map_cons, ← List.map_cons, ← htexts h] at hflatten
      by_cases hnumber : Json.isNumber (textOf any (w :: v :: ws)) = true
      · have hbytes := Json.numberBytes_of_isNumber hnumber
        have hall : ∀ x ∈ w :: v :: ws, x.IsNumber := by
          intro x hx
          have htext : ∀ b ∈ x.text any, Json.isNumberByte b = true := fun b hb =>
            hbytes b (List.mem_flatten.mpr ⟨_, List.mem_map_of_mem hx, hb⟩)
          exact isNumber_of_bytes htext
        exact .inl ⟨.numbers hall ((hnumbers hall).mp hnumber), _, Json.denotes_of_isNumber hnumber⟩
      · refine .inr ⟨fun h => ?_, ?_⟩
        · cases h with
          | numbers hall h => exact hnumber ((hnumbers hall).mpr h)
        · apply Json.blocks_pieces
          · intro u hu
            rw [← List.map_cons, ← List.map_cons] at hu
            obtain ⟨x, -, rfl⟩ := List.mem_map.mp hu
            exact piece_text hone hnot x
          · exact fun h => hnumber h.2

end Parts

theorem valueText_cases (left : ℕ) (r : Bytes) :
    OneValue left r ∧ (∃ v, Json.Denotes (valueText left r) v) ∨
      ¬ OneValue left r ∧ Json.Blocks (valueText left r) := by
  induction left generalizing r with
  | zero => exact .inl ⟨trivial, _, Json.denotes_null⟩
  | succ left ih =>
      exact textOf_cases (fun r h => ((ih r).resolve_right fun h' => h'.1 h).2)
        (fun r h => ((ih r).resolve_left fun h' => h h'.1).2) (partsIn r)

/-- With room for the text, it is one value exactly where the message writes one: nothing, a
single value whose nested ones are so again, or numbers that read as one. -/
theorem decodeAnyValue_value_iff {left : ℕ} {r : Bytes} {sb : Sb cap}
    (hroom : sb.text.length + (valueText left r).length < cap) :
    (∃ t v, (decodeAnyValue left r sb).text = sb.text ++ t ∧ Json.parse t = some v) ↔
      OneValue left r := by
  rw [decodeAnyValue_eq, pwSbPuts_text hroom]
  constructor
  · rintro ⟨t, v, htext, hparse⟩
    obtain rfl := List.append_cancel_left htext
    by_contra hnot
    have hblocks := ((valueText_cases left r).resolve_left fun h => hnot h.1).2
    rw [hblocks.parse] at hparse
    cases hparse
  · intro h
    obtain ⟨v, hv⟩ := ((valueText_cases left r).resolve_right fun h' => h'.1 h).2
    exact ⟨_, v, rfl, hv.parse⟩

/-- A field `bool_value` by itself. -/
theorem decodeAnyValue_value_iff_bool :
    (∃ t v, (decodeAnyValue 5 [0x10, 0x01] (pwSbInit 8)).text = (pwSbInit 8).text ++ t ∧
        Json.parse t = some v) ↔ OneValue 5 [0x10, 0x01] :=
  decodeAnyValue_value_iff (by decide +kernel)

/-- Two fields `string_value` in one message are written as `"a""b"`. -/
theorem not_decodeAnyValue_value_twoStrings :
    ¬ ∀ (left : ℕ) (r : Bytes) (sb : Sb 16), sb.text.length + (valueText left r).length < 16 →
      ∃ t v, (decodeAnyValue left r sb).text = sb.text ++ t ∧ Json.parse t = some v := by
  intro h
  obtain ⟨t, v, htext, hparse⟩ :=
    h 5 [0x0a, 0x01, 0x61, 0x0a, 0x01, 0x62] (pwSbInit 16) (by decide +kernel)
  have hempty : (pwSbInit 16).text = [] := rfl
  rw [hempty, List.nil_append] at htext
  have hnone : Json.parse (decodeAnyValue 5 [0x0a, 0x01, 0x61, 0x0a, 0x01, 0x62]
      (pwSbInit 16)).text = none := by
    decide +kernel
  rw [htext, hparse] at hnone
  cases hnone

end ProcWatch

import ProcWatch.Verification.Otlp.Attributes

/-! # The decoders read only their payload

Each decoder over memory does what the decoder over the payload's bytes does, and the events it
logs are safe ones: so a run over any bytes ends, with all its accesses among them.
-/

namespace ProcWatch.Memory

open CLib Wire Traced

variable {W C : Type} {mem : Contents} {lo hi : ℕ}

/-- A reader of these bytes. -/
structure IsReaderOf (mem : Contents) (lo hi : ℕ) (r : PbReader) (content : Bytes) : Prop where
  within : r.Within lo hi
  content : r.bytes mem = content

/-- A value of another wire type is not the one of a branch. -/
theorem ne_of_wire {field wire n : ℕ} {v : Payload} {b : Bytes}
    (h : field = n → wire = PB_WIRE_BYTES → False) (hwire : v.wire = wire) :
    (⟨field, v⟩ : Field) = ⟨n, .bytes b⟩ → False := by
  intro hf
  obtain ⟨hfield, hv⟩ := Field.mk.inj hf
  rw [hv] at hwire
  exact h hfield hwire.symm

/-! ## Spans -/

section Spans

variable (hhi : hi < 2 ^ 64)
include hhi

theorem refines_status {st : PbReader} (hst : st.Within lo hi) (span : Span) :
    Refines (W := W) (Safe lo hi) (· = ·)
      (pbWhile mem (statusBody mem) (fun span => return span) st.turns st span)
      (Pure.pure ((pbFields (st.bytes mem)).1.foldl statusStep span)) := by
  refine refines_loop hhi (fun _ fields span => Pure.pure (fields.foldl statusStep span))
    (S := (· = ·)) hst rfl (fun _ s s' _ hs => refines_pure hs) ?_
  rintro r field wire span _ ending fields k hr rfl hk
  unfold statusBody
  split
  · refine refines_bytes hhi hr (refines_pure rfl) fun text content r' htext hr' => ?_
    apply (refines_pwCopyStr hr htext 512).bind_value
    rintro _ rfl
    exact hk _ _ _ hr' rfl
  · exact refines_varint hhi hr (refines_pure rfl) fun v r' hr' => hk _ _ _ hr' rfl
  · refine refines_skip hhi hr (refines_pure rfl) fun v r' hwire hr' => ?_
    have hskip : statusStep span ⟨field, v⟩ = span := by
      unfold statusStep
      split <;> simp_all [Payload.wire]
    have hnext := hk r' span span hr' rfl
    rw [List.foldl_cons, hskip]
    exact hnext

/-- What `decode_span` does with the fields that are left. -/
def spanLoop (sink : Span → Prog W ℤ) (ending : Ending) (fields : List Field)
    (s : Span × Attrs 8192) : Prog W ℤ :=
  if ending = .badValue then return -1 else sink (finishSpan (fields.foldl spanStep s))

omit hhi in
theorem decodeSpan_eq (sink : Span → Prog W ℤ) (r : Bytes) (ctx : SpanContext) :
    ProcWatch.decodeSpan sink r ctx =
      spanLoop sink (pbFields r).2 (pbFields r).1 (Span.init ctx, Attrs.init 8192) := by
  rw [ProcWatch.decodeSpan, readSpanMessage, spanLoop]
  dsimp only
  split <;> simp_all

theorem refines_decodeSpan (sink : Span → Prog W ℤ) {r : PbReader} (hr : r.Within lo hi)
    (ctx : SpanContext) :
    Refines (Safe lo hi) (· = ·) (decodeSpan mem sink r ctx)
      (ProcWatch.decodeSpan sink (r.bytes mem) ctx) := by
  rw [decodeSpan_eq]
  refine refines_loop hhi (spanLoop sink) (S := (· = ·)) hr rfl ?_ ?_
  · rintro ending s _ hending rfl
    rw [spanLoop, if_neg hending]
    exact refines_lift _
  · rintro r field wire s _ ending fields k hr rfl hk
    have hfail : Refines (Safe lo hi) (· = ·) (return -1) (spanLoop sink .badValue [] s) :=
      refines_pure rfl
    unfold spanBody
    split
    · refine refines_bytes hhi hr hfail fun b content r' hb hr' => ?_
      apply (refines_pwToHex hr hb 33).bind_value
      rintro _ rfl
      exact hk _ _ _ hr' rfl
    · refine refines_bytes hhi hr hfail fun b content r' hb hr' => ?_
      apply (refines_pwToHex hr hb 17).bind_value
      rintro _ rfl
      exact hk _ _ _ hr' rfl
    · refine refines_bytes hhi hr hfail fun b content r' hb hr' => ?_
      apply (refines_pwToHex hr hb 17).bind_value
      rintro _ rfl
      exact hk _ _ _ hr' rfl
    · refine refines_bytes hhi hr hfail fun b content r' hb hr' => ?_
      apply (refines_pwCopyStr hr hb 512).bind_value
      rintro _ rfl
      exact hk _ _ _ hr' rfl
    · exact refines_varint hhi hr hfail fun v r' hr' => hk _ _ _ hr' rfl
    · exact refines_fixed64 hhi hr hfail fun v r' hr' => hk _ _ _ hr' rfl
    · exact refines_fixed64 hhi hr hfail fun v r' hr' => hk _ _ _ hr' rfl
    · refine refines_submsg hhi hr hfail fun kv r' hkv hr' => ?_
      apply (refines_decodePointAttrs hhi hkv s.2).bind_value
      rintro _ rfl
      exact hk _ _ _ hr' rfl
    · refine refines_submsg hhi hr hfail fun st r' hst hr' => ?_
      apply (refines_status hhi hst s.1).bind_value
      rintro _ rfl
      exact hk _ _ _ hr' rfl
    · refine refines_skip hhi hr hfail fun v r' hwire hr' => ?_
      have hskip : spanStep s ⟨field, v⟩ = s := by
        unfold spanStep
        split <;> simp_all [Payload.wire]
      have hnext := hk r' s s hr' rfl
      rw [spanLoop, List.foldl_cons, hskip]
      exact hnext

theorem refines_spanItem (sink : Span → Prog W ℤ) {r : PbReader} (hr : r.Within lo hi)
    (ctx : SpanContext) (count : ℕ) :
    Refines (Safe lo hi) (· = ·) (spanItem mem sink r ctx count)
      (ProcWatch.spanItem sink (r.bytes mem) ctx count) := by
  refine (refines_decodeSpan hhi sink hr ctx).bind ?_
  rintro rc _ rfl
  split
  · exact refines_pure rfl
  · split
    · exact refines_pure rfl
    · exact refines_pure rfl

end Spans

/-! ## The walk -/

section Walk

/-- The contexts of the two walks, over memory and over lists, work alike. -/
structure SameContext (mem : Contents) (lo hi : ℕ) (ops : WalkContext W C)
    (ops' : ProcWatch.WalkContext C) : Prop where
  init : ops.init = ops'.init
  scopeName : ∀ f ctx, ops'.mapScopeName f ctx = ops.setScopeName (f (ops.scopeName ctx)) ctx
  takeAttribute : ∀ key (value : PbReader) ctx, value.Within lo hi →
    Refines (Safe lo hi) (· = ·) (ops.takeAttribute key value ctx)
      (Pure.pure (ops'.takeAttribute key (value.bytes mem) ctx))

/-- So do the decoders of the items. -/
def SameItem (mem : Contents) (lo hi : ℕ) (item : ItemDecoder W C)
    (item' : ProcWatch.ItemDecoder W C) : Prop :=
  ∀ (r : PbReader) ctx count, r.Within lo hi →
    Refines (Safe lo hi) (· = ·) (item r ctx count) (item' (r.bytes mem) ctx count)

variable {ops : WalkContext W C} {ops' : ProcWatch.WalkContext C} {item : ItemDecoder W C}
  {item' : ProcWatch.ItemDecoder W C} (hhi : hi < 2 ^ 64)
include hhi

theorem refines_scopeName {scope : PbReader} (hscope : scope.Within lo hi) (name : CStr 256) :
    Refines (W := W) (Safe lo hi) (· = ·)
      (pbWhile mem (scopeNameBody mem) (fun name => return name) scope.turns scope name)
      (Pure.pure ((pbFields (scope.bytes mem)).1.foldl scopeStep name)) := by
  refine refines_loop hhi (fun _ fields name => Pure.pure (fields.foldl scopeStep name))
    (S := (· = ·)) hscope rfl (fun _ s s' _ hs => refines_pure hs) ?_
  rintro r field wire name _ ending fields k hr rfl hk
  unfold scopeNameBody
  split
  · refine refines_bytes hhi hr (refines_pure rfl) fun text content r' htext hr' => ?_
    apply (refines_pwCopyStr hr htext 256).bind_value
    rintro _ rfl
    exact hk _ _ _ hr' rfl
  · refine refines_skip hhi hr (refines_pure rfl) fun v r' hwire hr' => ?_
    have hskip : scopeStep name ⟨field, v⟩ = name := by
      unfold scopeStep
      split <;> simp_all [Payload.wire]
    have hnext := hk r' name name hr' rfl
    rw [List.foldl_cons, hskip]
    exact hnext

variable (hops : SameContext mem lo hi ops ops')
include hops

theorem refines_resourceAttributes {res : PbReader} (hres : res.Within lo hi) (ctx : C) :
    Refines (W := W) (Safe lo hi) (· = ·)
      (pbWhile mem (resourceAttributesBody mem ops) (fun ctx => return ctx) res.turns res ctx)
      (Pure.pure ((pbFields (res.bytes mem)).1.foldl (resourceStep ops') ctx)) := by
  refine refines_loop hhi (fun _ fields ctx => Pure.pure (fields.foldl (resourceStep ops') ctx))
    (S := (· = ·)) hres rfl (fun _ s s' _ hs => refines_pure hs) ?_
  rintro r field wire ctx _ ending fields k hr rfl hk
  unfold resourceAttributesBody
  split
  · refine refines_submsg hhi hr (refines_pure rfl) fun kv r' hkv hr' => ?_
    apply (refines_pwParseKv hhi hkv).bind_value
    intro s hs
    rw [List.foldl_cons, resourceStep]
    obtain ⟨key, value⟩ := s
    generalize ProcWatch.pwParseKv (kv.bytes mem) = s' at hs ⊢
    obtain ⟨key', value'⟩ := s'
    obtain ⟨rfl, hvalue⟩ := hs
    dsimp only at hvalue ⊢
    cases hvalue with
    | none => exact hk _ _ _ hr' rfl
    | some hvalue =>
        apply (hops.takeAttribute _ _ ctx hvalue).bind_value
        rintro _ rfl
        exact hk _ _ _ hr' rfl
  · refine refines_skip hhi hr (refines_pure rfl) fun v r' hwire hr' => ?_
    have hskip : resourceStep ops' ctx ⟨field, v⟩ = ctx := by
      unfold resourceStep
      split <;> simp_all [Payload.wire]
    have hnext := hk r' ctx ctx hr' rfl
    rw [List.foldl_cons, hskip]
    exact hnext

variable (hitem : SameItem mem lo hi item item')
include hitem

theorem refines_decodeScope {r : PbReader} (hr : r.Within lo hi) (ctx : C) (count : ℕ) :
    Refines (Safe lo hi) (· = ·) (decodeScope mem ops item r ctx count)
      (ProcWatch.decodeScope ops' item' (r.bytes mem) ctx count) := by
  refine refines_loop hhi (fun ending fields s => scopeLoop ops' item' ending fields s.1 s.2)
    (S := (· = ·)) hr (rfl : (ctx, count) = (ctx, count)) ?_ ?_
  · rintro ending s _ hending rfl
    rw [scopeLoop, if_neg hending]
    exact refines_pure rfl
  · rintro r field wire s _ ending fields k hr rfl hk
    have hfail : Refines (Safe lo hi) (· = ·) (return (-1, s))
        (scopeLoop ops' item' .badValue [] s.1 s.2) := refines_pure rfl
    unfold scopeBody
    split
    · refine refines_submsg hhi hr hfail fun scope r' hscope hr' => ?_
      apply (refines_scopeName hhi hscope _).bind_value
      rintro _ rfl
      have hnext := hk r' _ _ hr' (rfl : (ops.setScopeName
        ((pbFields (scope.bytes mem)).1.foldl scopeStep (ops.scopeName s.1)) s.1, s.2) = _)
      rw [scopeLoop, hops.scopeName]
      exact hnext
    · refine refines_submsg hhi hr hfail fun sub r' hsub hr' => ?_
      dsimp only
      rw [scopeLoop]
      refine (hitem sub s.1 s.2 hsub).bind ?_
      rintro ⟨rc, count⟩ _ rfl
      dsimp only
      split
      · exact refines_pure rfl
      · split
        · exact refines_pure rfl
        · exact hk r' (s.1, count) _ hr' rfl
    · next hscope hspans =>
        refine refines_skip hhi hr hfail fun v r' hwire hr' => ?_
        rw [scopeLoop]
        · exact hk r' s s hr' rfl
        · exact fun _ => ne_of_wire hscope hwire
        · exact fun _ => ne_of_wire hspans hwire

theorem refines_pendingLoop {i : ℕ} {pending : List PbReader} {pending' : List Bytes}
    (hpending : List.Forall₂ (IsReaderOf mem lo hi) pending pending')
    (hroom : i + pending.length ≤ PENDING_SCOPES) (ctx : C) (count : ℕ) :
    Refines (Safe lo hi) (· = ·) (pendingLoop mem ops item ctx i pending count)
      (ProcWatch.pendingLoop ops' item' pending' ctx count) := by
  induction hpending generalizing i ctx count with
  | nil => exact refines_pure rfl
  | @cons scope scope' pending pending' hscope hpending ih =>
      rw [List.length_cons] at hroom
      rw [pendingLoop, ProcWatch.pendingLoop, ← hscope.content]
      apply refines_log (show Safe lo hi (.index i PENDING_SCOPES) from by rw [Safe]; omega)
      refine (refines_decodeScope hhi hops hitem hscope.within ctx count).bind ?_
      rintro ⟨rc, ctx, count⟩ _ rfl
      dsimp only
      split
      · exact refines_pure rfl
      · exact ih (by omega) ctx count

omit hhi hops hitem in
/-- The locals of `decode_resource_spans`. -/
structure SameResource (mem : Contents) (lo hi : ℕ) (s : C × List PbReader × ℕ)
    (s' : C × List Bytes × ℕ) : Prop where
  ctx : s.1 = s'.1
  count : s.2.2 = s'.2.2
  pending : List.Forall₂ (IsReaderOf mem lo hi) s.2.1 s'.2.1
  room : s.2.1.length ≤ PENDING_SCOPES

theorem refines_decodeResource {r : PbReader} (hr : r.Within lo hi) (count : ℕ) :
    Refines (Safe lo hi) (· = ·) (decodeResource mem ops item r count)
      (ProcWatch.decodeResource ops' item' (r.bytes mem) count) := by
  have hstart : SameResource mem lo hi (ops.init, [], count) (ops'.init, [], count) :=
    ⟨hops.init, rfl, .nil, Nat.zero_le _⟩
  refine refines_loop hhi
    (fun ending fields s => resourceLoop ops' item' ending fields s.1 s.2.1 s.2.2)
    (S := SameResource mem lo hi) hr hstart ?_ ?_
  · intro ending s s' hending hs
    have hroom := hs.room
    rw [resourceLoop, if_neg hending, ← hs.ctx, ← hs.count]
    exact refines_pendingLoop hhi hops hitem hs.pending (by omega) _ _
  · intro r field wire s s' ending fields k hr hs hk
    obtain ⟨ctx, pending, count⟩ := s
    obtain ⟨ctx', pending', count'⟩ := s'
    obtain ⟨hctx, hcount, hpending, hroom⟩ := hs
    dsimp only at hctx hcount hpending hroom
    subst hctx hcount
    have hlength := hpending.length_eq
    have hfail : Refines (Safe lo hi) (· = ·) (return (-1, count))
        (resourceLoop ops' item' .badValue [] ctx pending' count) := refines_pure rfl
    unfold resourceBody
    dsimp only
    split
    · refine refines_submsg hhi hr hfail fun res r' hres hr' => ?_
      apply (refines_resourceAttributes hhi hops hres ctx).bind_value
      rintro _ rfl
      exact hk r' _ (_, pending', count) hr' ⟨rfl, rfl, hpending, hroom⟩
    · refine refines_submsg hhi hr hfail fun scope r' hscope hr' => ?_
      rw [resourceLoop]
      by_cases hfull : pending.length < PENDING_SCOPES
      · rw [if_pos hfull, if_pos (hlength ▸ hfull)]
        apply refines_log (show Safe lo hi (.index pending.length PENDING_SCOPES) from hfull)
        have hpending' := List.rel_append hpending
          (List.Forall₂.cons (⟨hscope, rfl⟩ : IsReaderOf mem lo hi scope _) .nil)
        refine hk r' _ (ctx, pending' ++ [scope.bytes mem], count) hr' ⟨rfl, rfl, hpending', ?_⟩
        rw [List.length_append, List.length_singleton]
        exact hfull
      · rw [if_neg hfull, if_neg (hlength ▸ hfull)]
        refine (refines_decodeScope hhi hops hitem hscope ctx count).bind ?_
        rintro ⟨rc, ctx, count⟩ _ rfl
        dsimp only
        split
        · exact refines_pure rfl
        · exact hk r' _ (ctx, pending', count) hr' ⟨rfl, rfl, hpending, hroom⟩
    · next hresource hscope =>
        refine refines_skip hhi hr hfail fun v r' hwire hr' => ?_
        rw [resourceLoop]
        · exact hk r' _ (ctx, pending', count) hr' ⟨rfl, rfl, hpending, hroom⟩
        · exact fun _ => ne_of_wire hresource hwire
        · exact fun _ => ne_of_wire hscope hwire

/-- The payload is the `len` bytes at `data`. -/
theorem refines_decodeRequest {data len : ℕ} (hlen : data + len = hi) (hdata : lo = data) :
    Refines (Safe lo hi) (· = ·) (decodeRequest mem ops item data len)
      (ProcWatch.decodeRequest ops' item' (bytesAt mem data len)) := by
  have hmod : (data + len) % 2 ^ 64 = hi := by
    rw [hlen]
    exact Nat.mod_eq_of_lt hhi
  have hr : PbReader.Within lo hi ⟨data, hi⟩ := ⟨hdata.le, by simp only; omega, le_rfl⟩
  have hbytes : bytesAt mem data len = PbReader.bytes mem ⟨data, hi⟩ := by
    rw [PbReader.bytes, ← hlen, Nat.add_sub_cancel_left]
  rw [decodeRequest, pbReaderInit, add, hbytes]
  apply refines_log (f := fun _ => _) (show Safe lo hi (.add data len) from by rw [Safe]; omega)
  simp only [hmod]
  refine refines_loop hhi (requestLoop ops' item') (S := (· = ·)) hr (rfl : 0 = 0) ?_ ?_
  · rintro ending count _ hending rfl
    rw [requestLoop, if_neg hending]
    exact refines_pure rfl
  · rintro r field wire count _ ending fields k hr rfl hk
    have hfail : Refines (Safe lo hi) (· = ·) (return countOrError count)
        (requestLoop ops' item' .badValue [] count) := refines_pure rfl
    unfold requestBody
    split
    · refine refines_submsg hhi hr hfail fun sub r' hsub hr' => ?_
      rw [requestLoop]
      refine (refines_decodeResource hhi hops hitem hsub count).bind ?_
      rintro ⟨rc, count⟩ _ rfl
      dsimp only
      split
      · exact refines_pure rfl
      · split
        · exact refines_pure rfl
        · exact hk r' count _ hr' rfl
    · next hresource =>
        refine refines_skip hhi hr hfail fun v r' hwire hr' => ?_
        rw [requestLoop]
        · exact hk r' count _ hr' rfl
        · exact fun _ => ne_of_wire hresource hwire

end Walk

/-! ## Metrics -/

section Metrics

variable (hhi : hi < 2 ^ 64)
include hhi

/-- What the decoders of points do with the fields that are left. -/
def pointLoop (step : MetricPoint × Attrs 2048 → Field → MetricPoint × Attrs 2048)
    (sink : MetricPoint → Prog W ℤ) (ending : Ending) (fields : List Field)
    (s : MetricPoint × Attrs 2048) : Prog W ℤ :=
  if ending = .badValue then return -1
  else
    let s := fields.foldl step s
    sink { s.1 with attributesJson := s.2.finish }

omit hhi in
theorem decodePoint_eq (step : MetricPoint × Attrs 2048 → Field → MetricPoint × Attrs 2048)
    (sink : MetricPoint → Prog W ℤ) (point : MetricPoint) (r : Bytes) :
    ProcWatch.decodePoint step sink point r =
      pointLoop step sink (pbFields r).2 (pbFields r).1 (point, Attrs.init 2048) := by
  rw [ProcWatch.decodePoint, readPointMessage, pointLoop]
  dsimp only
  split <;> simp_all

omit hhi in
theorem refines_pointEnd {step : MetricPoint × Attrs 2048 → Field → MetricPoint × Attrs 2048}
    (sink : MetricPoint → Prog W ℤ) (ending : Ending) (s s' : MetricPoint × Attrs 2048)
    (hending : ending ≠ .badValue) (hs : s = s') :
    Refines (Safe lo hi) (· = ·) (lift (sink { s.1 with attributesJson := s.2.finish }))
      (pointLoop step sink ending [] s') := by
  subst hs
  rw [pointLoop, if_neg hending]
  exact refines_lift _

theorem refines_numberPoint (sink : MetricPoint → Prog W ℤ) {r : PbReader} (hr : r.Within lo hi)
    (point : MetricPoint) :
    Refines (Safe lo hi) (· = ·)
      (pbWhile mem (numberPointBody mem)
        (fun s => lift (sink { s.1 with attributesJson := s.2.finish })) r.turns r
        (point, Attrs.init 2048))
      (ProcWatch.decodePoint numberPointStep sink point (r.bytes mem)) := by
  rw [decodePoint_eq]
  refine refines_loop hhi (pointLoop numberPointStep sink) (S := (· = ·)) hr rfl
    (refines_pointEnd sink) ?_
  rintro r field wire s _ ending fields k hr rfl hk
  have hfail : Refines (Safe lo hi) (· = ·) (return -1)
      (pointLoop numberPointStep sink .badValue [] s) := refines_pure rfl
  unfold numberPointBody
  split
  · exact refines_fixed64 hhi hr hfail fun v r' hr' => hk _ _ _ hr' rfl
  · exact refines_fixed64 hhi hr hfail fun v r' hr' => hk _ _ _ hr' rfl
  · exact refines_fixed64 hhi hr hfail fun v r' hr' => hk _ _ _ hr' rfl
  · refine refines_submsg hhi hr hfail fun kv r' hkv hr' => ?_
    apply (refines_decodePointAttrs hhi hkv s.2).bind_value
    rintro _ rfl
    exact hk _ _ _ hr' rfl
  · refine refines_skip hhi hr hfail fun v r' hwire hr' => ?_
    have hskip : numberPointStep s ⟨field, v⟩ = s := by
      unfold numberPointStep
      split <;> simp_all [Payload.wire]
    have hnext := hk r' s s hr' rfl
    rw [pointLoop, List.foldl_cons, hskip]
    exact hnext

theorem refines_histogramPoint (sink : MetricPoint → Prog W ℤ) {r : PbReader}
    (hr : r.Within lo hi) (point : MetricPoint) :
    Refines (Safe lo hi) (· = ·)
      (pbWhile mem (histogramPointBody mem)
        (fun s => lift (sink { s.1 with attributesJson := s.2.finish })) r.turns r
        (point, Attrs.init 2048))
      (ProcWatch.decodePoint histogramPointStep sink point (r.bytes mem)) := by
  rw [decodePoint_eq]
  refine refines_loop hhi (pointLoop histogramPointStep sink) (S := (· = ·)) hr rfl
    (refines_pointEnd sink) ?_
  rintro r field wire s _ ending fields k hr rfl hk
  have hfail : Refines (Safe lo hi) (· = ·) (return -1)
      (pointLoop histogramPointStep sink .badValue [] s) := refines_pure rfl
  unfold histogramPointBody
  split
  · exact refines_fixed64 hhi hr hfail fun v r' hr' => hk _ _ _ hr' rfl
  · exact refines_fixed64 hhi hr hfail fun v r' hr' => hk _ _ _ hr' rfl
  · exact refines_fixed64 hhi hr hfail fun v r' hr' => hk _ _ _ hr' rfl
  · refine refines_submsg hhi hr hfail fun kv r' hkv hr' => ?_
    apply (refines_decodePointAttrs hhi hkv s.2).bind_value
    rintro _ rfl
    exact hk _ _ _ hr' rfl
  · refine refines_skip hhi hr hfail fun v r' hwire hr' => ?_
    have hskip : histogramPointStep s ⟨field, v⟩ = s := by
      unfold histogramPointStep
      split <;> simp_all [Payload.wire]
    have hnext := hk r' s s hr' rfl
    rw [pointLoop, List.foldl_cons, hskip]
    exact hnext

omit hhi in
/-- The kind of a container and its reader. -/
structure SameContainer (mem : Contents) (lo hi : ℕ) (c : Container × PbReader)
    (c' : Container × Bytes) : Prop where
  kind : c.1 = c'.1
  reader : IsReaderOf mem lo hi c.2 c'.2

omit hhi in
/-- The locals of `decode_metric`. -/
structure SameMetric (mem : Contents) (lo hi : ℕ) (m : MetricLocals)
    (m' : ProcWatch.MetricLocals) : Prop where
  name : m.name = m'.name
  description : m.description = m'.description
  unit : m.unit = m'.unit
  pending : List.Forall₂ (SameContainer mem lo hi) m.pending m'.pending
  room : m.pending.length ≤ PENDING_CONTAINERS

theorem refines_decodePoint (sink : MetricPoint → Prog W ℤ) (ctx : MetricContext)
    {m : MetricLocals} {m' : ProcWatch.MetricLocals} (hm : SameMetric mem lo hi m m')
    (kind : Container) {r : PbReader} (hr : r.Within lo hi) :
    Refines (Safe lo hi) (· = ·) (decodePoint mem sink ctx m kind r)
      ((if kind = .histogram then decodeHistogramPoint sink ctx m'
        else decodeNumberPoint sink ctx m' kind) (r.bytes mem)) := by
  have hinit : MetricPoint.init ctx m.texts kind = MetricPoint.init ctx m' kind := by
    simp only [MetricPoint.init, MetricLocals.texts, hm.name, hm.description, hm.unit]
  rw [decodePoint, hinit]
  by_cases hkind : kind = .histogram
  · subst hkind
    exact refines_histogramPoint hhi sink hr _
  · rw [if_neg hkind, if_neg hkind]
    exact refines_numberPoint hhi sink hr _

omit hhi in
theorem refines_push {γ δ : Type} {Q : γ → δ → Prop} {m : MetricLocals}
    {m' : ProcWatch.MetricLocals} (hm : SameMetric mem lo hi m m') (kind : Container)
    {r : PbReader} (hr : r.Within lo hi) {f : MetricLocals → Reading W γ} {n : Prog W δ}
    (hf : ∀ m₁, SameMetric mem lo hi m₁ (m'.push kind (r.bytes mem)) →
      Refines (Safe lo hi) Q (f m₁) n) :
    Refines (Safe lo hi) Q (m.push kind r >>= f) n := by
  obtain ⟨hname, hdescription, hunit, hpending, hroom⟩ := hm
  have hlength := hpending.length_eq
  rw [MetricLocals.push]
  rw [ProcWatch.MetricLocals.push, ← hlength] at hf
  by_cases hfull : m.pending.length < PENDING_CONTAINERS
  · rw [if_pos hfull]
    rw [if_pos hfull] at hf
    have hindex : Safe lo hi (.index m.pending.length PENDING_CONTAINERS) := hfull
    have hadded : SameContainer mem lo hi (kind, r) (kind, r.bytes mem) := ⟨rfl, hr, rfl⟩
    have hpending' := List.rel_append hpending (List.Forall₂.cons hadded .nil)
    have hnext := hf { m with pending := m.pending ++ [(kind, r)] }
      ⟨hname, hdescription, hunit, hpending', by simpa using hfull⟩
    exact refines_log (f := fun _ => _) hindex (refines_log (f := fun _ => _) hindex hnext)
  · rw [if_neg hfull]
    rw [if_neg hfull] at hf
    exact hf m ⟨hname, hdescription, hunit, hpending, hroom⟩

theorem refines_containerLoop {point : PbReader → Reading W ℤ} {point' : Bytes → Prog W ℤ}
    (hpoint : ∀ r : PbReader, r.Within lo hi →
      Refines (Safe lo hi) (· = ·) (point r) (point' (r.bytes mem)))
    {r : PbReader} (hr : r.Within lo hi) (count : ℕ) :
    Refines (Safe lo hi) (· = ·)
      (pbWhile mem (containerBody mem point) (fun count => return (0, count)) r.turns r count)
      (containerLoop point' (pbFields (r.bytes mem)).2 (pbFields (r.bytes mem)).1 count) := by
  refine refines_loop hhi (containerLoop point') (S := (· = ·)) hr (rfl : count = count) ?_ ?_
  · rintro ending count _ hending rfl
    rw [containerLoop, if_neg hending]
    exact refines_pure rfl
  · rintro r field wire count _ ending fields k hr rfl hk
    have hfail : Refines (Safe lo hi) (· = ·) (return (-1, count))
        (containerLoop point' .badValue [] count) := refines_pure rfl
    unfold containerBody
    split
    · refine refines_submsg hhi hr hfail fun sub r' hsub hr' => ?_
      rw [containerLoop]
      refine (hpoint sub hsub).bind ?_
      rintro rc _ rfl
      split
      · exact refines_pure rfl
      · split
        · exact refines_pure rfl
        · exact hk r' (count + 1) _ hr' rfl
    · next hpoints =>
        refine refines_skip hhi hr hfail fun v r' hwire hr' => ?_
        rw [containerLoop]
        · exact hk r' count _ hr' rfl
        · exact fun _ => ne_of_wire hpoints hwire

theorem refines_containersLoop (sink : MetricPoint → Prog W ℤ) (ctx : MetricContext)
    {m : MetricLocals} {m' : ProcWatch.MetricLocals} (hm : SameMetric mem lo hi m m') {i : ℕ}
    {pending : List (Container × PbReader)} {pending' : List (Container × Bytes)}
    (hpending : List.Forall₂ (SameContainer mem lo hi) pending pending')
    (hroom : i + pending.length ≤ PENDING_CONTAINERS) (count : ℕ) :
    Refines (Safe lo hi) (· = ·) (containersLoop mem sink ctx m i pending count)
      (ProcWatch.containersLoop sink ctx m' pending' count) := by
  induction hpending generalizing i count with
  | nil => exact refines_pure rfl
  | @cons c c' pending pending' hc hpending ih =>
      obtain ⟨kind, r⟩ := c
      obtain ⟨kind', content⟩ := c'
      obtain ⟨hkind, hwithin, hcontent⟩ := hc
      dsimp only at hkind hwithin hcontent
      subst hkind hcontent
      rw [List.length_cons] at hroom
      have hindex : Safe lo hi (.index i PENDING_CONTAINERS) := by
        rw [Safe]
        omega
      rw [containersLoop, ProcWatch.containersLoop]
      apply refines_log hindex
      apply refines_log hindex
      refine (refines_containerLoop hhi (fun r hr => refines_decodePoint hhi sink ctx hm kind hr)
        hwithin count).bind ?_
      rintro ⟨rc, count⟩ _ rfl
      dsimp only
      split
      · exact refines_pure rfl
      · exact ih (by omega) count

omit hhi in
/-- What `decode_metric` does with the fields that are left. -/
def metricLoop (sink : MetricPoint → Prog W ℤ) (ctx : MetricContext) (ending : Ending)
    (fields : List Field) (s : ProcWatch.MetricLocals × ℕ) : Prog W (ℤ × ℕ) :=
  let m := fields.foldl metricStep s.1
  if ending = .badValue then return (-1, s.2)
  else if m.name.val = [] then return (0, s.2)
  else ProcWatch.containersLoop sink ctx m m.pending s.2

omit hhi in
theorem decodeMetric_eq (sink : MetricPoint → Prog W ℤ) (r : Bytes) (ctx : MetricContext)
    (count : ℕ) :
    ProcWatch.decodeMetric sink r ctx count = metricLoop sink ctx (pbFields r).2 (pbFields r).1
      (⟨CStr.copy 256 [], CStr.copy 256 [], CStr.copy 64 [], []⟩, count) := rfl

theorem refines_decodeMetric (sink : MetricPoint → Prog W ℤ) :
    SameItem mem lo hi (decodeMetric mem sink) (ProcWatch.decodeMetric sink) := by
  intro r ctx count hr
  rw [decodeMetric_eq]
  refine refines_loop hhi (metricLoop sink ctx)
    (S := fun s s' => SameMetric mem lo hi s.1 s'.1 ∧ s.2 = s'.2) hr
    ⟨⟨rfl, rfl, rfl, .nil, Nat.zero_le _⟩, rfl⟩ ?_ ?_
  · rintro ending ⟨m, count⟩ ⟨m', _⟩ hending ⟨hm, rfl⟩
    have hroom := hm.room
    have hend : metricLoop sink ctx ending [] (m', count) =
        if m'.name.val = [] then return (0, count)
        else ProcWatch.containersLoop sink ctx m' m'.pending count := by
      rw [metricLoop, if_neg hending]
      rfl
    dsimp only at hm hroom ⊢
    rw [hend, hm.name]
    by_cases hname : m'.name.val = []
    · rw [if_pos hname, if_pos hname]
      exact refines_pure rfl
    · rw [if_neg hname, if_neg hname]
      exact refines_containersLoop hhi sink ctx hm hm.pending (by omega) count
  · rintro r field wire ⟨m, count⟩ ⟨m', _⟩ ending fields k hr ⟨hm, rfl⟩ hk
    dsimp only at hm
    have hfail : Refines (Safe lo hi) (· = ·) (return (-1, count))
        (metricLoop sink ctx .badValue [] (m', count)) := refines_pure rfl
    unfold metricBody
    dsimp only
    split
    · refine refines_bytes hhi hr hfail fun b content r' hb hr' => ?_
      apply (refines_pwCopyStr hr hb 256).bind_value
      rintro _ rfl
      exact hk r' _ (_, count) hr' ⟨⟨rfl, hm.description, hm.unit, hm.pending, hm.room⟩, rfl⟩
    · refine refines_bytes hhi hr hfail fun b content r' hb hr' => ?_
      apply (refines_pwCopyStr hr hb 256).bind_value
      rintro _ rfl
      exact hk r' _ (_, count) hr' ⟨⟨hm.name, rfl, hm.unit, hm.pending, hm.room⟩, rfl⟩
    · refine refines_bytes hhi hr hfail fun b content r' hb hr' => ?_
      apply (refines_pwCopyStr hr hb 64).bind_value
      rintro _ rfl
      exact hk r' _ (_, count) hr' ⟨⟨hm.name, hm.description, rfl, hm.pending, hm.room⟩, rfl⟩
    · refine refines_submsg hhi hr hfail fun sub r' hsub hr' => ?_
      exact refines_push hm .gauge hsub fun m₁ hm₁ => hk r' (m₁, count) (_, count) hr' ⟨hm₁, rfl⟩
    · refine refines_submsg hhi hr hfail fun sub r' hsub hr' => ?_
      exact refines_push hm .sum hsub fun m₁ hm₁ => hk r' (m₁, count) (_, count) hr' ⟨hm₁, rfl⟩
    · refine refines_submsg hhi hr hfail fun sub r' hsub hr' => ?_
      exact refines_push hm .histogram hsub fun m₁ hm₁ =>
        hk r' (m₁, count) (_, count) hr' ⟨hm₁, rfl⟩
    · refine refines_skip hhi hr hfail fun v r' hwire hr' => ?_
      have hskip : metricStep m' ⟨field, v⟩ = m' := by
        unfold metricStep
        split <;> simp_all [Payload.wire]
      have hnext := hk r' (m, count) (m', count) hr' ⟨hm, rfl⟩
      rw [metricLoop, List.foldl_cons, hskip]
      exact hnext

end Metrics

/-! ## The decoders -/

section Decoders

variable (hhi : hi < 2 ^ 64)
include hhi

theorem sameContext_span :
    SameContext (W := W) mem lo hi (spanContext mem) ProcWatch.spanContext := by
  refine ⟨rfl, fun _ _ => rfl, fun key value ctx hvalue => ?_⟩
  change Refines _ _ (spanAttribute mem key value ctx)
    (Pure.pure (ProcWatch.spanAttribute key (value.bytes mem) ctx))
  rw [spanAttribute, ProcWatch.spanAttribute]
  split
  · apply (refines_pwAnyValueAsString hhi 256 hvalue).bind_value
    rintro _ rfl
    exact refines_pure rfl
  · split
    · apply (refines_pwAnyValueAsString hhi 100 hvalue).bind_value
      rintro _ rfl
      exact refines_pure rfl
    · exact refines_pure rfl

theorem sameContext_metric :
    SameContext (W := W) mem lo hi (metricContext mem) ProcWatch.metricContext := by
  refine ⟨rfl, fun _ _ => rfl, fun key value ctx hvalue => ?_⟩
  change Refines _ _ (metricAttribute mem key value ctx)
    (Pure.pure (ProcWatch.metricAttribute key (value.bytes mem) ctx))
  rw [metricAttribute, ProcWatch.metricAttribute]
  split
  · apply (refines_pwAnyValueAsString hhi 256 hvalue).bind_value
    rintro _ rfl
    exact refines_pure rfl
  · split
    · apply (refines_pwAnyValueAsString hhi 100 hvalue).bind_value
      rintro _ rfl
      exact refines_pure rfl
    · split
      · apply (refines_pwAnyValueAsString hhi 64 hvalue).bind_value
        rintro _ rfl
        exact refines_pure rfl
      · exact refines_pure rfl

end Decoders

theorem refines_otlpDecodeTraces (sink : Span → Prog W ℤ) {data len : ℕ}
    (hdata : data + len < 2 ^ 64) :
    Refines (Safe data (data + len)) (· = ·) (otlpDecodeTraces mem sink data len)
      (ProcWatch.otlpDecodeTraces sink (bytesAt mem data len)) :=
  refines_decodeRequest hdata (sameContext_span hdata)
    (fun _ ctx count hr => refines_spanItem hdata sink hr ctx count) rfl rfl

theorem refines_otlpDecodeMetrics (sink : MetricPoint → Prog W ℤ) {data len : ℕ}
    (hdata : data + len < 2 ^ 64) :
    Refines (Safe data (data + len)) (· = ·) (otlpDecodeMetrics mem sink data len)
      (ProcWatch.otlpDecodeMetrics sink (bytesAt mem data len)) :=
  refines_decodeRequest hdata (sameContext_metric hdata) (refines_decodeMetric hdata sink) rfl rfl

/-- Wherever a payload lies in memory, its decoders do what those of the list do, and nothing
that is not safe. -/
theorem otlpDecode_safe (payload : Bytes) {data : ℕ} (hdata : data + payload.length < 2 ^ 64)
    (hmem : bytesAt mem data payload.length = payload) (spanSink : Span → Prog W ℤ)
    (metricSink : MetricPoint → Prog W ℤ) (x : Traced W Event) :
    SameRun (Safe data (data + payload.length)) (· = ·) x
        (otlpDecodeTraces mem spanSink data payload.length x)
        (ProcWatch.otlpDecodeTraces spanSink payload x.world) ∧
      SameRun (Safe data (data + payload.length)) (· = ·) x
        (otlpDecodeMetrics mem metricSink data payload.length x)
        (ProcWatch.otlpDecodeMetrics metricSink payload x.world) := by
  have htraces : SameRun _ _ x (otlpDecodeTraces mem spanSink data payload.length x) _ :=
    refines_otlpDecodeTraces spanSink hdata x
  have hmetrics : SameRun _ _ x (otlpDecodeMetrics mem metricSink data payload.length x) _ :=
    refines_otlpDecodeMetrics metricSink hdata x
  rw [hmem] at htraces hmetrics
  exact ⟨htraces, hmetrics⟩

/-- A submessage is announced with the greatest length there is. -/
theorem otlpDecode_safe_greatest :
    let payload : Bytes := [0x0a, 0xff, 0xff, 0xff, 0xff, 0xff, 0xff, 0xff, 0xff, 0xff, 0x01, 0x0a]
    let mem : Contents := fun address => payload.getD (address - 0x1000) 0xff
    SameRun (Safe 0x1000 (0x1000 + payload.length)) (· = ·) ⟨(), []⟩
        (otlpDecodeTraces mem (fun _ => return 0) 0x1000 payload.length ⟨(), []⟩)
        (ProcWatch.otlpDecodeTraces (fun _ => return 0) payload ()) ∧
      SameRun (Safe 0x1000 (0x1000 + payload.length)) (· = ·) ⟨(), []⟩
        (otlpDecodeMetrics mem (fun _ => return 0) 0x1000 payload.length ⟨(), []⟩)
        (ProcWatch.otlpDecodeMetrics (fun _ => return 0) payload ()) :=
  otlpDecode_safe [0x0a, 0xff, 0xff, 0xff, 0xff, 0xff, 0xff, 0xff, 0xff, 0xff, 0x01, 0x0a]
    (by decide) (by decide) (fun _ => return 0) (fun _ => return 0) ⟨(), []⟩

end ProcWatch.Memory

import ProcWatch.Library.Frames
import ProcWatch.Verification.Http.Headers

/-! # Requests and the chunks they arrive in -/

namespace ProcWatch

open CLib

/-! ## The served path -/

theorem signalForPath_of_length {path : Bytes} (h : 16 ≤ path.length) :
    signalForPath path = .unknown := by
  have hlens : (bytes "/v1/traces").length < 16 ∧ (bytes "/v1/metrics").length < 16 ∧
      (bytes "/v1/logs").length < 16 ∧ (bytes "/v1/procmetrics").length < 16 := by
    decide +kernel
  have hne : ∀ known : Bytes, known.length < 16 → path ≠ known := by
    rintro known hlt rfl
    omega
  simp [signalForPath, hne _ hlens.1, hne _ hlens.2.1, hne _ hlens.2.2.1, hne _ hlens.2.2.2]

/-- The connection's copy of the path selects the same signal as the path itself. -/
theorem signalForPath_copy {path : Bytes} (h0 : (0 : Byte) ∉ path) :
    signalForPath (CStr.copy 128 path).val = signalForPath path := by
  by_cases hlen : path.length < 128
  · rw [CStr.copy_val_of_fits h0 hlen]
  · have hcopy : 16 ≤ (CStr.copy 128 path).val.length := by
      rw [CStr.copy_val, cstr_of_nulFree h0, List.length_take]
      omega
    rw [signalForPath_of_length hcopy, signalForPath_of_length (by omega)]

theorem PostRequest.nulFree_path (r : PostRequest) : (0 : Byte) ∉ r.path :=
  fun h => (r.target_oneLine 0 ((List.takeWhile_prefix _).subset h)).1 rfl

/-! ## One delivery -/

/-- The reader gives up on a buffer this long that shows no end of the header block. -/
def overlong (_ buf : Bytes) : Bool :=
  decide (findBlank buf = none ∧ HEADER_MAX < buf.length)

theorem connEnsureCap_eq (c : Conn) (needed : ℕ) :
    connEnsureCap c needed = { c with cap := (connEnsureCap c needed).cap } := by
  unfold connEnsureCap
  split <;> rfl

section Service

variable {σ : Type} (srv : Server σ) (r : PostRequest)

theorem serveBody_of_complete {c : Conn} (hc : c = r.parsed c) {t : Bytes}
    (hbuf : c.buf = r.encode ++ t) (behind : Bytes) (s : σ) :
    ∃ c' s' events, serveBody srv c behind s = (some c', s', events) ∧ c'.buf = t ∧
      c'.headersDone = false ∧ invocations events = (r.invocation srv).toList := by
  have hlength : c.contentLength = r.body.length := by rw [hc]; rfl
  have hoffset : c.bodyOffset = r.head.length := by rw [hc]; rfl
  have hgzip : c.gzip = decide r.Compressed := by rw [hc]; rfl
  have halive : c.keepAlive = true := by rw [hc]; rfl
  have hsig : signalForPath c.path.val = signalForPath r.path := by
    rw [hc]
    exact signalForPath_copy r.nulFree_path
  have henough : ¬ c.buf.length - c.bodyOffset < c.contentLength := by
    rw [hbuf, hoffset, hlength, PostRequest.encode]
    simp
  have hbody : (c.buf.drop c.bodyOffset).take r.body.length = r.body := by
    rw [hbuf, hoffset, PostRequest.encode, List.append_assoc, List.drop_left,
      List.take_left]
  have hrest : c.buf.drop (c.bodyOffset + c.contentLength) = t := by
    rw [hbuf, hoffset, hlength, PostRequest.encode, ← List.length_append, List.drop_left]
  rw [serveBody, if_neg henough]
  simp only [hsig, hgzip, hlength, hbody]
  by_cases hu : signalForPath r.path = .unknown
  · simp [hu, afterDispatch, halive, hrest, invocations, PostRequest.invocation]
  · by_cases hz : r.Compressed ∧ r.body ≠ []
    · cases hi : srv.gzipInflate r.body srv.maxBody <;>
        simp [hu, hz, hi, dispatch, afterDispatch, halive, hrest, invocations,
          PostRequest.invocation]
    · simp [hu, hz, dispatch, afterDispatch, halive, hrest, invocations,
        PostRequest.invocation]

theorem serveBody_of_incomplete {c : Conn} (hc : c = r.parsed c) (hhead : r.head <+: c.buf)
    (hlen : c.buf.length < r.encode.length) (behind : Bytes) (s : σ) :
    ∃ c', serveBody srv c behind s = (some c', s, []) ∧ c'.buf = c.buf ∧ c' = r.parsed c' := by
  have hlength : c.contentLength = r.body.length := by rw [hc]; rfl
  have hoffset : c.bodyOffset = r.head.length := by rw [hc]; rfl
  have hmissing : c.buf.length - c.bodyOffset < c.contentLength := by
    have hle := hhead.length_le
    rw [PostRequest.encode, List.length_append] at hlen
    omega
  rw [serveBody, if_pos hmissing, connEnsureCap_eq]
  refine ⟨_, rfl, rfl, ?_⟩
  rw [hc]
  rfl

/-- Between two deliveries: once the headers of `r` are done, the connection holds what they say. -/
def Within (c : Conn) : Prop :=
  c.headersDone = true → r.head <+: c.buf ∧ c = r.parsed c

/-- The steps of `conn_service` behind `recv`, once the head of `r` is in the buffer. -/
theorem connService_of_head {c : Conn} (hc : Within r c) (hmax : r.body.length ≤ srv.maxBody)
    {chunk : Bytes} (hhead : r.head <+: c.buf ++ chunk) (behind : Bytes) (s : σ) :
    ∃ c', connService srv c (.data chunk) behind s = serveBody srv c' behind s ∧
      c'.buf = c.buf ++ chunk ∧ c' = r.parsed c' := by
  have hbody : r.body.length < 2 ^ 64 := hmax.trans_lt srv.maxBody_lt
  rw [connService, connEnsureCap_eq]
  by_cases hdone : c.headersDone = true
  · simp only [hdone, if_true]
    refine ⟨_, rfl, rfl, ?_⟩
    rw [(hc hdone).2]
    rfl
  · simp only [hdone, Bool.false_eq_true, if_false]
    rw [r.parseHeaders_of_isPrefix hbody (by exact hhead)]
    have hfits : ¬ srv.maxBody < r.body.length := hmax.not_gt
    simp only [PostRequest.parsed, hfits, if_false]
    exact ⟨_, rfl, rfl, rfl⟩

/-- A delivery that completes `r`. -/
theorem connService_of_complete {c : Conn} (hc : Within r c) (hmax : r.body.length ≤ srv.maxBody)
    {chunk : Bytes} (h : r.encode <+: c.buf ++ chunk) (behind : Bytes) (s : σ) :
    ∃ c' s' events, connService srv c (.data chunk) behind s = (some c', s', events) ∧
      c'.buf = (c.buf ++ chunk).drop r.encode.length ∧ c'.headersDone = false ∧
      invocations events = (r.invocation srv).toList := by
  have hhead : r.head <+: c.buf ++ chunk := (List.prefix_append _ _).trans h
  obtain ⟨c', hserve, hbuf, hparsed⟩ := connService_of_head srv r hc hmax hhead behind s
  obtain ⟨t, ht⟩ := h
  rw [hserve, ← ht, List.drop_left]
  exact serveBody_of_complete srv r hparsed (hbuf.trans ht.symm) behind s

/-- A delivery that ends within `r`. -/
theorem connService_of_incomplete {c : Conn} (hc : Within r c)
    (hmax : r.body.length ≤ srv.maxBody) {chunk : Bytes} (h : c.buf ++ chunk <+: r.encode)
    (hlen : (c.buf ++ chunk).length < r.encode.length) (behind : Bytes) (s : σ) :
    (overlong r.encode (c.buf ++ chunk) = true ∧
        connService srv c (.data chunk) behind s = (none, s, [])) ∨
      (overlong r.encode (c.buf ++ chunk) = false ∧
        ∃ c', connService srv c (.data chunk) behind s = (some c', s, []) ∧
          c'.buf = c.buf ++ chunk ∧ Within r c') := by
  by_cases hhead : r.head.length ≤ (c.buf ++ chunk).length
  · have hpre : r.head <+: c.buf ++ chunk :=
      List.prefix_of_prefix_length_le (List.prefix_append _ _) h hhead
    obtain ⟨c', hserve, hbuf, hparsed⟩ := connService_of_head srv r hc hmax hpre behind s
    obtain ⟨c'', hwait, hbuf', hparsed'⟩ := serveBody_of_incomplete srv r hparsed
      (hbuf ▸ hpre) (hbuf ▸ hlen) behind s
    have hblank : overlong r.encode (c.buf ++ chunk) = false := by
      obtain ⟨t, ht⟩ := hpre
      have hfound : findBlank (r.head ++ t) = some (r.toHead.header.length, 4) :=
        r.toHead.findBlank_encode_append t
      simp [overlong, ← ht, hfound]
    right
    refine ⟨hblank, c'', hserve.trans hwait, hbuf'.trans hbuf, fun _ => ⟨?_, hparsed'⟩⟩
    rwa [hbuf', hbuf]
  · have hlt : (c.buf ++ chunk).length < r.head.length := not_le.mp hhead
    have hpre : c.buf ++ chunk <+: r.head :=
      List.prefix_of_prefix_length_le h (List.prefix_append _ _) hlt.le
    have hdone : c.headersDone = false := by
      by_contra hdone
      have hle := (hc (by simpa using hdone)).1.length_le
      rw [List.length_append] at hlt
      omega
    have hblank := r.toHead.findBlank_of_isPrefix hpre hlt
    rw [connService, connEnsureCap_eq]
    simp only [hdone, Bool.false_eq_true, if_false]
    rw [r.toHead.parseHeaders_of_length_lt (by exact hpre) (by exact hlt)]
    by_cases hover : HEADER_MAX < (c.buf ++ chunk).length
    · left
      refine ⟨decide_eq_true ⟨hblank, hover⟩, ?_⟩
      rw [if_pos (by exact hover)]
    · right
      refine ⟨decide_eq_false fun h => hover h.2, ?_⟩
      rw [if_neg (by exact hover)]
      exact ⟨_, rfl, rfl, fun hd => by simp at hd⟩

end Service

/-! ## Whole connections -/

theorem invocations_append (a b : List HttpEvent) :
    invocations (a ++ b) = invocations a ++ invocations b :=
  List.filterMap_append

theorem serve_none {σ : Type} (srv : Server σ) (ds : List Delivery) (s : σ) :
    (serve srv ds none s).2.2 = [] := by
  cases ds <;> rfl

def wire (rs : List PostRequest) : Bytes :=
  rs.flatMap PostRequest.encode

def chunks (ds : List Delivery) : List Bytes :=
  ds.map Delivery.chunk

/-- The server is a reader that takes at most one request off its buffer at each delivery. -/
theorem invocations_serve {σ : Type} (srv : Server σ) {rs : List PostRequest}
    (hmax : ∀ r ∈ rs, r.body.length ≤ srv.maxBody) {ds : List Delivery} {c : Conn}
    (hc : ∀ r ∈ rs.head?, Within r c) (hwire : c.buf ++ (chunks ds).flatten = wire rs) (s : σ) :
    invocations (serve srv ds (some c) s).2.2 =
      (rs.take (Frames.taken overlong (rs.map PostRequest.encode) c.buf (chunks ds))).filterMap
        (PostRequest.invocation srv) := by
  induction ds generalizing rs c s with
  | nil => cases rs <;> simp [serve, invocations, chunks, Frames.taken]
  | cons d ds ih =>
      have hsplit : (c.buf ++ d.chunk) ++ (chunks ds).flatten = wire rs := by
        simpa [chunks] using hwire
      cases rs with
      | nil => simp [wire, d.chunk_ne_nil] at hsplit
      | cons r rs =>
          have hwithin := hc r rfl
          have hr := hmax r (by simp)
          have hrs : ∀ q ∈ rs, q.body.length ≤ srv.maxBody := fun q hq => hmax q (by simp [hq])
          have hcons : (c.buf ++ d.chunk) ++ (chunks ds).flatten = r.encode ++ wire rs := by
            simpa [wire] using hsplit
          simp only [serve, chunks, List.map_cons, Frames.taken]
          by_cases h : r.encode <+: c.buf ++ d.chunk
          · obtain ⟨c', s', events, hstep, hbuf, hdone, hevents⟩ :=
              connService_of_complete srv r hwithin hr h d.behind s
            have hleft : c'.buf ++ (chunks ds).flatten = wire rs := by
              rw [hbuf, ← List.drop_append_of_le_length h.length_le, hcons, List.drop_left]
            have hfresh : ∀ q ∈ rs.head?, Within q c' := by
              intro q _ hd
              simp [hdone] at hd
            rw [if_pos h, hstep, invocations_append, hevents, ih hrs hfresh hleft s', hbuf]
            cases hi : r.invocation srv <;> simp [hi, chunks]
          · have hpre : c.buf ++ d.chunk <+: r.encode := by
              have hfull : c.buf ++ d.chunk <+: r.encode ++ wire rs := hcons ▸ List.prefix_append _ _
              exact (List.prefix_or_prefix_of_prefix hfull (List.prefix_append _ _)).resolve_right h
            have hlen : (c.buf ++ d.chunk).length < r.encode.length := by
              apply lt_of_le_of_ne hpre.length_le
              intro heq
              exact h (hpre.eq_of_length heq ▸ List.prefix_refl _)
            rw [if_neg h]
            cases connService_of_incomplete srv r hwithin hr hpre hlen d.behind s with
            | inl hreset =>
                rw [if_pos hreset.1, hreset.2]
                simp [serve_none, invocations]
            | inr hwait =>
                obtain ⟨hkeep, c', hstep, hbuf, hwithin'⟩ := hwait
                have hhead : ∀ q ∈ (r :: rs).head?, Within q c' := by
                  intro q hq
                  obtain rfl : r = q := by simpa using hq
                  exact hwithin'
                have hrest := ih hmax hhead (hbuf ▸ hsplit) s
                rw [if_neg (by simp [hkeep]), hstep]
                simpa [hbuf, chunks] using hrest

/-- Request `k` is dispatched: every delivery leaves at most as many requests up to it
unfinished as there are deliveries to follow, and none that finds no complete request waiting
leaves an overlong header block in front of it. -/
def Reached (rs : List PostRequest) (ds : List Delivery) (k : ℕ) : Prop :=
  Frames.InTime (rs.map PostRequest.encode) [] (chunks ds) (k + 1) (chunks ds).length ∧
    ∀ j < (chunks ds).length,
      Frames.RefusedAt overlong (rs.map PostRequest.encode) [] (chunks ds) j →
        k < Frames.complete (rs.map PostRequest.encode) (Frames.arrived [] (chunks ds) (j + 1))

theorem reached_iff (rs : List PostRequest) (ds : List Delivery) (k : ℕ) :
    Reached rs ds k ↔
      k < Frames.taken overlong (rs.map PostRequest.encode) [] (chunks ds) :=
  (Frames.le_taken_iff (k + 1)).symm

theorem filterMap_take_eq_iff {α β : Type*} (f : α → Option β) (l : List α) (n : ℕ) :
    (l.take n).filterMap f = l.filterMap f ↔ ∀ k a, l[k]? = some a → f a ≠ none → k < n := by
  induction l generalizing n with
  | nil => simp
  | cons x l ih =>
      cases n with
      | zero =>
          simp only [List.take_zero, List.filterMap_nil, Nat.not_lt_zero]
          constructor
          · intro h k a hka hfa
            have := List.filterMap_eq_nil_iff.mp h.symm a (List.mem_of_getElem? hka)
            exact hfa this
          · intro h
            refine (List.filterMap_eq_nil_iff.mpr fun a ha => ?_).symm
            obtain ⟨k, hk⟩ := List.mem_iff_getElem?.mp ha
            by_contra hfa
            exact h k a hk hfa
      | succ n =>
          have hstep : ((x :: l).take (n + 1)).filterMap f = (x :: l).filterMap f ↔
              (l.take n).filterMap f = l.filterMap f := by
            cases hx : f x <;> simp [hx]
          rw [hstep, ih]
          constructor
          · intro h k a hka hfa
            cases k with
            | zero => omega
            | succ k => exact Nat.succ_lt_succ (h k a (by simpa using hka) hfa)
          · intro h k a hka hfa
            exact Nat.lt_of_succ_lt_succ (h (k + 1) a (by simpa using hka) hfa)

theorem invocations_serve_accepted {σ : Type} (srv : Server σ) {rs : List PostRequest}
    (hmax : ∀ r ∈ rs, r.body.length ≤ srv.maxBody) {ds : List Delivery}
    (hwire : (chunks ds).flatten = wire rs) (s : σ) :
    invocations (serve srv ds (some Conn.accepted) s).2.2 =
      (rs.take (Frames.taken overlong (rs.map PostRequest.encode) [] (chunks ds))).filterMap
        (PostRequest.invocation srv) := by
  have hfresh : ∀ r ∈ rs.head?, Within r Conn.accepted := by
    intro r _ hdone
    simp [Conn.accepted] at hdone
  exact invocations_serve srv hmax hfresh (by simpa [Conn.accepted] using hwire) s

/-- The handler sees every request of the stream, in order, exactly when each one it is to see
is reached. -/
theorem invocations_serve_eq_iff {σ : Type} (srv : Server σ) {rs : List PostRequest}
    (hmax : ∀ r ∈ rs, r.body.length ≤ srv.maxBody) {ds : List Delivery}
    (hwire : (chunks ds).flatten = wire rs) (s : σ) :
    invocations (serve srv ds (some Conn.accepted) s).2.2 =
        rs.filterMap (PostRequest.invocation srv) ↔
      ∀ k r, rs[k]? = some r → r.invocation srv ≠ none → Reached rs ds k := by
  rw [invocations_serve_accepted srv hmax hwire]
  simp only [reached_iff]
  exact filterMap_take_eq_iff _ _ _

theorem oneLine_version : OneLine (bytes "HTTP/1.1") := by decide +kernel

/-- `POST /v1/procmetrics HTTP/1.1` with the body `{}`. -/
def emptyObjectRequest : PostRequest where
  target := bytes "/v1/procmetrics"
  version := bytes "HTTP/1.1"
  headers := [⟨bytes "Content-Length", bytes "2", by decide +kernel, by decide +kernel,
    by decide +kernel⟩]
  body := [0x7b, 0x7d]
  target_oneLine := by decide +kernel
  space_notMem := by decide +kernel
  version_oneLine := oneLine_version
  startLine_lt := by decide +kernel
  header_le := by decide +kernel
  contentLength := by
    intro h hmem _
    obtain rfl := List.mem_singleton.mp hmem
    exact ⟨[], bytes "2", [], by decide +kernel⟩
  body_eq_nil := fun h => absurd (h _ (List.mem_singleton.mpr rfl)) (by decide +kernel)
  keepAlive := by decide +kernel

theorem PostRequest.encode_ne_nil (r : PostRequest) : r.encode ≠ [] := by
  simp [encode, head, CRLF]

def acceptingServer : Server Unit where
  maxBody := 16 * 1024 * 1024
  maxBody_lt := by decide
  handler := fun _ s => (0, s)
  gzipInflate := fun _ _ => none

/-- Each request in a delivery of its own. -/
def oneByOne (rs : List PostRequest) : List Delivery :=
  rs.map fun r => ⟨r.encode, [], r.encode_ne_nil⟩

/-- All requests in one delivery. -/
def allAtOnce (r : PostRequest) (rs : List PostRequest) : List Delivery :=
  [⟨r.encode ++ wire rs, [], by simp [r.encode_ne_nil]⟩]

theorem invocations_serve_eq_iff_two :
    (∀ r ∈ [emptyObjectRequest, emptyObjectRequest], r.body.length ≤ acceptingServer.maxBody) ∧
      invocations (serve acceptingServer (oneByOne [emptyObjectRequest, emptyObjectRequest])
        (some Conn.accepted) ()).2.2 =
          [emptyObjectRequest, emptyObjectRequest].filterMap
            (PostRequest.invocation acceptingServer) := by
  have hmax : ∀ r ∈ [emptyObjectRequest, emptyObjectRequest],
      r.body.length ≤ acceptingServer.maxBody := by
    decide +kernel
  have hwire : (chunks (oneByOne [emptyObjectRequest, emptyObjectRequest])).flatten =
      wire [emptyObjectRequest, emptyObjectRequest] := by
    simp [chunks, oneByOne, wire]
  refine ⟨hmax, (invocations_serve_eq_iff acceptingServer hmax hwire ()).mpr ?_⟩
  intro k r hk _
  have hlt : k < 2 := (List.getElem?_eq_some_iff.mp hk).1
  rw [reached_iff]
  simpa [chunks, oneByOne, Frames.taken] using hlt

/-- Two requests in one segment: the second is carried over and left waiting. -/
theorem not_forall_invocations_serve_eq :
    ¬ ∀ (srv : Server Unit) (rs : List PostRequest),
      (∀ r ∈ rs, r.body.length ≤ srv.maxBody) → ∀ ds ds' : List Delivery,
      (chunks ds).flatten = wire rs → (chunks ds').flatten = wire rs →
      invocations (serve srv ds (some Conn.accepted) ()).2.2 =
        invocations (serve srv ds' (some Conn.accepted) ()).2.2 := by
  intro hall
  have hmax : ∀ r ∈ [emptyObjectRequest, emptyObjectRequest],
      r.body.length ≤ acceptingServer.maxBody := by
    decide +kernel
  have hsplit : (chunks (oneByOne [emptyObjectRequest, emptyObjectRequest])).flatten =
      wire [emptyObjectRequest, emptyObjectRequest] := by
    simp [chunks, oneByOne, wire]
  have hjoined : (chunks (allAtOnce emptyObjectRequest [emptyObjectRequest])).flatten =
      wire [emptyObjectRequest, emptyObjectRequest] := by
    simp [chunks, allAtOnce, wire]
  have h := hall acceptingServer _ hmax _ _ hsplit hjoined
  rw [invocations_serve_accepted acceptingServer hmax hsplit,
    invocations_serve_accepted acceptingServer hmax hjoined] at h
  have hcalled : (PostRequest.invocation acceptingServer emptyObjectRequest).isSome = true := by
    decide +kernel
  obtain ⟨call, hcall⟩ := Option.isSome_iff_exists.mp hcalled
  have hlengths := congrArg List.length h
  simp [chunks, oneByOne, allAtOnce, wire, Frames.taken, hcall] at hlengths

end ProcWatch

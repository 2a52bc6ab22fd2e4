import ProcWatch.Verification.Http.Reuse

/-! # Requests that are acknowledged -/

namespace ProcWatch

open CLib

/-- A handler call or a 2xx status. -/
def HttpEvent.Accepts : HttpEvent → Prop
  | .invoked _ _ => True
  | .responded status _ => 200 ≤ status ∧ status < 300

instance (e : HttpEvent) : Decidable e.Accepts :=
  match e with
  | .invoked _ _ => inferInstanceAs (Decidable True)
  | .responded _ _ => inferInstanceAs (Decidable (_ ∧ _))

def transferEncodingKey : Bytes := bytes "transfer-encoding"

namespace RequestHead

/-- The body is framed by a transfer coding, which overrides `Content-Length`. -/
def TransferCoded (r : RequestHead) : Prop :=
  ∃ h ∈ r.headers, h.Is transferEncodingKey

instance (r : RequestHead) : Decidable r.TransferCoded :=
  inferInstanceAs (Decidable (∃ h ∈ r.headers, _))

/-- The body in the bytes behind the head, inflated if it is compressed. -/
def inflated {σ : Type} (srv : Server σ) (r : RequestHead) (rest : Bytes) : Option Bytes :=
  if r.Compressed ∧ r.contentLength ≠ 0 then
    srv.gzipInflate (rest.take r.contentLength) srv.maxBody
  else some (rest.take r.contentLength)

end RequestHead

/-- The body that the parsed connection finds in the bytes behind the head. -/
def Conn.inflated {σ : Type} (srv : Server σ) (p : Conn) (rest : Bytes) : Option Bytes :=
  if p.gzip = true ∧ p.contentLength ≠ 0 then
    srv.gzipInflate (rest.take p.contentLength) srv.maxBody
  else some (rest.take p.contentLength)

/-! ## What is received, and what is read of it -/

/-- The bytes start with the head of a POST whose body `Content-Length` frames; all its lines end
in CR LF. -/
structure Framed (stream : Bytes) (h : RequestHead) : Prop where
  starts : h.encode <+: stream
  isPost : h.IsPost
  uncoded : ¬ h.TransferCoded
  names : ∀ k ∈ h.headers, Token k.name

/-- What is read of the request in front of the buffer, by the first delivery that shows where its
head ends. -/
def headRead (buf : Bytes) : List Bytes → Option Conn
  | [] => none
  | chunk :: chunks =>
      match parseHeaders (.holding (buf ++ chunk) 0) with
      | .complete p => some p
      | .incomplete => headRead (buf ++ chunk) chunks
      | .malformed => none

section Server

variable {σ : Type} (srv : Server σ)

/-- Whatever is handed over or acknowledged of a request is a POST whose length frames its body,
handed over once and with its complete body. -/
def AcceptedInFull (stream : Bytes) (events : List HttpEvent) : Prop :=
  (∃ e ∈ events, e.Accepts) →
    ∃ h, Framed stream h ∧ h.encode.length + h.contentLength ≤ stream.length ∧
      ∃ body ∈ h.inflated srv (stream.drop h.encode.length),
        invocations events = [(signalForPath h.path, body)]

/-- The head is that of a request for a served path which keeps the server's limits, of which all
that the server waits for is received, and inflates if it is compressed. -/
structure Dispatches (stream : Bytes) (p : Conn) : Prop where
  contentLength_le : p.contentLength ≤ srv.maxBody
  served : signalForPath p.path.val ≠ .unknown
  inflates : p.inflated srv (stream.drop p.bodyOffset) ≠ none
  arrives : p.bodyOffset + p.contentLength ≤ stream.length

def Dispatchable (buf : Bytes) (chunks : List Bytes) : Prop :=
  ∃ p ∈ headRead buf chunks, Dispatches srv (buf ++ chunks.flatten) p

end Server

/-! ## Heads of POST requests -/

namespace RequestHead

variable {r : RequestHead}

/-- What is read from the head of a POST, and what it finds behind itself. -/
theorem parsed_of_isPost {σ : Type} (srv : Server σ) (hpost : r.IsPost) (c : Conn)
    (hle : (r.parsed c).contentLength ≤ srv.maxBody) (hmax : srv.maxBody < 2 ^ 64 - 1)
    (rest : Bytes) :
    (r.parsed c).contentLength = r.contentLength ∧
      signalForPath (r.parsed c).path.val = signalForPath r.path ∧
      (r.parsed c).inflated srv rest = r.inflated srv rest := by
  have hnul : (0 : Byte) ∉ r.path := fun h =>
    (r.target_oneLine 0 ((List.takeWhile_prefix _).subset h)).1 rfl
  have hlength : (r.parsed c).contentLength = r.contentLength := by
    simp only [parsed, awaited, hpost, if_true] at hle ⊢
    omega
  refine ⟨hlength, signalForPath_copy hnul, ?_⟩
  rw [Conn.inflated, hlength, inflated]
  simp only [parsed, hpost, if_true, decide_eq_true_eq]

end RequestHead

/-- A head at the start is what is read. -/
theorem headRead_of_starts {h : RequestHead} {buf : Bytes} {chunks : List Bytes}
    (hstarts : h.encode <+: buf ++ chunks.flatten) {p : Conn} (hp : p ∈ headRead buf chunks) :
    ∃ c, p = h.parsed c := by
  induction chunks generalizing buf with
  | nil => cases hp
  | cons chunk chunks ih =>
      have hsplit : h.encode <+: (buf ++ chunk) ++ chunks.flatten := by
        simpa using hstarts
      obtain ⟨rest, hrest⟩ := hsplit
      have hbuf : (Conn.holding (buf ++ chunk) 0).buf <+: h.encode ++ rest :=
        hrest ▸ List.prefix_append _ _
      have hreads := h.reads_parseHeaders hbuf
      rw [headRead] at hp
      cases hparse : parseHeaders (.holding (buf ++ chunk) 0) with
      | malformed =>
          rw [hparse] at hp
          cases hp
      | incomplete =>
          rw [hparse] at hp
          exact ih ⟨rest, hrest⟩ hp
      | complete q =>
          rw [hparse] at hp hreads
          obtain rfl := Option.some.inj hp
          cases hreads with
          | whole => exact ⟨_, rfl⟩

/-! ## One delivery -/

section Service

variable {σ : Type} (srv : Server σ)

theorem serveBody_of_short {p : Conn} {buf : Bytes} (hoffset : p.bodyOffset ≤ buf.length)
    (hshort : buf.length < p.bodyOffset + p.contentLength) (cap : ℕ) (behind : Bytes) (s : σ) :
    ∃ cap', serveBody srv (p.storing buf cap) behind s = (some (p.storing buf cap'), s, []) := by
  have hhave : (p.storing buf cap).buf.length - (p.storing buf cap).bodyOffset <
      (p.storing buf cap).contentLength := by
    have hfields : (p.storing buf cap).buf = buf ∧ (p.storing buf cap).bodyOffset = p.bodyOffset ∧
        (p.storing buf cap).contentLength = p.contentLength := ⟨rfl, rfl, rfl⟩
    simp only [hfields]
    omega
  rw [serveBody, if_pos hhave, connEnsureCap_eq]
  exact ⟨_, rfl⟩

theorem afterDispatch_events (c : Conn) (s : σ) (events : List HttpEvent) :
    (afterDispatch c s events).2.2 = events := by
  unfold afterDispatch
  split <;> rfl

/-- The answer to a request of which everything awaited has arrived. -/
theorem serveBody_of_enough {p : Conn} {buf : Bytes}
    (henough : p.bodyOffset + p.contentLength ≤ buf.length) (cap : ℕ) (behind : Bytes) (s : σ) :
    (signalForPath p.path.val ≠ .unknown ∧ ∃ body ∈ p.inflated srv (buf.drop p.bodyOffset),
        ∃ status alive, (serveBody srv (p.storing buf cap) behind s).2.2 =
          [.invoked (signalForPath p.path.val) body, .responded status alive]) ∨
      (¬ (signalForPath p.path.val ≠ .unknown ∧
          p.inflated srv (buf.drop p.bodyOffset) ≠ none) ∧
        ∃ status alive, 300 ≤ status ∧
          (serveBody srv (p.storing buf cap) behind s).2.2 = [.responded status alive]) := by
  have hfields : (p.storing buf cap).buf = buf ∧ (p.storing buf cap).bodyOffset = p.bodyOffset ∧
      (p.storing buf cap).contentLength = p.contentLength ∧
      (p.storing buf cap).path = p.path ∧ (p.storing buf cap).gzip = p.gzip :=
    ⟨rfl, rfl, rfl, rfl, rfl⟩
  have hhave : ¬ buf.length - p.bodyOffset < p.contentLength := by omega
  rw [serveBody]
  simp only [hfields, hhave, if_false]
  by_cases hu : signalForPath p.path.val = .unknown
  · rw [if_pos hu]
    exact .inr ⟨by simp [hu], 404, _, by omega, afterDispatch_events _ s _⟩
  · rw [if_neg hu]
    unfold Conn.inflated
    by_cases hz : p.gzip = true ∧ p.contentLength ≠ 0
    · rw [if_pos hz, if_pos hz]
      cases hi : srv.gzipInflate ((buf.drop p.bodyOffset).take p.contentLength) srv.maxBody with
      | none => exact .inr ⟨by simp, 400, _, by omega, afterDispatch_events _ s _⟩
      | some body => exact .inl ⟨hu, body, rfl, _, _, afterDispatch_events _ _ _⟩
    · rw [if_neg hz, if_neg hz]
      exact .inl ⟨hu, _, rfl, _, _, afterDispatch_events _ _ _⟩

/-! ## The answer to a request -/

/-- What the first servicing shows that shows anything. -/
def firstEvents (srv : Server σ) : List Delivery → Conn → σ → List HttpEvent
  | [], _, _ => []
  | d :: ds, c, s =>
      match connService srv c (.data d.chunk) d.behind s with
      | (none, _, events) => events
      | (some c', s', []) => firstEvents srv ds c' s'
      | (some _, _, e :: events) => e :: events

theorem firstEvents_of_shown {d : Delivery} {ds : List Delivery} {c : Conn} {s : σ}
    (h : (connService srv c (.data d.chunk) d.behind s).1 = none ∨
      (connService srv c (.data d.chunk) d.behind s).2.2 ≠ []) :
    firstEvents srv (d :: ds) c s = (connService srv c (.data d.chunk) d.behind s).2.2 := by
  rw [firstEvents]
  rcases hservice : connService srv c (.data d.chunk) d.behind s with ⟨_ | c', s', _ | ⟨e, events⟩⟩
  · rfl
  · rfl
  · simp [hservice] at h
  · rfl

theorem firstEvents_of_waiting {d : Delivery} {ds : List Delivery} {c c' : Conn} {s s' : σ}
    (h : connService srv c (.data d.chunk) d.behind s = (some c', s', [])) :
    firstEvents srv (d :: ds) c s = firstEvents srv ds c' s' := by
  rw [firstEvents, h]

/-- The events are the answer to a request that is dispatched, if one is read, and otherwise none
of them accepts. -/
def Settles (stream : Bytes) (head : Option Conn) (events : List HttpEvent) : Prop :=
  (∃ p ∈ head, Dispatches srv stream p ∧
      ∃ body ∈ p.inflated srv (stream.drop p.bodyOffset), ∃ status alive,
        events = [.invoked (signalForPath p.path.val) body, .responded status alive]) ∨
    (¬ (∃ p ∈ head, Dispatches srv stream p) ∧ ∀ e ∈ events, ¬ e.Accepts)

/-- A delivery with which everything awaited is there. -/
theorem settles_of_enough {p : Conn} (hle : p.contentLength ≤ srv.maxBody) {buf : Bytes}
    (henough : p.bodyOffset + p.contentLength ≤ buf.length) {cap : ℕ} {c : Conn} {d : Delivery}
    {s : σ} (hserve : connService srv c (.data d.chunk) d.behind s =
      serveBody srv (p.storing buf cap) d.behind s) (ds : List Delivery) :
    Settles srv (buf ++ (chunks ds).flatten) (some p) (firstEvents srv (d :: ds) c s) := by
  have hoffset : p.bodyOffset ≤ buf.length := by omega
  have hbody : p.inflated srv ((buf ++ (chunks ds).flatten).drop p.bodyOffset) =
      p.inflated srv (buf.drop p.bodyOffset) := by
    have hroom : p.contentLength ≤ (buf.drop p.bodyOffset).length := by
      rw [List.length_drop]
      omega
    rw [Conn.inflated, Conn.inflated, List.drop_append_of_le_length hoffset,
      List.take_append_of_le_length hroom]
  have harrives : p.bodyOffset + p.contentLength ≤ (buf ++ (chunks ds).flatten).length := by
    rw [List.length_append]
    omega
  rcases serveBody_of_enough srv henough cap d.behind s with
    ⟨hserved, body, hmem, status, alive, hevents⟩ | ⟨hnot, status, alive, hstatus, hevents⟩
  · rw [← hserve] at hevents
    rw [firstEvents_of_shown srv (.inr (by simp [hevents]))]
    refine .inl ⟨p, rfl, ⟨hle, hserved, ?_, harrives⟩, body, hbody ▸ hmem, status, alive, hevents⟩
    rw [hbody, hmem]
    simp
  · rw [← hserve] at hevents
    rw [firstEvents_of_shown srv (.inr (by simp [hevents])), hevents]
    refine .inr ⟨?_, ?_⟩
    · rintro ⟨q, hq, hdispatches⟩
      obtain rfl := Option.some.inj hq
      exact hnot ⟨hdispatches.served, hbody ▸ hdispatches.inflates⟩
    · simp [HttpEvent.Accepts]
      omega

/-- From the delivery on with which the head is there. -/
theorem settles_of_serveBody {p : Conn} (hdone : p.headersDone = true)
    (hle : p.contentLength ≤ srv.maxBody) {buf : Bytes} (hoffset : p.bodyOffset ≤ buf.length)
    {cap : ℕ} {c : Conn} {d : Delivery} {s : σ}
    (hserve : connService srv c (.data d.chunk) d.behind s =
      serveBody srv (p.storing buf cap) d.behind s) (ds : List Delivery) :
    Settles srv (buf ++ (chunks ds).flatten) (some p) (firstEvents srv (d :: ds) c s) := by
  induction ds generalizing buf cap c d with
  | nil =>
      by_cases henough : p.bodyOffset + p.contentLength ≤ buf.length
      · exact settles_of_enough srv hle henough hserve []
      · obtain ⟨cap', hwait⟩ := serveBody_of_short srv hoffset (not_le.mp henough) cap d.behind s
        rw [firstEvents_of_waiting srv (hserve.trans hwait)]
        refine .inr ⟨?_, by simp [firstEvents]⟩
        rintro ⟨q, hq, hdispatches⟩
        obtain rfl := Option.some.inj hq
        exact henough (by simpa [chunks] using hdispatches.arrives)
  | cons e ds ih =>
      by_cases henough : p.bodyOffset + p.contentLength ≤ buf.length
      · exact settles_of_enough srv hle henough hserve (e :: ds)
      · obtain ⟨cap', hwait⟩ := serveBody_of_short srv hoffset (not_le.mp henough) cap d.behind s
        have hnext := connService_storing srv hdone buf cap' rfl e.chunk e.behind s
        have hsplit : buf ++ (chunks (e :: ds)).flatten =
            (buf ++ e.chunk) ++ (chunks ds).flatten := by
          simp [chunks]
        rw [firstEvents_of_waiting srv (hserve.trans hwait), hsplit]
        exact ih (hoffset.trans (by simp)) hnext

/-- A request is answered by a call of the handler exactly if it is dispatched, and otherwise by
nothing that accepts it. -/
theorem settles_firstEvents (buf : Bytes) (cap : ℕ) (ds : List Delivery) (s : σ) :
    Settles srv (buf ++ (chunks ds).flatten) (headRead buf (chunks ds))
      (firstEvents srv ds (.holding buf cap) s) := by
  induction ds generalizing buf cap with
  | nil => exact .inr ⟨by simp [headRead, chunks], by simp [firstEvents]⟩
  | cons d ds ih =>
      have hsplit : buf ++ (chunks (d :: ds)).flatten = (buf ++ d.chunk) ++ (chunks ds).flatten := by
        simp [chunks]
      have hchunks : chunks (d :: ds) = d.chunk :: chunks ds := rfl
      have hservice := connService_holding srv buf cap rfl d.chunk d.behind s
      rw [hsplit, hchunks, headRead]
      cases hparse : parseHeaders (.holding (buf ++ d.chunk) 0) with
      | malformed =>
          simp only [hparse] at hservice
          rw [firstEvents_of_shown srv (.inl (by rw [hservice])), hservice]
          exact .inr ⟨by simp, by simp⟩
      | incomplete =>
          simp only [hparse] at hservice
          rw [firstEvents_of_waiting srv hservice]
          exact ih (buf ++ d.chunk) _
      | complete p =>
          have hread : ReadsHead (buf ++ d.chunk) p := hparse
          obtain ⟨-, hoffset, hdone⟩ := hread.parsedFrom
          simp only [hparse] at hservice
          by_cases hmax : srv.maxBody < p.contentLength
          · rw [if_pos hmax] at hservice
            rw [firstEvents_of_shown srv (.inl (by rw [hservice])), hservice]
            refine .inr ⟨?_, by simp [HttpEvent.Accepts]⟩
            rintro ⟨q, hq, hdispatches⟩
            obtain rfl := Option.some.inj hq
            exact absurd hdispatches.contentLength_le hmax.not_ge
          · rw [if_neg hmax] at hservice
            exact settles_of_serveBody srv hdone (not_lt.mp hmax) hoffset hservice ds

end Service

/-- A POST cut in its head, with the start of another request behind it. -/
def cutPost : List Delivery :=
  [⟨emptyObjectRequest.encode.take 20, [], by decide +kernel⟩,
    ⟨emptyObjectRequest.encode.drop 20 ++ bytes "POST", [], by decide +kernel⟩]

theorem framed_cutPost : Framed (chunks cutPost).flatten emptyObjectRequest.toHead :=
  ⟨by decide +kernel, rfl, by decide +kernel, by decide +kernel⟩

/-- `GET /v1/traces HTTP/1.1` without any header. -/
def getTraces : List Delivery :=
  [⟨bytes "GET /v1/traces HTTP/1.1" ++ (CRLF ++ CRLF), [], by decide +kernel⟩]

theorem not_framed_getTraces (h : RequestHead) : ¬ Framed (chunks getTraces).flatten h := by
  intro hframed
  have hpost : bytes "POST" <+: h.encode := by
    rw [RequestHead.encode, RequestHead.header, RequestHead.startLine,
      show h.method = bytes "POST" from hframed.isPost]
    simp
  exact absurd (hpost.trans hframed.starts) (by decide +kernel)

end ProcWatch

import ProcWatch.Verification.Http.Segmentation

/-! # A connection that is used again -/

namespace ProcWatch

open CLib

/-! ## Connections that differ in their capacity -/

/-- The same connection, with another size of its buffer. -/
def Conn.withCap (c : Conn) (cap : ℕ) : Conn :=
  { c with cap := cap }

def Parsed.withCap (cap : ℕ) : Parsed → Parsed
  | .complete c => .complete (c.withCap cap)
  | .incomplete => .incomplete
  | .malformed => .malformed

theorem parseRequest_withCap (header : Bytes) (sep : ℕ) (c : Conn) (cap : ℕ) :
    parseRequest header sep (c.withCap cap) = (parseRequest header sep c).withCap cap := by
  have hstored : c.withCap cap = c.storing c.buf cap := rfl
  rw [hstored, parseRequest_storing]
  cases hparse : parseRequest header sep c with
  | malformed => rfl
  | incomplete => rfl
  | complete p =>
      rw [← (parseRequest_parsedFrom hparse).buf]
      rfl

theorem parseHeaders_withCap (c : Conn) (cap : ℕ) :
    parseHeaders (c.withCap cap) = (parseHeaders c).withCap cap := by
  have hbuf : (c.withCap cap).buf = c.buf := rfl
  rw [parseHeaders, parseHeaders, hbuf]
  cases findBlank c.buf with
  | none =>
      simp only
      split <;> rfl
  | some x =>
      simp only [parseRequest_withCap]
      split <;> rfl

/-! ## Services that go the same way -/

section Service

variable {σ : Type} (R : σ → σ → Prop) (srv : Server σ)

/-- The connections agree but for their capacity, the states of the handler are related, and
the handler calls and responses are the same. -/
structure SameService (x y : Serviced σ) : Prop where
  conn : (x.1 = none ∧ y.1 = none) ∨ ∃ c cap, x.1 = some c ∧ y.1 = some (c.withCap cap)
  state : R x.2.1 y.2.1
  events : x.2.2 = y.2.2

/-- The handler makes the same of two requests that differ at most in the memory behind the
body, here `x ++ y` and `x ++ y'`. -/
def HandlesAlike (y y' : Bytes) : Prop :=
  ∀ signal path body x s s', R s s' →
    (srv.handler ⟨signal, path, body, x ++ y⟩ s).1 =
        (srv.handler ⟨signal, path, body, x ++ y'⟩ s').1 ∧
      R (srv.handler ⟨signal, path, body, x ++ y⟩ s).2
        (srv.handler ⟨signal, path, body, x ++ y'⟩ s').2

variable {R srv}

theorem sameService_some (c : Conn) (cap : ℕ) {s s' : σ} (hs : R s s') (events : List HttpEvent) :
    SameService R (some c, s, events) (some (c.withCap cap), s', events) :=
  ⟨.inr ⟨c, cap, rfl, rfl⟩, hs, rfl⟩

theorem sameService_none {s s' : σ} (hs : R s s') (events : List HttpEvent) :
    SameService R (none, s, events) (none, s', events) :=
  ⟨.inl ⟨rfl, rfl⟩, hs, rfl⟩

theorem sameService_ensureCap (c : Conn) (cap needed : ℕ) {s s' : σ} (hs : R s s') :
    SameService R (some (connEnsureCap c needed), s, [])
      (some (connEnsureCap (c.withCap cap) needed), s', []) := by
  have hleft := connEnsureCap_eq c needed
  have hright := connEnsureCap_eq (c.withCap cap) needed
  refine ⟨.inr ⟨_, (connEnsureCap (c.withCap cap) needed).cap, rfl, ?_⟩, hs, rfl⟩
  rw [hleft, hright]
  rfl

theorem sameService_afterDispatch (c : Conn) (cap : ℕ) {s s' : σ} (hs : R s s')
    (events : List HttpEvent) :
    SameService R (afterDispatch c s events) (afterDispatch (c.withCap cap) s' events) := by
  have halive : (c.withCap cap).keepAlive = c.keepAlive := rfl
  rw [afterDispatch, afterDispatch, halive]
  cases c.keepAlive with
  | false => exact sameService_none hs events
  | true => exact sameService_some _ cap hs events

theorem sameService_dispatch {y y' : Bytes} (hh : HandlesAlike R srv y y') (c : Conn) (cap : ℕ)
    (sig : Signal) (body x : Bytes) {s s' : σ} (hs : R s s') :
    SameService R (dispatch srv c sig body (x ++ y) s)
      (dispatch srv (c.withCap cap) sig body (x ++ y') s') := by
  obtain ⟨hrc, hstate⟩ := hh sig c.path.val body x s s' hs
  have hpath : (c.withCap cap).path = c.path := rfl
  have halive : (c.withCap cap).keepAlive = c.keepAlive := rfl
  rw [dispatch, dispatch, hpath, halive, hrc]
  exact sameService_afterDispatch c cap hstate _

theorem sameService_serveBody {y y' : Bytes} (hh : HandlesAlike R srv y y') (c : Conn) (cap : ℕ)
    {s s' : σ} (hs : R s s') :
    SameService R (serveBody srv c y s) (serveBody srv (c.withCap cap) y' s') := by
  have hfields : (c.withCap cap).buf = c.buf ∧ (c.withCap cap).bodyOffset = c.bodyOffset ∧
      (c.withCap cap).contentLength = c.contentLength ∧ (c.withCap cap).path = c.path ∧
      (c.withCap cap).keepAlive = c.keepAlive ∧ (c.withCap cap).gzip = c.gzip :=
    ⟨rfl, rfl, rfl, rfl, rfl, rfl⟩
  obtain ⟨hbuf, hoffset, hlength, hpath, halive, hgzip⟩ := hfields
  rw [serveBody, serveBody, hbuf, hoffset, hlength, hpath, halive, hgzip]
  split
  · exact sameService_ensureCap c cap _ hs
  · dsimp only
    split
    · exact sameService_afterDispatch c cap hs _
    · split
      · cases srv.gzipInflate ((c.buf.drop c.bodyOffset).take c.contentLength) srv.maxBody with
        | none => exact sameService_afterDispatch c cap hs _
        | some inflated => exact sameService_dispatch hh c cap _ inflated [] hs
      · exact sameService_dispatch hh c cap _ _ _ hs

/-- The part of `conn_service` behind `recv`. -/
def received (srv : Server σ) (c : Conn) (behind : Bytes) (s : σ) : Serviced σ :=
  if c.headersDone then serveBody srv c behind s
  else
    match parseHeaders c with
    | .malformed => (none, s, [])
    | .incomplete => (some c, s, [])
    | .complete c =>
        if srv.maxBody < c.contentLength then (none, s, [.responded 413 false])
        else serveBody srv c behind s

theorem sameService_received {y y' : Bytes} (hh : HandlesAlike R srv y y') (c : Conn) (cap : ℕ)
    {s s' : σ} (hs : R s s') :
    SameService R (received srv c y s) (received srv (c.withCap cap) y' s') := by
  have hdone : (c.withCap cap).headersDone = c.headersDone := rfl
  rw [received, received, hdone, parseHeaders_withCap]
  split
  · exact sameService_serveBody hh c cap hs
  · cases parseHeaders c with
    | malformed => exact sameService_none hs []
    | incomplete => exact sameService_some c cap hs []
    | complete c =>
        have hlength : (c.withCap cap).contentLength = c.contentLength := rfl
        simp only [Parsed.withCap, hlength]
        split
        · exact sameService_none hs _
        · exact sameService_serveBody hh c cap hs

theorem connService_data (c : Conn) (chunk behind : Bytes) (s : σ) :
    connService srv c (.data chunk) behind s =
      received srv
        (Conn.withCap { c with buf := c.buf ++ chunk }
          (connEnsureCap c (c.buf.length + 4096)).cap) behind s := by
  rw [connService, connEnsureCap_eq]
  rfl

variable (srv) in
/-- A delivery to a connection that has not read a head yet. -/
theorem connService_holding (buf : Bytes) (cap : ℕ) {room : ℕ}
    (hroom : (connEnsureCap (.holding buf cap) (buf.length + 4096)).cap = room)
    (chunk behind : Bytes) (s : σ) :
    connService srv (.holding buf cap) (.data chunk) behind s =
      match parseHeaders (.holding (buf ++ chunk) 0) with
      | .malformed => (none, s, [])
      | .incomplete => (some (.holding (buf ++ chunk) room), s, [])
      | .complete p =>
          if srv.maxBody < p.contentLength then (none, s, [.responded 413 false])
          else serveBody srv (p.storing (buf ++ chunk) room) behind s := by
  have hfilled : Conn.withCap
      { Conn.holding buf cap with buf := (Conn.holding buf cap).buf ++ chunk } room =
        (Conn.holding (buf ++ chunk) 0).withCap room := rfl
  have hdone : ((Conn.holding (buf ++ chunk) 0).withCap room).headersDone = false := rfl
  have hlen : (Conn.holding buf cap).buf.length = buf.length := rfl
  rw [connService_data, hlen, hroom, hfilled, received, if_neg (by rw [hdone]; decide),
    parseHeaders_withCap]
  cases hread : parseHeaders (.holding (buf ++ chunk) 0) with
  | malformed => rfl
  | incomplete => rfl
  | complete p =>
      have hstored : p.withCap room = p.storing (buf ++ chunk) room := by
        obtain ⟨_, -, -, hfrom⟩ := parseHeaders_parsedFrom hread
        have hbuf : p.buf = buf ++ chunk := hfrom.buf
        rw [← hbuf]
        rfl
      simp only [Parsed.withCap, hstored]
      rfl

variable (srv) in
/-- A delivery behind the head. -/
theorem connService_storing {p : Conn} (hdone : p.headersDone = true) (buf : Bytes) (cap : ℕ)
    {room : ℕ}
    (hroom : (connEnsureCap (p.storing buf cap) (buf.length + 4096)).cap = room)
    (chunk behind : Bytes) (s : σ) :
    connService srv (p.storing buf cap) (.data chunk) behind s =
      serveBody srv (p.storing (buf ++ chunk) room) behind s := by
  have hlen : (p.storing buf cap).buf.length = buf.length := rfl
  rw [connService_data, hlen, hroom, received, if_pos (by exact hdone)]
  rfl

/-- One delivery, to connections that then hold the same. -/
theorem sameService_connService {y y' : Bytes} (hh : HandlesAlike R srv y y') {c c' : Conn}
    {chunk chunk' : Bytes} {cap : ℕ}
    (hsame : Conn.withCap { c with buf := c.buf ++ chunk } cap =
      Conn.withCap { c' with buf := c'.buf ++ chunk' } cap) {s s' : σ} (hs : R s s') :
    SameService R (connService srv c (.data chunk) y s) (connService srv c' (.data chunk') y' s') := by
  rw [connService_data, connService_data]
  have hfresh := congrArg (Conn.withCap · (connEnsureCap c' (c'.buf.length + 4096)).cap) hsame
  have hright : Conn.withCap { c' with buf := c'.buf ++ chunk' }
      (connEnsureCap c' (c'.buf.length + 4096)).cap =
        (Conn.withCap { c with buf := c.buf ++ chunk }
          (connEnsureCap c (c.buf.length + 4096)).cap).withCap
            (connEnsureCap c' (c'.buf.length + 4096)).cap := hfresh.symm
  rw [hright]
  exact sameService_received hh _ _ hs

/-- Deliveries of the same chunks; the memory behind them may differ. -/
def SameChunks (R : σ → σ → Prop) (srv : Server σ) : List Delivery → List Delivery → Prop :=
  List.Forall₂ fun d d' => d.chunk = d'.chunk ∧ HandlesAlike R srv d.behind d'.behind

theorem SameService.serve {ds ds' : List Delivery} (hds : SameChunks R srv ds ds')
    {x y : Serviced σ} (h : SameService R x y) :
    SameService R (serve srv ds x.1 x.2.1) (serve srv ds' y.1 y.2.1) := by
  unfold SameChunks at hds
  induction hds generalizing x y with
  | nil => exact ⟨h.conn, h.state, rfl⟩
  | @cons d d' ds ds' hd _ ih =>
      obtain ⟨hchunk, hh⟩ := hd
      rcases h.conn with ⟨hx, hy⟩ | ⟨c, cap, hx, hy⟩
      · rw [hx, hy]
        exact sameService_none h.state []
      · rw [hx, hy]
        have hsame : Conn.withCap { c with buf := c.buf ++ d.chunk } cap =
            Conn.withCap { c.withCap cap with buf := (c.withCap cap).buf ++ d'.chunk } cap := by
          rw [← hchunk]
          rfl
        have hstep : SameService R (connService srv c (.data d.chunk) d.behind x.2.1)
            (connService srv (c.withCap cap) (.data d'.chunk) d'.behind y.2.1) :=
          sameService_connService hh hsame h.state
        have hrest := ih hstep
        refine ⟨hrest.conn, hrest.state, ?_⟩
        simp only [ProcWatch.serve, hstep.events, hrest.events]

/-! ## Right after a response -/

theorem holding_of_afterDispatch {c c' : Conn} {s s' : σ} {events events' : List HttpEvent}
    (h : afterDispatch c s events = (some c', s', events')) : c' = .holding c'.buf c'.cap := by
  rw [afterDispatch] at h
  cases halive : c.keepAlive with
  | false => simp [halive] at h
  | true =>
      simp only [halive, Bool.not_true, Bool.false_eq_true, if_false, Prod.mk.injEq,
        Option.some.injEq] at h
      rw [← h.1]
      rfl

theorem holding_of_serveBody {c c' : Conn} {behind : Bytes} {s s' : σ} {events : List HttpEvent}
    (h : serveBody srv c behind s = (some c', s', events)) (hne : events ≠ []) :
    c' = .holding c'.buf c'.cap := by
  rw [serveBody] at h
  split at h
  · obtain ⟨-, h⟩ := Prod.mk.inj h
    exact absurd (Prod.mk.inj h).2.symm hne
  · dsimp only at h
    split at h
    · exact holding_of_afterDispatch h
    · split at h
      · split at h
        · exact holding_of_afterDispatch h
        · exact holding_of_afterDispatch h
      · exact holding_of_afterDispatch h

theorem holding_of_connService {c c' : Conn} {r : Recv} {behind : Bytes} {s s' : σ}
    {events : List HttpEvent} (h : connService srv c r behind s = (some c', s', events))
    (hne : events ≠ []) : c' = .holding c'.buf c'.cap := by
  have hquiet {o : Option Conn} {t : σ} (h : (o, t, ([] : List HttpEvent)) = (some c', s', events)) :
      c' = .holding c'.buf c'.cap :=
    absurd (Prod.mk.inj (Prod.mk.inj h).2).2.symm hne
  cases r with
  | closed => exact hquiet h
  | again => exact hquiet h
  | error => exact hquiet h
  | data chunk =>
      rw [connService_data, received] at h
      split at h
      · exact holding_of_serveBody h hne
      · split at h
        · exact hquiet h
        · exact hquiet h
        · split at h
          · simp at h
          · exact holding_of_serveBody h hne

/-- The delivery with bytes in front of its chunk. -/
def Delivery.behindBytes (b : Bytes) (d : Delivery) : Delivery where
  chunk := b ++ d.chunk
  behind := d.behind
  chunk_ne_nil := by simp [d.chunk_ne_nil]

theorem serve_holding {buf : Bytes} {cap : ℕ} {d d' : Delivery} {ds ds' : List Delivery}
    (hd : d.chunk = d'.chunk ∧ HandlesAlike R srv d.behind d'.behind)
    (hds : SameChunks R srv ds ds') {s s' : σ} (hs : R s s') :
    SameService R (serve srv (d :: ds) (some (.holding buf cap)) s)
      (serve srv (d'.behindBytes buf :: ds') (some Conn.accepted) s') := by
  have hsame : Conn.withCap { Conn.holding buf cap with buf := (Conn.holding buf cap).buf ++ d.chunk }
      cap = Conn.withCap { Conn.accepted with
        buf := Conn.accepted.buf ++ (d'.behindBytes buf).chunk } cap := by
    rw [hd.1]
    rfl
  have hstep : SameService R (connService srv (.holding buf cap) (.data d.chunk) d.behind s)
      (connService srv Conn.accepted (.data (d'.behindBytes buf).chunk)
        (d'.behindBytes buf).behind s') :=
    sameService_connService hd.2 hsame hs
  have hrest := hstep.serve hds
  refine ⟨hrest.conn, hrest.state, ?_⟩
  simp only [serve, hstep.events, hrest.events]

/-- Right after a response the connection goes on as an accepted one would that receives the
bytes left over together with what comes next: with the same memory behind the received bytes,
and with any for a handler that makes nothing of it. -/
theorem serve_reused {c c' : Conn} {r : Recv} {behind : Bytes} {s₀ s₁ : σ}
    {events : List HttpEvent} (hserved : connService srv c r behind s₀ = (some c', s₁, events))
    (hresponded : events ≠ []) (d : Delivery) (ds : List Delivery) :
    (∀ s, SameService (· = ·) (serve srv (d :: ds) (some c') s)
        (serve srv (d.behindBytes c'.buf :: ds) (some Conn.accepted) s)) ∧
      ∀ (R : σ → σ → Prop), (∀ y y', HandlesAlike R srv y y') → ∀ d' ds' s s', R s s' →
        chunks (d :: ds) = chunks (d' :: ds') →
          SameService R (serve srv (d :: ds) (some c') s)
            (serve srv (d'.behindBytes c'.buf :: ds') (some Conn.accepted) s') := by
  have hholding := holding_of_connService hserved hresponded
  generalize c'.buf = buf at hholding ⊢
  generalize c'.cap = cap at hholding
  subst hholding
  constructor
  · intro s
    have hequal (y : Bytes) : HandlesAlike (· = ·) srv y y := by
      rintro signal path body x t _ rfl
      exact ⟨rfl, rfl⟩
    exact serve_holding ⟨rfl, hequal _⟩
      (List.forall₂_same.mpr fun _ _ => ⟨rfl, hequal _⟩) rfl
  · intro R hblind d' ds' s s' hs hchunks
    obtain ⟨hchunk, hrest⟩ := List.cons.inj hchunks
    refine serve_holding ⟨hchunk, hblind _ _⟩ ?_ hs
    have hequal : List.Forall₂ (· = ·) (ds.map Delivery.chunk) (ds'.map Delivery.chunk) := by
      rw [List.forall₂_eq_eq_eq]
      exact hrest
    rw [List.forall₂_map_left_iff, List.forall₂_map_right_iff] at hequal
    exact hequal.imp fun _ _ h => ⟨h, hblind _ _⟩

end Service

/-- A server to which compressed bodies are as they are. -/
def plainServer : Server Unit :=
  { acceptingServer with gzipInflate := fun body _ => some body }

/-- A compressed request for traces, and the beginning of one for metrics. -/
def tracesAndMore : Bytes :=
  bytes "POST /v1/traces HTTP/1.1\r\nContent-Encoding: gzip\r\nContent-Length: 2\r\n\r\nab" ++
    bytes "POST /v1/met"

/-- The rest of the second request, and one without a body. -/
def metricsRest : Delivery :=
  ⟨bytes "rics HTTP/1.1\r\nContent-Length: 3\r\n\r\nc", [], by decide +kernel⟩

def bodyRest : List Delivery :=
  [⟨bytes "dePOST /\n", [], by decide +kernel⟩, ⟨bytes "\n", [], by decide +kernel⟩]

deriving instance DecidableEq for Conn

theorem connService_tracesAndMore :
    connService plainServer Conn.accepted (.data tracesAndMore) [] () =
      (some (.holding (bytes "POST /v1/met") 8192), (),
        [.invoked .traces (bytes "ab"), .responded 200 true]) := by
  decide +kernel

theorem serve_reused_traces :
    (∀ s, SameService (· = ·)
        (serve plainServer (metricsRest :: bodyRest)
          (some (.holding (bytes "POST /v1/met") 8192)) s)
        (serve plainServer (metricsRest.behindBytes (bytes "POST /v1/met") :: bodyRest)
          (some Conn.accepted) s)) ∧
      ∀ (R : Unit → Unit → Prop), (∀ y y', HandlesAlike R plainServer y y') →
        ∀ d' ds' s s', R s s' → chunks (metricsRest :: bodyRest) = chunks (d' :: ds') →
          SameService R
            (serve plainServer (metricsRest :: bodyRest)
              (some (.holding (bytes "POST /v1/met") 8192)) s)
            (serve plainServer (d'.behindBytes (bytes "POST /v1/met") :: ds')
              (some Conn.accepted) s') :=
  serve_reused connService_tracesAndMore (by decide) metricsRest bodyRest

end ProcWatch

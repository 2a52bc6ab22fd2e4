import ProcWatch.Library.Numerals

/-! # HTTP server connections (`http_server.c`) -/

namespace ProcWatch

open CLib

/-- `pw_signal_t` -/
inductive Signal where
  | unknown
  | traces
  | metrics
  | logs
  | procmetrics
  deriving DecidableEq

/-- `pw_http_request_t`, with the memory that follows the body. -/
structure HttpRequest where
  signal : Signal
  path : Bytes
  body : Bytes
  after : Bytes

def HEADER_MAX : ℕ := 16384

def CONN_INITIAL_CAP : ℕ := 8192

/-- `pw_conn_t` of an open connection; `buf` holds the first `len` bytes of its buffer. -/
structure Conn where
  buf : Bytes
  cap : ℕ
  headersDone : Bool
  bodyOffset : ℕ
  contentLength : ℕ
  gzip : Bool
  keepAlive : Bool
  path : CStr 128

/-- A slot as `accept_new` fills it. -/
def Conn.accepted : Conn where
  buf := []
  cap := 0
  headersDone := false
  bodyOffset := 0
  contentLength := 0
  gzip := false
  keepAlive := true
  path := CStr.copy 128 []

/-! ## Header parsing -/

def lowerByte (b : Byte) : Byte :=
  if 0x41 ≤ b && b ≤ 0x5a then b - 0x41 + 0x61 else b

def ciStartsWith (s start : Bytes) : Bool :=
  (s.take start.length).map lowerByte == start.map lowerByte

def skipWs (s : Bytes) : Bytes :=
  s.dropWhile fun b => b == 0x20 || b == 0x09

def signalForPath (path : Bytes) : Signal :=
  if path = bytes "/v1/traces" then .traces
  else if path = bytes "/v1/metrics" then .metrics
  else if path = bytes "/v1/logs" then .logs
  else if path = bytes "/v1/procmetrics" then .procmetrics
  else .unknown

def CRLF : Bytes := [0x0d, 0x0a]

/-- End of the header block: its offset and the length of the separator. -/
def findBlank (buf : Bytes) : Option (ℕ × ℕ) :=
  match find (CRLF ++ CRLF) buf with
  | some i => some (i, 4)
  | none => (find [0x0a, 0x0a] buf).map fun i => (i, 2)

/-- Offset of the line end in a C string. -/
def findEol (s : Bytes) : Option ℕ :=
  match strstr s CRLF with
  | some i => some i
  | none => strchr s 0x0a

def skipEol (s : Bytes) : Bytes :=
  s.dropWhile fun b => b == 0x0d || b == 0x0a

/-- The header line at the cursor. -/
def parseHeader (cursor : Bytes) (c : Conn) : Conn :=
  if ciStartsWith cursor (bytes "content-length:") then
    { c with contentLength := strtoull (skipWs (cursor.drop 15)) }
  else if ciStartsWith cursor (bytes "content-encoding:") then
    let v := skipWs (cursor.drop 17)
    if ciStartsWith v (bytes "gzip") || ciStartsWith v (bytes "deflate") then
      { c with gzip := true }
    else c
  else if ciStartsWith cursor (bytes "connection:") then
    if ciStartsWith (skipWs (cursor.drop 11)) (bytes "close") then { c with keepAlive := false }
    else c
  else c

/-- The loop over the header lines; `cursor` is a C string. -/
def headerLoop : ℕ → Bytes → Conn → Conn
  | 0, _, c => c
  | fuel + 1, cursor, c =>
      if cursor = [] then c
      else
        let c := parseHeader cursor c
        match findEol cursor with
        | none => c
        | some n => headerLoop fuel (skipEol (cursor.drop n)) c

/-- `strchr(s, c)` and a NUL in its place: the string up to `c`. -/
def cutAt (c : Byte) (s : Bytes) : Bytes :=
  s.takeWhile (· ≠ c)

inductive Parsed where
  | complete (c : Conn)
  | incomplete
  | malformed

/-- The request line and headers in `header`, which `sep` bytes separate from the body. -/
def parseRequest (header : Bytes) (sep : ℕ) (c : Conn) : Parsed :=
  let lineEnd := findEol header
  let lineLen := lineEnd.getD header.length
  if 512 ≤ lineLen then .malformed
  else
    let line := header.take lineLen
    match strchr line 0x20 with
    | none => .malformed
    | some sp1 =>
        let path := cutAt 0x3f (cutAt 0x20 (cstr (line.drop (sp1 + 1))))
        let c := { c with path := CStr.copy 128 path }
        if line.take sp1 ≠ bytes "POST" then
          .complete { c with
            bodyOffset := header.length + sep
            contentLength := 0
            headersDone := true
            keepAlive := false }
        else
          let c := { c with contentLength := 0, gzip := false, keepAlive := true }
          let c :=
            match lineEnd with
            | none => c
            | some n =>
                let cursor := skipEol (cstr (header.drop n))
                headerLoop cursor.length cursor c
          .complete { c with bodyOffset := header.length + sep, headersDone := true }

/-- `parse_headers(c)` -/
def parseHeaders (c : Conn) : Parsed :=
  match findBlank c.buf with
  | none => if HEADER_MAX < c.buf.length then .malformed else .incomplete
  | some (headerLen, sep) =>
      if HEADER_MAX < headerLen then .malformed
      else parseRequest (c.buf.take headerLen) sep c

/-! ## Connection servicing -/

/-- What the connection shows to the outside: handler calls and responses. -/
inductive HttpEvent where
  | invoked (signal : Signal) (body : Bytes)
  | responded (status : ℕ) (keepAlive : Bool)
  deriving DecidableEq

/-- The server: its limit, its handler over a state, and `gzip_inflate` up to that limit. -/
structure Server (σ : Type) where
  maxBody : ℕ
  maxBody_lt : maxBody < 2 ^ 64
  handler : HttpRequest → σ → ℤ × σ
  gzipInflate : Bytes → ℕ → Option Bytes

/-- What `recv` returns. -/
inductive Recv where
  | data (chunk : Bytes)
  | closed
  | again
  | error

/-- The connection afterwards (`none` once it is reset), the handler's state and the events. -/
abbrev Serviced (σ : Type) := Option Conn × σ × List HttpEvent

/-- Doubling from the present capacity, or the initial one, until `needed` bytes fit. -/
def growCap : ℕ → ℕ → ℕ → ℕ
  | 0, cap, _ => cap
  | fuel + 1, cap, needed => if cap < needed then growCap fuel (cap * 2) needed else cap

def connEnsureCap (c : Conn) (needed : ℕ) : Conn :=
  if needed ≤ c.cap then c
  else { c with cap := growCap needed (if c.cap = 0 then CONN_INITIAL_CAP else c.cap) needed }

section Service

variable {σ : Type}

/-- The part behind `after_dispatch`: close, or carry pipelined bytes over. -/
def afterDispatch (c : Conn) (s : σ) (events : List HttpEvent) : Serviced σ :=
  if !c.keepAlive then (none, s, events)
  else
    (some { c with
      buf := c.buf.drop (c.bodyOffset + c.contentLength)
      headersDone := false
      bodyOffset := 0
      contentLength := 0
      gzip := false
      path := CStr.copy 128 [] }, s, events)

/-- Hand a body to the handler and respond. -/
def dispatch (srv : Server σ) (c : Conn) (sig : Signal) (body after : Bytes) (s : σ) :
    Serviced σ :=
  let r := srv.handler ⟨sig, c.path.val, body, after⟩ s
  afterDispatch c r.2
    [.invoked sig body, .responded (if r.1 = 0 then 200 else 400) c.keepAlive]

/-- The part of `conn_service` that runs once the headers are parsed; `behind` is the memory
behind the buffered bytes. -/
def serveBody (srv : Server σ) (c : Conn) (behind : Bytes) (s : σ) : Serviced σ :=
  if c.buf.length - c.bodyOffset < c.contentLength then
    (some (connEnsureCap c (c.bodyOffset + c.contentLength)), s, [])
  else
    let sig := signalForPath c.path.val
    if sig = .unknown then afterDispatch c s [.responded 404 c.keepAlive]
    else
      let body := (c.buf.drop c.bodyOffset).take c.contentLength
      if c.gzip ∧ c.contentLength ≠ 0 then
        match srv.gzipInflate body srv.maxBody with
        | some inflated => dispatch srv c sig inflated behind s
        | none => afterDispatch c s [.responded 400 c.keepAlive]
      else dispatch srv c sig body (c.buf.drop (c.bodyOffset + c.contentLength) ++ behind) s

/-- `conn_service(srv, c)` -/
def connService (srv : Server σ) (c : Conn) (r : Recv) (behind : Bytes) (s : σ) : Serviced σ :=
  let c := connEnsureCap c (c.buf.length + 4096)
  match r with
  | .closed => (none, s, [])
  | .again => (some c, s, [])
  | .error => (none, s, [])
  | .data chunk =>
      let c := { c with buf := c.buf ++ chunk }
      if c.headersDone then serveBody srv c behind s
      else
        match parseHeaders c with
        | .malformed => (none, s, [])
        | .incomplete => (some c, s, [])
        | .complete c =>
            if srv.maxBody < c.contentLength then (none, s, [.responded 413 false])
            else serveBody srv c behind s

/-- What one `recv` stores into the buffer, and the memory behind it. -/
structure Delivery where
  chunk : Bytes
  behind : Bytes
  chunk_ne_nil : chunk ≠ []

/-- The connection is serviced once for each delivery, until it is reset. -/
def serve (srv : Server σ) : List Delivery → Option Conn → σ → Serviced σ
  | [], c, s => (c, s, [])
  | _ :: _, none, s => (none, s, [])
  | d :: ds, some c, s =>
      let r := connService srv c (.data d.chunk) d.behind s
      let rest := serve srv ds r.1 r.2.1
      (rest.1, rest.2.1, r.2.2 ++ rest.2.2)

end Service

/-- The handler calls among the events. -/
def invocations (events : List HttpEvent) : List (Signal × Bytes) :=
  events.filterMap fun
    | .invoked signal body => some (signal, body)
    | .responded _ _ => none

end ProcWatch

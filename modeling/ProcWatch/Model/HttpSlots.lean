import ProcWatch.Model.Http

/-! # Connection slots and their memory (`http_server.c`)

Sizes that would wrap and accesses outside the memory are faults, which end a run with `none`. -/

namespace ProcWatch

open CLib

def PW_HTTP_MAX_CONNS : ℕ := 128

/-- `pw_conn_t`; `mem` is the memory at `buf`, `none` for a null pointer. -/
structure Slot where
  fd : ℤ
  mem : Option Bytes
  len : ℕ
  cap : ℕ
  headersDone : Bool
  bodyOffset : ℕ
  contentLength : ℕ
  gzip : Bool
  keepAlive : Bool
  path : CStr 128
  lastActive : ℤ

/-- `memset(c, 0, sizeof *c)` -/
def Slot.zeroed : Slot where
  fd := 0
  mem := none
  len := 0
  cap := 0
  headersDone := false
  bodyOffset := 0
  contentLength := 0
  gzip := false
  keepAlive := false
  path := CStr.copy 128 []
  lastActive := 0

/-- `conn_reset(c)` -/
def connReset (_c : Slot) : Slot :=
  { Slot.zeroed with fd := -1 }

/-! ## Memory -/

/-- The sizes that `realloc` serves, and what is in memory that it adds. -/
structure Allocator where
  serves : ℕ → Bool
  fresh : ℕ → Byte

def Allocator.realloc (a : Allocator) (mem : Option Bytes) (size : ℕ) : Option Bytes :=
  if a.serves size then
    let old := (mem.getD []).take size
    some (old ++ (List.range' old.length (size - old.length)).map a.fresh)
  else none

/-- A difference of sizes. -/
def sizeSub (a b : ℕ) : Option ℕ :=
  if b ≤ a then some (a - b) else none

/-- `n` bytes at an offset. -/
def readAt (mem : Bytes) (offset n : ℕ) : Option Bytes :=
  if offset + n ≤ mem.length then some ((mem.drop offset).take n) else none

/-- Bytes written at an offset. -/
def writeAt (mem : Bytes) (offset : ℕ) (s : Bytes) : Option Bytes :=
  if offset + s.length ≤ mem.length then
    some (mem.take offset ++ s ++ mem.drop (offset + s.length))
  else none

/-- `memmove(buf, buf + src, n)` -/
def memmove (mem : Bytes) (src n : ℕ) : Option Bytes := do
  let s ← readAt mem src n
  writeAt mem 0 s

def Slot.memory (c : Slot) : Bytes :=
  c.mem.getD []

/-- `conn_ensure_cap(c, needed)`, `none` where it returns -1. -/
def Slot.ensureCap (a : Allocator) (c : Slot) (needed : ℕ) : Option Slot :=
  if needed ≤ c.cap then some c
  else
    let cap := growCap needed (if c.cap = 0 then CONN_INITIAL_CAP else c.cap) needed
    match a.realloc c.mem cap with
    | none => none
    | some mem => some { c with mem := some mem, cap := cap }

/-! ## `conn_service` -/

/-- What the header parser sees of a slot. -/
def Slot.conn (c : Slot) : Conn where
  buf := c.memory.take c.len
  cap := c.cap
  headersDone := c.headersDone
  bodyOffset := c.bodyOffset
  contentLength := c.contentLength
  gzip := c.gzip
  keepAlive := c.keepAlive
  path := c.path

/-- What the header parser stores. -/
def Slot.store (c : Slot) (p : Conn) : Slot :=
  { c with
    headersDone := p.headersDone
    bodyOffset := p.bodyOffset
    contentLength := p.contentLength
    gzip := p.gzip
    keepAlive := p.keepAlive
    path := p.path }

/-- `if (leftover) memmove(c->buf, c->buf + consumed, leftover)` -/
def Slot.carryOver (c : Slot) (consumed leftover : ℕ) : Option (Option Bytes) :=
  if leftover ≠ 0 then (memmove c.memory consumed leftover).map some else some c.mem

section Service

variable {σ : Type}

/-- The slot, the handler's state and what the connection showed. -/
abbrev SlotServiced (σ : Type) := Slot × σ × List HttpEvent

/-- The part behind `after_dispatch`. -/
def slotAfterDispatch (c : Slot) (s : σ) (events : List HttpEvent) : Option (SlotServiced σ) :=
  if !c.keepAlive then some (connReset c, s, events)
  else do
    let consumed := c.bodyOffset + c.contentLength
    let leftover ← sizeSub c.len consumed
    let mem ← c.carryOver consumed leftover
    some ({ c with
      mem := mem
      len := leftover
      headersDone := false
      bodyOffset := 0
      contentLength := 0
      gzip := false
      path := CStr.copy 128 [] }, s, events)

def slotDispatch (srv : Server σ) (c : Slot) (sig : Signal) (body after : Bytes) (s : σ) :
    Option (SlotServiced σ) :=
  let r := srv.handler ⟨sig, c.path.val, body, after⟩ s
  slotAfterDispatch c r.2
    [.invoked sig body, .responded (if r.1 = 0 then 200 else 400) c.keepAlive]

/-- The part of `conn_service` behind the headers; `behind` is what follows an inflated body. -/
def slotServe (srv : Server σ) (a : Allocator) (c : Slot) (behind : Bytes) (s : σ) :
    Option (SlotServiced σ) := do
  let available ← sizeSub c.len c.bodyOffset
  if available < c.contentLength then
    match c.ensureCap a (c.bodyOffset + c.contentLength) with
    | none => some (connReset c, s, [])
    | some c => some (c, s, [])
  else
    let sig := signalForPath c.path.val
    if sig = .unknown then slotAfterDispatch c s [.responded 404 c.keepAlive]
    else
      let body ← readAt c.memory c.bodyOffset c.contentLength
      if c.gzip ∧ c.contentLength ≠ 0 then
        match srv.gzipInflate body srv.maxBody with
        | some inflated => slotDispatch srv c sig inflated behind s
        | none => slotAfterDispatch c s [.responded 400 c.keepAlive]
      else
        slotDispatch srv c sig body (c.memory.drop (c.bodyOffset + c.contentLength)) s

/-- `recv(c->fd, c->buf + c->len, room, 0)` with bytes waiting, and the bookkeeping behind it. -/
def Slot.receive (c : Slot) (waiting : Bytes) (room : ℕ) (now : ℤ) : Option Slot := do
  let stored := waiting.take room
  let mem ← writeAt c.memory c.len stored
  some { c with mem := some mem, len := c.len + stored.length, lastActive := now }

/-- `conn_service(srv, c)`; a chunk of `r` is what waits at the socket. -/
def slotService (srv : Server σ) (a : Allocator) (c : Slot) (r : Recv) (now : ℤ) (behind : Bytes)
    (s : σ) : Option (SlotServiced σ) :=
  match c.ensureCap a (c.len + 4096) with
  | none => some (connReset c, s, [])
  | some c => do
      let room ← sizeSub c.cap c.len
      match r with
      | .closed => some (connReset c, s, [])
      | .again => some (c, s, [])
      | .error => some (connReset c, s, [])
      | .data waiting =>
          if waiting.take room = [] then some (connReset c, s, [])
          else
            let c ← c.receive waiting room now
            if c.headersDone then slotServe srv a c behind s
            else
              match parseHeaders c.conn with
              | .malformed => some (connReset c, s, [])
              | .incomplete => some (c, s, [])
              | .complete p =>
                  let c := c.store p
                  if srv.maxBody < c.contentLength then
                    some (connReset c, s, [.responded 413 false])
                  else slotServe srv a c behind s

/-! ## `http_server_tick` -/

/-- `srv->conns` and the handler's state. -/
structure HttpSlots (σ : Type) where
  conns : List Slot
  state : σ

/-- `http_server_init` -/
def HttpSlots.init (s : σ) : HttpSlots σ where
  conns := List.replicate PW_HTTP_MAX_CONNS { Slot.zeroed with fd := -1 }
  state := s

/-- What a tick does to the slots, one thing after the other. -/
inductive SlotOp where
  | accept (fd : ℕ) (nonblocking : Bool) (now : ℤ)
  | hangup (i : ℕ)
  | ready (i : ℕ) (a : Allocator) (r : Recv) (now : ℤ) (behind : Bytes)
  | reap (now : ℤ)

def IDLE_TIMEOUT_SEC : ℤ := 30

/-- One round of `accept_new`, one owner of a ready socket, or the loop over idle connections. -/
def slotStep (srv : Server σ) (st : HttpSlots σ) : SlotOp → Option (HttpSlots σ)
  | .accept fd nonblocking now =>
      match st.conns.findIdx? fun c => decide (c.fd < 0) with
      | none => some st
      | some slot =>
          if !nonblocking then some st
          else
            let c := { Slot.zeroed with fd := fd, keepAlive := true, lastActive := now }
            some { st with conns := st.conns.set slot c }
  | .hangup i =>
      match st.conns[i]? with
      | none => some st
      | some c =>
          if c.fd < 0 then some st else some { st with conns := st.conns.set i (connReset c) }
  | .ready i a r now behind =>
      match st.conns[i]? with
      | none => some st
      | some c =>
          if c.fd < 0 then some st
          else
            match slotService srv a c r now behind st.state with
            | none => none
            | some (c, s, _) => some { conns := st.conns.set i c, state := s }
  | .reap now =>
      some { st with
        conns := st.conns.map fun c =>
          if c.fd < 0 then c
          else if IDLE_TIMEOUT_SEC < now - c.lastActive then connReset c else c }

def slotRun (srv : Server σ) : List SlotOp → HttpSlots σ → Option (HttpSlots σ)
  | [], st => some st
  | op :: ops, st =>
      match slotStep srv st op with
      | none => none
      | some st => slotRun srv ops st

/-- `revents` of a connection's socket, with what `recv` then returns. -/
inductive Revents where
  | nothing
  | hangup
  | readable (a : Allocator) (r : Recv) (now : ℤ) (behind : Bytes)

/-- What `poll` reports and `accept` returns. -/
structure PollResult where
  accepted : List (ℕ × Bool)
  acceptedAt : ℤ
  revents : ℕ → Revents
  now : ℤ

/-- What a tick does; only connections that were there before `poll` are its owners. -/
def tickOps (st : HttpSlots σ) (p : PollResult) : List SlotOp :=
  (p.accepted.map fun new => .accept new.1 new.2 p.acceptedAt) ++
    ((List.range st.conns.length).filter fun i =>
        st.conns[i]?.any fun c => decide (0 ≤ c.fd)).filterMap (fun i =>
      match p.revents i with
      | .nothing => none
      | .hangup => some (.hangup i)
      | .readable a r now behind => some (.ready i a r now behind)) ++
    [.reap p.now]

/-- `http_server_tick(srv, timeout_ms)`, `none` for a `poll` that fails. -/
def httpServerTick (srv : Server σ) (st : HttpSlots σ) : Option PollResult → Option (HttpSlots σ)
  | none => some st
  | some p => slotRun srv (tickOps st p) st

def httpServerTicks (srv : Server σ) :
    List (Option PollResult) → HttpSlots σ → Option (HttpSlots σ)
  | [], st => some st
  | p :: ps, st =>
      match httpServerTick srv st p with
      | none => none
      | some st => httpServerTicks srv ps st

end Service

end ProcWatch

import ProcWatch.Model.HttpSlots
import ProcWatch.Verification.Http.Memory

/-! # Connection slots over whole runs -/

namespace ProcWatch

open CLib

/-! ## The invariant of a slot -/

/-- A free slot holds nothing; in another one the bytes that were received fit the memory, and a
parsed request starts among them and is within the limit. -/
structure Slot.Inv (maxBody : ℕ) (c : Slot) : Prop where
  free : c.fd < 0 → c.mem = none ∧ c.len = 0
  used : 0 ≤ c.fd → c.len ≤ c.cap ∧
    (c.headersDone = true → c.bodyOffset ≤ c.len ∧ c.contentLength ≤ maxBody)
  size : c.memory.length = c.cap

theorem inv_connReset (maxBody : ℕ) (c : Slot) : (connReset c).Inv maxBody where
  free := fun _ => ⟨rfl, rfl⟩
  used := fun h => by simp [connReset] at h
  size := rfl

/-! ## Accesses to the memory -/

theorem sizeSub_of_le {a b : ℕ} (h : b ≤ a) : sizeSub a b = some (a - b) :=
  if_pos h

theorem readAt_of_le {mem : Bytes} {offset n : ℕ} (h : offset + n ≤ mem.length) :
    readAt mem offset n = some ((mem.drop offset).take n) :=
  if_pos h

theorem writeAt_of_le {mem s : Bytes} {offset : ℕ} (h : offset + s.length ≤ mem.length) :
    ∃ mem', writeAt mem offset s = some mem' ∧ mem'.length = mem.length ∧
      mem'.take (offset + s.length) = mem.take offset ++ s := by
  have hoffset : (mem.take offset).length = offset := by
    rw [List.length_take]
    omega
  refine ⟨_, if_pos h, ?_, ?_⟩
  · simp only [List.length_append, List.length_drop, hoffset]
    omega
  · have hlen : (mem.take offset ++ s).length = offset + s.length := by
      rw [List.length_append, hoffset]
    rw [← hlen, List.take_left]

/-- What a `memmove` within the memory leaves at its front. -/
theorem memmove_of_le {mem : Bytes} {src n : ℕ} (h : src + n ≤ mem.length) :
    ∃ mem', memmove mem src n = some mem' ∧ mem'.length = mem.length ∧
      mem'.take n = (mem.drop src).take n := by
  have hn : ((mem.drop src).take n).length = n := by
    rw [List.length_take, List.length_drop]
    omega
  have hfits : 0 + ((mem.drop src).take n).length ≤ mem.length := by omega
  obtain ⟨mem', hwrite, hlen, htake⟩ := writeAt_of_le hfits
  refine ⟨mem', ?_, hlen, ?_⟩
  · rw [memmove, readAt_of_le h]
    exact hwrite
  · rw [Nat.zero_add, hn, List.take_zero, List.nil_append] at htake
    exact htake

theorem carryOver_of_le {c : Slot} {consumed leftover : ℕ} (hsize : c.memory.length = c.cap)
    (h : consumed + leftover ≤ c.memory.length) :
    ∃ mem, c.carryOver consumed leftover = some mem ∧ (mem.getD []).length = c.cap ∧
      (mem.getD []).take leftover = (c.memory.drop consumed).take leftover := by
  by_cases hnone : leftover = 0
  · refine ⟨c.mem, if_neg (not_not.mpr hnone), hsize, ?_⟩
    rw [hnone, List.take_zero, List.take_zero]
  · obtain ⟨mem, hmove, hlen, htake⟩ := memmove_of_le h
    refine ⟨some mem, ?_, hlen.trans hsize, htake⟩
    rw [Slot.carryOver, if_pos hnone, hmove, Option.map_some]

theorem realloc_spec {a : Allocator} {mem : Option Bytes} {size : ℕ} {mem' : Bytes}
    (h : a.realloc mem size = some mem') (hsize : (mem.getD []).length ≤ size) :
    mem'.length = size ∧ mem'.take (mem.getD []).length = mem.getD [] := by
  rw [Allocator.realloc] at h
  split at h
  · dsimp only at h
    rw [List.take_of_length_le hsize] at h
    rw [← Option.some.inj h]
    constructor
    · simp only [List.length_append, List.length_map, List.length_range']
      omega
    · exact List.take_left
  · cases h

/-! ## Room in the buffer -/

/-- A larger buffer with the same bytes. -/
structure Slot.Grown (c c' : Slot) (needed : ℕ) : Prop where
  eq : c' = { c with mem := c'.mem, cap := c'.cap }
  room : needed ≤ c'.cap
  le : c.cap ≤ c'.cap
  size : c'.memory.length = c'.cap
  kept : c'.memory.take c.cap = c.memory

theorem ensureCap_spec {a : Allocator} {c c' : Slot} {needed : ℕ} (hsize : c.memory.length = c.cap)
    (h : c.ensureCap a needed = some c') : c.Grown c' needed ∧ c'.conn.cap =
      (connEnsureCap c.conn needed).cap := by
  have hroom := le_connEnsureCap_cap c.conn needed
  rw [Slot.ensureCap] at h
  split at h
  · next hfits =>
      obtain rfl := Option.some.inj h
      refine ⟨⟨rfl, hfits, le_rfl, hsize, ?_⟩, ?_⟩
      · rw [← hsize, List.take_length]
      · rw [connEnsureCap, if_pos]
        exact hfits
  · next hshort =>
      have hgrown : (connEnsureCap c.conn needed).cap =
          growCap needed (if c.cap = 0 then CONN_INITIAL_CAP else c.cap) needed := by
        rw [connEnsureCap, if_neg]
        · rfl
        · exact hshort
      rw [hgrown] at hroom ⊢
      generalize growCap needed (if c.cap = 0 then CONN_INITIAL_CAP else c.cap) needed = cap
        at h hroom ⊢
      dsimp only at h
      split at h
      · cases h
      · next mem hmem =>
          obtain rfl := Option.some.inj h
          have hold : (c.mem.getD []).length = c.cap := hsize
          obtain ⟨hlen, htake⟩ := realloc_spec hmem (by omega)
          refine ⟨⟨rfl, hroom, ?_, hlen, ?_⟩, rfl⟩
          · dsimp only
            omega
          · rw [← hold]
            exact htake

theorem ensureCap_isSome {a : Allocator} (ha : ∀ n, a.serves n = true) (c : Slot) (needed : ℕ) :
    ∃ c', c.ensureCap a needed = some c' := by
  rw [Slot.ensureCap]
  split
  · exact ⟨_, rfl⟩
  · generalize growCap needed (if c.cap = 0 then CONN_INITIAL_CAP else c.cap) needed = cap
    simp only [Allocator.realloc, ha, if_true]
    exact ⟨_, rfl⟩

section Grown

variable {maxBody : ℕ} {c c' : Slot} {needed : ℕ}

theorem Slot.Grown.frame (h : c.Grown c' needed) :
    c'.fd = c.fd ∧ c'.len = c.len ∧ c'.headersDone = c.headersDone ∧
      c'.bodyOffset = c.bodyOffset ∧ c'.contentLength = c.contentLength := by
  rw [h.eq]
  exact ⟨rfl, rfl, rfl, rfl, rfl⟩

theorem Slot.Grown.take_len (h : c.Grown c' needed) (hlen : c.len ≤ c.cap) :
    c'.memory.take c.len = c.memory.take c.len := by
  rw [← h.kept, List.take_take, Nat.min_eq_left hlen]

theorem Slot.Grown.conn_eq (h : c.Grown c' needed) (hlen : c.len ≤ c.cap)
    (hcap : c'.conn.cap = (connEnsureCap c.conn needed).cap) :
    c'.conn = connEnsureCap c.conn needed := by
  have hbuf : c'.conn.buf = c.conn.buf := by
    have hsame : c'.len = c.len := h.frame.2.1
    rw [Slot.conn, Slot.conn, hsame]
    exact h.take_len hlen
  have hview : c'.conn = { c.conn with buf := c'.conn.buf, cap := c'.conn.cap } := by
    rw [h.eq]
    rfl
  rw [hview, hbuf, hcap, connEnsureCap_eq]

theorem Slot.Grown.inv (h : c.Grown c' needed) (hopen : 0 ≤ c.fd) (hlen : c.len ≤ c.cap)
    (hbody : c.headersDone = true → c.bodyOffset ≤ c.len ∧ c.contentLength ≤ maxBody) :
    c'.Inv maxBody := by
  obtain ⟨hfd, hsame, hdone, hoffset, hlength⟩ := h.frame
  have hgrow := h.le
  refine ⟨fun hfree => ?_, fun _ => ⟨by omega, ?_⟩, h.size⟩
  · rw [hfd] at hfree
    omega
  · rw [hsame, hdone, hoffset, hlength]
    exact hbody

end Grown

/-! ## One call of `conn_service` -/

/-- A slot shows what the connection without its memory does. -/
def Slot.Shows (c : Slot) : Option Conn → Prop
  | none => c.fd < 0
  | some conn => 0 ≤ c.fd ∧ c.conn = conn

theorem shows_connReset (c : Slot) : (connReset c).Shows none := by
  simp [Slot.Shows, connReset]

section Service

variable {σ : Type} {srv : Server σ} {maxBody : ℕ} {c : Slot}

/-- A served request lies within the buffered bytes. -/
def Slot.Complete (c : Slot) : Prop :=
  c.bodyOffset + c.contentLength ≤ c.len

theorem slotAfterDispatch_spec (hc : c.Inv maxBody) (hopen : 0 ≤ c.fd) (hdone : c.Complete) (s : σ)
    (events : List HttpEvent) :
    ∃ c', slotAfterDispatch c s events = some (c', (afterDispatch c.conn s events).2) ∧
      c'.Inv maxBody ∧ c'.Shows (afterDispatch c.conn s events).1 := by
  have hlen : c.len ≤ c.memory.length := hc.size ▸ (hc.used hopen).1
  have hconsumed : c.bodyOffset + c.contentLength ≤ c.len := hdone
  rw [slotAfterDispatch, afterDispatch]
  have hkeep : c.conn.keepAlive = c.keepAlive := rfl
  rw [hkeep]
  cases c.keepAlive with
  | false => exact ⟨_, rfl, inv_connReset maxBody c, shows_connReset c⟩
  | true =>
      obtain ⟨mem, hmem, hsize, htake⟩ := @carryOver_of_le c _ _ hc.size
        (by omega : c.bodyOffset + c.contentLength + (c.len - (c.bodyOffset + c.contentLength)) ≤
          c.memory.length)
      have hcap := (hc.used hopen).1
      simp only [Bool.not_true, Bool.false_eq_true, if_false, sizeSub_of_le hconsumed,
        Option.bind_eq_bind, Option.bind_some, hmem]
      refine ⟨_, rfl, ?_, hopen, ?_⟩
      · refine ⟨fun hfree => absurd hopen (not_le.mpr hfree), fun _ => ⟨?_, fun h => ?_⟩, hsize⟩
        · dsimp only
          omega
        · cases h
      · have hview : (c.memory.take c.len).drop (c.bodyOffset + c.contentLength) =
            (mem.getD []).take (c.len - (c.bodyOffset + c.contentLength)) := by
          rw [htake, List.drop_take]
        simp only [Slot.conn, Slot.memory] at hview ⊢
        rw [hview]

theorem slotDispatch_spec (hc : c.Inv maxBody) (hopen : 0 ≤ c.fd) (hdone : c.Complete)
    (sig : Signal) (body after : Bytes) (s : σ) :
    ∃ c', slotDispatch srv c sig body after s =
        some (c', (dispatch srv c.conn sig body after s).2) ∧
      c'.Inv maxBody ∧ c'.Shows (dispatch srv c.conn sig body after s).1 :=
  slotAfterDispatch_spec hc hopen hdone _ _

/-- What the parser found is the request that the slot serves. -/
theorem slotServe_spec {a : Allocator} (hc : c.Inv srv.maxBody) (hopen : 0 ≤ c.fd)
    (hoffset : c.bodyOffset ≤ c.len) (hlength : c.contentLength ≤ srv.maxBody)
    (behind : Bytes) (s : σ) :
    ∃ c' out, slotServe srv a c behind s = some (c', out) ∧ c'.Inv srv.maxBody ∧
      ((∀ n, a.serves n = true) → ∃ rest, (serveBody srv c.conn rest s).2 = out ∧
        c'.Shows (serveBody srv c.conn rest s).1) := by
  have hcap := (hc.used hopen).1
  have hbuf : c.conn.buf.length = c.len := by
    rw [Slot.conn, List.length_take, hc.size, Nat.min_eq_left hcap]
  rw [slotServe, sizeSub_of_le hoffset]
  simp only [Option.bind_eq_bind, Option.bind_some]
  by_cases hwait : c.len - c.bodyOffset < c.contentLength
  · have hserve (rest : Bytes) : serveBody srv c.conn rest s =
        (some (connEnsureCap c.conn (c.bodyOffset + c.contentLength)), s, []) := by
      rw [serveBody, hbuf]
      exact if_pos hwait
    rw [if_pos hwait]
    cases hensure : c.ensureCap a (c.bodyOffset + c.contentLength) with
    | none =>
        refine ⟨_, _, rfl, inv_connReset _ c, fun ha => ?_⟩
        obtain ⟨c', hsome⟩ := ensureCap_isSome ha c (c.bodyOffset + c.contentLength)
        rw [hensure] at hsome
        cases hsome
    | some c' =>
        obtain ⟨hgrown, hsame⟩ := ensureCap_spec hc.size hensure
        have hinv := hgrown.inv hopen hcap fun _ => ⟨hoffset, hlength⟩
        refine ⟨c', _, rfl, hinv, fun _ => ⟨[], by rw [hserve], ?_⟩⟩
        rw [hserve]
        exact ⟨hgrown.frame.1 ▸ hopen, hgrown.conn_eq hcap hsame⟩
  · have hdone : c.Complete := by
      rw [Slot.Complete]
      omega
    have hread : c.bodyOffset + c.contentLength ≤ c.memory.length := by
      rw [hc.size]
      rw [Slot.Complete] at hdone
      omega
    have hbody : (c.conn.buf.drop c.bodyOffset).take c.contentLength =
        (c.memory.drop c.bodyOffset).take c.contentLength := by
      rw [Slot.conn, List.drop_take, List.take_take, Nat.min_eq_left (not_lt.mp hwait)]
    have hafter : c.conn.buf.drop (c.bodyOffset + c.contentLength) ++ c.memory.drop c.len =
        c.memory.drop (c.bodyOffset + c.contentLength) := by
      rw [Slot.Complete] at hdone
      rw [Slot.conn, ← List.drop_append_of_le_length (by rwa [← Slot.conn.eq_1, hbuf]),
        List.take_append_drop]
    have hcomplete : ¬ c.conn.buf.length - c.conn.bodyOffset < c.conn.contentLength := by
      rw [hbuf]
      exact hwait
    -- the body that the two services inflate is the same
    have hinflated {o : Option Bytes} (h : srv.gzipInflate
        ((c.memory.drop c.bodyOffset).take c.contentLength) srv.maxBody = o) :
        srv.gzipInflate ((c.conn.buf.drop c.conn.bodyOffset).take c.conn.contentLength)
          srv.maxBody = o :=
      (congrArg (fun body => srv.gzipInflate body srv.maxBody) hbody).trans h
    rw [if_neg hwait]
    by_cases hunknown : signalForPath c.path.val = .unknown
    · rw [if_pos hunknown]
      obtain ⟨c', hrun, hinv, hshows⟩ :=
        slotAfterDispatch_spec hc hopen hdone s [.responded 404 c.keepAlive]
      refine ⟨c', _, hrun, hinv, fun _ => ⟨[], ?_⟩⟩
      have hsig : signalForPath c.conn.path.val = .unknown := hunknown
      rw [serveBody, if_neg hcomplete, if_pos hsig]
      exact ⟨rfl, hshows⟩
    · have hsig : signalForPath c.conn.path.val ≠ .unknown := hunknown
      rw [if_neg hunknown, readAt_of_le hread]
      simp only [Option.bind_some]
      by_cases hgzip : c.gzip ∧ c.contentLength ≠ 0
      · have hgzip' : c.conn.gzip ∧ c.conn.contentLength ≠ 0 := hgzip
        rw [if_pos hgzip]
        cases hinflate : srv.gzipInflate ((c.memory.drop c.bodyOffset).take c.contentLength)
          srv.maxBody with
        | none =>
            obtain ⟨c', hrun, hinv, hshows⟩ :=
              slotAfterDispatch_spec hc hopen hdone s [.responded 400 c.keepAlive]
            refine ⟨c', _, hrun, hinv, fun _ => ⟨[], ?_⟩⟩
            rw [serveBody, if_neg hcomplete, if_neg hsig, if_pos hgzip', hinflated hinflate]
            exact ⟨rfl, hshows⟩
        | some inflated =>
            obtain ⟨c', hrun, hinv, hshows⟩ := @slotDispatch_spec _ srv _ _ hc hopen hdone
              (signalForPath c.path.val) inflated behind s
            refine ⟨c', _, hrun, hinv, fun _ => ⟨behind, ?_⟩⟩
            rw [serveBody, if_neg hcomplete, if_neg hsig, if_pos hgzip', hinflated hinflate]
            exact ⟨rfl, hshows⟩
      · have hgzip' : ¬ (c.conn.gzip ∧ c.conn.contentLength ≠ 0) := hgzip
        rw [if_neg hgzip]
        obtain ⟨c', hrun, hinv, hshows⟩ := @slotDispatch_spec _ srv _ _ hc hopen hdone
          (signalForPath c.path.val) ((c.memory.drop c.bodyOffset).take c.contentLength)
          (c.memory.drop (c.bodyOffset + c.contentLength)) s
        refine ⟨c', _, hrun, hinv, fun _ => ⟨c.memory.drop c.len, ?_⟩⟩
        have hplain : serveBody srv c.conn (c.memory.drop c.len) s =
            dispatch srv c.conn (signalForPath c.path.val)
              ((c.memory.drop c.bodyOffset).take c.contentLength)
              (c.memory.drop (c.bodyOffset + c.contentLength)) s := by
          rw [serveBody, if_neg hcomplete, if_neg hsig, if_neg hgzip', ← hbody, ← hafter]
          rfl
        rw [hplain]
        exact ⟨rfl, hshows⟩

/-- The body of a parsed request starts among the buffered bytes. -/
theorem bodyOffset_le_of_complete {conn p : Conn} (h : parseHeaders conn = .complete p) :
    p.bodyOffset ≤ conn.buf.length := by
  rw [parseHeaders] at h
  split at h
  · split at h <;> cases h
  · next headerLen sep hblank =>
      have hwithin : headerLen + sep ≤ conn.buf.length := by
        rw [findBlank] at hblank
        split at hblank
        · next i hfind =>
            obtain ⟨rfl, rfl⟩ := Prod.mk.inj (Option.some.inj hblank)
            obtain ⟨hmark, hi, -⟩ := find_spec hfind
            have hlen := hmark.length_le
            simp only [CRLF, List.length_append, List.length_cons, List.length_nil,
              List.length_drop] at hlen
            omega
        · obtain ⟨i, hfind, hi⟩ := Option.map_eq_some_iff.mp hblank
          obtain ⟨rfl, rfl⟩ := Prod.mk.inj hi
          obtain ⟨hmark, hi, -⟩ := find_spec hfind
          have hlen := hmark.length_le
          simp only [List.length_cons, List.length_nil, List.length_drop] at hlen
          omega
      split at h
      · cases h
      · rw [(parseRequest_parsedFrom h).bodyOffset, List.length_take]
        omega

/-- What the parser stores is what it found. -/
theorem conn_store {p : Conn} (h : parseHeaders c.conn = .complete p) : (c.store p).conn = p := by
  obtain ⟨offset, -, -, hfrom⟩ := parseHeaders_parsedFrom h
  have hbuf : c.memory.take c.len = p.buf := hfrom.buf.symm
  have hcap : c.cap = p.cap := hfrom.cap.symm
  have hview : (c.store p).conn = { p with buf := c.memory.take c.len, cap := c.cap } := rfl
  rw [hview, hbuf, hcap]

/-- Received bytes come behind those that are buffered. -/
theorem receive_spec {waiting : Bytes} {room : ℕ} {now : ℤ} (hc : c.Inv maxBody)
    (hroom : c.len + room ≤ c.cap) :
    ∃ c', c.receive waiting room now = some c' ∧ c'.fd = c.fd ∧ c'.len ≤ c'.cap ∧
      c'.memory.length = c'.cap ∧ c.len ≤ c'.len ∧
      c'.conn = { c.conn with buf := c.conn.buf ++ waiting.take room } := by
  have hstored : (waiting.take room).length ≤ room := List.length_take_le _ _
  have hfits : c.len + (waiting.take room).length ≤ c.memory.length := by
    rw [hc.size]
    omega
  obtain ⟨mem, hwrite, hlen, htake⟩ := writeAt_of_le hfits
  refine ⟨{ c with
    mem := some mem
    len := c.len + (waiting.take room).length
    lastActive := now }, ?_, rfl, ?_, hlen.trans hc.size, Nat.le_add_right _ _, ?_⟩
  · rw [Slot.receive, hwrite]
    rfl
  · dsimp only
    omega
  · rw [Slot.conn, Slot.conn]
    simp only [Slot.memory, Option.getD_some] at htake ⊢
    rw [htake]

/-- What waits at the socket, as far as there is room for it. -/
def Recv.stored (room : ℕ) : Recv → Recv
  | .data waiting => if waiting.take room = [] then .closed else .data (waiting.take room)
  | r => r

/-- A slot that holds what was received, before its headers are looked at. -/
structure Slot.Filled (c c' : Slot) (chunk : Bytes) : Prop where
  fd : c'.fd = c.fd
  len_le : c'.len ≤ c'.cap
  size : c'.memory.length = c'.cap
  le : c.len ≤ c'.len
  headersDone : c'.headersDone = c.headersDone
  bodyOffset : c'.bodyOffset = c.bodyOffset
  contentLength : c'.contentLength = c.contentLength
  conn : c'.conn = { connEnsureCap c.conn (c.conn.buf.length + 4096) with
    buf := c.conn.buf ++ chunk }

theorem Slot.Inv.length_buf (hc : c.Inv maxBody) (hopen : 0 ≤ c.fd) :
    c.conn.buf.length = c.len := by
  rw [Slot.conn, List.length_take, hc.size, Nat.min_eq_left (hc.used hopen).1]

theorem connService_filled {c' : Slot} {chunk : Bytes} (h : c.Filled c' chunk) (rest : Bytes)
    (s : σ) :
    connService srv c.conn (.data chunk) rest s =
      if c'.headersDone then serveBody srv c'.conn rest s
      else
        match parseHeaders c'.conn with
        | .malformed => (none, s, [])
        | .incomplete => (some c'.conn, s, [])
        | .complete p =>
            if srv.maxBody < p.contentLength then (none, s, [.responded 413 false])
            else serveBody srv p rest s := by
  have hbuf : (connEnsureCap c.conn (c.conn.buf.length + 4096)).buf = c.conn.buf := by
    rw [connEnsureCap_eq]
  have hstored : c'.conn = { connEnsureCap c.conn (c.conn.buf.length + 4096) with
      buf := (connEnsureCap c.conn (c.conn.buf.length + 4096)).buf ++ chunk } := by
    rw [hbuf]
    exact h.conn
  have hdone : c'.headersDone = c'.conn.headersDone := rfl
  rw [hdone, hstored]
  rfl

/-- The part of a call behind `recv`. -/
theorem filled_spec {a : Allocator} (hc : c.Inv srv.maxBody) (hopen : 0 ≤ c.fd) {c₂ : Slot}
    {chunk : Bytes} (hfilled : c.Filled c₂ chunk) (behind : Bytes) (s : σ) :
    ∃ c' out,
      (if c₂.headersDone then slotServe srv a c₂ behind s
        else
          match parseHeaders c₂.conn with
          | .malformed => some (connReset c₂, s, [])
          | .incomplete => some (c₂, s, [])
          | .complete p =>
              if srv.maxBody < (c₂.store p).contentLength then
                some (connReset (c₂.store p), s, [.responded 413 false])
              else slotServe srv a (c₂.store p) behind s) = some (c', out) ∧
        c'.Inv srv.maxBody ∧
        ((∀ n, a.serves n = true) → ∃ rest,
          (connService srv c.conn (.data chunk) rest s).2 = out ∧
          c'.Shows (connService srv c.conn (.data chunk) rest s).1) := by
  have hopen₂ : 0 ≤ c₂.fd := hfilled.fd ▸ hopen
  have hbody : c₂.headersDone = true → c₂.bodyOffset ≤ c₂.len ∧ c₂.contentLength ≤ srv.maxBody := by
    rw [hfilled.headersDone, hfilled.bodyOffset, hfilled.contentLength]
    intro hdone
    have hused := (hc.used hopen).2 hdone
    exact ⟨hused.1.trans hfilled.le, hused.2⟩
  have hinv : c₂.Inv srv.maxBody :=
    ⟨fun hfree => absurd hopen₂ (not_le.mpr hfree), fun _ => ⟨hfilled.len_le, hbody⟩, hfilled.size⟩
  simp only [connService_filled hfilled]
  by_cases hdone : c₂.headersDone = true
  · simp only [if_pos hdone]
    exact slotServe_spec hinv hopen₂ (hbody hdone).1 (hbody hdone).2 behind s
  · simp only [if_neg hdone]
    cases hparse : parseHeaders c₂.conn with
    | malformed => exact ⟨_, _, rfl, inv_connReset _ _, fun _ => ⟨[], rfl, shows_connReset _⟩⟩
    | incomplete => exact ⟨_, _, rfl, hinv, fun _ => ⟨[], rfl, hopen₂, rfl⟩⟩
    | complete p =>
        have hlength : (c₂.store p).contentLength = p.contentLength := rfl
        simp only [hlength]
        by_cases hlarge : srv.maxBody < p.contentLength
        · simp only [if_pos hlarge]
          exact ⟨_, _, rfl, inv_connReset _ _, fun _ => ⟨[], rfl, shows_connReset _⟩⟩
        · simp only [if_neg hlarge]
          have hoffset : p.bodyOffset ≤ c₂.len := by
            rw [← hinv.length_buf hopen₂]
            exact bodyOffset_le_of_complete hparse
          have hstored : (c₂.store p).Inv srv.maxBody :=
            ⟨hinv.free, fun _ => ⟨hfilled.len_le, fun _ => ⟨hoffset, not_lt.mp hlarge⟩⟩, hinv.size⟩
          have hspec := @slotServe_spec _ srv _ a hstored hopen₂ hoffset (not_lt.mp hlarge) behind s
          rwa [conn_store hparse] at hspec

/-- A call keeps the invariant; where all memory is served it does what the connection without
its memory does. -/
theorem slotService_spec {a : Allocator} (hc : c.Inv srv.maxBody) (hopen : 0 ≤ c.fd) (r : Recv)
    (now : ℤ) (behind : Bytes) (s : σ) :
    ∃ c' out, slotService srv a c r now behind s = some (c', out) ∧ c'.Inv srv.maxBody ∧
      ((∀ n, a.serves n = true) → ∃ r' rest, r'.Fits c.conn ∧
        (connService srv c.conn r' rest s).2 = out ∧
        c'.Shows (connService srv c.conn r' rest s).1) := by
  have hcap := (hc.used hopen).1
  have hbuf := hc.length_buf hopen
  rw [slotService]
  cases hensure : c.ensureCap a (c.len + 4096) with
  | none =>
      refine ⟨_, _, rfl, inv_connReset _ c, fun ha => ?_⟩
      obtain ⟨c₁, hsome⟩ := ensureCap_isSome ha c (c.len + 4096)
      rw [hensure] at hsome
      cases hsome
  | some c₁ =>
      obtain ⟨hgrown, hsame⟩ := ensureCap_spec hc.size hensure
      have hinv₁ : c₁.Inv srv.maxBody := hgrown.inv hopen hcap (hc.used hopen).2
      obtain ⟨hfd, hlen, hdone, hoffset, hlength⟩ := hgrown.frame
      have hopen₁ : 0 ≤ c₁.fd := hfd ▸ hopen
      have hcap₁ := (hinv₁.used hopen₁).1
      have hconn₁ : c₁.conn = connEnsureCap c.conn (c.conn.buf.length + 4096) := by
        rw [hbuf]
        exact hgrown.conn_eq hcap hsame
      simp only [sizeSub_of_le hcap₁, Option.bind_eq_bind, Option.bind_some]
      cases r with
      | closed =>
          exact ⟨_, _, rfl, inv_connReset _ _,
            fun _ => ⟨.closed, [], trivial, rfl, shows_connReset _⟩⟩
      | error =>
          exact ⟨_, _, rfl, inv_connReset _ _,
            fun _ => ⟨.error, [], trivial, rfl, shows_connReset _⟩⟩
      | again => exact ⟨_, _, rfl, hinv₁, fun _ => ⟨.again, [], trivial, rfl, hopen₁, hconn₁⟩⟩
      | data waiting =>
          by_cases hempty : waiting.take (c₁.cap - c₁.len) = []
          · simp only [if_pos hempty]
            exact ⟨_, _, rfl, inv_connReset _ _,
              fun _ => ⟨.closed, [], trivial, rfl, shows_connReset _⟩⟩
          · simp only [if_neg hempty]
            obtain ⟨c₂, hreceive, hfd₂, hlen₂, hsize₂, hle₂, hconn₂⟩ :=
              @receive_spec _ _ waiting (c₁.cap - c₁.len) now hinv₁ (by omega)
            have hbuf₁ : c₁.conn.buf = c.conn.buf := by
              rw [hconn₁, connEnsureCap_eq]
            have hfilled : c.Filled c₂ (waiting.take (c₁.cap - c₁.len)) :=
              { fd := hfd₂.trans hfd
                len_le := hlen₂
                size := hsize₂
                le := hlen ▸ hle₂
                headersDone := (congrArg Conn.headersDone hconn₂).trans hdone
                bodyOffset := (congrArg Conn.bodyOffset hconn₂).trans hoffset
                contentLength := (congrArg Conn.contentLength hconn₂).trans hlength
                conn := by rw [hconn₂, hbuf₁, hconn₁] }
            obtain ⟨c', out, hrun, hinv, hshows⟩ := @filled_spec _ srv _ a hc hopen _ _ hfilled
              behind s
            refine ⟨c', out, ?_, hinv, fun ha => ?_⟩
            · rw [hreceive]
              exact hrun
            · obtain ⟨rest, hout, hafter⟩ := hshows ha
              refine ⟨.data (waiting.take (c₁.cap - c₁.len)), rest, ⟨hempty, ?_⟩, hout, hafter⟩
              have hroom : (connEnsureCap c.conn (c.conn.buf.length + 4096)).cap = c₁.cap :=
                congrArg Conn.cap hconn₁.symm
              have hstored := List.length_take_le (c₁.cap - c₁.len) waiting
              rw [hroom, hbuf]
              omega

end Service

/-! ## Runs -/

section Runs

variable {σ : Type} {srv : Server σ}

def HttpSlots.Inv (maxBody : ℕ) (st : HttpSlots σ) : Prop :=
  ∀ c ∈ st.conns, c.Inv maxBody

theorem inv_init (maxBody : ℕ) (s : σ) : (HttpSlots.init s).Inv maxBody := by
  intro c hc
  rw [List.eq_of_mem_replicate hc]
  exact inv_connReset maxBody Slot.zeroed

theorem HttpSlots.Inv.set {maxBody : ℕ} {st : HttpSlots σ} (h : st.Inv maxBody) {i : ℕ} {c : Slot}
    (hc : c.Inv maxBody) (s : σ) :
    HttpSlots.Inv maxBody { conns := st.conns.set i c, state := s } := by
  intro c' hc'
  cases List.mem_or_eq_of_mem_set hc' with
  | inl hold => exact h c' hold
  | inr hnew => exact hnew ▸ hc

/-- Whatever happens to a slot, it is possible and keeps the invariant. -/
theorem slotStep_keeps {st : HttpSlots σ} (h : st.Inv srv.maxBody) (op : SlotOp) :
    ∃ st', slotStep srv st op = some st' ∧ st'.Inv srv.maxBody := by
  cases op with
  | accept fd nonblocking now =>
      rw [slotStep]
      split
      · exact ⟨st, rfl, h⟩
      · split
        · exact ⟨st, rfl, h⟩
        · refine ⟨_, rfl, h.set ?_ _⟩
          refine ⟨fun hfree => ?_, fun _ => ⟨le_rfl, fun hdone => ?_⟩, rfl⟩
          · dsimp only at hfree
            omega
          · cases hdone
  | hangup i =>
      rw [slotStep]
      split
      · exact ⟨st, rfl, h⟩
      · split
        · exact ⟨st, rfl, h⟩
        · exact ⟨_, rfl, h.set (inv_connReset _ _) _⟩
  | ready i a r now behind =>
      rw [slotStep]
      cases hslot : st.conns[i]? with
      | none => exact ⟨st, rfl, h⟩
      | some c =>
          by_cases hfree : c.fd < 0
          · exact ⟨st, if_pos hfree, h⟩
          · have hc : c.Inv srv.maxBody := h c (List.mem_of_getElem? hslot)
            obtain ⟨c', out, hservice, hinv, -⟩ :=
              @slotService_spec _ srv _ a hc (not_lt.mp hfree) r now behind st.state
            simp only [if_neg hfree, hservice]
            exact ⟨_, rfl, h.set hinv _⟩
  | reap now =>
      refine ⟨_, rfl, ?_⟩
      intro c hc
      obtain ⟨old, hold, rfl⟩ := List.mem_map.mp hc
      split
      · exact h old hold
      · split
        · exact inv_connReset _ _
        · exact h old hold

theorem slotRun_keeps (ops : List SlotOp) {st : HttpSlots σ} (h : st.Inv srv.maxBody) :
    ∃ st', slotRun srv ops st = some st' ∧ st'.Inv srv.maxBody := by
  induction ops generalizing st with
  | nil => exact ⟨st, rfl, h⟩
  | cons op ops ih =>
      obtain ⟨st₁, hstep, h₁⟩ := slotStep_keeps h op
      obtain ⟨st₂, hrun, h₂⟩ := ih h₁
      refine ⟨st₂, ?_, h₂⟩
      rw [slotRun, hstep]
      exact hrun

theorem httpServerTicks_keeps (ps : List (Option PollResult)) {st : HttpSlots σ}
    (h : st.Inv srv.maxBody) :
    ∃ st', httpServerTicks srv ps st = some st' ∧ st'.Inv srv.maxBody := by
  induction ps generalizing st with
  | nil => exact ⟨st, rfl, h⟩
  | cons p ps ih =>
      obtain ⟨st₁, htick, h₁⟩ : ∃ st₁, httpServerTick srv st p = some st₁ ∧
          st₁.Inv srv.maxBody := by
        cases p with
        | none => exact ⟨st, rfl, h⟩
        | some p => exact slotRun_keeps _ h
      obtain ⟨st₂, hrun, h₂⟩ := ih h₁
      refine ⟨st₂, ?_, h₂⟩
      rw [httpServerTicks, htick]
      exact hrun

end Runs

/-- From the start, no order of accepts, received chunks, errors and reaps makes a size wrap or
reaches outside the memory, and every slot keeps its invariant. -/
theorem slots_safe {σ : Type} (srv : Server σ) (s : σ) (ps : List (Option PollResult))
    (ops : List SlotOp) :
    ∃ ticked st, httpServerTicks srv ps (HttpSlots.init s) = some ticked ∧
      slotRun srv ops ticked = some st ∧
      ∀ c ∈ st.conns,
        (c.fd < 0 → c.mem = none ∧ c.len = 0) ∧
        (0 ≤ c.fd → c.len ≤ c.cap ∧ c.memory.length = c.cap ∧
          (c.headersDone = true → c.bodyOffset ≤ c.len ∧ c.contentLength ≤ srv.maxBody)) := by
  obtain ⟨ticked, hticks, hinv⟩ := httpServerTicks_keeps ps (inv_init srv.maxBody s)
  obtain ⟨st, hrun, hst⟩ := slotRun_keeps ops hinv
  refine ⟨ticked, st, hticks, hrun, fun c hc => ⟨(hst c hc).free, fun hopen => ?_⟩⟩
  have hused := (hst c hc).used hopen
  exact ⟨hused.1, (hst c hc).size, hused.2⟩

end ProcWatch

import ProcWatch.Verification.Http.Reuse

/-! # The buffer of a connection over whole runs -/

namespace ProcWatch

open CLib

/-! ## Growth of the buffer -/

theorem growCap_le {fuel cap needed bound : ℕ} (hcap : cap ≤ bound) (hneeded : 2 * needed ≤ bound) :
    growCap fuel cap needed ≤ bound := by
  induction fuel generalizing cap with
  | zero => exact hcap
  | succ fuel ih =>
      rw [growCap]
      split
      · exact ih (by omega)
      · exact hcap

theorem le_growCap {fuel cap needed : ℕ} (h : needed ≤ cap * 2 ^ fuel) :
    needed ≤ growCap fuel cap needed := by
  induction fuel generalizing cap with
  | zero => simpa [growCap] using h
  | succ fuel ih =>
      rw [growCap]
      split
      · apply ih
        rw [mul_assoc, ← pow_succ']
        exact h
      · omega

theorem connEnsureCap_cap_le {c : Conn} {needed bound : ℕ} (hcap : c.cap ≤ bound)
    (hinitial : CONN_INITIAL_CAP ≤ bound) (hneeded : 2 * needed ≤ bound) :
    (connEnsureCap c needed).cap ≤ bound := by
  rw [connEnsureCap]
  split
  · exact hcap
  · apply growCap_le _ hneeded
    split
    · exact hinitial
    · exact hcap

theorem le_connEnsureCap_cap (c : Conn) (needed : ℕ) : needed ≤ (connEnsureCap c needed).cap := by
  rw [connEnsureCap]
  split
  · assumption
  · apply le_growCap
    have hstart : 1 ≤ if c.cap = 0 then CONN_INITIAL_CAP else c.cap := by
      rw [CONN_INITIAL_CAP]
      split <;> omega
    calc needed ≤ 2 ^ needed := Nat.lt_two_pow_self.le
      _ = 1 * 2 ^ needed := (one_mul _).symm
      _ ≤ _ := Nat.mul_le_mul_right _ hstart

/-! ## The head in the buffer -/

theorem length_le_of_incomplete {c : Conn} (h : parseHeaders c = .incomplete) :
    c.buf.length ≤ HEADER_MAX := by
  rw [parseHeaders] at h
  split at h
  · split at h
    · cases h
    · omega
  · split at h
    · cases h
    · exact absurd h (parseRequest_ne_incomplete _ _ _)

/-! ## Requests in a stream -/

/-- Length of the longest request that the limits allow. -/
def requestMax {σ : Type} (srv : Server σ) : ℕ :=
  HEADER_MAX + srv.maxBody + 4

section Streams

variable {σ : Type} (srv : Server σ)

/-- The request has `n` bytes, keeps the body limit and does not end the connection. -/
structure KeepsOpen (n : ℕ) (c : Conn) : Prop where
  keepAlive : c.keepAlive = true
  contentLength : c.contentLength ≤ srv.maxBody
  length : c.bodyOffset + c.contentLength = n

/-- The stream consists of these requests, each of which is read alike however much of the stream
has arrived behind it, and at its end no more than the beginning of another one. -/
inductive Divided : Bytes → List Bytes → Prop
  | rest {s : Bytes} :
      (∀ p c n, p <+: s → ReadsHead p c → KeepsOpen srv n c → s.length < n) → Divided s []
  | request {q s : Bytes} {qs : List Bytes} :
      (∀ p c, p <+: q ++ s → ReadsHead p c → KeepsOpen srv q.length c) →
      (∀ p, p <+: s → ∃ c, ReadsHead (q ++ p) c) → Divided s qs → Divided (q ++ s) (q :: qs)

variable {srv}

theorem Divided.request_inv {s q : Bytes} {qs : List Bytes} (h : Divided srv s (q :: qs)) :
    ∃ t, s = q ++ t ∧ (∀ p c, p <+: s → ReadsHead p c → KeepsOpen srv q.length c) ∧
      (∀ p, p <+: t → ∃ c, ReadsHead (q ++ p) c) ∧ Divided srv t qs := by
  cases h with
  | request hread hfull hrest => exact ⟨_, rfl, hread, hfull, hrest⟩

theorem Divided.rest_inv {s : Bytes} (h : Divided srv s []) :
    ∀ p c n, p <+: s → ReadsHead p c → KeepsOpen srv n c → s.length < n := by
  cases h with
  | rest hrest => exact hrest

theorem Divided.length_le {s : Bytes} {qs : List Bytes} (h : Divided srv s qs) :
    ∀ q ∈ qs, q.length ≤ requestMax srv := by
  induction h with
  | rest => simp
  | @request q s qs hread hfull _ ih =>
      intro r hr
      rcases List.mem_cons.mp hr with rfl | hr
      · obtain ⟨c, hc⟩ := hfull [] List.nil_prefix
        rw [List.append_nil] at hc
        have hkeeps := hread r c (List.prefix_append _ _) hc
        have hoffset := hc.parsedFrom.1
        have hlength := hkeeps.contentLength
        rw [← hkeeps.length, requestMax]
        omega
      · exact ih r hr

theorem Divided.isPrefix {s : Bytes} {qs : List Bytes} (h : Divided srv s qs) :
    qs.flatten <+: s := by
  induction h with
  | rest => exact List.nil_prefix
  | request _ _ _ ih => simpa using ih

/-! ## One call -/

variable (srv) in
/-- A connection between two calls: no head has been read, or that of the request in front. -/
inductive Standing : Conn → Prop
  | idle (buf : Bytes) (cap : ℕ) : Standing (.holding buf cap)
  | reading {p buf : Bytes} {head : Conn} (cap : ℕ) : p <+: buf → ReadsHead p head →
      head.contentLength ≤ srv.maxBody → Standing (head.storing buf cap)

theorem Standing.ensureCap {c : Conn} (h : Standing srv c) (needed : ℕ) :
    Standing srv (connEnsureCap c needed) := by
  rw [connEnsureCap_eq]
  cases h with
  | idle buf cap => exact .idle buf _
  | @reading p buf head cap hp hread hle =>
      have hstanding (room : ℕ) : Standing srv (head.storing buf room) :=
        .reading room hp hread hle
      exact hstanding _

theorem serveBody_cases (c : Conn) (behind : Bytes) (s : σ) :
    (c.buf.length - c.bodyOffset < c.contentLength ∧
        serveBody srv c behind s =
          (some (connEnsureCap c (c.bodyOffset + c.contentLength)), s, [])) ∨
      (c.contentLength ≤ c.buf.length - c.bodyOffset ∧
        ∃ t events, serveBody srv c behind s = afterDispatch c t events) := by
  by_cases hshort : c.buf.length - c.bodyOffset < c.contentLength
  · exact .inl ⟨hshort, by rw [serveBody, if_pos hshort]⟩
  · right
    refine ⟨not_lt.mp hshort, ?_⟩
    rw [serveBody, if_neg hshort]
    dsimp only
    split
    · exact ⟨_, _, rfl⟩
    · split
      · split
        · exact ⟨_, _, rfl⟩
        · exact ⟨_, _, rfl⟩
      · exact ⟨_, _, rfl⟩

/-- What a delivery makes of the buffer `buf` with room for `cap` bytes: the request in front is
taken off, or the connection waits for the rest of it. -/
inductive Advances (srv : Server σ) (later buf : Bytes) (cap : ℕ) :
    List Bytes → Conn → List Bytes → Prop
  | taken {q rest : Bytes} {qs : List Bytes} : buf = q ++ rest → Divided srv (rest ++ later) qs →
      Advances srv later buf cap (q :: qs) (.holding rest cap) qs
  | waits {qs : List Bytes} {c : Conn} : Standing srv c → c.buf = buf →
      buf.length ≤ requestMax srv → Frames.complete qs buf = 0 →
      (∀ bound, cap ≤ bound → CONN_INITIAL_CAP ≤ bound → 2 * requestMax srv ≤ bound →
        c.cap ≤ bound) →
      Advances srv later buf cap qs c qs

theorem advances_of_serveBody {head c' : Conn} {p buf later behind : Bytes} {cap : ℕ} {s s' : σ}
    {events : List HttpEvent} {qs : List Bytes} (hp : p <+: buf) (hread : ReadsHead p head)
    (hle : head.contentLength ≤ srv.maxBody) (hdiv : Divided srv (buf ++ later) qs)
    (h : serveBody srv (head.storing buf cap) behind s = (some c', s', events)) :
    ∃ qs', Advances srv later buf cap qs c' qs' := by
  obtain ⟨hmax, hfits, -⟩ := hread.parsedFrom
  have hoffset : head.bodyOffset ≤ buf.length := hfits.trans hp.length_le
  have hstream : p <+: buf ++ later := hp.trans (List.prefix_append _ _)
  have hcases : _ ∧ serveBody srv _ behind s = _ ∨ _ :=
    serveBody_cases (head.storing buf cap) behind s
  have hfields : (head.storing buf cap).buf = buf ∧
      (head.storing buf cap).bodyOffset = head.bodyOffset ∧
      (head.storing buf cap).contentLength = head.contentLength ∧
      (head.storing buf cap).keepAlive = head.keepAlive := ⟨rfl, rfl, rfl, rfl⟩
  obtain ⟨hbuf, hbodyOffset, hlength, halive⟩ := hfields
  rw [hbuf, hbodyOffset, hlength] at hcases
  cases hcases with
  | inl hwait =>
      obtain ⟨hshort, hserve⟩ := hwait
      obtain rfl := Option.some.inj (Prod.mk.inj (hserve.symm.trans h)).1
      have hneeded : head.bodyOffset + head.contentLength ≤ requestMax srv := by
        rw [requestMax]
        omega
      refine ⟨qs, .waits ((Standing.reading cap hp hread hle).ensureCap _) ?_ (by omega) ?_ ?_⟩
      · rw [connEnsureCap_eq]
        rfl
      · cases qs with
        | nil => rfl
        | cons q qs =>
            apply Frames.complete_cons_of_not_isPrefix
            intro hq
            obtain ⟨t, -, hreads, -, -⟩ := hdiv.request_inv
            have hkeeps := (hreads p head hstream hread).length
            have := hq.length_le
            omega
      · intro bound hcap hinitial hroom
        exact connEnsureCap_cap_le hcap hinitial (by omega)
  | inr hdone =>
      obtain ⟨henough, t, events', hserve⟩ := hdone
      rw [hserve, afterDispatch, hbuf, hbodyOffset, hlength, halive] at h
      cases hkeep : head.keepAlive with
      | false => simp [hkeep] at h
      | true =>
          simp only [hkeep, Bool.not_true, Bool.false_eq_true, if_false] at h
          obtain rfl := Option.some.inj (Prod.mk.inj h).1
          have hkeeps : KeepsOpen srv (head.bodyOffset + head.contentLength) head := ⟨hkeep, hle, rfl⟩
          cases qs with
          | nil =>
              have hlt := hdiv.rest_inv p head _ hstream hread hkeeps
              rw [List.length_append] at hlt
              omega
          | cons q qs =>
              obtain ⟨t, hsplit, hreads, -, hrest⟩ := hdiv.request_inv
              have hq : head.bodyOffset + head.contentLength = q.length :=
                (hreads p head hstream hread).length
              have hprefix : q <+: buf := by
                apply List.prefix_of_prefix_length_le (List.prefix_append q t)
                · rw [← hsplit]
                  exact List.prefix_append _ _
                · omega
              obtain ⟨rest, rfl⟩ := hprefix
              rw [hq, List.drop_left]
              rw [List.append_assoc] at hsplit
              rw [← List.append_cancel_left hsplit] at hrest
              have htaken : Advances srv later (q ++ rest) cap (q :: qs) (.holding rest cap) qs :=
                .taken rfl hrest
              exact ⟨qs, htaken⟩

/-- A delivery to a connection that stands in its stream. -/
theorem advances_of_connService {c c' : Conn} {chunk later behind : Bytes} {s s' : σ}
    {events : List HttpEvent} {qs : List Bytes} (hc : Standing srv c)
    (hdiv : Divided srv (c.buf ++ chunk ++ later) qs)
    (h : connService srv c (.data chunk) behind s = (some c', s', events)) :
    ∃ qs', Advances srv later (c.buf ++ chunk) (connEnsureCap c (c.buf.length + 4096)).cap qs c'
      qs' := by
  generalize hroom : (connEnsureCap c (c.buf.length + 4096)).cap = room
  cases hc with
  | reading cap hp hread hle =>
      rw [connService_storing srv hread.parsedFrom.2.2 _ cap hroom] at h
      exact advances_of_serveBody (hp.trans (List.prefix_append _ _)) hread hle hdiv h
  | idle buf cap =>
      rw [connService_holding srv buf cap hroom] at h
      cases hparse : parseHeaders (Conn.holding (buf ++ chunk) 0) with
      | malformed => simp [hparse] at h
      | incomplete =>
          simp only [hparse] at h
          obtain rfl := Option.some.inj (Prod.mk.inj h).1
          have hlen : (buf ++ chunk).length ≤ HEADER_MAX := length_le_of_incomplete hparse
          refine ⟨qs, .waits (.idle (buf ++ chunk) room) rfl ?_ ?_ fun bound hcap _ _ => hcap⟩
          · exact hlen.trans (by rw [requestMax]; omega)
          · cases qs with
            | nil => rfl
            | cons q qs =>
                apply Frames.complete_cons_of_not_isPrefix
                rintro ⟨p, hp⟩
                obtain ⟨t, hsplit, -, hfull, -⟩ := hdiv.request_inv
                have hp' : q ++ p = buf ++ chunk := hp
                have ht : p <+: t := by
                  have hboth : q ++ (p ++ later) = q ++ t := by
                    rw [← List.append_assoc, hp']
                    exact hsplit
                  exact ⟨later, List.append_cancel_left hboth⟩
                obtain ⟨c, hc⟩ := hfull p ht
                rw [ReadsHead, hp', hparse] at hc
                cases hc
      | complete head =>
          simp only [hparse] at h
          have hread : ReadsHead (buf ++ chunk) head := hparse
          by_cases hmax : srv.maxBody < head.contentLength
          · simp [hmax] at h
          · rw [if_neg hmax] at h
            exact advances_of_serveBody List.prefix_rfl hread (not_lt.mp hmax) hdiv h

/-! ## Runs of one connection -/

end Streams

/-- What `recv` stores fits behind the buffered bytes. -/
def Recv.Fits (c : Conn) : Recv → Prop
  | .data chunk => chunk ≠ [] ∧
      c.buf.length + chunk.length ≤ (connEnsureCap c (c.buf.length + 4096)).cap
  | _ => True

theorem Recv.fits_of_le (c : Conn) {chunk : Bytes} (hne : chunk ≠ []) (hlen : chunk.length ≤ 4096) :
    Recv.Fits c (.data chunk) :=
  ⟨hne, (Nat.add_le_add_left hlen _).trans (le_connEnsureCap_cap c _)⟩

/-- The chunk that comes in, if there is one. -/
def Recv.chunks : Recv → List Bytes
  | .data chunk => [chunk]
  | _ => []

section Runs

variable {σ : Type}

/-- The connection in runs of `conn_service`, with the chunks that have come in. -/
inductive Held (srv : Server σ) : List Bytes → Conn → σ → Prop
  | accepted (s : σ) : Held srv [] Conn.accepted s
  | service {chunks : List Bytes} {c c' : Conn} {s s' : σ} {r : Recv} {behind : Bytes}
      {events : List HttpEvent} : Held srv chunks c s → r.Fits c →
      connService srv c r behind s = (some c', s', events) → Held srv (chunks ++ r.chunks) c' s'

variable (srv : Server σ) (N : ℕ)

/-- Limit for a buffer that holds no more than `N + 1` requests. -/
def pacedMax : ℕ :=
  (N + 1) * requestMax srv + CONN_INITIAL_CAP

/-- The stream is `done`, which has been taken off, and what the buffer goes on with. While more of
`todo` is to come the buffer keeps to the limit; behind the last request it may double at each
request that is still taken off. -/
structure Pacing (qs : List Bytes) (later : Bytes) (chunks : List Bytes) (c : Conn)
    (done todo : List Bytes) (k : ℕ) : Prop where
  split : qs = done ++ todo
  stream : chunks.flatten = done.flatten ++ c.buf
  divided : Divided srv (c.buf ++ later) todo
  standing : Standing srv c
  inTime : ∀ n, Frames.InTime qs [] chunks n chunks.length → n ≤ done.length
  length : c.buf.length + CONN_INITIAL_CAP ≤ 2 ^ k * pacedMax srv N
  cap : c.cap + CONN_INITIAL_CAP ≤ 2 ^ (k + 1) * pacedMax srv N
  behind : k = 0 ∨ Frames.complete todo c.buf = todo.length ∧ k + todo.length ≤ N

variable {srv N} {qs : List Bytes} {later : Bytes} {chunks : List Bytes} {c c' : Conn}
  {done todo : List Bytes} {k : ℕ}

theorem pacing_accepted (h : Divided srv later qs) :
    Pacing srv N qs later [] Conn.accepted [] qs 0 where
  split := rfl
  stream := rfl
  divided := h
  standing := .idle [] 0
  inTime := fun _ h => h.1
  length := by simp [Conn.accepted, pacedMax]
  cap := by simp [Conn.accepted, pacedMax]; omega
  behind := .inl rfl

theorem double_pow (k x : ℕ) : 2 ^ (k + 1) * x = 2 * (2 ^ k * x) := by
  ring

theorem le_pow_mul (k x : ℕ) : x ≤ 2 ^ k * x :=
  Nat.le_mul_of_pos_left x (Nat.two_pow_pos k)

/-- The room that the call makes in front of `recv`. -/
theorem Pacing.room_le (h : Pacing srv N qs later chunks c done todo k) :
    (connEnsureCap c (c.buf.length + 4096)).cap + CONN_INITIAL_CAP ≤
      2 ^ (k + 1) * pacedMax srv N := by
  have hlength := h.length
  have hcap := h.cap
  rw [double_pow] at hcap ⊢
  have hinitial : CONN_INITIAL_CAP = 8192 := rfl
  have hroom : (connEnsureCap c (c.buf.length + 4096)).cap ≤
      2 * (2 ^ k * pacedMax srv N) - CONN_INITIAL_CAP :=
    connEnsureCap_cap_le (by omega) (by omega) (by omega)
  omega

/-- No more than `N + 1` requests have begun in the buffer when a delivery has come in. -/
theorem Pacing.begun_le {chunk : Bytes}
    (h : Pacing srv N qs (chunk ++ later) chunks c done todo k)
    (hpaced : Frames.Paced N qs (chunks ++ [chunk])) :
    Frames.begun todo (c.buf ++ chunk) ≤ N + 1 := by
  obtain ⟨n, hn, hbegun⟩ := hpaced chunks.length (by simp)
  rw [Frames.inTime_append_of_le qs [] le_rfl] at hn
  have hall : Frames.arrived [] (chunks ++ [chunk]) (chunks.length + 1) =
      done.flatten ++ (c.buf ++ chunk) := by
    have hlast := Frames.arrived_length (chunks ++ [chunk])
    rw [List.length_append, List.length_singleton] at hlast
    rw [hlast, List.flatten_append, h.stream]
    simp
  rw [hall, h.split, Frames.begun_append] at hbegun
  have := h.inTime n hn
  omega

/-- A call in which nothing comes in. -/
theorem Pacing.ensureCap (h : Pacing srv N qs later chunks c done todo k) :
    Pacing srv N qs later chunks (connEnsureCap c (c.buf.length + 4096)) done todo k := by
  have hbuf : (connEnsureCap c (c.buf.length + 4096)).buf = c.buf := by
    rw [connEnsureCap_eq]
  exact ⟨h.split, by rw [hbuf, h.stream], by rw [hbuf]; exact h.divided, h.standing.ensureCap _,
    h.inTime, by rw [hbuf]; exact h.length, h.room_le, by rw [hbuf]; exact h.behind⟩

/-- A delivery behind which the connection waits. -/
theorem Pacing.waits {chunk : Bytes} (h : Pacing srv N qs (chunk ++ later) chunks c done todo k)
    (hstanding : Standing srv c') (hbuf : c'.buf = c.buf ++ chunk)
    (hlen : (c.buf ++ chunk).length ≤ requestMax srv)
    (hnone : Frames.complete todo (c.buf ++ chunk) = 0)
    (hcap : ∀ bound, (connEnsureCap c (c.buf.length + 4096)).cap ≤ bound →
      CONN_INITIAL_CAP ≤ bound → 2 * requestMax srv ≤ bound → c'.cap ≤ bound) :
    Pacing srv N qs later (chunks ++ [chunk]) c' done todo k := by
  have hstream : (chunks ++ [chunk]).flatten = done.flatten ++ (c.buf ++ chunk) := by
    rw [List.flatten_append, h.stream]
    simp
  have hunit : requestMax srv + CONN_INITIAL_CAP ≤ pacedMax srv N :=
    Nat.add_le_add_right (Nat.le_mul_of_pos_left _ N.succ_pos) _
  have hpow := le_pow_mul k (pacedMax srv N)
  refine ⟨h.split, by rw [hbuf, hstream], by rw [hbuf, List.append_assoc]; exact h.divided,
    hstanding, fun n hn => ?_, by rw [hbuf]; omega, ?_, ?_⟩
  · have hlast := hn.2 chunks.length (by simp)
    have hall := Frames.arrived_length (chunks ++ [chunk])
    rw [List.length_append, List.length_singleton] at hall hlast
    rw [hall, hstream, h.split, Frames.complete_append, hnone] at hlast
    omega
  · have hroom := h.room_le
    rw [double_pow] at hroom ⊢
    have hle := hcap (2 * (2 ^ k * pacedMax srv N) - CONN_INITIAL_CAP) (by omega) (by omega)
      (by omega)
    omega
  · refine h.behind.imp_right fun ⟨hall, hk⟩ => ?_
    have hmono := Frames.complete_le_append todo c.buf chunk
    rw [hbuf, hnone]
    omega

/-- A delivery that lets the request in front be taken off. -/
theorem Pacing.taken {q rest chunk : Bytes}
    (h : Pacing srv N qs (chunk ++ later) chunks c done (q :: todo) k)
    (hpaced : Frames.Paced N qs (chunks ++ [chunk]))
    (hroom : c.buf.length + chunk.length ≤ (connEnsureCap c (c.buf.length + 4096)).cap)
    (hsplit : c.buf ++ chunk = q ++ rest) (hrest : Divided srv (rest ++ later) todo) :
    ∃ k', Pacing srv N qs later (chunks ++ [chunk])
      (.holding rest (connEnsureCap c (c.buf.length + 4096)).cap) (done ++ [q]) todo k' := by
  have hbegun := h.begun_le hpaced
  rw [hsplit, Frames.begun_cons_append] at hbegun
  have hcap := h.room_le
  have hlen : rest.length ≤ c.buf.length + chunk.length := by
    rw [← List.length_append, hsplit, List.length_append]
    omega
  have hpacing (k' : ℕ) (hlength : rest.length + CONN_INITIAL_CAP ≤ 2 ^ k' * pacedMax srv N)
      (hle : k ≤ k') (hbehind : k' = 0 ∨ Frames.complete todo rest = todo.length ∧
        k' + todo.length ≤ N) :
      Pacing srv N qs later (chunks ++ [chunk])
        (.holding rest (connEnsureCap c (c.buf.length + 4096)).cap) (done ++ [q]) todo k' := by
    refine ⟨by simp [h.split], ?_, hrest, .idle _ _, fun n hn => ?_, hlength, ?_, hbehind⟩
    · rw [List.flatten_append, List.flatten_append, h.stream]
      simpa [Conn.holding] using hsplit
    · cases n with
      | zero => exact Nat.zero_le _
      | succ n =>
          rw [List.length_append, List.length_singleton] at hn ⊢
          exact Nat.succ_le_succ (h.inTime n (Frames.inTime_of_succ hn))
    · exact hcap.trans (Nat.mul_le_mul_right _ (Nat.pow_le_pow_right (by decide) (by omega)))
  rcases h.behind with rfl | ⟨hall, hk⟩
  · by_cases hin : Frames.complete todo rest < todo.length ∨ Frames.unfinished todo rest = []
    · refine ⟨0, hpacing 0 ?_ le_rfl (.inl rfl)⟩
      obtain ⟨t, ht⟩ := hrest.isPrefix
      have hprefix : rest <+: todo.flatten ++ t := ht ▸ List.prefix_append rest later
      have hsize := Frames.length_le_begun hrest.length_le hprefix hin
      have hfits : Frames.begun todo rest * requestMax srv ≤ (N + 1) * requestMax srv :=
        Nat.mul_le_mul_right _ (by omega)
      rw [pow_zero, one_mul, pacedMax]
      omega
    · rw [not_or, not_lt] at hin
      have hcount := (Frames.complete_le_length todo rest).antisymm hin.1
      refine ⟨1, hpacing 1 (by rw [zero_add] at hcap; omega) (Nat.zero_le _) (.inr ⟨hcount, ?_⟩)⟩
      rw [Frames.begun, hcount, if_neg hin.2] at hbegun
      omega
  · have hmono := Frames.complete_le_append (q :: todo) c.buf chunk
    rw [hall, hsplit, Frames.complete_cons_append, List.length_cons] at hmono
    have hcount := (Frames.complete_le_length todo rest).antisymm (by omega)
    refine ⟨k + 1, hpacing (k + 1) (by omega) k.le_succ (.inr ⟨hcount, ?_⟩)⟩
    rw [List.length_cons] at hk
    omega

theorem Pacing.le (h : Pacing srv N qs later chunks c done todo k) : k ≤ N := by
  rcases h.behind with rfl | ⟨-, hk⟩ <;> omega

/-- Along every paced run the buffer keeps its place in the stream. -/
theorem pacing_of_held {s : σ} (h : Held srv chunks c s)
    (hdiv : Divided srv (chunks.flatten ++ later) qs) (hpaced : Frames.Paced N qs chunks) :
    ∃ done todo k, Pacing srv N qs later chunks c done todo k := by
  induction h generalizing later with
  | accepted s => exact ⟨[], qs, 0, pacing_accepted hdiv⟩
  | @service chunks c c' s s' r behind events _ hfits hserve ih =>
      cases r with
      | closed => cases hserve
      | error => cases hserve
      | again =>
          have hnone : Recv.again.chunks = [] := rfl
          rw [hnone, List.append_nil] at hdiv hpaced ⊢
          obtain ⟨done, todo, k, hpacing⟩ := ih hdiv hpaced
          obtain rfl := Option.some.inj (Prod.mk.inj hserve).1
          exact ⟨done, todo, k, hpacing.ensureCap⟩
      | data chunk =>
          rw [Recv.chunks] at hdiv hpaced ⊢
          have hstream : (chunks ++ [chunk]).flatten ++ later = chunks.flatten ++ (chunk ++ later) := by
            simp
          rw [hstream] at hdiv
          obtain ⟨done, todo, k, hpacing⟩ := ih hdiv (Frames.paced_append hpaced)
          have hhere := hpacing.divided
          rw [← List.append_assoc] at hhere
          obtain ⟨todo', hadvances⟩ := advances_of_connService hpacing.standing hhere hserve
          cases hadvances with
          | taken hsplit hrest =>
              obtain ⟨k', hpacing'⟩ := hpacing.taken hpaced hfits.2 hsplit hrest
              exact ⟨_, _, k', hpacing'⟩
          | waits hstanding hbuf hlen hnone hcap =>
              exact ⟨done, todo, k, hpacing.waits hstanding hbuf hlen hnone hcap⟩

end Runs

/-! ## Streams of POST requests -/

section Posts

variable {σ : Type} {srv : Server σ}

theorem PostRequest.keepsOpen_of_readsHead {r : PostRequest} (hmax : r.body.length ≤ srv.maxBody)
    {p s : Bytes} {c : Conn} (hp : p <+: r.encode ++ s) (hread : ReadsHead p c) :
    KeepsOpen srv r.encode.length c := by
  have hstream : (Conn.holding p 0).buf <+: r.toHead.encode ++ (r.body ++ s) := by
    rwa [← List.append_assoc]
  have hreads := r.toHead.reads_parseHeaders hstream
  rw [show parseHeaders (.holding p 0) = .complete c from hread] at hreads
  cases hreads with
  | whole hstarts hlimits =>
      rw [r.parsed_toHead (hmax.trans_lt srv.maxBody_lt)]
      exact ⟨rfl, hmax, by simp [PostRequest.parsed, PostRequest.encode]⟩

theorem PostRequest.readsHead_append (r : PostRequest) (hmax : r.body.length ≤ srv.maxBody)
    (p : Bytes) : ∃ c, ReadsHead (r.encode ++ p) c :=
  ⟨_, r.parseHeaders_of_isPrefix (hmax.trans_lt srv.maxBody_lt)
    ((List.prefix_append r.head r.body).trans (List.prefix_append _ _))⟩

/-- Requests within the body limit, and the beginning of another one. -/
theorem divided_wire {rs : List PostRequest} (hmax : ∀ r ∈ rs, r.body.length ≤ srv.maxBody)
    {r : PostRequest} (hr : r.body.length ≤ srv.maxBody) {t : Bytes} (ht : t <+: r.encode)
    (hlen : t.length < r.encode.length) :
    Divided srv (wire rs ++ t) (rs.map PostRequest.encode) := by
  induction rs with
  | nil =>
      refine .rest fun p c n hp hread hkeeps => ?_
      have hp' : p <+: r.encode ++ [] := by
        rw [List.append_nil]
        exact hp.trans ht
      rw [← hkeeps.length, (PostRequest.keepsOpen_of_readsHead hr hp' hread).length]
      exact hlen
  | cons q rs ih =>
      have hq := hmax q (by simp)
      have hsplit : wire (q :: rs) ++ t = q.encode ++ (wire rs ++ t) := by
        simp [wire]
      rw [hsplit]
      exact .request (fun p c hp hread => PostRequest.keepsOpen_of_readsHead hq hp hread)
        (fun p _ => q.readsHead_append hq p) (ih fun r hr => hmax r (List.mem_cons_of_mem q hr))

end Posts

/-- A request that is answered with 404 and keeps the connection. -/
theorem rootRequest_contentLength :
    ∀ h ∈ ([] : List Header), h.Is contentLengthKey → Announces h.value 0 := by
  simp

def rootRequest : PostRequest where
  target := bytes "/"
  version := bytes "HTTP/1.1"
  headers := []
  body := []
  target_oneLine := by decide +kernel
  space_notMem := by decide +kernel
  version_oneLine := oneLine_version
  startLine_lt := by decide +kernel
  header_le := by decide +kernel
  contentLength := rootRequest_contentLength
  body_eq_nil := fun _ => rfl
  keepAlive := by simp

theorem length_rootRequest : rootRequest.encode.length = 19 := by decide

/-- Two requests and the beginning of a third one, which comes in at the next read. -/
def pipelined : List Bytes :=
  [rootRequest.encode ++ rootRequest.encode ++ emptyObjectRequest.encode.take 30,
    emptyObjectRequest.encode.drop 30]

theorem held_pipelined :
    Held acceptingServer pipelined (.holding emptyObjectRequest.encode 8192) () := by
  have hfirst : connService acceptingServer Conn.accepted
      (.data (rootRequest.encode ++ rootRequest.encode ++ emptyObjectRequest.encode.take 30)) []
        () =
      (some (.holding (rootRequest.encode ++ emptyObjectRequest.encode.take 30) 8192), (),
        [.responded 404 true]) := by
    decide +kernel
  have hsecond : connService acceptingServer
      (.holding (rootRequest.encode ++ emptyObjectRequest.encode.take 30) 8192)
      (.data (emptyObjectRequest.encode.drop 30)) [] () =
      (some (.holding emptyObjectRequest.encode 8192), (), [.responded 404 true]) := by
    decide
  have hsizes : ∀ chunk ∈ pipelined, chunk ≠ [] ∧ chunk.length ≤ 4096 := by decide
  have hfits (c : Conn) (chunk : Bytes) (h : chunk ∈ pipelined) : Recv.Fits c (.data chunk) :=
    Recv.fits_of_le c (hsizes chunk h).1 (hsizes chunk h).2
  exact .service (.service (.accepted ()) (hfits _ _ (by simp [pipelined])) hfirst)
    (hfits _ _ (by simp [pipelined])) hsecond

theorem paced_pipelined : Frames.Paced 2
    [rootRequest.encode, rootRequest.encode, emptyObjectRequest.encode] pipelined := by
  intro i hi
  match i, hi with
  | 0, _ => exact ⟨0, by decide, by decide⟩
  | 1, _ => exact ⟨1, by decide, by decide⟩

/-- The client sends two requests for each one that is served. -/
theorem held_rootRequests (n : ℕ) : ∃ chunks c, Held acceptingServer chunks c () ∧
    c.headersDone = false ∧ c.buf = (List.replicate n rootRequest.encode).flatten := by
  induction n with
  | zero => exact ⟨[], Conn.accepted, .accepted (), rfl, rfl⟩
  | succ n ih =>
      obtain ⟨chunks, c, hheld, hdone, hbuf⟩ := ih
      have hfits : Recv.Fits c (.data (rootRequest.encode ++ rootRequest.encode)) := by
        apply Recv.fits_of_le c (by simp [rootRequest.encode_ne_nil])
        rw [List.length_append, length_rootRequest]
        decide
      have hfilled : c.buf ++ (rootRequest.encode ++ rootRequest.encode) =
          rootRequest.encode ++ (List.replicate (n + 1) rootRequest.encode).flatten := by
        have hcount : n + 1 + 1 = n + 2 := rfl
        rw [hbuf, ← List.flatten_cons, ← List.replicate_succ, hcount, List.replicate_add,
          List.flatten_append]
        simp [List.replicate_succ]
      have hwithin : Within rootRequest c := fun h => by rw [hdone] at h; cases h
      obtain ⟨c', s', events, hserve, hbuf', hdone', -⟩ :=
        connService_of_complete acceptingServer rootRequest hwithin (Nat.zero_le _)
          ⟨_, hfilled.symm⟩ [] ()
      refine ⟨_, c', .service hheld hfits hserve, hdone', ?_⟩
      rw [hbuf', hfilled, List.drop_left]

end ProcWatch

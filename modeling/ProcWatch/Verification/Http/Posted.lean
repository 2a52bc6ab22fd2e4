import ProcWatch.Verification.Http.Acknowledged

/-! # Requests on connections of their own -/

namespace ProcWatch

open CLib

/-- How the server answers a request on a connection of its own: one call of the handler, or
none for a path that is not served. -/
def handOver {σ : Type} (srv : Server σ) (path body behind : Bytes) (s : σ) : Serviced σ :=
  if signalForPath path = .unknown then (none, s, [.responded 404 false])
  else
    let a := srv.handler ⟨signalForPath path, (CStr.copy 128 path).val, body, behind⟩ s
    (none, a.2,
      [.invoked (signalForPath path) body, .responded (if a.1 = 0 then 200 else 400) false])

namespace RequestHead

variable {σ : Type} (srv : Server σ) (r : RequestHead)

/-- The head of an uncompressed POST with this body, behind which the connection is closed. -/
structure Posts (body : Bytes) : Prop where
  isPost : r.IsPost
  startLine_lt : r.startLine.length < 512
  length_le : r.encode.length ≤ HEADER_MAX
  contentLength : r.contentLength = body.length
  plain : ¬ r.Compressed
  closing : r.Closing

variable {r} {body : Bytes}

namespace Posts

theorem withinLimits (h : r.Posts body) : r.WithinLimits := by
  have hle := h.length_le
  rw [← length_header_add] at hle
  exact ⟨h.startLine_lt, by omega⟩

theorem awaited_eq (h : r.Posts body) (hmax : body.length ≤ srv.maxBody) :
    r.awaited = body.length := by
  have hlt := srv.maxBody_lt
  rw [awaited, if_pos h.isPost, h.contentLength]
  omega

end Posts

theorem nulFree_encode (r : RequestHead) : (0 : Byte) ∉ r.encode := by
  rw [encode, List.mem_append, not_or, ← r.cstr_header]
  exact ⟨nulFree_cstr _, by decide⟩

/-- What is read from the head of such a POST. -/
theorem Posts.parsed_eq (h : r.Posts body) (hmax : body.length ≤ srv.maxBody) (c : Conn) :
    (r.parsed c).contentLength = body.length ∧ (r.parsed c).gzip = false ∧
      (r.parsed c).keepAlive = false ∧
      signalForPath (r.parsed c).path.val = signalForPath r.path := by
  have hnul : (0 : Byte) ∉ r.path := fun h0 =>
    (r.target_oneLine 0 ((List.takeWhile_prefix _).subset h0)).1 rfl
  refine ⟨h.awaited_eq srv hmax, ?_, ?_, signalForPath_copy hnul⟩
  · simp [parsed, h.isPost, h.plain]
  · simp [parsed, h.closing]

theorem serveBody_of_posts (h : r.Posts body) (hmax : body.length ≤ srv.maxBody) (c : Conn)
    (cap : ℕ) (behind : Bytes) (s : σ) :
    serveBody srv ((r.parsed c).storing (r.encode ++ body) cap) behind s =
      handOver srv r.path body behind s := by
  obtain ⟨hlength, hgzip, halive, hsignal⟩ := h.parsed_eq srv hmax c
  have hoffset : (r.parsed c).bodyOffset = r.encode.length := rfl
  have hpath : (r.parsed c).path = CStr.copy 128 r.path := rfl
  generalize r.parsed c = p at hlength hgzip halive hsignal hoffset hpath ⊢
  have hfields : (p.storing (r.encode ++ body) cap).bodyOffset = r.encode.length ∧
      (p.storing (r.encode ++ body) cap).contentLength = body.length ∧
      (p.storing (r.encode ++ body) cap).gzip = false ∧
      (p.storing (r.encode ++ body) cap).keepAlive = false ∧
      (p.storing (r.encode ++ body) cap).path = p.path ∧
      (p.storing (r.encode ++ body) cap).buf = r.encode ++ body :=
    ⟨hoffset, hlength, hgzip, halive, rfl, rfl⟩
  have hhave : (r.encode ++ body).length - r.encode.length = body.length := by simp
  have hbody : ((r.encode ++ body).drop r.encode.length).take body.length = body := by
    rw [List.drop_left, List.take_length]
  have hrest : (r.encode ++ body).drop (r.encode.length + body.length) = [] := by
    rw [← List.length_append, List.drop_length]
  obtain ⟨hoffset', hlength', hgzip', halive', hpath', hbuf'⟩ := hfields
  rw [serveBody, if_neg (by rw [hbuf', hoffset', hhave, hlength']; exact lt_irrefl _), handOver]
  simp only [hpath', hsignal, hgzip', hoffset', hlength', hbuf', hbody, hrest]
  by_cases hu : signalForPath r.path = .unknown
  · simp [hu, afterDispatch, halive']
  · simp [hu, dispatch, afterDispatch, halive', hpath', hpath]

/-- From the delivery on with which the head is there. -/
theorem serve_of_serveBody (h : r.Posts body) (hmax : body.length ≤ srv.maxBody) {c c' : Conn}
    {d : Delivery} {ds : List Delivery} {t : Bytes} {cap : ℕ}
    (hstream : t ++ (chunks ds).flatten = body) {s : σ}
    (hserve : connService srv c (.data d.chunk) d.behind s =
      serveBody srv ((r.parsed c').storing (r.encode ++ t) cap) d.behind s) :
    ∃ e ∈ d :: ds, serve srv (d :: ds) (some c) s = handOver srv r.path body e.behind s := by
  induction ds generalizing c d t cap with
  | nil =>
      obtain rfl : t = body := by simpa [chunks] using hstream
      refine ⟨d, by simp, ?_⟩
      rw [serve, hserve, serveBody_of_posts srv h hmax]
      rw [handOver]
      split <;> simp [serve]
  | cons e ds ih =>
      have hshort : t.length < body.length := by
        have hpos := List.length_pos_iff.mpr e.chunk_ne_nil
        rw [← hstream]
        simp [chunks]
        omega
      have hoffset : (r.parsed c').bodyOffset = r.encode.length := rfl
      have hhead : (r.parsed c').bodyOffset ≤ (r.encode ++ t).length := by simp [hoffset]
      have hmissing : (r.encode ++ t).length <
          (r.parsed c').bodyOffset + (r.parsed c').contentLength := by
        simp [hoffset, (h.parsed_eq srv hmax c').1, hshort]
      obtain ⟨cap', hwait⟩ := serveBody_of_short srv hhead hmissing cap d.behind s
      have hdone : (r.parsed c').headersDone = true := rfl
      have hnext := connService_storing srv hdone (r.encode ++ t) cap' rfl e.chunk e.behind s
      rw [List.append_assoc] at hnext
      have hsplit : t ++ e.chunk ++ (chunks ds).flatten = body := by
        simpa [chunks] using hstream
      obtain ⟨e', he', hrest⟩ := ih hsplit hnext
      exact ⟨e', List.mem_cons_of_mem d he', by simp [serve, hserve.trans hwait, hrest]⟩

/-- However the request is cut, it is dealt with once, when its last byte is there. -/
theorem serve_posted (h : r.Posts body) (hmax : body.length ≤ srv.maxBody) {ds : List Delivery}
    (buf : Bytes) (cap : ℕ) (hstream : buf ++ (chunks ds).flatten = r.encode ++ body)
    (hlen : buf.length < r.encode.length) (s : σ) :
    ∃ d ∈ ds, serve srv ds (some (.holding buf cap)) s = handOver srv r.path body d.behind s := by
  induction ds generalizing buf cap with
  | nil =>
      have hall := congrArg List.length hstream
      simp [chunks] at hall
      omega
  | cons d ds ih =>
      have hsplit : (buf ++ d.chunk) ++ (chunks ds).flatten = r.encode ++ body := by
        simpa [chunks] using hstream
      have hbuf : (Conn.holding (buf ++ d.chunk) 0).buf <+: r.encode ++ body :=
        hsplit ▸ List.prefix_append _ _
      have hreads := r.reads_parseHeaders hbuf
      have hservice := connService_holding srv buf cap rfl d.chunk d.behind s
      cases hparse : parseHeaders (.holding (buf ++ d.chunk) 0) with
      | malformed =>
          rw [hparse] at hreads
          cases hreads with
          | refused hlimits => exact absurd h.withinLimits hlimits
          | givenUp hshort hlong =>
              have hle := h.length_le
              omega
      | incomplete =>
          rw [hparse] at hreads
          simp only [hparse] at hservice
          cases hreads with
          | unfinished hshort =>
              obtain ⟨e, he, hserve⟩ := ih _
                (connEnsureCap (Conn.holding buf cap) (buf.length + 4096)).cap hsplit hshort
              exact ⟨e, List.mem_cons_of_mem d he, by simp [serve, hservice, hserve]⟩
      | complete p =>
          rw [hparse] at hreads
          simp only [hparse] at hservice
          cases hreads with
          | whole hstarts hlimits =>
              obtain ⟨t, ht⟩ := hstarts
              have ht' : r.encode ++ t = buf ++ d.chunk := ht
              have htail : t ++ (chunks ds).flatten = body := by
                rw [← ht', List.append_assoc] at hsplit
                exact List.append_cancel_left hsplit
              rw [(h.parsed_eq srv hmax _).1, if_neg hmax.not_gt, ← ht'] at hservice
              exact serve_of_serveBody srv h hmax htail hservice

theorem serve_posted_accepted (h : r.Posts body) (hmax : body.length ≤ srv.maxBody)
    {ds : List Delivery} (hstream : (chunks ds).flatten = r.encode ++ body) (s : σ) :
    ∃ d ∈ ds, serve srv ds (some Conn.accepted) s = handOver srv r.path body d.behind s :=
  serve_posted srv h hmax [] 0 hstream (List.length_pos_iff.mpr r.encode_ne_nil) s

/-- A head beyond the limits is never accepted. -/
theorem serve_refused (hlimits : ¬ r.WithinLimits) {rest : Bytes} {ds : List Delivery}
    (buf : Bytes) (cap : ℕ) (hstream : buf ++ (chunks ds).flatten <+: r.encode ++ rest) (s : σ) :
    ∀ e ∈ (serve srv ds (some (.holding buf cap)) s).2.2, ¬ e.Accepts := by
  induction ds generalizing buf cap with
  | nil => simp [serve]
  | cons d ds ih =>
      have hsplit : (buf ++ d.chunk) ++ (chunks ds).flatten <+: r.encode ++ rest := by
        simpa [chunks] using hstream
      have hbuf : (Conn.holding (buf ++ d.chunk) 0).buf <+: r.encode ++ rest :=
        (List.prefix_append _ _).trans hsplit
      have hreads := r.reads_parseHeaders hbuf
      have hservice := connService_holding srv buf cap rfl d.chunk d.behind s
      cases hparse : parseHeaders (.holding (buf ++ d.chunk) 0) with
      | malformed =>
          simp only [hparse] at hservice
          simp [serve, hservice, serve_none]
      | incomplete =>
          simp only [hparse] at hservice
          simpa [serve, hservice] using ih _ _ hsplit
      | complete p =>
          rw [hparse] at hreads
          cases hreads with
          | whole _ hwithin => exact absurd hwithin hlimits

end RequestHead

end ProcWatch

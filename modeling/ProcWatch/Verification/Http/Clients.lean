import ProcWatch.Model.HttpClients
import ProcWatch.Verification.Http.Endpoint
import ProcWatch.Verification.Http.Posted

/-! # Requests of the two clients at the server -/

namespace ProcWatch

open CLib

/-! ## Heads -/

/-- Text without blanks, line ends and NUL. -/
def Unbroken (s : Bytes) : Prop :=
  OneLine s ∧ (0x20 : Byte) ∉ s

instance (s : Bytes) : Decidable (Unbroken s) :=
  inferInstanceAs (Decidable (_ ∧ _))

theorem Unbroken.subset {s t : Bytes} (h : Unbroken t) (hs : s ⊆ t) : Unbroken s :=
  ⟨fun b hb => h.1 b (hs hb), fun hb => h.2 (hs hb)⟩

theorem Unbroken.append {s t : Bytes} (hs : Unbroken s) (ht : Unbroken t) : Unbroken (s ++ t) :=
  ⟨hs.1.append ht.1, fun h => (List.mem_append.mp h).elim hs.2 ht.2⟩

theorem oneLine_decimalInt (n : ℤ) : OneLine (decimalInt n) := by
  intro b hb
  cases mem_decimalInt hb with
  | inl h =>
      rw [h]
      decide
  | inr h =>
      refine ⟨?_, ?_, ?_⟩ <;> rintro rfl <;> revert h <;> decide

theorem oneLine_cons {b : Byte} {s : Bytes} (hb : b ≠ 0 ∧ b ≠ 0x0d ∧ b ≠ 0x0a) (hs : OneLine s) :
    OneLine (b :: s) :=
  List.forall_mem_cons.mpr ⟨hb, hs⟩

/-! ## Words of the requests -/

/-- A number behind a blank. -/
theorem announces_decimal (n : ℕ) : Announces (0x20 :: decimal n) n :=
  ⟨[0x20], decimal _, [], by simp, by simp, decimal_ne_nil _, fun _ => isDigit_of_mem_decimal,
    by simp, digitsVal_decimal _⟩

theorem oneLine_post : OneLine (bytes "POST") := by decide +kernel

theorem space_notMem_post : (0x20 : Byte) ∉ bytes "POST" := by decide

theorem oneLine_host : OneLine (bytes "Host") := by decide +kernel

theorem colon_notMem_host : (0x3a : Byte) ∉ bytes "Host" := by decide

theorem oneLine_contentType : OneLine (bytes "Content-Type") := by decide +kernel

theorem colon_notMem_contentType : (0x3a : Byte) ∉ bytes "Content-Type" := by decide

theorem oneLine_contentLength : OneLine (bytes "Content-Length") := by decide +kernel

theorem colon_notMem_contentLength : (0x3a : Byte) ∉ bytes "Content-Length" := by decide

theorem oneLine_connection : OneLine (bytes "Connection") := by decide +kernel

theorem oneLine_close : OneLine (bytes " close") := by decide +kernel

theorem colon_notMem_connection : (0x3a : Byte) ∉ bytes "Connection" := by decide

/-- What the two clients have in common. -/
structure Posting where
  path : Bytes
  host : Bytes
  contentType : Bytes
  port : ℤ
  bodyLen : ℕ
  path_unbroken : Unbroken path
  host_oneLine : OneLine host
  contentType_oneLine : OneLine contentType

namespace Posting

variable (p : Posting)

def hostHeader : Header where
  name := bytes "Host"
  value := 0x20 :: (p.host ++ 0x3a :: decimalInt p.port)
  name_oneLine := oneLine_host
  value_oneLine := oneLine_cons (by decide)
    (p.host_oneLine.append (oneLine_cons (by decide) (oneLine_decimalInt p.port)))
  colon_notMem := colon_notMem_host

def typeHeader : Header where
  name := bytes "Content-Type"
  value := 0x20 :: p.contentType
  name_oneLine := oneLine_contentType
  value_oneLine := oneLine_cons (by decide) p.contentType_oneLine
  colon_notMem := colon_notMem_contentType

def lengthHeader : Header where
  name := bytes "Content-Length"
  value := 0x20 :: decimal p.bodyLen
  name_oneLine := oneLine_contentLength
  value_oneLine := oneLine_cons (by decide) (oneLine_decimalInt p.bodyLen)
  colon_notMem := colon_notMem_contentLength

def closeHeader : Header where
  name := bytes "Connection"
  value := bytes " close"
  name_oneLine := oneLine_connection
  value_oneLine := oneLine_close
  colon_notMem := colon_notMem_connection

theorem announces_lengthHeader : Announces p.lengthHeader.value p.bodyLen :=
  announces_decimal p.bodyLen

theorem hostHeader_ne (p : Posting) : ∀ key ∈ [contentLengthKey, contentEncodingKey],
    ¬ p.hostHeader.Is key := by
  show ∀ key ∈ [contentLengthKey, contentEncodingKey], (bytes "Host").map lowerByte ≠ key
  decide

theorem typeHeader_ne (p : Posting) : ∀ key ∈ [contentLengthKey, contentEncodingKey],
    ¬ p.typeHeader.Is key := by
  show ∀ key ∈ [contentLengthKey, contentEncodingKey], (bytes "Content-Type").map lowerByte ≠ key
  decide

theorem closeHeader_ne : ∀ key ∈ [contentLengthKey, contentEncodingKey], ¬ closeHeader.Is key := by
  decide

theorem lengthHeader_is (p : Posting) :
    p.lengthHeader.Is contentLengthKey ∧ ¬ p.lengthHeader.Is contentEncodingKey := by
  show (bytes "Content-Length").map lowerByte = contentLengthKey ∧
    (bytes "Content-Length").map lowerByte ≠ contentEncodingKey
  decide

/-- The header lines, in order. -/
def headers : List Header :=
  [p.hostHeader, p.typeHeader, p.lengthHeader, closeHeader]

theorem announced_headers : ∀ h ∈ p.headers, h.Is contentLengthKey → Announces h.value p.bodyLen := by
  intro h hmem hkey
  simp only [headers, List.mem_cons, List.not_mem_nil, or_false] at hmem
  rcases hmem with rfl | rfl | rfl | rfl
  · exact absurd hkey (p.hostHeader_ne _ (by simp))
  · exact absurd hkey (p.typeHeader_ne _ (by simp))
  · exact p.announces_lengthHeader
  · exact absurd hkey (closeHeader_ne _ (by simp))

theorem unannounced_headers (h : ∀ h ∈ p.headers, ¬ h.Is contentLengthKey) : p.bodyLen = 0 :=
  absurd p.lengthHeader_is.1 (h _ (by simp [headers]))

/-- The head that the format strings spell out. -/
def head : RequestHead where
  method := bytes "POST"
  target := p.path
  version := bytes "HTTP/1.1"
  headers := p.headers
  method_oneLine := oneLine_post
  space_notMem_method := space_notMem_post
  target_oneLine := p.path_unbroken.1
  space_notMem_target := p.path_unbroken.2
  version_oneLine := oneLine_version
  contentLength := p.bodyLen
  announced := p.announced_headers
  unannounced := p.unannounced_headers

theorem encode_head : p.head.encode = bytes "POST " ++ p.path ++ bytes " HTTP/1.1\r\nHost: " ++
    p.host ++ bytes ":" ++ decimalInt p.port ++ bytes "\r\nContent-Type: " ++ p.contentType ++
    bytes "\r\nContent-Length: " ++ decimal p.bodyLen ++ bytes "\r\nConnection: close\r\n\r\n" := by
  have hpost : bytes "POST " = bytes "POST" ++ [0x20] := by decide
  have hhost : bytes " HTTP/1.1\r\nHost: " =
      0x20 :: bytes "HTTP/1.1" ++ CRLF ++ bytes "Host" ++ [0x3a, 0x20] := by decide
  have hcolon : bytes ":" = [0x3a] := by decide
  have htype : bytes "\r\nContent-Type: " = CRLF ++ bytes "Content-Type" ++ [0x3a, 0x20] := by
    decide
  have hlength : bytes "\r\nContent-Length: " = CRLF ++ bytes "Content-Length" ++ [0x3a, 0x20] := by
    decide
  have hclose : bytes "\r\nConnection: close\r\n\r\n" =
      CRLF ++ bytes "Connection" ++ 0x3a :: bytes " close" ++ (CRLF ++ CRLF) := by
    decide
  rw [hpost, hhost, hcolon, htype, hlength, hclose]
  simp [RequestHead.encode, RequestHead.header, RequestHead.startLine, head, headers, headerTail,
    Header.line, hostHeader, typeHeader, lengthHeader, closeHeader]

theorem length_startLine : p.head.startLine.length = p.path.length + 14 := by
  have hmethod : (bytes "POST").length = 4 := by decide
  have hversion : (bytes "HTTP/1.1").length = 8 := by decide
  simp only [RequestHead.startLine, head, List.length_append, List.length_cons, hmethod, hversion]
  omega

theorem posts_head {body : Bytes} (hlen : p.bodyLen = body.length) (hpath : p.path.length < 498)
    (hfits : p.head.encode.length ≤ HEADER_MAX) : p.head.Posts body where
  isPost := rfl
  startLine_lt := by
    rw [p.length_startLine]
    omega
  length_le := hfits
  contentLength := hlen
  plain := by
    rintro ⟨h, hmem, hkey, -⟩
    simp only [head, headers, List.mem_cons, List.not_mem_nil, or_false] at hmem
    rcases hmem with rfl | rfl | rfl | rfl
    · exact p.hostHeader_ne _ (by simp) hkey
    · exact p.typeHeader_ne _ (by simp) hkey
    · exact p.lengthHeader_is.2 hkey
    · exact closeHeader_ne _ (by simp) hkey
  closing := ⟨closeHeader, by simp [head, headers], by decide⟩

end Posting

/-! ## Replies -/

/-- What a client makes of the first `n` bytes of a reply. -/
theorem postResult_take {status : ℕ} (h : status ∈ [200, 400, 404]) (n : ℕ) :
    postResult ((respond status (reasonFor status) false).take n) =
      if status = 200 ∧ 12 ≤ n then 0 else -1 := by
  have hall : ∀ status ∈ [200, 400, 404], (respond status (reasonFor status) false).length ≤ 120 ∧
      ∀ n < 121, postResult ((respond status (reasonFor status) false).take n) =
        if status = 200 ∧ 12 ≤ n then 0 else -1 := by
    decide +kernel
  obtain ⟨hlen, hbegins⟩ := hall status h
  by_cases hn : n < 121
  · exact hbegins n hn
  · have hwhole := hbegins 120 (by omega)
    rw [List.take_of_length_le hlen] at hwhole
    rw [List.take_of_length_le (by omega), hwhole]
    have hiff : (12 ≤ 120) ↔ 12 ≤ n := by omega
    simp only [hiff]

section Exchange

variable {σ : Type}

/-- What the handler makes of a request for `path`. -/
def answer (srv : Server σ) (path body behind : Bytes) (s : σ) : ℤ × σ :=
  srv.handler ⟨signalForPath path, (CStr.copy 128 path).val, body, behind⟩ s

/-- One request of a client: the handler is called once, for `signal` and with the whole body,
the connection is closed, and the client reports success exactly if the handler returned 0 and
the reply is read up to its status. -/
def Exchange (srv : Server σ) (signal : Signal) (path body : Bytes) (ds : List Delivery)
    (s : σ) : Prop :=
  ∃ d ∈ ds, ∃ alive,
    serve srv ds (some Conn.accepted) s =
      (none, (answer srv path body d.behind s).2,
        [.invoked signal body,
          .responded (if (answer srv path body d.behind s).1 = 0 then 200 else 400) alive]) ∧
    ∀ n, postResult ((replies (serve srv ds (some Conn.accepted) s).2.2).take n) =
      if (answer srv path body d.behind s).1 = 0 ∧ 12 ≤ n then 0 else -1

theorem handOver_of_served (srv : Server σ) {path : Bytes} (h : signalForPath path ≠ .unknown)
    (body behind : Bytes) (s : σ) :
    handOver srv path body behind s =
      (none, (answer srv path body behind s).2,
        [.invoked (signalForPath path) body,
          .responded (if (answer srv path body behind s).1 = 0 then 200 else 400) false]) := by
  rw [handOver, if_neg h]
  rfl

/-- A request that is dealt with by itself is such an exchange exactly if its path is served
under that signal. -/
theorem exchange_iff_of_handOver {srv : Server σ} {signal : Signal} (hsignal : signal ≠ .unknown)
    {path body : Bytes} {ds : List Delivery} {d : Delivery} (hd : d ∈ ds) {s : σ}
    (hserve : serve srv ds (some Conn.accepted) s = handOver srv path body d.behind s) :
    Exchange srv signal path body ds s ↔ signalForPath path = signal := by
  constructor
  · intro h
    obtain ⟨e, -, alive, hevents, -⟩ := h
    rw [hserve, handOver] at hevents
    split at hevents
    · simp at hevents
    · simp only [Prod.mk.injEq, List.cons.injEq, HttpEvent.invoked.injEq] at hevents
      exact hevents.2.2.1.1
  · intro hpath
    have hserved : signalForPath path ≠ .unknown := hpath ▸ hsignal
    refine ⟨d, hd, false, ?_, fun n => ?_⟩
    · rw [hserve, handOver_of_served srv hserved, hpath]
    · rw [hserve, handOver_of_served srv hserved]
      by_cases hrc : (answer srv path body d.behind s).1 = 0
      · simpa [replies, hrc] using postResult_take (show 200 ∈ [200, 400, 404] by simp) n
      · simpa [replies, hrc] using postResult_take (show 400 ∈ [200, 400, 404] by simp) n

theorem RequestHead.Posts.exchange_iff {srv : Server σ} {r : RequestHead} {body : Bytes}
    (h : r.Posts body) (hmax : body.length ≤ srv.maxBody) {ds : List Delivery}
    (hstream : (chunks ds).flatten = r.encode ++ body) {signal : Signal}
    (hsignal : signal ≠ .unknown) (s : σ) :
    Exchange srv signal r.path body ds s ↔ signalForPath r.path = signal := by
  obtain ⟨d, hd, hserve⟩ := RequestHead.serve_posted_accepted srv h hmax hstream s
  exact exchange_iff_of_handOver hsignal hd hserve

end Exchange

/-! ## `otlp_forward_post` -/

theorem unbroken_storedPath {url : CString} (hurl : Unbroken url.val) {u : HttpUrl}
    (h : parseHttpUrl url = some u) : Unbroken u.path.val ∧ Unbroken u.host.val := by
  obtain ⟨t, htext, -, rfl⟩ := exists_parts h
  have hsub : t.text ⊆ url.val := by
    rw [htext]
    exact List.subset_append_right _ _
  have hhost : t.host ⊆ url.val := fun b hb =>
    hsub (List.mem_append_left _ (List.mem_append_left _ hb))
  have hrequested : Unbroken t.requested := by
    rw [UrlText.requested]
    split
    · exact ⟨by simp [OneLine], by simp⟩
    · next rest hpath =>
        refine hurl.subset fun b hb => hsub ?_
        rw [UrlText.text, hpath]
        exact List.mem_append_right _ hb
  exact ⟨hrequested.subset fun b hb => (cstr_isPrefix _).subset (List.mem_of_mem_take hb),
    (hurl.subset hhost).subset fun b hb => (cstr_isPrefix _).subset (List.mem_of_mem_take hb)⟩

/-- The request of a forwarded payload. -/
theorem otlpForwardPost_head {url : CString} (hurl : Unbroken url.val) {body : Bytes}
    {r : ForwardRequest} (hr : otlpForwardPost url body = some r) {u : HttpUrl}
    (hu : parseHttpUrl url = some u) :
    ∃ p : Posting, p.path = u.path.val ∧ p.bodyLen = body.length ∧ p.head.encode = r.hdr.val ∧
      r.body = body := by
  obtain ⟨u', hu', -, -, hhdr, hbody⟩ := forwarded body hr
  obtain rfl := Option.some.inj (hu.symm.trans hu')
  obtain ⟨hpath, hhost⟩ := unbroken_storedPath hurl hu
  let p : Posting :=
    { path := u.path.val, host := u.host.val, contentType := bytes "application/x-protobuf",
      port := u.port.toInt, bodyLen := body.length, path_unbroken := hpath,
      host_oneLine := hhost.1, contentType_oneLine := by decide +kernel }
  refine ⟨p, rfl, rfl, ?_, hbody⟩
  have htype : bytes "\r\nContent-Type: application/x-protobuf\r\nContent-Length: " =
      bytes "\r\nContent-Type: " ++ bytes "application/x-protobuf" ++
        bytes "\r\nContent-Length: " := by decide
  rw [p.encode_head, hhdr, requestHead, htype]
  simp [p]

/-- A payload that is forwarded to such a server is taken there as one request of the signal
exactly if the path is the one that is served for it, and leaves room for the rest of the request
line. -/
theorem otlpForwardPost_exchange_iff {url : CString} (hurl : Unbroken url.val) {body : Bytes}
    {r : ForwardRequest} (hr : otlpForwardPost url body = some r) {u : HttpUrl}
    (hu : parseHttpUrl url = some u) {signal : Signal} (hsignal : signal ≠ .unknown)
    {σ : Type} {srv : Server σ} (hmax : body.length ≤ srv.maxBody) {ds : List Delivery}
    (hstream : (chunks ds).flatten = r.hdr.val ++ r.body) (s : σ) :
    Exchange srv signal (cutAt 0x3f u.path.val) body ds s ↔
      signalForPath (cutAt 0x3f u.path.val) = signal ∧ u.path.val.length < 498 := by
  obtain ⟨p, hpath, hlen, hencode, hbody⟩ := otlpForwardPost_head hurl hr hu
  have htarget : p.head.path = cutAt 0x3f u.path.val := by rw [← hpath]; rfl
  rw [← hencode, hbody] at hstream
  rw [← htarget]
  by_cases hshort : u.path.val.length < 498
  · have hfits : p.head.encode.length ≤ HEADER_MAX := by
      rw [hencode]
      exact r.hdr.length_lt.le.trans (by decide)
    rw [(p.posts_head hlen (hpath ▸ hshort) hfits).exchange_iff hmax hstream hsignal s]
    exact (and_iff_left hshort).symm
  · have hlimits : ¬ p.head.WithinLimits := fun h => by
      have hlt := h.1
      rw [p.length_startLine, hpath] at hlt
      omega
    have hbegins : [] ++ (chunks ds).flatten <+: p.head.encode ++ body := by
      rw [List.nil_append, hstream]
    have hrefused : ∀ e ∈ (serve srv ds (some Conn.accepted) s).2.2, ¬ e.Accepts :=
      RequestHead.serve_refused srv hlimits [] 0 hbegins s
    constructor
    · intro h
      obtain ⟨d, -, alive, hserve, -⟩ := h
      rw [hserve] at hrefused
      exact absurd trivial (hrefused (.invoked signal body) (by simp))
    · exact fun h => absurd h.2 hshort

/-- A collector on the same network. -/
def tempoUrl : CString :=
  .ofBytes (bytes "http://tempo:4318/v1/traces")

theorem otlpForwardPost_tempo : (otlpForwardPost tempoUrl [0x0a]).isSome = true := by
  decide +kernel

theorem parseHttpUrl_tempo : (parseHttpUrl tempoUrl).isSome = true := by
  decide

/-- The head in one delivery and the payload in the next. -/
def tempoHead : Delivery where
  chunk := ((otlpForwardPost tempoUrl [0x0a]).get otlpForwardPost_tempo).hdr.val
  behind := []
  chunk_ne_nil := by decide +kernel

def tempoBody : Delivery where
  chunk := ((otlpForwardPost tempoUrl [0x0a]).get otlpForwardPost_tempo).body
  behind := []
  chunk_ne_nil := by decide +kernel

theorem otlpForwardPost_exchange_iff_tempo :
    Exchange acceptingServer .traces
      (cutAt 0x3f ((parseHttpUrl tempoUrl).get parseHttpUrl_tempo).path.val)
      [0x0a] [tempoHead, tempoBody] () :=
  (otlpForwardPost_exchange_iff (by decide +kernel) (Option.some_get otlpForwardPost_tempo).symm
    (Option.some_get parseHttpUrl_tempo).symm (by decide) (by decide)
    (by simp [chunks, tempoHead, tempoBody]) ()).mpr (by decide +kernel)

/-! ## `pw_push_sample` -/

/-- Host and path of an endpoint are parts of it. -/
theorem unbroken_endpoint {endpoint : CString} (h : Unbroken endpoint.val) {e : HttpEndpoint}
    (he : parseHttpEndpoint endpoint = some e) :
    Unbroken e.host.val ∧ Unbroken e.pathPrefix.val := by
  have hcopy {cap : ℕ} [NeZero cap] {s : Bytes} (hs : s ⊆ endpoint.val) :
      Unbroken (CStr.copy cap s).val :=
    h.subset fun b hb => hs ((cstr_isPrefix _).subset (List.mem_of_mem_take hb))
  rw [parseHttpEndpoint] at he
  split at he
  · cases he
  · split at he
    · cases he
    · generalize hp : (if strncmpEq endpoint.val (bytes "http://") 7 then endpoint.val.drop 7
        else endpoint.val) = p at he
      have hsub : p ⊆ endpoint.val := by
        rw [← hp]
        split
        · exact List.drop_subset _ _
        · exact List.Subset.refl _
      dsimp only at he
      split at he
      · cases he
      · rw [← Option.some.inj he]
        refine ⟨hcopy fun b hb => hsub (List.mem_of_mem_take hb), ?_⟩
        dsimp only
        have hslashes (s : Bytes) : dropSlashes s ⊆ s := by
          intro b hb
          rw [dropSlashes, List.mem_reverse] at hb
          exact List.mem_reverse.mp ((List.dropWhile_sublist _).subset hb)
        split
        · split
          · next slash _ _ =>
              refine hcopy fun b hb => hsub (List.mem_of_mem_drop (i := slash) ?_)
              exact (cstr_isPrefix _).subset (List.mem_of_mem_take (hslashes _ hb))
          · exact hcopy (List.nil_subset _)
        · exact hcopy (List.nil_subset _)

theorem pwPushSample_eq_some {endpoint : Option CString} {s : ProcSample} {q : PushRequest}
    (h : pwPushSample endpoint s = some q) :
    pwLabelValid s.label.val = true ∧ ∃ e, parseHttpEndpoint (endpointOr endpoint) = some e ∧
      ∃ path, path = (CStr.copy 320 (e.pathPrefix.val ++ bytes "/v1/procmetrics")).val ∧
        ∃ req, req = pushHead path e.host.val e.port.toInt (pushBody s).length ++ pushBody s ∧
          (pushBody s).length < 1024 ∧ req.length < 1536 ∧ q.req = CStr.copy 1536 req := by
  rw [pwPushSample] at h
  split at h
  · cases h
  · next hlabel =>
      split at h
      · cases h
      · next e he =>
          dsimp only at h
          split at h
          · cases h
          · next hbody =>
              split at h
              · cases h
              · next hreq =>
                  rw [← Option.some.inj h]
                  exact ⟨by simpa using hlabel, e, he, _, rfl, _, rfl, not_le.mp hbody,
                    not_le.mp hreq, rfl⟩

/-- No member of a body holds a NUL. -/
theorem nulFree_pushBody (s : ProcSample) : (0 : Byte) ∉ pushBody s := by
  have hnum {t : Bytes} (ht : Double.NumText t) : (0 : Byte) ∉ t := fun h0 =>
    absurd (ht 0 h0) (by decide)
  have hpid : (0 : Byte) ∉ s.pidField := by
    rw [ProcSample.pidField]
    split
    · exact s.pidKey.nulFree
    · exact nulFree_decimalInt _
  have hstr {key t : Bytes} (hkey : (0 : Byte) ∉ key) (ht : (0 : Byte) ∉ t) :
      (0 : Byte) ∉ (Member.str key t).render ∧ (0 : Byte) ∉ (Member.num key t).render := by
    simp [Member.render, Member.key, Member.value, hkey, ht]
  have hmembers : ∀ m ∈ pushMembers s, (0 : Byte) ∉ m.render := by
    simp only [pushMembers, List.forall_mem_cons, List.not_mem_nil, false_imp_iff, implies_true,
      and_true]
    exact ⟨(hstr (by decide) s.label.nulFree).1, (hstr (by decide) s.service.nulFree).1,
      (hstr (by decide) hpid).1, (hstr (by decide) s.comm.nulFree).1,
      (hstr (by decide) (hnum (Double.numText_fmtF 6 s.cpuPct))).2,
      (hstr (by decide) (nulFree_decimalInt _)).2, (hstr (by decide) (nulFree_decimalInt _)).2,
      (hstr (by decide) s.runtime.nulFree).1, (hstr (by decide) s.pod.nulFree).1,
      (hstr (by decide) s.containerId.nulFree).1⟩
  intro h0
  rcases mem_object h0 with h | h | h | ⟨m, hm, h⟩
  · cases h
  · cases h
  · cases h
  · exact hmembers m hm h

/-- The request of a sample that is pushed. -/
theorem pwPushSample_head {endpoint : Option CString} (hend : Unbroken (endpointOr endpoint).val)
    {s : ProcSample} {q : PushRequest} (hq : pwPushSample endpoint s = some q)
    {e : HttpEndpoint} (he : parseHttpEndpoint (endpointOr endpoint) = some e) :
    ∃ p : Posting, p.path = e.pathPrefix.val ++ bytes "/v1/procmetrics" ∧
      p.bodyLen = (pushBody s).length ∧ q.req.val = p.head.encode ++ pushBody s := by
  obtain ⟨-, e', he', path, hpath, req, hreq, -, hfits, hq⟩ := pwPushSample_eq_some hq
  obtain rfl := Option.some.inj (he.symm.trans he')
  obtain ⟨hhost, hbegins⟩ := unbroken_endpoint hend he
  have hunbroken : Unbroken (e.pathPrefix.val ++ bytes "/v1/procmetrics") :=
    hbegins.append (by decide +kernel)
  have hwhole : path = e.pathPrefix.val ++ bytes "/v1/procmetrics" := by
    rw [hpath]
    refine CStr.copy_val_of_fits (fun h0 => (hunbroken.1 0 h0).1 rfl) ?_
    have hlen := e.pathPrefix.length_lt
    have htail : (bytes "/v1/procmetrics").length = 15 := by decide
    rw [List.length_append, htail]
    omega
  let p : Posting :=
    { path := path, host := e.host.val, contentType := bytes "application/json",
      port := e.port.toInt, bodyLen := (pushBody s).length, path_unbroken := hwhole ▸ hunbroken,
      host_oneLine := hhost.1, contentType_oneLine := by decide +kernel }
  have hencode : p.head.encode = pushHead path e.host.val e.port.toInt (pushBody s).length := by
    have htype : bytes "\r\nContent-Type: application/json\r\nContent-Length: " =
        bytes "\r\nContent-Type: " ++ bytes "application/json" ++
          bytes "\r\nContent-Length: " := by decide
    rw [p.encode_head, pushHead, htype]
    simp [p]
  refine ⟨p, hwhole, rfl, ?_⟩
  rw [← hencode] at hreq
  rw [hq, hreq]
  refine CStr.copy_val_of_fits ?_ (hreq ▸ hfits)
  rw [List.mem_append, not_or]
  exact ⟨p.head.nulFree_encode, nulFree_pushBody s⟩

theorem pwPushSample_posts {endpoint : Option CString} (hend : Unbroken (endpointOr endpoint).val)
    {s : ProcSample} {q : PushRequest} (hq : pwPushSample endpoint s = some q)
    {e : HttpEndpoint} (he : parseHttpEndpoint (endpointOr endpoint) = some e) :
    ∃ r : RequestHead, r.Posts (pushBody s) ∧ q.req.val = r.encode ++ pushBody s ∧
      r.path = cutAt 0x3f (e.pathPrefix.val ++ bytes "/v1/procmetrics") := by
  obtain ⟨p, hpath, hlen, hreq⟩ := pwPushSample_head hend hq he
  have hshort : p.path.length < 498 := by
    have hlen := e.pathPrefix.length_lt
    have htail : (bytes "/v1/procmetrics").length = 15 := by decide
    rw [hpath, List.length_append, htail]
    omega
  have hfits : p.head.encode.length ≤ HEADER_MAX := by
    have hreqLen := q.req.length_lt
    have hmaxHead : HEADER_MAX = 16384 := rfl
    rw [hreq, List.length_append] at hreqLen
    omega
  exact ⟨p.head, p.posts_head hlen hshort hfits, hreq, by rw [← hpath]; rfl⟩

theorem signalForPath_eq_procmetrics_iff {path : Bytes} :
    signalForPath path = .procmetrics ↔ path = bytes "/v1/procmetrics" := by
  rw [signalForPath]
  split_ifs with htraces hmetrics hlogs hprocmetrics
  · exact iff_of_false (by simp) (by rw [htraces]; decide)
  · exact iff_of_false (by simp) (by rw [hmetrics]; decide)
  · exact iff_of_false (by simp) (by rw [hlogs]; decide)
  · exact iff_of_true rfl hprocmetrics
  · exact iff_of_false (by simp) hprocmetrics

/-- A sample that is pushed is taken as one sample with its body, whatever the texts in it,
exactly if the prefix of the endpoint leaves the requested path as it is. -/
theorem pwPushSample_exchange_iff {endpoint : Option CString}
    (hend : Unbroken (endpointOr endpoint).val) {s : ProcSample} {q : PushRequest}
    (hq : pwPushSample endpoint s = some q) {e : HttpEndpoint}
    (he : parseHttpEndpoint (endpointOr endpoint) = some e) {σ : Type} {srv : Server σ}
    (hmax : (pushBody s).length ≤ srv.maxBody) {ds : List Delivery}
    (hstream : (chunks ds).flatten = q.req.val) (st : σ) :
    Exchange srv .procmetrics (cutAt 0x3f (e.pathPrefix.val ++ bytes "/v1/procmetrics"))
        (pushBody s) ds st ↔
      cutAt 0x3f (e.pathPrefix.val ++ bytes "/v1/procmetrics") = bytes "/v1/procmetrics" := by
  obtain ⟨r, hposts, hreq, hpath⟩ := pwPushSample_posts hend hq he
  rw [← hpath, hposts.exchange_iff hmax (hstream.trans hreq) (by decide) st,
    signalForPath_eq_procmetrics_iff]

/-- A shell of the label `shop`. -/
def shopSample : ProcSample where
  label := CStr.copy 100 (bytes "shop")
  service := CStr.copy 256 []
  comm := CStr.copy 64 (bytes "sh")
  runtime := CStr.copy 32 (bytes "other")
  pod := CStr.copy 256 []
  containerId := CStr.copy 80 []
  pidKey := CStr.copy 64 (bytes "7_20260101000000")
  pid := 7
  cpuPct := Double.ofNat 0
  rssKb := 1024
  threads := 1

theorem pwPushSample_shop : (pwPushSample none shopSample).isSome = true := by
  decide +kernel

theorem parseHttpEndpoint_default : (parseHttpEndpoint (endpointOr none)).isSome = true := by
  decide

/-- The request in one delivery. -/
def shopDelivery : Delivery where
  chunk := ((pwPushSample none shopSample).get pwPushSample_shop).req.val
  behind := []
  chunk_ne_nil := by decide +kernel

theorem pwPushSample_exchange_iff_shop :
    Exchange acceptingServer .procmetrics
      (cutAt 0x3f (((parseHttpEndpoint (endpointOr none)).get parseHttpEndpoint_default).pathPrefix.val ++
        bytes "/v1/procmetrics"))
      (pushBody shopSample) [shopDelivery] () :=
  (pwPushSample_exchange_iff (by decide +kernel) (Option.some_get pwPushSample_shop).symm
    (Option.some_get parseHttpEndpoint_default).symm (by decide +kernel)
    (by simp [chunks, shopDelivery]) ()).mpr (by decide +kernel)

end ProcWatch

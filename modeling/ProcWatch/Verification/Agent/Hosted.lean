import ProcWatch.Verification.Agent.Pushed
import ProcWatch.Verification.Agent.Writes
import ProcWatch.Verification.Http.Handled

/-! # The agent behind its server -/

namespace ProcWatch

open CLib

/-! ## Requests over a connection that stays up -/

section Serving

variable {labels : Finset Bytes} {w : AgentWorld}

/-- The rows of records that are written live. -/
def liveRows (schema : Identifier) (rs : List AgentRecord) : List InsertedRow :=
  rs.map fun r => r.rowOf schema r.vals

theorem wp_put_serving (hcard : labels.card ≤ LABEL_CACHE_MAX) (h : Serving labels w)
    {r : AgentRecord} (hr : Among labels r) :
    Prog.wp r.put (fun _ w' => Progress labels [r.rowOf w.user.schema r.vals] w w')
      (fun _ => False) w := by
  have hwrite := wp_write_serving hcard h hr
  rw [write_eq_put, Prog.wp_bind] at hwrite
  exact Prog.wp_mono hwrite (fun _ _ h' => h'.2.1) fun _ => id

theorem wp_writeAll_serving (hcard : labels.card ≤ LABEL_CACHE_MAX) {rs : List AgentRecord}
    (hrs : ∀ r ∈ rs, Among labels r) (h : Serving labels w) :
    Prog.wp (writeAll rs) (fun _ w' => Progress labels (liveRows w.user.schema rs) w w')
      (fun _ => False) w := by
  induction rs generalizing w with
  | nil => exact h.refl
  | cons r rs ih =>
      rw [writeAll, forEach, Prog.wp_bind]
      refine Prog.wp_mono (wp_put_serving hcard h (hrs r (by simp))) (fun _ w₁ h₁ => ?_) fun _ => id
      refine Prog.wp_mono (ih (fun r' hr' => hrs r' (by simp [hr'])) h₁.serving)
        (fun _ w₂ h₂ => ?_) fun _ => id
      rw [h₁.schema] at h₂
      exact h₁.trans h₂

/-- A request whose records are all of the labels in use. -/
def HttpRequest.Among (labels : Finset Bytes) (req : HttpRequest) : Prop :=
  ∀ r ∈ req.records, ProcWatch.Among labels r

theorem wp_onRequest_serving (hcard : labels.card ≤ LABEL_CACHE_MAX) {req : HttpRequest}
    (hreq : req.Among labels) (h : Serving labels w) :
    Prog.wp (onRequest req)
      (fun _ w' => Progress labels (liveRows w.user.schema req.records) w w') (fun _ => False) w := by
  obtain ⟨rc, heq⟩ := onRequest_eq req
  rw [heq, Prog.wp_bind]
  exact Prog.wp_mono (wp_writeAll_serving hcard hreq h) (fun _ _ h' => h') fun _ => id

end Serving

/-! ## The handler -/

/-- The server of `agentd`: its handler does what `on_request` does, wherever that returns. -/
def HostsAgent (srv : Server AgentWorld) : Prop :=
  ∀ req w rc w', onRequest req w = (.ret rc, w') → srv.handler req w = (rc, w')

theorem maxBody_lt_agentServer : 16 * 1024 * 1024 < 2 ^ 64 := by decide

/-- `agentd`'s server; a call that ends the process never comes back. -/
def agentServer : Server AgentWorld where
  maxBody := 16 * 1024 * 1024
  maxBody_lt := maxBody_lt_agentServer
  handler := fun req w =>
    match onRequest req w with
    | (.ret rc, w') => (rc, w')
    | (.exit, w') => (-1, w')
  gzipInflate := fun _ _ => none

theorem hostsAgent_agentServer : HostsAgent agentServer := by
  intro req w rc w' h
  simp only [agentServer, h]

section Hosted

variable {labels : Finset Bytes} {srv : Server AgentWorld}

theorem handler_serving (hsrv : HostsAgent srv) (hcard : labels.card ≤ LABEL_CACHE_MAX)
    {req : HttpRequest} (hreq : req.Among labels) {w : AgentWorld} (h : Serving labels w) :
    Progress labels (liveRows w.user.schema req.records) w (srv.handler req w).2 := by
  have hwp := Prog.wp_iff_run.mp (wp_onRequest_serving hcard hreq h)
  cases hrun : onRequest req w with
  | mk o w' =>
      cases o with
      | exit => exact (hwp.2 w' hrun).elim
      | ret rc =>
          rw [hsrv req w rc w' hrun]
          exact hwp.1 rc w' hrun

theorem handleAll_serving (hsrv : HostsAgent srv) (hcard : labels.card ≤ LABEL_CACHE_MAX)
    {reqs : List HttpRequest} (hreqs : ∀ req ∈ reqs, req.Among labels) {w : AgentWorld}
    (h : Serving labels w) :
    Progress labels (liveRows w.user.schema (reqs.flatMap HttpRequest.records)) w
      (handleAll srv reqs w) := by
  induction reqs generalizing w with
  | nil => exact h.refl
  | cons req reqs ih =>
      have hfirst := handler_serving hsrv hcard (hreqs req (by simp)) h
      have hrest := ih (fun r hr => hreqs r (by simp [hr])) hfirst.serving
      rw [hfirst.schema] at hrest
      rw [List.flatMap_cons, liveRows, List.map_append]
      exact hfirst.trans hrest

/-- Every request of a connection that is to be handled arrives, and its records become rows,
each once and in order; nothing is spilled. -/
theorem serve_inserted (hsrv : HostsAgent srv) (hcard : labels.card ≤ LABEL_CACHE_MAX)
    {rs : List PostRequest} (hmax : ∀ r ∈ rs, r.body.length ≤ srv.maxBody) {ds : List Delivery}
    (hwire : (chunks ds).flatten = wire rs)
    (hreached : ∀ k r, rs[k]? = some r → r.invocation srv ≠ none → Reached rs ds k)
    (hlabels : ∀ req : HttpRequest,
      (req.signal, req.body) ∈ rs.filterMap (PostRequest.invocation srv) → req.Among labels)
    {w : AgentWorld} (h : Serving labels w) :
    ∃ reqs : List HttpRequest,
      reqs.map (fun req => (req.signal, req.body)) = rs.filterMap (PostRequest.invocation srv) ∧
        Adds (liveRows w.user.schema (reqs.flatMap HttpRequest.records)) w
          (serve srv ds (some Conn.accepted) w).2.1 := by
  obtain ⟨reqs, hevents, hstate⟩ := handledBy_serve srv ds (some Conn.accepted) w
  have hcalls : invocations (serve srv ds (some Conn.accepted) w).2.2 =
      rs.filterMap (PostRequest.invocation srv) := by
    rw [invocations_serve_accepted srv hmax hwire]
    refine (filterMap_take_eq_iff _ _ _).mpr fun k r hk hr => ?_
    exact (reached_iff rs ds k).mp (hreached k r hk hr)
  rw [hcalls] at hevents
  refine ⟨reqs, hevents.symm, ?_⟩
  rw [hstate]
  refine (handleAll_serving hsrv hcard (fun req hreq => hlabels req ?_) h).adds
  rw [hevents]
  exact List.mem_map_of_mem hreq

theorem sendable_shopSample : shopSample.Sendable where
  label := by decide
  service := by decide
  comm := by decide
  runtime := by decide
  pod := by decide
  containerId := by decide
  pidKey := by decide
  rssKb := by decide
  threads := by decide

theorem labels_shop : ({bytes "shop"} : Finset Bytes).card ≤ LABEL_CACHE_MAX := by
  simp [LABEL_CACHE_MAX]

theorem oneLine_procmetrics : OneLine (bytes "/v1/procmetrics") := by decide +kernel

theorem space_notMem_procmetrics : (0x20 : Byte) ∉ bytes "/v1/procmetrics" := by decide

theorem oneLine_other : OneLine (bytes "/other") := by decide +kernel

theorem space_notMem_other : (0x20 : Byte) ∉ bytes "/other" := by decide

theorem startLine_other : (startLine (bytes "/other") (bytes "HTTP/1.1")).length < 512 := by
  decide

theorem header_other :
    (startLine (bytes "/other") (bytes "HTTP/1.1") ++ headerTail []).length ≤ HEADER_MAX := by
  decide

theorem startLine_procmetrics :
    (startLine (bytes "/v1/procmetrics") (bytes "HTTP/1.1")).length < 512 := by
  decide

/-- `Content-Length: n` -/
def lengthOnly (n : ℕ) : Header where
  name := bytes "Content-Length"
  value := 0x20 :: decimal n
  name_oneLine := oneLine_contentLength
  value_oneLine := oneLine_cons (by decide) (oneLine_decimalInt n)
  colon_notMem := colon_notMem_contentLength

theorem lengthOnly_is (n : ℕ) : (lengthOnly n).Is contentLengthKey :=
  (by decide : (bytes "Content-Length").map lowerByte = contentLengthKey)

theorem lengthOnly_not_connection (n : ℕ) : ¬ (lengthOnly n).Is connectionKey :=
  (by decide : ¬ (bytes "Content-Length").map lowerByte = connectionKey)

theorem lengthOnly_not_compressed (n : ℕ) : ¬ (lengthOnly n).Compressed :=
  fun h => (by decide : ¬ (bytes "Content-Length").map lowerByte = contentEncodingKey) h.1

theorem header_lengthOnly {n : ℕ} (h : n < 10 ^ 4) :
    (startLine (bytes "/v1/procmetrics") (bytes "HTTP/1.1") ++ headerTail [lengthOnly n]).length ≤
      HEADER_MAX := by
  have hdigits : (decimal n).length ≤ 4 := length_decimal_le (by decide) h
  have hstart := startLine_procmetrics
  have hname : (bytes "Content-Length").length = 14 := by decide
  simp only [headerTail, Header.line, lengthOnly, CRLF, HEADER_MAX, List.flatMap_cons,
    List.flatMap_nil, List.length_append, List.length_cons, List.length_nil, hname]
  omega

/-- A sample over a connection that stays up. -/
def samplePost (s : ProcSample) (hfits : (pushBody s).length < 10 ^ 4) : PostRequest where
  target := bytes "/v1/procmetrics"
  version := bytes "HTTP/1.1"
  headers := [lengthOnly (pushBody s).length]
  body := pushBody s
  target_oneLine := oneLine_procmetrics
  space_notMem := space_notMem_procmetrics
  version_oneLine := oneLine_version
  startLine_lt := startLine_procmetrics
  header_le := header_lengthOnly hfits
  contentLength := by
    intro h hmem _
    obtain rfl := List.mem_singleton.mp hmem
    exact announces_decimal _
  body_eq_nil := fun h => absurd (lengthOnly_is _) (h _ (List.mem_singleton.mpr rfl))
  keepAlive := by
    intro h hmem hconnection
    obtain rfl := List.mem_singleton.mp hmem
    exact absurd hconnection (lengthOnly_not_connection _)

theorem samplePost_invocation {s : ProcSample} (hfits : (pushBody s).length < 10 ^ 4) :
    (samplePost s hfits).invocation agentServer = some (.procmetrics, pushBody s) := by
  have hsignal : signalForPath (samplePost s hfits).path = .procmetrics :=
    (by decide : signalForPath (cutAt 0x3f (bytes "/v1/procmetrics")) = .procmetrics)
  have hplain : ¬ (samplePost s hfits).Compressed := by
    rintro ⟨h, hmem, hcompressed⟩
    obtain rfl := List.mem_singleton.mp hmem
    exact lengthOnly_not_compressed _ hcompressed
  rw [PostRequest.invocation, hsignal, if_neg (by decide), if_neg fun h => hplain h.1]
  rfl

/-- Another sample of the label `shop`. -/
def cartSample : ProcSample :=
  { shopSample with
    comm := CStr.copy 64 (bytes "cart")
    pid := 8
    rssKb := 2048 }

theorem sendable_cartSample : cartSample.Sendable where
  label := by decide
  service := by decide
  comm := by decide
  runtime := by decide
  pod := by decide
  containerId := by decide
  pidKey := by decide
  rssKb := by decide
  threads := by decide

theorem fits_samples :
    (pushBody shopSample).length < 10 ^ 4 ∧ (pushBody cartSample).length < 10 ^ 4 := by
  decide +kernel

theorem contentLength_other :
    ∀ h ∈ ([] : List Header), h.Is contentLengthKey → Announces h.value ([] : Bytes).length :=
  fun _ hmem => absurd hmem List.not_mem_nil

theorem body_other : (∀ h ∈ ([] : List Header), ¬ h.Is contentLengthKey) → ([] : Bytes) = [] :=
  fun _ => rfl

theorem keepAlive_other : ∀ h ∈ ([] : List Header), h.Is connectionKey →
    ciStartsWith (skipWs h.value) (bytes "close") = false :=
  fun _ hmem => absurd hmem List.not_mem_nil

/-- A request that is answered with 404. -/
def elsewherePost : PostRequest where
  target := bytes "/other"
  version := bytes "HTTP/1.1"
  headers := []
  body := []
  target_oneLine := oneLine_other
  space_notMem := space_notMem_other
  version_oneLine := oneLine_version
  startLine_lt := startLine_other
  header_le := header_other
  contentLength := contentLength_other
  body_eq_nil := body_other
  keepAlive := keepAlive_other

theorem elsewherePost_invocation : elsewherePost.invocation agentServer = none :=
  if_pos (by decide : signalForPath (cutAt 0x3f (bytes "/other")) = .unknown)

/-- Two samples, and between them a request that is not handled. -/
def shopPosts : List PostRequest :=
  [samplePost shopSample fits_samples.1, elsewherePost, samplePost cartSample fits_samples.2]

theorem invocations_shopPosts :
    shopPosts.filterMap (PostRequest.invocation agentServer) =
      [(.procmetrics, pushBody shopSample), (.procmetrics, pushBody cartSample)] := by
  simp [shopPosts, samplePost_invocation, elsewherePost_invocation]

theorem length_wire_shopPosts : 340 < (wire shopPosts).length := by
  decide +kernel

theorem cut_ne_nil {n k : ℕ} (hn : n ≤ 340) (hk : 0 < k) :
    ((wire shopPosts).drop n).take k ≠ [] := by
  have hlen := length_wire_shopPosts
  apply List.ne_nil_of_length_pos
  rw [List.length_take, List.length_drop]
  omega

/-- The stream, cut within the first body and within the last request: its header block comes
with the end of the first request, and its body in two parts. -/
def shopCuts : List Delivery :=
  [⟨((wire shopPosts).drop 0).take 100, [], cut_ne_nil (by decide) (by decide)⟩,
    ⟨((wire shopPosts).drop 100).take 140, [], cut_ne_nil (by decide) (by decide)⟩,
    ⟨((wire shopPosts).drop 240).take 100, [], cut_ne_nil (by decide) (by decide)⟩,
    ⟨((wire shopPosts).drop 340).take 1000, [], cut_ne_nil (by decide) (by decide)⟩]

theorem taken_shopCuts :
    (chunks shopCuts).flatten = wire shopPosts ∧
      Frames.taken overlong (shopPosts.map PostRequest.encode) [] (chunks shopCuts) = 3 := by
  decide +kernel

/-- A pushed sample is of the label that its body names. -/
theorem among_of_sample {labels : Finset Bytes} {s : ProcSample} (hs : s.Sendable)
    (hlabel : s.label.val ∈ labels) {req : HttpRequest}
    (h : (req.signal, req.body) = (.procmetrics, pushBody s)) : req.Among labels := by
  obtain ⟨hsignal, hbody⟩ := Prod.mk.inj h
  intro r hr
  rw [HttpRequest.records, hsignal, hbody] at hr
  simp only [ProcSample.label_pushBody hs, ProcSample.validateIdentifier_label hs, Bool.and_self,
    if_true, List.mem_singleton] at hr
  subst hr
  exact ⟨ProcSample.validateIdentifier_label hs, hlabel⟩

theorem serve_inserted_shop :
    ∃ reqs : List HttpRequest, reqs.map (fun req => (req.signal, req.body)) =
        shopPosts.filterMap (PostRequest.invocation agentServer) ∧
      Adds (liveRows DEFAULT_SCHEMA (reqs.flatMap HttpRequest.records))
        (connectedAgent obligingEnv ⟨none, none, none⟩)
        (serve agentServer shopCuts (some Conn.accepted)
          (connectedAgent obligingEnv ⟨none, none, none⟩)).2.1 := by
  refine serve_inserted hostsAgent_agentServer labels_shop ?_ taken_shopCuts.1 ?_ ?_
    ((agentStart_connectedAgent _).serving _)
  · intro r hr
    have hbody : r.body.length < 10 ^ 4 := by
      simp only [shopPosts, List.mem_cons, List.not_mem_nil, or_false] at hr
      obtain rfl | rfl | rfl := hr
      · exact fits_samples.1
      · decide
      · exact fits_samples.2
    exact hbody.le.trans (by decide)
  · intro k r hk _
    have hlt : k < shopPosts.length := (List.getElem?_eq_some_iff.mp hk).1
    rw [reached_iff, taken_shopCuts.2]
    exact hlt
  · intro req hmem
    rw [invocations_shopPosts, List.mem_cons, List.mem_singleton] at hmem
    cases hmem with
    | inl h => exact among_of_sample sendable_shopSample (Finset.mem_singleton.mpr rfl) h
    | inr h => exact among_of_sample sendable_cartSample (Finset.mem_singleton.mpr rfl) h

/-- What is left of pushing a sample: one row, and a client that was told so. -/
structure Pushed (labels : Finset Bytes) (s : ProcSample) (w : AgentWorld)
    (r : Serviced AgentWorld) : Prop where
  closed : r.1 = none
  serving : Serving labels r.2.1
  inserted : Adds [(AgentRecord.metric s.received).rowOf w.user.schema (metricVals s.received)] w r.2.1
  invoked : invocations r.2.2 = [(.procmetrics, pushBody s)]
  told : ∀ n, 12 ≤ n → postResult ((replies r.2.2).take n) = 0

/-- A sample that is pushed to an agent becomes one row of its label with the values of the
sample, however its request is cut. -/
theorem pwPushSample_inserted (hsrv : HostsAgent srv) (hcard : labels.card ≤ LABEL_CACHE_MAX)
    {endpoint : Option CString} (hend : Unbroken (endpointOr endpoint).val) {s : ProcSample}
    (hs : s.Sendable) (hlabel : s.label.val ∈ labels) {q : PushRequest}
    (hq : pwPushSample endpoint s = some q) {e : HttpEndpoint}
    (he : parseHttpEndpoint (endpointOr endpoint) = some e) (hroot : e.pathPrefix.val = [])
    (hmax : (pushBody s).length ≤ srv.maxBody) {ds : List Delivery}
    (hstream : (chunks ds).flatten = q.req.val) {w : AgentWorld} (h : Serving labels w) :
    Pushed labels s w (serve srv ds (some Conn.accepted) w) := by
  obtain ⟨r, hposts, hreq, hpath⟩ := pwPushSample_posts hend hq he
  obtain ⟨d, -, hserve⟩ := RequestHead.serve_posted_accepted srv hposts hmax (hstream.trans hreq) w
  have htarget : r.path = bytes "/v1/procmetrics" := by
    rw [hpath, hroot]
    decide +kernel
  have hsignal : signalForPath (bytes "/v1/procmetrics") = .procmetrics := by decide +kernel
  have hamong : Among labels (.metric s.received) :=
    ⟨ProcSample.validateIdentifier_label hs, hlabel⟩
  have hwrite := Prog.wp_iff_run.mp (wp_write_serving hcard h hamong)
  rw [AgentRecord.write] at hwrite
  rw [htarget] at hserve
  cases hrun : writeMetric s.received w with
  | mk o w' =>
      cases o with
      | exit => exact (hwrite.2 w' hrun).elim
      | ret rc =>
          obtain ⟨rfl, hprogress, -⟩ := hwrite.1 rc w' hrun
          have hhandled := hsrv ⟨.procmetrics, (CStr.copy 128 (bytes "/v1/procmetrics")).val,
            pushBody s, d.behind⟩ w 0 w' (by rw [ProcSample.onRequest_pushBody hs, hrun])
          have hresult : serve srv ds (some Conn.accepted) w =
              (none, w', [.invoked .procmetrics (pushBody s), .responded 200 false]) := by
            rw [hserve, handOver, hsignal, if_neg (by decide), hhandled]
            rfl
          rw [hresult]
          refine ⟨rfl, hprogress.serving, hprogress.adds, rfl, fun n hn => ?_⟩
          have htold := postResult_take (show 200 ∈ [200, 400, 404] by simp) n
          simpa [replies, hn] using htold

theorem pwPushSample_inserted_shop :
    Pushed {bytes "shop"} shopSample (connectedAgent obligingEnv ⟨none, none, none⟩)
      (serve agentServer [shopDelivery] (some Conn.accepted)
        (connectedAgent obligingEnv ⟨none, none, none⟩)) :=
  pwPushSample_inserted hostsAgent_agentServer labels_shop (by decide +kernel) sendable_shopSample
    (by decide +kernel) (Option.some_get pwPushSample_shop).symm
    (Option.some_get parseHttpEndpoint_default).symm (by decide +kernel) (by decide +kernel)
    (by simp [chunks, shopDelivery]) ((agentStart_connectedAgent _).serving _)

end Hosted

end ProcWatch

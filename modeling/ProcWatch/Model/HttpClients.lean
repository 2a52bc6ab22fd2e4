import ProcWatch.Library.FlatObject
import ProcWatch.Model.Http
import ProcWatch.Model.OtlpForward
import ProcWatch.Model.ProcPush

/-! # Clients of the server (`proc_push.c`, `otlp_forward.c`) and its replies (`http_server.c`) -/

namespace ProcWatch

open CLib Member

/-! ## Replies -/

/-- What `respond(c, status, reason)` sends. -/
def respond (status : ℕ) (reason : Bytes) (keepAlive : Bool) : Bytes :=
  bounded 256 (bytes "HTTP/1.1 " ++ decimal status ++ 0x20 :: reason ++
    bytes "\r\nContent-Type: application/x-protobuf\r\nContent-Length: 0\r\nConnection: " ++
    (if keepAlive then bytes "keep-alive" else bytes "close") ++ bytes "\r\n\r\n")

/-- The reasons that `conn_service` gives. -/
def reasonFor (status : ℕ) : Bytes :=
  if status = 200 then bytes "OK"
  else if status = 404 then bytes "Not Found"
  else if status = 413 then bytes "Payload Too Large"
  else bytes "Bad Request"

/-- The bytes sent with the events of a connection. -/
def replies (events : List HttpEvent) : Bytes :=
  events.flatMap fun
    | .invoked _ _ => []
    | .responded status keepAlive => respond status (reasonFor status) keepAlive

/-- What `otlp_forward_post` and `pw_push_sample` return for the bytes that their one `recv`
finds; none are left of a connection that failed. -/
def postResult (received : Bytes) : ℤ :=
  let resp := received.take 255
  if resp = [] then -1
  else
    match strchr resp 0x20 with
    | none => -1
    | some sp =>
        let code := atoi (resp.drop (sp + 1))
        if 200 ≤ code ∧ code < 300 then 0 else -1

/-! ## `pw_push_sample` -/

/-- What `parse_http_endpoint` stores. -/
structure HttpEndpoint where
  host : CStr 256
  port : Int32
  pathPrefix : CStr 256

/-- The loop that drops the slashes at the end of `path_prefix`. -/
def dropSlashes (path : Bytes) : Bytes :=
  (path.reverse.dropWhile (· == 0x2f)).reverse

/-- `parse_http_endpoint(endpoint, host, 256, &port, path_prefix, 256)` -/
def parseHttpEndpoint (endpoint : CString) : Option HttpEndpoint :=
  if endpoint.val = [] then none
  else if !strncmpEq endpoint.val (bytes "http://") 7 ∧
      strncmpEq endpoint.val (bytes "https://") 8 then none
  else
    let p := if strncmpEq endpoint.val (bytes "http://") 7 then endpoint.val.drop 7
      else endpoint.val
    let slash := strchr p 0x2f
    let colon := (p.take (slash.getD p.length)).findIdx? (· == 0x3a)
    let (hostLen, port) := hostAndPort p colon slash
    if hostLen = 0 ∨ 256 ≤ hostLen then none
    else
      some
        { host := CStr.copy 256 (p.take hostLen)
          port := if port ≤ 0 ∨ 65535 < port then 80 else port
          pathPrefix :=
            match slash with
            | some slash =>
                if p.drop (slash + 1) ≠ [] then
                  CStr.copy 256 (dropSlashes (CStr.copy 256 (p.drop slash)).val)
                else CStr.copy 256 []
            | none => CStr.copy 256 [] }

/-- `pw_proc_sample_t` -/
structure ProcSample where
  label : CStr 100
  service : CStr 256
  comm : CStr 64
  runtime : CStr 32
  pod : CStr 256
  containerId : CStr 80
  pidKey : CStr 64
  pid : Int32
  cpuPct : Double
  rssKb : Int64
  threads : Int64

/-- `pid_field` -/
def ProcSample.pidField (s : ProcSample) : Bytes :=
  if s.pidKey.val ≠ [] then s.pidKey.val else decimalInt s.pid.toInt

/-- The members that the format string of `body` spells out. -/
def pushMembers (s : ProcSample) : List Member :=
  [str (bytes "label") s.label.val,
    str (bytes "service") s.service.val,
    str (bytes "pid") s.pidField,
    str (bytes "comm") s.comm.val,
    num (bytes "cpu_pct") (Double.fmtF 6 s.cpuPct),
    num (bytes "rss_kb") (decimalInt s.rssKb.toInt),
    num (bytes "threads") (decimalInt s.threads.toInt),
    str (bytes "runtime") s.runtime.val,
    str (bytes "pod") s.pod.val,
    str (bytes "container_id") s.containerId.val]

def pushBody (s : ProcSample) : Bytes :=
  object (pushMembers s)

/-- The header of `req`. -/
def pushHead (path host : Bytes) (port : ℤ) (bodyLen : ℕ) : Bytes :=
  bytes "POST " ++ path ++ bytes " HTTP/1.1\r\nHost: " ++ host ++ bytes ":" ++ decimalInt port ++
    bytes "\r\nContent-Type: application/json\r\nContent-Length: " ++ decimal bodyLen ++
    bytes "\r\nConnection: close\r\n\r\n"

/-- What `pw_push_sample` connects to and sends. -/
structure PushRequest where
  host : CStr 256
  portbuf : CStr 16
  req : CStr 1536

def DEFAULT_ENDPOINT : CString :=
  .ofBytes (bytes "http://127.0.0.1:4318")

/-- `endpoint && *endpoint ? endpoint : "http://127.0.0.1:4318"` -/
def endpointOr (endpoint : Option CString) : CString :=
  match endpoint with
  | none => DEFAULT_ENDPOINT
  | some e => if e.val = [] then DEFAULT_ENDPOINT else e

/-- `pw_push_sample(endpoint, s)` up to the connection, `none` if it returns before. -/
def pwPushSample (endpoint : Option CString) (s : ProcSample) : Option PushRequest :=
  if !pwLabelValid s.label.val then none
  else
    match parseHttpEndpoint (endpointOr endpoint) with
    | none => none
    | some e =>
        let body := pushBody s
        if 1024 ≤ body.length then none
        else
          let path := CStr.copy 320 (e.pathPrefix.val ++ bytes "/v1/procmetrics")
          let req := pushHead path.val e.host.val e.port.toInt body.length ++ body
          if 1536 ≤ req.length then none
          else
            some
              { host := e.host
                portbuf := CStr.copy 16 (decimalInt e.port.toInt)
                req := CStr.copy 1536 req }

/-! ## `pw_sample_fill_identity` -/

/-- What `snprintf(field, cap, "%s", getenv(name))` leaves, empty where there is none. -/
def envField (env : Environ) (name : String) (cap : ℕ) [NeZero cap] : CStr cap :=
  CStr.copy cap ((getenv env (bytes name)).getD [])

/-- The service of a sample of `comm`. -/
def sampleService (env : Environ) (comm : CStr 64) : CStr 256 :=
  let svc := (getenv env (bytes "OTEL_SERVICE_NAME")).getD []
  let svc := if svc = [] then (getenv env (bytes "PROCWATCH_SERVICE")).getD [] else svc
  CStr.copy 256 (if svc = [] then comm.val else svc)

/-- A sampling of `pw_sample_pid` with its identity and its key, as `metrics_loop` pushes it. -/
def identified (env : Environ) (runtimeHint : Bytes) (createdStamp : CStr 32) (p : PidSample) :
    ProcSample where
  label := envField env "PROCWATCH_LABEL" 100
  service := sampleService env p.comm
  comm := p.comm
  runtime := CStr.copy 32 (if runtimeHint = [] then bytes "other" else runtimeHint)
  pod := envField env "PROCWATCH_POD" 256
  containerId := CStr.copy 80 []
  pidKey := pidKey p.pid createdStamp.val
  pid := p.pid
  cpuPct := p.cpuPct
  rssKb := p.rssKb
  threads := p.threads

end ProcWatch

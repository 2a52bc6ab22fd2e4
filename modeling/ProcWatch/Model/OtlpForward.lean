import ProcWatch.Library.Scan
import ProcWatch.Model.Environ

/-! # Forwarding to another collector (`otlp_forward.c`) -/

namespace ProcWatch

open CLib

/-- `atoi(s)`, which keeps the low half of what `strtol` converts. -/
def atoi (s : Bytes) : Int32 :=
  (strtol s).toInt32

/-- What `parse_http_url` stores. -/
structure HttpUrl where
  host : CStr 256
  port : Int32
  path : CStr 512

/-- `host_len` and `*port` of the text behind the scheme, for its `colon` and `slash`. -/
def hostAndPort (p : Bytes) : Option ℕ → Option ℕ → ℕ × Int32
  | some colon, _ => (colon, atoi (p.drop (colon + 1)))
  | none, some slash => (slash, 80)
  | none, none => (p.length, 80)

def storedPath (p : Bytes) : Option ℕ → CStr 512
  | some slash =>
      if p.drop (slash + 1) ≠ [] then CStr.copy 512 (p.drop slash) else CStr.copy 512 [0x2f]
  | none => CStr.copy 512 [0x2f]

/-- `parse_http_url(url, host, 256, &port, path, 512)`, as both of its callers call it. -/
def parseHttpUrl (url : CString) : Option HttpUrl :=
  if !strncmpEq url.val (bytes "http://") 7 then none
  else
    let p := url.val.drop 7
    let slash := strchr p 0x2f
    let colon := (p.take (slash.getD p.length)).findIdx? (· == 0x3a)
    let (hostLen, port) := hostAndPort p colon slash
    if hostLen = 0 ∨ 256 ≤ hostLen then none
    else if port ≤ 0 ∨ 65535 < port then none
    else some { host := CStr.copy 256 (p.take hostLen), port := port, path := storedPath p slash }

/-- `otlp_forward_url_valid(url)` -/
def otlpForwardUrlValid (url : CString) : Bool :=
  (parseHttpUrl url).isSome

/-- The header of a request. -/
def requestHead (path host : Bytes) (port : ℤ) (bodyLen : ℕ) : Bytes :=
  bytes "POST " ++ path ++ bytes " HTTP/1.1\r\nHost: " ++ host ++ bytes ":" ++ decimalInt port ++
    bytes "\r\nContent-Type: application/x-protobuf\r\nContent-Length: " ++ decimal bodyLen ++
    bytes "\r\nConnection: close\r\n\r\n"

/-- What `otlp_forward_post` connects to and sends. -/
structure ForwardRequest where
  host : CStr 256
  portbuf : CStr 16
  hdr : CStr 768
  body : Bytes

/-- `otlp_forward_post(url, body, body_len)` up to the connection, `none` if it returns before. -/
def otlpForwardPost (url : CString) (body : Bytes) : Option ForwardRequest :=
  if !otlpForwardUrlValid url then none
  else
    match parseHttpUrl url with
    | none => none
    | some u =>
        let hdr := requestHead u.path.val u.host.val u.port.toInt body.length
        if 768 ≤ hdr.length then none
        else
          some
            { host := u.host
              portbuf := CStr.copy 16 (decimalInt u.port.toInt)
              hdr := CStr.copy 768 hdr
              body := body }

end ProcWatch

import ProcWatch.Model.DbBuf
import ProcWatch.Model.DbOtlp

/-! # Writing and replaying records (`agentd.c`) -/

namespace ProcWatch

open CLib

/-! ## Writers -/

def markOffline : Agent Unit := do
  setOnline false
  dbLabelCacheReset

/-- `online && conn && db_ensure_label(...) == 0 && insert(...) == 0` -/
def tryInsert (label : Bytes) (insert : Agent ℤ) : Agent Bool := do
  let w ← Prog.get
  if w.online = false ∨ w.conn = none then return false
  else
    let rc ← dbEnsureLabel w.user.schema.val label
    if rc ≠ 0 then return false
    else
      let rc ← insert
      return rc = 0

/-- The body shared by the three writers: insert, or else go offline and spill. -/
def writeRecord (r : AgentRecord) (insert : Agent ℤ) : Agent ℤ := do
  if ← tryInsert r.label.val insert then return 0
  else
    markOffline
    let w ← Prog.get
    let _ ← pwDbBufSpill (r.line w.user.schema)
    return 0

def writeMetric (m : ProcMetric) : Agent ℤ :=
  writeRecord (.metric m) (dbInsertMetricLabeled m)

def writeOtelMetric (p : MetricPoint) : Agent ℤ :=
  writeRecord (.otelMetric p) (dbInsertOtelMetric p)

def writeSpan (s : Span) : Agent ℤ :=
  writeRecord (.span s) (dbInsertSpan s)

/-! ## Fields of a text -/

/-- A buffer of `cap` bytes that holds `initial` and is passed to `json_str`. -/
def strBuf (text after : Bytes) (key : String) (cap : ℕ) [NeZero cap] (initial : Bytes) : CStr cap :=
  CStr.copy cap (jsonStr text after (bytes key) cap initial).2

/-- A `double` initialised with `initial` and passed to `json_num`. -/
def numVar (text after : Bytes) (key : String) (initial : ℕ) : Double :=
  (jsonNum text after (bytes key) (Double.ofNat initial)).2

/-- A cast to `long` or `int64_t`. -/
def toInt64 (d : Double) : Int64 :=
  Int64.ofInt (d.toSigned 63)

/-- The pid key: a string, or a number printed as an `int`, or else empty. -/
def readPidKey (text after : Bytes) : CStr 80 :=
  let s := jsonStr text after (bytes "pid") 80 []
  if s.1 then CStr.copy 80 s.2
  else
    let n := jsonNum text after (bytes "pid") (Double.ofNat 0)
    if n.1 then CStr.copy 80 (decimalInt (n.2.toSigned 31)) else CStr.copy 80 []

/-- What `handle_procmetrics` and `replay_line` have in common: every field but the label. -/
def readProcMetric (text after : Bytes) (cpuKey rssKey : String) (label : CStr 100) :
    ProcMetric where
  label := label
  service := some (strBuf text after "service" 256 [])
  containerId := some (strBuf text after "container_id" 80 [])
  pod := some (strBuf text after "pod" 256 [])
  pid := some (CStr.copy 80 (orNonempty (readPidKey text after).val (bytes "unknown")))
  comm := some (strBuf text after "comm" 64 [])
  runtime := some (strBuf text after "runtime" 32 (bytes "other"))
  cpu := numVar text after cpuKey 0
  rss := toInt64 (numVar text after rssKey 0)
  threads := toInt64 (numVar text after "threads" 0)

/-! ## `replay_line` -/

/-- `(uint64_t)(ts * 1e9)` for the text of a time stamp, 0 where it is empty. -/
def nanoseconds (ts : Bytes) : UInt64 :=
  let t := if ts = [] then Double.ofNat 0 else (Double.strtod ts).getD (Double.ofNat 0)
  (Double.mul t (Double.ofNat 1000000000)).toUInt64

def readSpan (text after : Bytes) (label : CStr 100) : Span where
  label := label
  traceId := strBuf text after "trace_id" 33 []
  spanId := strBuf text after "span_id" 17 []
  parentSpanId := strBuf text after "parent_span_id" 17 []
  name := strBuf text after "name" 512 []
  serviceName := strBuf text after "service_name" 256 []
  scopeName := strBuf text after "scope_name" 256 []
  kind := some (strBuf text after "kind" 40 (bytes "INTERNAL"))
  statusCode := some (strBuf text after "status_code" 40 (bytes "UNSET"))
  statusMessage := strBuf text after "status_message" 512 []
  startNs := nanoseconds (strBuf text after "ts" 64 []).val
  endNs := nanoseconds (strBuf text after "ts" 64 []).val
  durationNs := toInt64 (numVar text after "duration_ns" 0)
  attributesJson := CStr.copy 8192
    (orNonempty (strBuf text after "attributes" 8192 []).val (bytes "\x7b\x7d"))

def readMetricPoint (text after : Bytes) (label : CStr 100) : MetricPoint where
  label := label
  serviceName := strBuf text after "service_name" 256 []
  scopeName := strBuf text after "scope_name" 256 []
  pidKey := strBuf text after "pid" 64 []
  metricName := strBuf text after "metric_name" 256 []
  description := strBuf text after "description" 256 []
  unit := strBuf text after "unit" 64 []
  metricType := some (strBuf text after "metric_type" 16 (bytes "gauge"))
  value := numVar text after "value" 0
  count := toInt64 (numVar text after "count" 1)
  timeNs := nanoseconds (strBuf text after "ts" 64 []).val
  attributesJson := CStr.copy 2048
    (orNonempty (strBuf text after "attributes" 2048 []).val (bytes "\x7b\x7d"))

/-- The body shared by the three branches: skip a line without a valid label, else insert. -/
def replayRecord (line : Bytes) (insert : CStr 100 → Agent ℤ) : Agent ℤ := do
  let label := strBuf line [0] "label" 100 []
  if !(jsonStr line [0] (bytes "label") 100 []).1 then return 0
  else if !validateIdentifier label.val then return 0
  else
    let w ← Prog.get
    if (← dbEnsureLabel w.user.schema.val label.val) ≠ 0 then return -1
    else if (← insert label) ≠ 0 then return -1
    else return 0

/-- `replay_line(line, len, user)`; `getline` put a NUL behind the line. -/
def replayLine (line : Bytes) : Agent ℤ := do
  let w ← Prog.get
  if !connOk w.conn then return -1
  else if strncmpEq line (bytes "\x7b\"k\":\"metric\"") 13 then
    replayRecord line fun label => dbInsertMetricLabeled (readProcMetric line [0] "cpu" "rss" label)
  else if strncmpEq line (bytes "\x7b\"k\":\"span\"") 11 then
    replayRecord line fun label => dbInsertSpan (readSpan line [0] label)
  else if strncmpEq line (bytes "\x7b\"k\":\"otelmetric\"") 18 then
    replayRecord line fun label => dbInsertOtelMetric (readMetricPoint line [0] label)
  else return 0

end ProcWatch

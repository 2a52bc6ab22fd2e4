import ProcWatch.Model.Http

/-! # POST requests on the wire -/

namespace ProcWatch

open CLib

/-! ## Format -/

structure Header where
  name : Bytes
  value : Bytes
  name_oneLine : OneLine name
  value_oneLine : OneLine value
  colon_notMem : (0x3a : Byte) ∉ name

def Header.line (h : Header) : Bytes :=
  h.name ++ 0x3a :: h.value

/-- Field names are compared without regard to case. -/
def Header.Is (h : Header) (key : Bytes) : Prop :=
  h.name.map lowerByte = key

instance (h : Header) (key : Bytes) : Decidable (h.Is key) :=
  inferInstanceAs (Decidable (_ = _))

def contentLengthKey : Bytes := bytes "content-length"

def contentEncodingKey : Bytes := bytes "content-encoding"

def connectionKey : Bytes := bytes "connection"

def Header.Compressed (h : Header) : Prop :=
  h.Is contentEncodingKey ∧ (ciStartsWith (skipWs h.value) (bytes "gzip") ||
    ciStartsWith (skipWs h.value) (bytes "deflate")) = true

instance (h : Header) : Decidable h.Compressed :=
  inferInstanceAs (Decidable (_ ∧ _))

def Header.Closing (h : Header) : Prop :=
  h.Is connectionKey ∧ ciStartsWith (skipWs h.value) (bytes "close") = true

instance (h : Header) : Decidable h.Closing :=
  inferInstanceAs (Decidable (_ ∧ _))

/-- `tchar` of the grammar of HTTP messages. -/
def isTokenByte (b : Byte) : Bool :=
  isAlnum b || (bytes "!#$%&'*+-.^_`|~").contains b

def Token (name : Bytes) : Prop :=
  name ≠ [] ∧ ∀ b ∈ name, isTokenByte b = true

instance (name : Bytes) : Decidable (Token name) :=
  inferInstanceAs (Decidable (_ ∧ _))

/-- A decimal number between blanks. -/
def Announces (value : Bytes) (n : ℕ) : Prop :=
  ∃ lead digits trail : Bytes, value = lead ++ digits ++ trail ∧
    (∀ b ∈ lead, b = 0x20 ∨ b = 0x09) ∧ digits ≠ [] ∧ (∀ b ∈ digits, isDigit b = true) ∧
    (∀ b ∈ trail, b = 0x20 ∨ b = 0x09) ∧ digitsVal digits = n

def startLine (target version : Bytes) : Bytes :=
  bytes "POST" ++ 0x20 :: target ++ 0x20 :: version

/-- Header lines, each behind the line end of the line before it. -/
def headerTail (headers : List Header) : Bytes :=
  headers.flatMap fun h => CRLF ++ h.line

/-- The head of a request, whose `Content-Length` lines agree on one number. -/
structure RequestHead where
  method : Bytes
  target : Bytes
  version : Bytes
  headers : List Header
  method_oneLine : OneLine method
  space_notMem_method : (0x20 : Byte) ∉ method
  target_oneLine : OneLine target
  space_notMem_target : (0x20 : Byte) ∉ target
  version_oneLine : OneLine version
  contentLength : ℕ
  announced : ∀ h ∈ headers, h.Is contentLengthKey → Announces h.value contentLength
  unannounced : (∀ h ∈ headers, ¬ h.Is contentLengthKey) → contentLength = 0

namespace RequestHead

def startLine (r : RequestHead) : Bytes :=
  r.method ++ 0x20 :: r.target ++ 0x20 :: r.version

/-- The header block without the blank line. -/
def header (r : RequestHead) : Bytes :=
  r.startLine ++ headerTail r.headers

def encode (r : RequestHead) : Bytes :=
  r.header ++ (CRLF ++ CRLF)

/-- The target without its query. -/
def path (r : RequestHead) : Bytes :=
  cutAt 0x3f r.target

/-- The request is within the server's header limits. -/
def WithinLimits (r : RequestHead) : Prop :=
  r.startLine.length < 512 ∧ r.header.length ≤ HEADER_MAX

def Compressed (r : RequestHead) : Prop :=
  ∃ h ∈ r.headers, h.Compressed

instance (r : RequestHead) : Decidable r.Compressed :=
  inferInstanceAs (Decidable (∃ h ∈ r.headers, _))

/-- The request asks for the connection to be closed behind it. -/
def Closing (r : RequestHead) : Prop :=
  ∃ h ∈ r.headers, h.Closing

instance (r : RequestHead) : Decidable r.Closing :=
  inferInstanceAs (Decidable (∃ h ∈ r.headers, _))

end RequestHead

/-- A complete keep-alive POST request within the server's header limits. -/
structure PostRequest where
  target : Bytes
  version : Bytes
  headers : List Header
  body : Bytes
  target_oneLine : OneLine target
  space_notMem : (0x20 : Byte) ∉ target
  version_oneLine : OneLine version
  startLine_lt : (startLine target version).length < 512
  header_le : (startLine target version ++ headerTail headers).length ≤ HEADER_MAX
  contentLength : ∀ h ∈ headers, h.Is contentLengthKey → Announces h.value body.length
  body_eq_nil : (∀ h ∈ headers, ¬ h.Is contentLengthKey) → body = []
  keepAlive : ∀ h ∈ headers, h.Is connectionKey →
    ciStartsWith (skipWs h.value) (bytes "close") = false

namespace PostRequest

/-- The header block without the blank line. -/
def header (r : PostRequest) : Bytes :=
  startLine r.target r.version ++ headerTail r.headers

def head (r : PostRequest) : Bytes :=
  r.header ++ (CRLF ++ CRLF)

def encode (r : PostRequest) : Bytes :=
  r.head ++ r.body

/-- The target without its query. -/
def path (r : PostRequest) : Bytes :=
  cutAt 0x3f r.target

def Compressed (r : PostRequest) : Prop :=
  ∃ h ∈ r.headers, h.Compressed

instance (r : PostRequest) : Decidable r.Compressed :=
  inferInstanceAs (Decidable (∃ h ∈ r.headers, _))

/-- What the handler is to be called with: nothing for a path that is not served or a body
that does not decompress. -/
def invocation {σ : Type} (srv : Server σ) (r : PostRequest) : Option (Signal × Bytes) :=
  if signalForPath r.path = .unknown then none
  else if r.Compressed ∧ r.body ≠ [] then
    (srv.gzipInflate r.body srv.maxBody).map (signalForPath r.path, ·)
  else some (signalForPath r.path, r.body)

/-- The request as a head and, behind it, `body`. -/
def toHead (r : PostRequest) : RequestHead where
  method := bytes "POST"
  target := r.target
  version := r.version
  headers := r.headers
  method_oneLine := by decide +kernel
  space_notMem_method := by decide +kernel
  target_oneLine := r.target_oneLine
  space_notMem_target := r.space_notMem
  version_oneLine := r.version_oneLine
  contentLength := r.body.length
  announced := r.contentLength
  unannounced := fun h => by rw [r.body_eq_nil h, List.length_nil]

theorem encode_toHead (r : PostRequest) : r.toHead.encode = r.head := rfl

end PostRequest

/-! ## Line ends in a header block -/

theorem Header.line_ne_nil (h : Header) : h.line ≠ [] := by
  simp [line]

theorem Header.line_oneLine (h : Header) : OneLine h.line := by
  have hcolon : OneLine [0x3a] := by simp [OneLine]
  have hline : h.line = h.name ++ [0x3a] ++ h.value := by simp [line]
  rw [hline]
  exact (h.name_oneLine.append hcolon).append h.value_oneLine

/-- A pattern that starts with a line-end byte is looked for behind the line. -/
theorem find_line_append {pat l : Bytes} (hl : OneLine l)
    (hpat : ∀ b s, b ≠ 0x0d → b ≠ 0x0a → ¬ pat <+: b :: s) (s : Bytes) :
    find pat (l ++ s) = (find pat s).map (· + l.length) := by
  apply find_append_of_not_isPrefix
  intro j hj hp
  rw [List.drop_append_of_le_length hj.le, List.drop_eq_getElem_cons hj] at hp
  obtain ⟨_, hcr, hlf⟩ := hl l[j] (List.getElem_mem hj)
  exact hpat l[j] _ hcr hlf hp

/-- A pattern that does not occur at a line end within a header block is found behind it. -/
theorem find_headerTail_append {pat : Bytes}
    (hpat : ∀ b s, b ≠ 0x0d → b ≠ 0x0a → ¬ pat <+: b :: s)
    (hend : ∀ b s, b ≠ 0x0d → b ≠ 0x0a →
      ¬ pat <+: 0x0d :: 0x0a :: b :: s ∧ ¬ pat <+: 0x0a :: b :: s)
    (headers : List Header) (s : Bytes) :
    find pat (headerTail headers ++ s) =
      (find pat s).map (· + (headerTail headers).length) := by
  induction headers with
  | nil => simp [headerTail]
  | cons h headers ih =>
      have hsplit : headerTail (h :: headers) ++ s =
          0x0d :: 0x0a :: (h.line ++ (headerTail headers ++ s)) := by
        simp [headerTail, CRLF]
      obtain ⟨b, t, hbt⟩ := List.exists_cons_of_ne_nil h.line_ne_nil
      obtain ⟨_, hcr, hlf⟩ := h.line_oneLine b (by simp [hbt])
      have hpre := hend b (t ++ (headerTail headers ++ s)) hcr hlf
      rw [hsplit, find_cons_of_not_isPrefix (by rw [hbt]; exact hpre.1),
        find_cons_of_not_isPrefix (by rw [hbt]; exact hpre.2),
        find_line_append h.line_oneLine hpat, ih]
      simp only [Option.map_map]
      congr 1
      funext n
      simp [headerTail, CRLF]
      omega

/-- The blank line of a request is the first one, whatever follows it. -/
theorem find_blankLine_append {start : Bytes} (hstart : OneLine start) (headers : List Header)
    (rest : Bytes) :
    find (CRLF ++ CRLF) (start ++ headerTail headers ++ (CRLF ++ CRLF) ++ rest) =
      some (start ++ headerTail headers).length := by
  have hpat : ∀ (b : Byte) s, b ≠ 0x0d → b ≠ 0x0a → ¬ CRLF ++ CRLF <+: b :: s := by
    intro b s hcr _
    simp [CRLF, hcr.symm]
  have hend : ∀ (b : Byte) s, b ≠ 0x0d → b ≠ 0x0a →
      ¬ CRLF ++ CRLF <+: 0x0d :: 0x0a :: b :: s ∧ ¬ CRLF ++ CRLF <+: 0x0a :: b :: s := by
    intro b s hcr _
    simp [CRLF, hcr.symm]
  rw [List.append_assoc, List.append_assoc, find_line_append hstart hpat,
    find_headerTail_append hpat hend, List.append_assoc, find_of_isPrefix (by simp)]
  simp
  omega

namespace RequestHead

variable (r : RequestHead)

theorem startLine_oneLine : OneLine r.startLine := by
  have hspace : OneLine [0x20] := by simp [OneLine]
  have hline : r.startLine = r.method ++ [0x20] ++ r.target ++ [0x20] ++ r.version := by
    simp [startLine]
  rw [hline]
  exact (((r.method_oneLine.append hspace).append r.target_oneLine).append hspace).append
    r.version_oneLine

theorem find_blankLine : find (CRLF ++ CRLF) r.encode = some r.header.length := by
  have h := find_blankLine_append r.startLine_oneLine r.headers []
  rwa [List.append_nil] at h

/-- No two line feeds stand next to each other in a header block. -/
theorem find_twoLineFeeds : find [0x0a, 0x0a] r.encode = none := by
  have hpat : ∀ (b : Byte) s, b ≠ 0x0d → b ≠ 0x0a → ¬ [0x0a, 0x0a] <+: b :: s := by
    intro b s _ hlf
    simp [hlf.symm]
  have hend : ∀ (b : Byte) s, b ≠ 0x0d → b ≠ 0x0a →
      ¬ [0x0a, 0x0a] <+: 0x0d :: 0x0a :: b :: s ∧ ¬ [0x0a, 0x0a] <+: (0x0a : Byte) :: b :: s := by
    intro b s _ hlf
    simp [hlf.symm]
  have hblank : find [0x0a, 0x0a] (CRLF ++ CRLF) = none := by decide
  rw [encode, header, List.append_assoc, find_line_append r.startLine_oneLine hpat,
    find_headerTail_append hpat hend, hblank]
  rfl

theorem encode_ne_nil : r.encode ≠ [] := by
  simp [encode, CRLF]

theorem findBlank_encode_append (rest : Bytes) :
    findBlank (r.encode ++ rest) = some (r.header.length, 4) := by
  rw [findBlank, find_of_append r.find_blankLine rest]

/-- A header block cut short of its end shows no blank line. -/
theorem findBlank_of_isPrefix {s : Bytes} (h : s <+: r.encode) (hlen : s.length < r.encode.length) :
    findBlank s = none := by
  have hcrlf : find (CRLF ++ CRLF) s = none := by
    apply find_eq_none_of_isPrefix r.find_blankLine h
    simpa [encode] using hlen
  rw [findBlank, hcrlf, find_eq_none_of_isPrefix_of_none r.find_twoLineFeeds h]
  rfl

end RequestHead

end ProcWatch

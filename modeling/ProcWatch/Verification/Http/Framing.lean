import ProcWatch.Verification.Http.Headers

/-! # What a header block says about the body -/

namespace ProcWatch

open CLib

/-! ## Numbers in a value -/

/-- The number at the start of a value: its digits behind any white space, 0 without digits. -/
def numberAt (value : Bytes) : ℕ :=
  digitsVal ((value.dropWhile isSpace).takeWhile isDigit)

/-- The value starts with a sign and a number other than 0. -/
def SignedNumber (value : Bytes) : Prop :=
  ∃ sign rest, value.dropWhile isSpace = sign :: rest ∧ (sign = 0x2d ∨ sign = 0x2b) ∧
    digitsVal (rest.takeWhile isDigit) ≠ 0

/-- The number fits in 64 bits, and no sign is in front of it. -/
def PlainNumber (value : Bytes) : Prop :=
  numberAt value < 2 ^ 64 ∧ ¬ SignedNumber value

/-- `strtoull` reads the number of the plain values, and of no others. -/
theorem strtoull_eq_numberAt_iff {value : Bytes} (h0 : (0 : Byte) ∉ value) :
    strtoull value = numberAt value ↔ PlainNumber value := by
  rw [PlainNumber, strtoull, cstr_of_nulFree h0, numberAt]
  cases hs : value.dropWhile isSpace with
  | nil => simp [SignedNumber, hs, digitsVal]
  | cons b s =>
      by_cases hminus : b = 0x2d
      · subst hminus
        have hsigned : SignedNumber value ↔ digitsVal (s.takeWhile isDigit) ≠ 0 := by
          simp [SignedNumber, hs]
        have hdigit : isDigit 0x2d = false := by decide
        rw [hsigned]
        simp only [List.takeWhile_cons, hdigit, digitsVal, List.head?_cons, beq_self_eq_true,
          Bool.true_or, if_true, List.tail_cons, Bool.false_eq_true, if_false, List.foldl_nil]
        split <;> omega
      · by_cases hplus : b = 0x2b
        · subst hplus
          have hsigned : SignedNumber value ↔ digitsVal (s.takeWhile isDigit) ≠ 0 := by
            simp [SignedNumber, hs]
          have hdigit : isDigit 0x2b = false := by decide
          have hne : ((0x2b : Byte) == 0x2d) = false := by decide
          rw [hsigned]
          simp only [List.takeWhile_cons, hdigit, digitsVal, List.head?_cons, Option.some_beq_some,
            hne, beq_self_eq_true, Bool.or_true, if_true, List.tail_cons, Bool.false_eq_true,
            if_false, List.foldl_nil]
          split <;> omega
        · have hsigned : ¬ SignedNumber value := by
            simp [SignedNumber, hs, hminus, hplus]
          simp only [hsigned, not_false_eq_true, and_true, List.head?_cons, Option.some_beq_some,
            beq_eq_false_iff_ne.mpr hminus, beq_eq_false_iff_ne.mpr hplus, Bool.or_self,
            Bool.false_eq_true, if_false]
          split <;> omega

/-! ## POST heads -/

/-- The head of a POST request within the server's header limits. -/
structure PostHead where
  target : Bytes
  version : Bytes
  headers : List Header
  names : ∀ h ∈ headers, Token h.name
  target_oneLine : OneLine target
  space_notMem : (0x20 : Byte) ∉ target
  version_oneLine : OneLine version
  startLine_lt : (startLine target version).length < 512
  header_le : (startLine target version ++ headerTail headers).length ≤ HEADER_MAX

namespace PostHead

variable (r : PostHead)

/-- The header block with its blank line. -/
def encode : Bytes :=
  startLine r.target r.version ++ headerTail r.headers ++ (CRLF ++ CRLF)

/-- The last `Content-Length` line. -/
def lastLength : Option Header :=
  r.headers.reverse.find? fun h => h.Is contentLengthKey

/-- The number at the start of the last `Content-Length` value. -/
def contentLength : ℕ :=
  match r.lastLength with
  | some h => numberAt h.value
  | none => 0

/-- The parsed connection has each item from the lines that are about it. -/
def HeadersRead (c : Conn) : Prop :=
  ∃ c', parseHeaders c = .complete c' ∧
    c'.contentLength = r.contentLength ∧
    (c'.gzip = true ↔ ∃ h ∈ r.headers, h.Compressed) ∧
    (c'.keepAlive = false ↔ ∃ h ∈ r.headers, h.Closing) ∧
    c'.path.val = (cutAt 0x3f r.target).take 127

/-- The last `Content-Length` value is blank and the name on the next line starts with what is
read as a number other than 0. -/
def ReadsOn : Prop :=
  ∃ before h next after, r.headers = before ++ h :: next :: after ∧ h.Is contentLengthKey ∧
    (∀ k ∈ next :: after, ¬ k.Is contentLengthKey) ∧ (∀ b ∈ h.value, isSpace b = true) ∧
    strtoull next.name ≠ 0

/-! ## The last `Content-Length` line -/

theorem lastLength_eq_some_iff {h : Header} :
    r.lastLength = some h ↔ h.Is contentLengthKey ∧ ∃ before after,
      r.headers = before ++ h :: after ∧ ∀ k ∈ after, ¬ k.Is contentLengthKey := by
  rw [lastLength, List.find?_eq_some_iff_append]
  constructor
  · rintro ⟨hkey, as, bs, hsplit, hbefore⟩
    refine ⟨by simpa using hkey, bs.reverse, as.reverse, ?_, ?_⟩
    · rw [← List.reverse_reverse r.headers, hsplit]
      simp
    · intro k hk
      simpa using hbefore k (List.mem_reverse.mp hk)
  · rintro ⟨hkey, before, after, hsplit, hafter⟩
    refine ⟨by simpa using hkey, after.reverse, before.reverse, by simp [hsplit], ?_⟩
    intro k hk
    simpa using hafter k (List.mem_reverse.mp hk)

end PostHead

theorem lengthRead_of_none {headers : List Header}
    (h : ∀ k ∈ headers, ¬ k.Is contentLengthKey) (n : ℕ) : lengthRead headers n = n := by
  induction headers with
  | nil => rfl
  | cons k headers ih =>
      rw [lengthRead, if_neg (h k (by simp))]
      exact ih fun j hj => h j (List.mem_cons_of_mem k hj)

/-- The last line decides, read with everything behind it. -/
theorem lengthRead_last (before : List Header) {h : Header} {after : List Header}
    (hkey : h.Is contentLengthKey) (hafter : ∀ k ∈ after, ¬ k.Is contentLengthKey) (n : ℕ) :
    lengthRead (before ++ h :: after) n = strtoull (skipWs (h.value ++ headerTail after)) := by
  induction before generalizing n with
  | nil => rw [List.nil_append, lengthRead, if_pos hkey, lengthRead_of_none hafter]
  | cons k before ih =>
      rw [List.cons_append, lengthRead]
      exact ih _

/-! ## Reading a value with the lines behind it -/

theorem strtoull_skipWs (s : Bytes) : strtoull (skipWs s) = strtoull s := by
  have hsplit : s.takeWhile (fun b => b == 0x20 || b == 0x09) ++ skipWs s = s :=
    List.takeWhile_append_dropWhile
  have hspace : ∀ b ∈ s.takeWhile (fun b => b == 0x20 || b == 0x09), isSpace b = true := by
    intro b hb
    have hblank := List.mem_takeWhile_imp hb
    simp only [Bool.or_eq_true, beq_iff_eq] at hblank
    cases hblank with
    | inl h => subst h; decide
    | inr h => subst h; decide
  rw [← strtoull_spaces_append hspace (skipWs s), hsplit]

/-- A value with something in it ends the number at the end of its line. -/
theorem strtoull_value {value : Bytes} (hline : OneLine value)
    (hne : ∃ b ∈ value, isSpace b = false) (after : List Header) :
    strtoull (value ++ headerTail after) = strtoull value := by
  apply strtoull_append (fun h0 => (hline 0 h0).1 rfl) hne
  intro b hb
  cases lineEnd_headerTail after with
  | inl hnil => simp [hnil] at hb
  | inr hcr =>
      obtain ⟨s, hs⟩ := hcr
      rw [hs] at hb
      obtain rfl : 0x0d = b := by simpa using hb
      decide

theorem strtoull_blank {value : Bytes} (h : ∀ b ∈ value, isSpace b = true) :
    strtoull value = 0 := by
  have hnil := strtoull_spaces_append h []
  rw [List.append_nil] at hnil
  exact hnil

theorem isTokenByte_spec : ∀ b : Byte, isTokenByte b = true → b ≠ 0 ∧ isSpace b = false := by
  decide +kernel

/-- Behind a blank value the number is looked for in the name on the next line. -/
theorem strtoull_blank_next {value : Bytes} (h : ∀ b ∈ value, isSpace b = true) {next : Header}
    (hname : Token next.name) (after : List Header) :
    strtoull (value ++ headerTail (next :: after)) = strtoull next.name := by
  have hcrlf : ∀ b ∈ CRLF, isSpace b = true := by simp [CRLF, isSpace]
  have hsplit : headerTail (next :: after) =
      CRLF ++ (next.name ++ 0x3a :: (next.value ++ headerTail after)) := by
    simp [headerTail, Header.line]
  obtain ⟨b, name, hb⟩ := List.exists_cons_of_ne_nil hname.1
  have htoken : ∀ d ∈ next.name, d ≠ 0 ∧ isSpace d = false :=
    fun d hd => isTokenByte_spec d (hname.2 d hd)
  rw [hsplit, strtoull_spaces_append h, strtoull_spaces_append hcrlf]
  apply strtoull_append
  · exact fun h0 => (htoken 0 h0).1 rfl
  · exact ⟨b, by simp [hb], (htoken b (by simp [hb])).2⟩
  · intro d hd
    obtain rfl : 0x3a = d := by simpa using hd
    decide

namespace PostHead

variable (r : PostHead)

theorem not_readsOn_of_lastLength {k : Header} (hlast : r.lastLength = some k)
    (hvalue : ∃ b ∈ k.value, isSpace b = false) : ¬ r.ReadsOn := by
  rintro ⟨before, h, next, after, hsplit, hkey, hafter, hblank, _⟩
  have hlast' : r.lastLength = some h :=
    r.lastLength_eq_some_iff.mpr ⟨hkey, before, next :: after, hsplit, hafter⟩
  obtain rfl := Option.some.inj (hlast'.symm.trans hlast)
  obtain ⟨b, hb, hspace⟩ := hvalue
  rw [hblank b hb] at hspace
  cases hspace

theorem plain_of_blank {value : Bytes} (h : ∀ b ∈ value, isSpace b = true) :
    numberAt value = 0 ∧ PlainNumber value := by
  have hnil : value.dropWhile isSpace = [] := List.dropWhile_eq_nil_iff.mpr h
  simp [PlainNumber, SignedNumber, numberAt, hnil, digitsVal]

/-- Behind a blank value the next name decides. -/
theorem lengthRead_blank_iff {k : Header} (hlast : r.lastLength = some k)
    (hblank : ∀ b ∈ k.value, isSpace b = true) : lengthRead r.headers 0 = 0 ↔ ¬ r.ReadsOn := by
  obtain ⟨hkey, before, after, hsplit, hafter⟩ := r.lastLength_eq_some_iff.mp hlast
  rw [hsplit, lengthRead_last before hkey hafter, strtoull_skipWs]
  constructor
  · intro hzero hreads
    obtain ⟨before', h, next, after', hsplit', hkey', hafter', _, hnumber⟩ := hreads
    have hread : lengthRead r.headers 0 = strtoull next.name := by
      rw [hsplit', lengthRead_last before' hkey' hafter', strtoull_skipWs]
      have hlast' : r.lastLength = some h :=
        r.lastLength_eq_some_iff.mpr ⟨hkey', before', next :: after', hsplit', hafter'⟩
      obtain rfl := Option.some.inj (hlast'.symm.trans hlast)
      exact strtoull_blank_next hblank (r.names next (by simp [hsplit'])) after'
    rw [hsplit, lengthRead_last before hkey hafter, strtoull_skipWs] at hread
    exact hnumber (hread.symm.trans hzero)
  · intro hreads
    cases after with
    | nil => simpa [headerTail] using strtoull_blank hblank
    | cons next after =>
        rw [strtoull_blank_next hblank (r.names next (by simp [hsplit]))]
        by_contra hnumber
        exact hreads ⟨before, k, next, after, hsplit, hkey, hafter, hblank, hnumber⟩

/-- When the number that is read is the one in the last `Content-Length` line. -/
theorem lengthRead_eq_iff :
    lengthRead r.headers 0 = r.contentLength ↔
      ¬ r.ReadsOn ∧ ∀ h ∈ r.lastLength, PlainNumber h.value := by
  cases hlast : r.lastLength with
  | none =>
      have hnone : ∀ k ∈ r.headers, ¬ k.Is contentLengthKey := by
        intro k hk
        simpa using List.find?_eq_none.mp hlast k (List.mem_reverse.mpr hk)
      have hreads : ¬ r.ReadsOn := by
        rintro ⟨before, h, next, after, hsplit, hkey, _⟩
        exact hnone h (by simp [hsplit]) hkey
      simp [lengthRead_of_none hnone, contentLength, hlast, hreads]
  | some k =>
      have hlength : r.contentLength = numberAt k.value := by
        simp only [contentLength, hlast]
      rw [hlength]
      simp only [Option.mem_def, Option.some.injEq, forall_eq']
      by_cases hblank : ∀ b ∈ k.value, isSpace b = true
      · obtain ⟨hzero, hplain⟩ := plain_of_blank hblank
        rw [hzero, r.lengthRead_blank_iff hlast hblank]
        exact (and_iff_left hplain).symm
      · have hvalue : ∃ b ∈ k.value, isSpace b = false := by simpa using hblank
        obtain ⟨hkey, before, after, hsplit, hafter⟩ := r.lastLength_eq_some_iff.mp hlast
        have hnul : (0 : Byte) ∉ k.value := fun h0 => (k.value_oneLine 0 h0).1 rfl
        rw [hsplit, lengthRead_last before hkey hafter, strtoull_skipWs,
          strtoull_value k.value_oneLine hvalue after, strtoull_eq_numberAt_iff hnul]
        exact (and_iff_right (r.not_readsOn_of_lastLength hlast hvalue)).symm

/-! ## The parsed connection -/

theorem startLine_oneLine : OneLine (startLine r.target r.version) := by
  have hpost : OneLine (bytes "POST" ++ [0x20]) := by decide +kernel
  have hspace : OneLine [0x20] := by simp [OneLine]
  have hline : startLine r.target r.version =
      bytes "POST" ++ [0x20] ++ r.target ++ [0x20] ++ r.version := by
    simp [startLine]
  rw [hline]
  exact ((hpost.append r.target_oneLine).append hspace).append r.version_oneLine

theorem path_eq :
    cutAt 0x3f (cutAt 0x20 (cstr ((startLine r.target r.version).drop 5))) =
      cutAt 0x3f r.target := by
  have hrest : (startLine r.target r.version).drop 5 = r.target ++ 0x20 :: r.version := rfl
  have hline : OneLine (r.target ++ 0x20 :: r.version) := by
    rw [← hrest]
    exact fun b hb => r.startLine_oneLine b (List.mem_of_mem_drop hb)
  have htarget : cutAt 0x20 (r.target ++ 0x20 :: r.version) = r.target := by
    rw [cutAt, List.takeWhile_append_of_pos]
    · simp
    · intro b hb
      have : b ≠ 0x20 := fun h => r.space_notMem (h ▸ hb)
      simpa using this
  rw [hrest, hline.cstr_eq, htarget]

theorem strchr_startLine : strchr (startLine r.target r.version) 0x20 = some 4 := by
  rw [strchr, r.startLine_oneLine.cstr_eq]
  rfl

/-- The connection once the head is parsed. -/
def parsed (c : Conn) : Conn :=
  { c with
    path := CStr.copy 128 (cutAt 0x3f r.target)
    contentLength := lengthRead r.headers 0
    gzip := decide (∃ h ∈ r.headers, h.Compressed)
    keepAlive := !decide (∃ h ∈ r.headers, h.Closing)
    bodyOffset := r.encode.length
    headersDone := true }

theorem parseHeaders_encode {c : Conn} (h : r.encode <+: c.buf) :
    parseHeaders c = .complete (r.parsed c) := by
  obtain ⟨rest, hrest⟩ := h
  have hfind : findBlank c.buf =
      some ((startLine r.target r.version ++ headerTail r.headers).length, 4) := by
    rw [findBlank, ← hrest, encode, find_blankLine_append r.startLine_oneLine]
  have htake : c.buf.take (startLine r.target r.version ++ headerTail r.headers).length =
      startLine r.target r.version ++ headerTail r.headers := by
    rw [← hrest, encode, List.append_assoc, List.take_left]
  have hpost : (startLine r.target r.version).take 4 = bytes "POST" := by
    have hlen : (bytes "POST").length = 4 := by decide +kernel
    rw [startLine, List.append_assoc, ← hlen, List.take_left]
  have hencode : (startLine r.target r.version ++ headerTail r.headers).length + 4 =
      r.encode.length := by
    simp [encode, CRLF, Nat.add_assoc]
  rw [parseHeaders, hfind]
  simp only [htake, if_neg r.header_le.not_gt]
  rw [parseRequest_lines r.startLine_oneLine _ _ _ r.strchr_startLine,
    if_neg r.startLine_lt.not_ge, if_pos hpost, path_eq, hencode]
  rfl

theorem headersRead_iff_lengthRead {c : Conn} (h : r.encode <+: c.buf) :
    r.HeadersRead c ↔ lengthRead r.headers 0 = r.contentLength := by
  have hpath : (CStr.copy 128 (cutAt 0x3f r.target)).val = (cutAt 0x3f r.target).take 127 := by
    have hline : OneLine (cutAt 0x3f r.target) :=
      fun b hb => r.target_oneLine b ((List.takeWhile_subset _) hb)
    rw [CStr.copy_val, hline.cstr_eq]
  rw [HeadersRead, r.parseHeaders_encode h]
  constructor
  · rintro ⟨c', hparsed, hlength, _⟩
    obtain rfl := Parsed.complete.inj hparsed
    exact hlength
  · intro hlength
    exact ⟨r.parsed c, rfl, hlength, by simp [parsed], by simp [parsed], hpath⟩

/-- Every header is read from its own line, unless the number of a blank `Content-Length` is
looked for on the next line or that of the last one has a sign or does not fit. -/
theorem headersRead_iff {c : Conn} (h : r.encode <+: c.buf) :
    r.HeadersRead c ↔ ¬ r.ReadsOn ∧ ∀ h ∈ r.lastLength, PlainNumber h.value := by
  rw [r.headersRead_iff_lengthRead h, r.lengthRead_eq_iff]

/-- A compressed request to be closed, with two lengths and a query. -/
def closingHead : PostHead where
  target := bytes "/v1/traces?x=1"
  version := bytes "HTTP/1.1"
  headers :=
    [⟨bytes "Content-length", bytes " 7", by decide +kernel, by decide +kernel, by decide +kernel⟩,
      ⟨bytes "CONTENT-ENCODING", bytes "GZip", by decide +kernel, by decide +kernel,
        by decide +kernel⟩,
      ⟨bytes "content-length", bytes "12 bytes", by decide +kernel, by decide +kernel,
        by decide +kernel⟩,
      ⟨bytes "Connection", bytes "", by decide +kernel, by decide +kernel, by decide +kernel⟩,
      ⟨bytes "Connection", bytes "close", by decide +kernel, by decide +kernel,
        by decide +kernel⟩]
  names := by decide +kernel
  target_oneLine := by decide +kernel
  space_notMem := by decide +kernel
  version_oneLine := by decide +kernel
  startLine_lt := by decide +kernel
  header_le := by decide +kernel

theorem headersRead_iff_closingHead :
    closingHead.contentLength = 12 ∧
      (closingHead.HeadersRead { Conn.accepted with buf := closingHead.encode } ↔
        ¬ closingHead.ReadsOn ∧ ∀ h ∈ closingHead.lastLength, PlainNumber h.value) :=
  ⟨by decide +kernel, closingHead.headersRead_iff (List.prefix_refl _)⟩

/-- A blank length above a header named `5`. -/
def blankHead : PostHead where
  target := bytes "/v1/traces?x=1"
  version := bytes "HTTP/1.1"
  headers :=
    [⟨bytes "Content-length", bytes "", by decide +kernel, by decide +kernel, by decide +kernel⟩,
      ⟨bytes "5", bytes " x", by decide +kernel, by decide +kernel, by decide +kernel⟩]
  names := by decide +kernel
  target_oneLine := by decide +kernel
  space_notMem := by decide +kernel
  version_oneLine := by decide +kernel
  startLine_lt := by decide +kernel
  header_le := by decide +kernel

theorem not_headersRead_blankHead :
    ¬ ∀ (r : PostHead) (c : Conn), r.encode <+: c.buf → r.HeadersRead c := by
  intro h
  have hread := h blankHead { Conn.accepted with buf := blankHead.encode } (List.prefix_refl _)
  rw [blankHead.headersRead_iff_lengthRead (List.prefix_refl _)] at hread
  have hvalues : lengthRead blankHead.headers 0 = 5 ∧ blankHead.contentLength = 0 := by
    decide +kernel
  omega

end PostHead

end ProcWatch

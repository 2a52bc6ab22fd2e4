import ProcWatch.Verification.Http.Requests

/-! # Parsing the header block of a request -/

namespace ProcWatch

open CLib

/-! ## Comparisons without regard to case -/

theorem isPrefix_append_cons_iff {α : Type*} {a b t : List α} {c : α} (h : c ∉ a) :
    a <+: b ++ c :: t ↔ a <+: b := by
  constructor
  · intro ha
    have hb : b ++ [c] <+: b ++ c :: t := ⟨t, by simp⟩
    cases List.prefix_or_prefix_of_prefix ha hb with
    | inl hab =>
        cases List.prefix_concat_iff.mp hab with
        | inl heq => exact absurd (by simp [heq]) h
        | inr hab => exact hab
    | inr hba => exact absurd (hba.subset (by simp)) h
  · exact fun ha => ha.trans (List.prefix_append _ _)

theorem append_isPrefix_append_cons_iff {α : Type*} {a b t : List α} {c : α} (ha : c ∉ a)
    (hb : c ∉ b) : a ++ [c] <+: b ++ c :: t ↔ a = b := by
  constructor
  · intro h
    have hab : a <+: b :=
      (isPrefix_append_cons_iff ha).mp ((List.prefix_append _ _).trans h)
    obtain ⟨r, rfl⟩ := hab
    rw [List.append_assoc, List.prefix_append_right_inj] at h
    cases r with
    | nil => simp
    | cons d r =>
        have hcd : c = d := by simpa using h
        simp [hcd] at hb
  · rintro rfl
    exact ⟨t, by simp⟩

theorem ciStartsWith_iff {s key : Bytes} :
    ciStartsWith s key = true ↔ key.map lowerByte <+: s.map lowerByte := by
  rw [ciStartsWith, beq_iff_eq, List.prefix_iff_eq_take, List.length_map, List.map_take]
  exact eq_comm

private theorem eq_of_lowerByte_eq {b c : Byte} (hc : c = 0x0d ∨ c = 0x3a)
    (h : lowerByte b = c) : b = c := by
  revert b
  cases hc with
  | inl h => subst h; decide +kernel
  | inr h => subst h; decide +kernel

private theorem notMem_map_lowerByte {c : Byte} {s : Bytes} (hc : c = 0x0d ∨ c = 0x3a)
    (h : c ∉ s) : c ∉ s.map lowerByte := by
  intro hm
  obtain ⟨b, hb, hbc⟩ := List.mem_map.mp hm
  rw [eq_of_lowerByte_eq hc hbc] at hb
  exact h hb

/-- What follows a header line: nothing, or its line end. -/
def LineEnd (t : Bytes) : Prop :=
  t = [] ∨ ∃ s, t = 0x0d :: s

theorem lineEnd_headerTail (headers : List Header) : LineEnd (headerTail headers) := by
  cases headers with
  | nil => exact .inl rfl
  | cons h headers => exact .inr ⟨0x0a :: (h.line ++ headerTail headers), by simp [headerTail, CRLF]⟩

theorem ciStartsWith_append {s t key : Bytes} (ht : LineEnd t) (hkey : (0x0d : Byte) ∉ key) :
    ciStartsWith (s ++ t) key = ciStartsWith s key := by
  rcases ht with rfl | ⟨u, rfl⟩
  · rw [List.append_nil]
  · have hlower : lowerByte 0x0d = 0x0d := by decide
    rw [Bool.eq_iff_iff, ciStartsWith_iff, ciStartsWith_iff, List.map_append, List.map_cons, hlower]
    exact isPrefix_append_cons_iff (notMem_map_lowerByte (.inl rfl) hkey)

theorem skipWs_append {t : Bytes} (ht : LineEnd t) (s : Bytes) :
    skipWs (s ++ t) = skipWs s ++ t := by
  induction s with
  | nil =>
      rcases ht with rfl | ⟨u, rfl⟩
      · rfl
      · simp [skipWs]
  | cons b s ih =>
      simp only [skipWs, List.cons_append, List.dropWhile_cons] at ih ⊢
      cases b == 0x20 || b == 0x09 with
      | true => exact ih
      | false => rfl

theorem skipWs_lead_append {lead : Bytes} (h : ∀ b ∈ lead, b = 0x20 ∨ b = 0x09) (s : Bytes) :
    skipWs (lead ++ s) = skipWs s := by
  apply List.dropWhile_append_of_pos
  intro b hb
  simpa using h b hb

/-- A header line is recognised by its name. -/
theorem ciStartsWith_line (h : Header) {key t : Bytes} (ht : LineEnd t)
    (hlower : key.map lowerByte = key) (hcolon : (0x3a : Byte) ∉ key)
    (hcr : (0x0d : Byte) ∉ key) :
    ciStartsWith (h.line ++ t) (key ++ [0x3a]) = decide (h.Is key) := by
  have hcolon' : lowerByte 0x3a = 0x3a := by decide
  rw [ciStartsWith_append ht (by simp [hcr]), Bool.eq_iff_iff, ciStartsWith_iff, Header.line,
    List.map_append, List.map_append, List.map_cons, List.map_cons, List.map_nil, hlower, hcolon',
    append_isPrefix_append_cons_iff hcolon (notMem_map_lowerByte (.inr rfl) h.colon_notMem)]
  simp [Header.Is, eq_comm]

theorem drop_line (h : Header) {key : Bytes} (hkey : h.Is key) (t : Bytes) :
    (h.line ++ t).drop (key.length + 1) = h.value ++ t := by
  have hlen : h.name.length = key.length := by
    rw [← hkey, List.length_map]
  simp [Header.line, ← hlen]

theorem strtoull_announced {value t : Bytes} {n : ℕ} (h : Announces value n) (ht : LineEnd t) :
    strtoull (skipWs (value ++ t)) = min n (2 ^ 64 - 1) := by
  obtain ⟨lead, digits, trail, rfl, hlead, hne, hdigits, htrail, rfl⟩ := h
  rw [skipWs_append ht, List.append_assoc, skipWs_lead_append hlead]
  obtain ⟨d, ds, rfl⟩ := List.exists_cons_of_ne_nil hne
  have hd := hdigits d (by simp)
  have hskip : skipWs (d :: ds ++ trail) = d :: ds ++ trail := by
    have hblank : ¬ (d == 0x20 || d == 0x09) = true := by
      revert hd
      generalize d = b
      revert b
      decide +kernel
    exact List.dropWhile_cons_of_neg hblank
  rw [hskip, List.append_assoc]
  apply strtoull_digits_append (by simp) hdigits
  intro b hb
  cases trail with
  | cons e trail =>
      obtain rfl : e = b := by simpa using hb
      cases htrail e (by simp) with
      | inl h => subst h; decide
      | inr h => subst h; decide
  | nil =>
      rcases ht with rfl | ⟨u, rfl⟩
      · simp at hb
      · obtain rfl : 0x0d = b := by simpa using hb
        decide

/-! ## Header lines -/

private theorem keys_plain : ∀ key ∈ [contentLengthKey, contentEncodingKey, connectionKey],
    key.map lowerByte = key ∧ (0x3a : Byte) ∉ key ∧ (0x0d : Byte) ∉ key := by
  decide +kernel

/-- What one header line leaves in the connection. A number may go on behind the line. -/
theorem parseHeader_line (h : Header) {t : Bytes} (ht : LineEnd t) (c : Conn) :
    parseHeader (h.line ++ t) c =
      { c with
        contentLength :=
          if h.Is contentLengthKey then strtoull (skipWs (h.value ++ t)) else c.contentLength
        gzip := c.gzip || decide h.Compressed
        keepAlive := c.keepAlive && !decide h.Closing } := by
  have hkey : ∀ key ∈ [contentLengthKey, contentEncodingKey, connectionKey],
      ciStartsWith (h.line ++ t) (key ++ [0x3a]) = decide (h.Is key) := by
    intro key hmem
    obtain ⟨hlower, hcolon, hcr⟩ := keys_plain key hmem
    exact ciStartsWith_line h ht hlower hcolon hcr
  have hvalue : ∀ key : Bytes, (0x0d : Byte) ∉ key →
      ciStartsWith (skipWs (h.value ++ t)) key = ciStartsWith (skipWs h.value) key := by
    intro key hcr
    rw [skipWs_append ht, ciStartsWith_append ht hcr]
  have hlengthLit : bytes "content-length:" = contentLengthKey ++ [0x3a] := by decide +kernel
  have hencodingLit : bytes "content-encoding:" = contentEncodingKey ++ [0x3a] := by
    decide +kernel
  have hconnectionLit : bytes "connection:" = connectionKey ++ [0x3a] := by decide +kernel
  rw [parseHeader, hlengthLit, hencodingLit, hconnectionLit, hkey _ (by simp), hkey _ (by simp),
    hkey _ (by simp)]
  have hlens : contentLengthKey.length = 14 ∧ contentEncodingKey.length = 16 ∧
      connectionKey.length = 10 := by decide +kernel
  have hdistinct : ∀ {key key' : Bytes}, h.Is key → h.Is key' → key.length = key'.length := by
    intro key key' hk hk'
    rw [← hk, ← hk']
  by_cases h1 : h.Is contentLengthKey
  · have h2 : ¬ h.Is contentEncodingKey := fun h2 => by
      have := hdistinct h1 h2
      omega
    have h3 : ¬ h.Is connectionKey := fun h3 => by
      have := hdistinct h1 h3
      omega
    have hdrop := drop_line h h1 t
    rw [hlens.1] at hdrop
    simp [h1, h2, h3, hdrop, Header.Compressed, Header.Closing]
  · by_cases h2 : h.Is contentEncodingKey
    · have h3 : ¬ h.Is connectionKey := fun h3 => by
        have := hdistinct h2 h3
        omega
      have hdrop := drop_line h h2 t
      rw [hlens.2.1] at hdrop
      by_cases hz : (ciStartsWith (skipWs h.value) (bytes "gzip") ||
          ciStartsWith (skipWs h.value) (bytes "deflate")) = true <;>
        simp [h1, h2, h3, hdrop, hvalue (bytes "gzip") (by decide +kernel),
          hvalue (bytes "deflate") (by decide +kernel), Bool.or_eq_true _ _ ▸ hz,
          Header.Compressed, Header.Closing]
    · by_cases h3 : h.Is connectionKey
      · have hdrop := drop_line h h3 t
        rw [hlens.2.2] at hdrop
        by_cases hz : ciStartsWith (skipWs h.value) (bytes "close") = true <;>
          simp [h1, h2, h3, hdrop, hvalue (bytes "close") (by decide +kernel), hz,
            Header.Compressed, Header.Closing]
      · simp [h1, h2, h3, Header.Compressed, Header.Closing]

/-! ## The loop over the header lines -/

theorem headerTail_oneLines (headers : List Header) : (0 : Byte) ∉ headerTail headers := by
  intro h0
  obtain ⟨h, _, hmem⟩ := List.mem_flatMap.mp h0
  cases List.mem_append.mp hmem with
  | inl hcrlf => simp [CRLF] at hcrlf
  | inr hline => exact (h.line_oneLine 0 hline).1 rfl

theorem cstr_line_append {l : Bytes} (hl : OneLine l) (headers : List Header) :
    cstr (l ++ headerTail headers) = l ++ headerTail headers := by
  apply cstr_of_nulFree
  intro h0
  cases List.mem_append.mp h0 with
  | inl h => exact (hl 0 h).1 rfl
  | inr h => exact headerTail_oneLines headers h

theorem findEol_line_append {l : Bytes} (hl : OneLine l) (headers : List Header) :
    findEol (l ++ headerTail headers) = if headers = [] then none else some l.length := by
  have hpat : ∀ (b : Byte) s, b ≠ 0x0d → b ≠ 0x0a → ¬ CRLF <+: b :: s := by
    intro b s hcr _
    simp [CRLF, hcr.symm]
  rw [findEol, strstr, cstr_line_append hl, find_line_append hl hpat]
  cases headers with
  | nil =>
      have hlf : strchr l 0x0a = none := by
        rw [strchr, hl.cstr_eq, List.findIdx?_eq_none_iff]
        intro b hb
        simpa using (hl b hb).2.2
      simp [headerTail, find, CRLF, hlf]
  | cons h headers =>
      have hstart : CRLF <+: headerTail (h :: headers) :=
        ⟨h.line ++ headerTail headers, by simp [headerTail]⟩
      simp [find_of_isPrefix hstart]

theorem skipEol_headerTail_cons (h : Header) (headers : List Header) :
    skipEol (headerTail (h :: headers)) = h.line ++ headerTail headers := by
  obtain ⟨b, t, hbt⟩ := List.exists_cons_of_ne_nil h.line_ne_nil
  obtain ⟨_, hcr, hlf⟩ := h.line_oneLine b (by simp [hbt])
  have hsplit : headerTail (h :: headers) = 0x0d :: 0x0a :: (h.line ++ headerTail headers) := by
    simp [headerTail, CRLF]
  rw [hsplit, hbt]
  simp [skipEol, hcr, hlf]

/-- The number that the lines leave, each read with what follows it. -/
def lengthRead : List Header → ℕ → ℕ
  | [], n => n
  | h :: headers, n =>
      lengthRead headers (if h.Is contentLengthKey then strtoull (skipWs (h.value ++ headerTail headers))
        else n)

/-- The loop collects the content length, the encoding and whether to close from all header
lines. -/
theorem headerLoop_lines {headers : List Header} {h : Header} {fuel : ℕ}
    (hfuel : (h.line ++ headerTail headers).length ≤ fuel) (c : Conn) :
    headerLoop fuel (h.line ++ headerTail headers) c =
      { c with
        contentLength := lengthRead (h :: headers) c.contentLength
        gzip := c.gzip || decide (∃ k ∈ h :: headers, k.Compressed)
        keepAlive := c.keepAlive && !decide (∃ k ∈ h :: headers, k.Closing) } := by
  induction headers generalizing h fuel c with
  | nil =>
      have hpos := List.length_pos_iff.mpr h.line_ne_nil
      obtain ⟨fuel, rfl⟩ : ∃ m, fuel = m + 1 :=
        ⟨fuel - 1, by rw [List.length_append] at hfuel; omega⟩
      rw [headerLoop, if_neg (by simp [h.line_ne_nil]), findEol_line_append h.line_oneLine,
        parseHeader_line h (lineEnd_headerTail _)]
      simp [lengthRead]
  | cons k headers ih =>
      have hpos := List.length_pos_iff.mpr h.line_ne_nil
      obtain ⟨fuel, rfl⟩ : ∃ m, fuel = m + 1 :=
        ⟨fuel - 1, by rw [List.length_append] at hfuel; omega⟩
      have hfuel' : (k.line ++ headerTail headers).length ≤ fuel := by
        simp [headerTail, CRLF] at hfuel ⊢
        omega
      rw [headerLoop, if_neg (by simp [h.line_ne_nil]), findEol_line_append h.line_oneLine,
        parseHeader_line h (lineEnd_headerTail _)]
      simp only [List.cons_ne_nil, if_false, List.drop_left, skipEol_headerTail_cons]
      have hread : lengthRead (h :: k :: headers) c.contentLength = lengthRead (k :: headers)
          (if h.Is contentLengthKey then
            strtoull (skipWs (h.value ++ headerTail (k :: headers)))
          else c.contentLength) := rfl
      rw [ih hfuel', hread]
      have hall (p : Header → Prop) :
          (∃ j ∈ h :: k :: headers, p j) ↔ p h ∨ ∃ j ∈ k :: headers, p j := by
        simp
      simp only [hall Header.Compressed, hall Header.Closing, Bool.decide_or, Bool.or_assoc,
        Bool.not_or, Bool.and_assoc]

/-- Lines that agree on one number leave it. -/
theorem lengthRead_announced {n : ℕ} {headers : List Header}
    (hlength : ∀ k ∈ headers, k.Is contentLengthKey → Announces k.value n) (m : ℕ) :
    lengthRead headers m =
      if ∃ k ∈ headers, k.Is contentLengthKey then min n (2 ^ 64 - 1) else m := by
  induction headers generalizing m with
  | nil => simp [lengthRead]
  | cons h headers ih =>
      rw [lengthRead, ih fun k hk => hlength k (List.mem_cons_of_mem h hk)]
      by_cases hlater : ∃ k ∈ headers, k.Is contentLengthKey
      · rw [if_pos hlater, if_pos (by simpa using .inr hlater)]
      · rw [if_neg hlater]
        by_cases hh : h.Is contentLengthKey
        · rw [if_pos hh, if_pos ⟨h, by simp, hh⟩,
            strtoull_announced (hlength h (by simp) hh) (lineEnd_headerTail _)]
        · have hnone : ¬ ∃ k ∈ h :: headers, k.Is contentLengthKey := by
            rw [List.exists_mem_cons_iff, not_or]
            exact ⟨hh, hlater⟩
          rw [if_neg hh, if_neg hnone]

/-- A request line and header lines. -/
theorem parseRequest_lines {start : Bytes} (hstart : OneLine start) (headers : List Header)
    (sep : ℕ) (c : Conn) {sp1 : ℕ} (hsp1 : strchr start 0x20 = some sp1) :
    parseRequest (start ++ headerTail headers) sep c =
      if 512 ≤ start.length then .malformed
      else if start.take sp1 = bytes "POST" then
        .complete { c with
          path := CStr.copy 128 (cutAt 0x3f (cutAt 0x20 (cstr (start.drop (sp1 + 1)))))
          contentLength := lengthRead headers 0
          gzip := decide (∃ h ∈ headers, h.Compressed)
          keepAlive := !decide (∃ h ∈ headers, h.Closing)
          bodyOffset := (start ++ headerTail headers).length + sep
          headersDone := true }
      else
        .complete { c with
          path := CStr.copy 128 (cutAt 0x3f (cutAt 0x20 (cstr (start.drop (sp1 + 1)))))
          contentLength := 0
          keepAlive := false
          bodyOffset := (start ++ headerTail headers).length + sep
          headersDone := true } := by
  have hlen : (findEol (start ++ headerTail headers)).getD (start ++ headerTail headers).length =
      start.length := by
    rw [findEol_line_append hstart]
    cases headers <;> simp [headerTail]
  rw [parseRequest]
  simp only [hlen, List.take_left, hsp1]
  by_cases hlong : 512 ≤ start.length
  · simp only [if_pos hlong]
  · simp only [if_neg hlong]
    by_cases hpost : start.take sp1 = bytes "POST"
    · simp only [hpost, ne_eq, not_true_eq_false, if_false, if_true]
      rw [findEol_line_append hstart]
      cases headers with
      | nil => simp [lengthRead]
      | cons h headers =>
          have hcstr : cstr (headerTail (h :: headers)) = headerTail (h :: headers) :=
            cstr_of_nulFree (headerTail_oneLines _)
          simp only [List.cons_ne_nil, if_false, List.drop_left, hcstr, skipEol_headerTail_cons]
          rw [headerLoop_lines le_rfl]
          simp only [Bool.false_or, Bool.true_and]
    · simp only [hpost, ne_eq, not_false_eq_true, if_true, if_false]

/-! ## What parsing leaves alone -/

/-- The same connection, with other bytes in a buffer of another size. -/
def Conn.storing (c : Conn) (buf : Bytes) (cap : ℕ) : Conn :=
  { c with buf := buf, cap := cap }

def Parsed.storing (buf : Bytes) (cap : ℕ) : Parsed → Parsed
  | .complete c => .complete (c.storing buf cap)
  | .incomplete => .incomplete
  | .malformed => .malformed

theorem parseHeader_storing (cursor : Bytes) (c : Conn) (buf : Bytes) (cap : ℕ) :
    parseHeader cursor (c.storing buf cap) = (parseHeader cursor c).storing buf cap := by
  unfold parseHeader
  dsimp only
  split_ifs <;> rfl

theorem headerLoop_storing (fuel : ℕ) (cursor : Bytes) (c : Conn) (buf : Bytes) (cap : ℕ) :
    headerLoop fuel cursor (c.storing buf cap) = (headerLoop fuel cursor c).storing buf cap := by
  induction fuel generalizing cursor c with
  | zero => rfl
  | succ fuel ih =>
      rw [headerLoop, headerLoop]
      by_cases hnil : cursor = []
      · rw [if_pos hnil, if_pos hnil]
      · rw [if_neg hnil, if_neg hnil, parseHeader_storing]
        cases findEol cursor with
        | none => rfl
        | some n => exact ih _ _

theorem parseRequest_storing (header : Bytes) (sep : ℕ) (c : Conn) (buf : Bytes) (cap : ℕ) :
    parseRequest header sep (c.storing buf cap) = (parseRequest header sep c).storing buf cap := by
  unfold parseRequest
  dsimp only
  generalize findEol header = lineEnd
  generalize header.take (lineEnd.getD header.length) = line
  split
  · rfl
  · cases strchr line 0x20 with
    | none => rfl
    | some sp1 =>
        dsimp only
        generalize CStr.copy 128 (cutAt 0x3f (cutAt 0x20 (cstr (line.drop (sp1 + 1))))) = path
        split
        · rfl
        · cases lineEnd with
          | none => rfl
          | some n =>
              let start : Conn :=
                { c with path := path, contentLength := 0, gzip := false, keepAlive := true }
              exact congrArg (fun c : Conn => Parsed.complete
                { c with bodyOffset := header.length + sep, headersDone := true })
                (headerLoop_storing _ (skipEol (cstr (header.drop n))) start buf cap)

/-- A parsed connection holds what it held, and its body starts at `offset`. -/
structure ParsedFrom (c c' : Conn) (offset : ℕ) : Prop where
  buf : c'.buf = c.buf
  cap : c'.cap = c.cap
  bodyOffset : c'.bodyOffset = offset
  headersDone : c'.headersDone = true

theorem parseRequest_parsedFrom {header : Bytes} {sep : ℕ} {c c' : Conn}
    (h : parseRequest header sep c = .complete c') : ParsedFrom c c' (header.length + sep) := by
  have hstored : c' = c'.storing c.buf c.cap := by
    have hsame := parseRequest_storing header sep c c.buf c.cap
    have hself : c.storing c.buf c.cap = c := rfl
    rw [hself, h] at hsame
    exact Parsed.complete.inj hsame
  have hfields : c'.bodyOffset = header.length + sep ∧ c'.headersDone = true := by
    unfold parseRequest at h
    dsimp only at h
    split at h
    · cases h
    · split at h
      · cases h
      · split at h <;> exact Parsed.complete.inj h ▸ ⟨rfl, rfl⟩
  refine ⟨?_, ?_, hfields.1, hfields.2⟩
  · rw [hstored]
    rfl
  · rw [hstored]
    rfl

theorem parseRequest_ne_incomplete (header : Bytes) (sep : ℕ) (c : Conn) :
    parseRequest header sep c ≠ .incomplete := by
  unfold parseRequest
  dsimp only
  repeat' split
  all_goals exact Parsed.noConfusion

/-- A connection as it was accepted, but for what its buffer holds. -/
def Conn.holding (buf : Bytes) (cap : ℕ) : Conn :=
  { Conn.accepted with buf := buf, cap := cap }

/-! ## The header block -/

theorem findBlank_sep_le {buf : Bytes} {headerLen sep : ℕ}
    (h : findBlank buf = some (headerLen, sep)) : sep ≤ 4 ∧ headerLen + sep ≤ buf.length := by
  have hfits {pat : Bytes} {i : ℕ} (hne : pat ≠ []) (hfind : find pat buf = some i) :
      i + pat.length ≤ buf.length := by
    obtain ⟨hp, -, -⟩ := find_spec hfind
    have hle := hp.length_le
    have hpos := List.length_pos_iff.mpr hne
    rw [List.length_drop] at hle
    omega
  rw [findBlank] at h
  split at h
  · next i hfind =>
      obtain ⟨rfl, rfl⟩ := Prod.mk.inj (Option.some.inj h)
      exact ⟨le_rfl, hfits (by simp [CRLF]) hfind⟩
  · obtain ⟨i, hfind, hi⟩ := Option.map_eq_some_iff.mp h
    obtain ⟨rfl, rfl⟩ := Prod.mk.inj hi
    exact ⟨by decide, hfits (by simp) hfind⟩

/-- A header block is complete only within its limit. -/
theorem parseHeaders_parsedFrom {c c' : Conn} (h : parseHeaders c = .complete c') :
    ∃ offset ≤ HEADER_MAX + 4, offset ≤ c.buf.length ∧ ParsedFrom c c' offset := by
  rw [parseHeaders] at h
  split at h
  · split at h <;> cases h
  · next headerLen sep hblank =>
      split at h
      · cases h
      · next hmax =>
          obtain ⟨hsep, hfits⟩ := findBlank_sep_le hblank
          have hlen : (c.buf.take headerLen).length ≤ headerLen := List.length_take_le _ _
          exact ⟨_, by omega, by omega, parseRequest_parsedFrom h⟩

/-- The bytes start with a header block that is read as `c`. -/
def ReadsHead (p : Bytes) (c : Conn) : Prop :=
  parseHeaders (.holding p 0) = .complete c

theorem ReadsHead.parsedFrom {p : Bytes} {c : Conn} (h : ReadsHead p c) :
    c.bodyOffset ≤ HEADER_MAX + 4 ∧ c.bodyOffset ≤ p.length ∧ c.headersDone = true := by
  obtain ⟨offset, hmax, hlen, hfrom⟩ := parseHeaders_parsedFrom h
  rw [hfrom.bodyOffset]
  exact ⟨hmax, hlen, hfrom.headersDone⟩

namespace RequestHead

variable (r : RequestHead)

def IsPost : Prop :=
  r.method = bytes "POST"

instance : Decidable r.IsPost :=
  inferInstanceAs (Decidable (_ = _))

/-- The length of the body that the server waits for. -/
def awaited : ℕ :=
  if r.IsPost then min r.contentLength (2 ^ 64 - 1) else 0

/-- The connection once the header block of `r` is parsed. -/
def parsed (c : Conn) : Conn :=
  { c with
    path := CStr.copy 128 r.path
    contentLength := r.awaited
    gzip := if r.IsPost then decide r.Compressed else c.gzip
    keepAlive := decide (r.IsPost ∧ ¬ r.Closing)
    bodyOffset := r.encode.length
    headersDone := true }

theorem cstr_header : cstr r.header = r.header :=
  cstr_line_append r.startLine_oneLine r.headers

theorem length_header_add : r.header.length + 4 = r.encode.length := by
  simp [encode, CRLF]

theorem strchr_startLine : strchr r.startLine 0x20 = some r.method.length := by
  have hfind : (r.method ++ 0x20 :: (r.target ++ 0x20 :: r.version)).findIdx? (· == 0x20) =
      some r.method.length := by
    rw [List.findIdx?_append]
    have hnone : r.method.findIdx? (· == 0x20) = none := by
      rw [List.findIdx?_eq_none_iff]
      intro b hb
      have : b ≠ 0x20 := fun h => r.space_notMem_method (h ▸ hb)
      simpa using this
    simp [hnone, List.findIdx?_cons]
  rw [strchr, r.startLine_oneLine.cstr_eq, startLine]
  simpa using hfind

theorem cutAt_target :
    cutAt 0x3f (cutAt 0x20 (cstr (r.startLine.drop (r.method.length + 1)))) = r.path := by
  have hrest : r.startLine.drop (r.method.length + 1) = r.target ++ 0x20 :: r.version := by
    rw [startLine, List.append_assoc, ← List.drop_drop, List.drop_left]
    simp
  have hline : OneLine (r.target ++ 0x20 :: r.version) := by
    rw [← hrest]
    exact fun b hb => r.startLine_oneLine b (List.mem_of_mem_drop hb)
  have htarget : cutAt 0x20 (r.target ++ 0x20 :: r.version) = r.target := by
    rw [cutAt, List.takeWhile_append_of_pos]
    · simp
    · intro b hb
      have : b ≠ 0x20 := fun h => r.space_notMem_target (h ▸ hb)
      simpa using this
  rw [hrest, hline.cstr_eq, htarget, path]

/-- The number that the lines of a head agree on. -/
theorem lengthRead_headers : lengthRead r.headers 0 = min r.contentLength (2 ^ 64 - 1) := by
  rw [lengthRead_announced r.announced]
  split
  · rfl
  · next hnot =>
      have h0 : r.contentLength = 0 := by
        apply r.unannounced
        intro k hk hkey
        exact hnot ⟨k, hk, hkey⟩
      rw [h0, Nat.zero_min]

theorem parseRequest_of_overlong (h : 512 ≤ r.startLine.length) (sep : ℕ) (c : Conn) :
    parseRequest r.header sep c = .malformed := by
  rw [header, parseRequest_lines r.startLine_oneLine _ _ _ r.strchr_startLine, if_pos h]

theorem parseRequest_header (h : r.startLine.length < 512) (c : Conn) :
    parseRequest r.header 4 c = .complete (r.parsed c) := by
  have hmethod : r.startLine.take r.method.length = r.method := by
    rw [startLine, List.append_assoc, List.take_left]
  have hencode : (r.startLine ++ headerTail r.headers).length + 4 = r.encode.length :=
    r.length_header_add
  rw [header, parseRequest_lines r.startLine_oneLine _ _ _ r.strchr_startLine, if_neg h.not_ge,
    hmethod, cutAt_target, hencode, lengthRead_headers]
  by_cases hpost : r.IsPost
  · have hpost' : r.method = bytes "POST" := hpost
    rw [if_pos hpost']
    simp only [parsed, awaited, hpost, if_true, true_and, decide_not]
    rfl
  · have hpost' : ¬ r.method = bytes "POST" := hpost
    rw [if_neg hpost']
    simp [parsed, awaited, hpost]

/-- A buffer that starts with the whole header block is parsed completely, or given up. -/
theorem parseHeaders_of_isPrefix {c : Conn} (h : r.encode <+: c.buf) :
    (r.WithinLimits ∧ parseHeaders c = .complete (r.parsed c)) ∨
      (¬ r.WithinLimits ∧ parseHeaders c = .malformed) := by
  have hparse : parseHeaders c =
      if HEADER_MAX < r.header.length then .malformed else parseRequest r.header 4 c := by
    obtain ⟨rest, hrest⟩ := h
    have htake : c.buf.take r.header.length = r.header := by
      rw [← hrest, encode, List.append_assoc, List.take_left]
    rw [parseHeaders, ← hrest, findBlank_encode_append]
    simp only [hrest, htake]
  by_cases hmax : r.header.length ≤ HEADER_MAX
  · rw [if_neg hmax.not_gt] at hparse
    by_cases hstart : r.startLine.length < 512
    · exact .inl ⟨⟨hstart, hmax⟩, hparse.trans (r.parseRequest_header hstart c)⟩
    · exact .inr ⟨fun h => hstart h.1,
        hparse.trans (r.parseRequest_of_overlong (not_lt.mp hstart) 4 c)⟩
  · rw [if_pos (not_le.mp hmax)] at hparse
    exact .inr ⟨fun h => hmax h.2, hparse⟩

/-- A buffer that ends within the header block waits for more or is given up. -/
theorem parseHeaders_of_length_lt {c : Conn} (h : c.buf <+: r.encode)
    (hlen : c.buf.length < r.encode.length) :
    parseHeaders c = if HEADER_MAX < c.buf.length then .malformed else .incomplete := by
  rw [parseHeaders, r.findBlank_of_isPrefix h hlen]

/-- What the parser makes of a buffer that `r` is in front of. -/
inductive Reads (c : Conn) : Parsed → Prop where
  | whole (hstarts : r.encode <+: c.buf) (hlimits : r.WithinLimits) :
      Reads c (.complete (r.parsed c))
  | refused (hlimits : ¬ r.WithinLimits) : Reads c .malformed
  | givenUp (hshort : c.buf.length < r.encode.length) (hlong : HEADER_MAX < c.buf.length) :
      Reads c .malformed
  | unfinished (hshort : c.buf.length < r.encode.length) : Reads c .incomplete

theorem reads_parseHeaders {c : Conn} {rest : Bytes} (h : c.buf <+: r.encode ++ rest) :
    r.Reads c (parseHeaders c) := by
  by_cases hwhole : r.encode.length ≤ c.buf.length
  · have hstarts : r.encode <+: c.buf :=
      List.prefix_of_prefix_length_le (List.prefix_append _ _) h hwhole
    rcases r.parseHeaders_of_isPrefix hstarts with ⟨hlimits, hparse⟩ | ⟨hlimits, hparse⟩
    · rw [hparse]
      exact .whole hstarts hlimits
    · rw [hparse]
      exact .refused hlimits
  · have hshort : c.buf.length < r.encode.length := not_le.mp hwhole
    have hpart : c.buf <+: r.encode :=
      List.prefix_of_prefix_length_le h (List.prefix_append _ _) hshort.le
    rw [r.parseHeaders_of_length_lt hpart hshort]
    by_cases hlong : HEADER_MAX < c.buf.length
    · rw [if_pos hlong]
      exact .givenUp hshort hlong
    · rw [if_neg hlong]
      exact .unfinished hshort

end RequestHead

namespace PostRequest

variable (r : PostRequest)

/-- The connection once the header block of `r` is parsed. -/
def parsed (c : Conn) : Conn :=
  { c with
    path := CStr.copy 128 r.path
    contentLength := r.body.length
    gzip := decide r.Compressed
    keepAlive := true
    bodyOffset := r.head.length
    headersDone := true }

theorem parsed_toHead (hbody : r.body.length < 2 ^ 64) (c : Conn) :
    r.toHead.parsed c = r.parsed c := by
  have hpost : r.toHead.IsPost := rfl
  have hopen : ¬ r.toHead.Closing := by
    rintro ⟨h, hmem, hkey, hclose⟩
    rw [r.keepAlive h hmem hkey] at hclose
    cases hclose
  have hlength : min r.toHead.contentLength (2 ^ 64 - 1) = r.body.length :=
    Nat.min_eq_left (Nat.le_sub_one_of_lt hbody)
  simp only [RequestHead.parsed, RequestHead.awaited, hpost, if_true, hlength, hopen,
    not_false_eq_true, and_self, decide_true, encode_toHead, parsed]
  rfl

/-- A buffer that starts with the whole header block is parsed completely. -/
theorem parseHeaders_of_isPrefix (hbody : r.body.length < 2 ^ 64) {c : Conn}
    (h : r.head <+: c.buf) : parseHeaders c = .complete (r.parsed c) := by
  rw [← r.parsed_toHead hbody]
  cases r.toHead.parseHeaders_of_isPrefix h with
  | inl h => exact h.2
  | inr h => exact absurd ⟨r.startLine_lt, r.header_le⟩ h.1

end PostRequest

end ProcWatch

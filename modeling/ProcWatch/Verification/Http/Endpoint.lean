import ProcWatch.Model.OtlpForward

/-! # Endpoint URLs -/

namespace ProcWatch

open CLib

/-! ## Texts cut at a mark -/

/-- What follows a mark, with the mark in front. -/
def behindMark (c : Byte) : Option Bytes → Bytes
  | none => []
  | some t => c :: t

section Marks

variable {c : Byte} {a b : Bytes}

theorem findIdx?_unmarked (ha : c ∉ a) : a.findIdx? (· == c) = none := by
  rw [List.findIdx?_eq_none_iff]
  intro x hx
  rw [beq_eq_false_iff_ne]
  exact fun heq => ha (heq ▸ hx)

theorem findIdx?_behindMark (ha : c ∉ a) (r : Option Bytes) :
    (a ++ behindMark c r).findIdx? (· == c) = r.map fun _ => a.length := by
  rw [List.findIdx?_append, findIdx?_unmarked ha]
  cases r with
  | none => rfl
  | some t => simp [behindMark, List.findIdx?_cons]

theorem exists_behindMark (c : Byte) (s : Bytes) : ∃ a r, c ∉ a ∧ s = a ++ behindMark c r := by
  by_cases h : c ∈ s
  · obtain ⟨a, t, hsplit, ha⟩ := List.eq_append_cons_of_mem h
    exact ⟨a, some t, ha, hsplit⟩
  · exact ⟨s, none, h, by simp [behindMark]⟩

/-- There is one way to cut a text at its first mark. -/
theorem behindMark_inj (ha : c ∉ a) (hb : c ∉ b) {r r' : Option Bytes}
    (h : a ++ behindMark c r = b ++ behindMark c r') : a = b ∧ r = r' := by
  have hidx := congrArg (List.findIdx? (· == c)) h
  rw [findIdx?_behindMark ha, findIdx?_behindMark hb] at hidx
  cases r with
  | none =>
      cases r' with
      | none => simpa [behindMark] using h
      | some t' => cases hidx
  | some t =>
      cases r' with
      | none => cases hidx
      | some t' =>
          obtain ⟨hab, ht⟩ := List.append_inj h (by simpa using hidx)
          exact ⟨hab, congrArg some (List.cons_inj_right c |>.mp ht)⟩

end Marks

/-! ## The parts of a URL -/

/-- A text cut at its first colon and slash: the host, what follows the colon, and what follows
the slash. -/
@[ext]
structure UrlText where
  host : Bytes
  port : Option Bytes
  path : Option Bytes
  host_plain : (0x2f : Byte) ∉ host ∧ 0x3a ∉ host
  port_plain : ∀ t ∈ port, (0x2f : Byte) ∉ t

namespace UrlText

variable (t : UrlText)

def authority : Bytes :=
  t.host ++ behindMark 0x3a t.port

def text : Bytes :=
  t.authority ++ behindMark 0x2f t.path

/-- What `atoi` makes of the text behind the colon. -/
def portNumber : Int32 :=
  match t.port with
  | none => 80
  | some digits => atoi (digits ++ behindMark 0x2f t.path)

/-- The path that is asked for. -/
def requested : Bytes :=
  match t.path with
  | none => [0x2f]
  | some rest => 0x2f :: rest

variable {t}

theorem slash_notMem_authority : (0x2f : Byte) ∉ t.authority := by
  rw [authority, List.mem_append]
  intro h
  cases h with
  | inl h => exact t.host_plain.1 h
  | inr h =>
      cases hport : t.port with
      | none => simp [hport, behindMark] at h
      | some digits =>
          rw [hport, behindMark] at h
          cases List.mem_cons.mp h with
          | inl h => cases h
          | inr h => exact t.port_plain digits hport h

/-- Every text has such parts. -/
theorem exists_text (p : Bytes) : ∃ t : UrlText, t.text = p := by
  obtain ⟨authority, path, hauthority, rfl⟩ := exists_behindMark 0x2f p
  obtain ⟨host, port, hhost, rfl⟩ := exists_behindMark 0x3a authority
  refine ⟨⟨host, port, path, ⟨fun h => hauthority (List.mem_append_left _ h), hhost⟩, ?_⟩, rfl⟩
  intro digits hport hmem
  rw [Option.mem_def] at hport
  apply hauthority
  rw [hport]
  exact List.mem_append_right _ (List.mem_cons_of_mem _ hmem)

theorem text_injective : UrlText.text.Injective := by
  intro t t' h
  obtain ⟨hauthority, hpath⟩ := behindMark_inj slash_notMem_authority slash_notMem_authority h
  obtain ⟨hhost, hport⟩ := behindMark_inj t.host_plain.2 t'.host_plain.2 hauthority
  exact UrlText.ext hhost hport hpath

end UrlText

/-! ## Accepted URLs -/

/-- `http://`, a host that fits its buffer, a decimal port if there is a colon, and a path if there
is a slash. -/
def Usable (url host : Bytes) (port : ℕ) (path : Bytes) : Prop :=
  ∃ t : UrlText, url = bytes "http://" ++ t.text ∧ t.host = host ∧ host ≠ [] ∧ host.length < 256 ∧
    (match t.port with
      | none => port = 80
      | some digits => digits ≠ [] ∧ (∀ b ∈ digits, isDigit b = true) ∧ digitsVal digits = port ∧
          1 ≤ port ∧ port ≤ 65535) ∧
    t.requested = path

/-- A URL is accepted exactly if it is usable, with the host, port and path it has, and no payload
is sent elsewhere. -/
def EndpointLaw (url : CString) : Prop :=
  (∀ host (port : ℕ) path,
      (∃ u, parseHttpUrl url = some u ∧ u.host.val = host ∧ u.port.toInt = port ∧
        u.path.val = path) ↔ Usable url.val host port path) ∧
    ∀ body r, otlpForwardPost url body = some r →
      ∃ host port path, Usable url.val host port path ∧ r.host.val = host ∧
        r.portbuf.val = decimal port ∧ r.hdr.val = requestHead path host port body.length ∧
        r.body = body

/-- Where host and port are taken, the port is written in digits alone and the path fits its
buffer. -/
def TakenExactly (url : Bytes) : Prop :=
  ∀ t : UrlText, url = bytes "http://" ++ t.text → t.host ≠ [] → t.host.length < 256 →
    0 < t.portNumber → t.portNumber ≤ 65535 →
      (∀ digits ∈ t.port, (∀ b ∈ digits, isDigit b = true) ∧ digitsVal digits ≤ 65535) ∧
        t.requested.length < 512

/-! ## What the parser stores -/

section Parser

variable {t : UrlText} {url : CString}

theorem nulFree_text (h : url.val = bytes "http://" ++ t.text) : (0 : Byte) ∉ t.text := by
  intro h0
  apply url.nulFree
  rw [h]
  exact List.mem_append_right _ h0

theorem nulFree_host (h : (0 : Byte) ∉ t.text) : (0 : Byte) ∉ t.host :=
  fun h0 => h (List.mem_append_left _ (List.mem_append_left _ h0))

theorem nulFree_requested (h : (0 : Byte) ∉ t.text) : (0 : Byte) ∉ t.requested := by
  rw [UrlText.requested]
  split
  · decide
  · next rest hpath =>
      intro h0
      apply h
      rw [UrlText.text, hpath]
      exact List.mem_append_right _ h0

theorem parseHttpUrl_eq_none (h : ¬ bytes "http://" <+: url.val) : parseHttpUrl url = none := by
  have hscheme : strncmpEq url.val (bytes "http://") 7 = false := by
    rw [strncmpEq, cstr_of_nulFree url.nulFree, cstr_of_nulFree (by decide)]
    refine beq_eq_false_iff_ne.mpr fun heq => h ?_
    have hfull : (bytes "http://").take 7 = bytes "http://" := by decide
    rw [hfull] at heq
    rw [← heq]
    exact List.take_prefix _ _
  rw [parseHttpUrl, hscheme]
  rfl

theorem hostAndPort_text :
    hostAndPort t.text (t.port.map fun _ => t.host.length)
      (t.path.map fun _ => t.authority.length) = (t.host.length, t.portNumber) := by
  rw [UrlText.portNumber]
  cases hport : t.port with
  | none =>
      have hauthority : t.authority = t.host := by
        rw [UrlText.authority, hport, behindMark, List.append_nil]
      cases hpath : t.path with
      | none =>
          have htext : t.text = t.host := by
            rw [UrlText.text, hpath, hauthority, behindMark, List.append_nil]
          rw [Option.map_none, Option.map_none, hostAndPort, htext]
      | some rest => rw [Option.map_none, Option.map_some, hostAndPort, hauthority]
  | some digits =>
      have htext : t.text = (t.host ++ [0x3a]) ++ (digits ++ behindMark 0x2f t.path) := by
        rw [UrlText.text, UrlText.authority, hport, behindMark]
        simp
      have hdrop : t.text.drop (t.host.length + 1) = digits ++ behindMark 0x2f t.path := by
        have hlen : (t.host ++ [(0x3a : Byte)]).length = t.host.length + 1 := by simp
        rw [htext, ← hlen, List.drop_left]
      rw [Option.map_some, hostAndPort, hdrop]

theorem storedPath_text :
    storedPath t.text (t.path.map fun _ => t.authority.length) = CStr.copy 512 t.requested := by
  rw [UrlText.requested]
  cases hpath : t.path with
  | none => rfl
  | some rest =>
      have htext : t.text = t.authority ++ 0x2f :: rest := by rw [UrlText.text, hpath, behindMark]
      have hrest : t.text.drop (t.authority.length + 1) = rest := by
        rw [htext, ← List.drop_drop, List.drop_left, List.drop_one, List.tail_cons]
      rw [Option.map_some, storedPath, hrest]
      split
      · rw [htext, List.drop_left]
      · next h => rw [not_not.mp h]

theorem parseHttpUrl_eq (h : url.val = bytes "http://" ++ t.text) :
    parseHttpUrl url =
      if t.host = [] ∨ 256 ≤ t.host.length then none
      else if t.portNumber ≤ 0 ∨ 65535 < t.portNumber then none
      else some
        { host := CStr.copy 256 t.host, port := t.portNumber, path := CStr.copy 512 t.requested } := by
  have hlen : (bytes "http://").length = 7 := by decide
  have hscheme : strncmpEq url.val (bytes "http://") 7 = true := by
    rw [strncmpEq, cstr_of_nulFree url.nulFree, cstr_of_nulFree (by decide), h, ← hlen,
      List.take_left, List.take_length, beq_self_eq_true]
  have hp : url.val.drop 7 = t.text := by rw [h, ← hlen, List.drop_left]
  have hslash : strchr t.text 0x2f = t.path.map fun _ => t.authority.length := by
    rw [strchr, cstr_of_nulFree (nulFree_text h), UrlText.text,
      findIdx?_behindMark UrlText.slash_notMem_authority]
  have hauthority : t.text.take ((t.path.map fun _ => t.authority.length).getD t.text.length) =
      t.authority := by
    rw [UrlText.text]
    cases t.path with
    | none => simp [behindMark]
    | some rest => simp
  have hcolon : t.authority.findIdx? (· == 0x3a) = t.port.map fun _ => t.host.length := by
    rw [UrlText.authority, findIdx?_behindMark t.host_plain.2]
  have htake : t.text.take t.host.length = t.host := by
    rw [UrlText.text, UrlText.authority, List.append_assoc, List.take_left]
  rw [parseHttpUrl, hscheme]
  simp only [hp, hslash, hauthority, hcolon, hostAndPort_text, storedPath_text, htake,
    Bool.not_true, Bool.false_eq_true, if_false, List.length_eq_zero_iff]

theorem parseHttpUrl_eq_some_iff (h : url.val = bytes "http://" ++ t.text) {u : HttpUrl} :
    parseHttpUrl url = some u ↔
      (t.host ≠ [] ∧ t.host.length < 256 ∧ 0 < t.portNumber ∧ t.portNumber ≤ 65535) ∧
        u = { host := CStr.copy 256 t.host, port := t.portNumber,
              path := CStr.copy 512 t.requested } := by
  rw [parseHttpUrl_eq h]
  split
  · next hhost =>
      simp only [reduceCtorEq, false_iff]
      intro hu
      cases hhost with
      | inl hnil => exact hu.1.1 hnil
      | inr hlong => exact absurd hu.1.2.1 (by omega)
  · next hhost =>
      push Not at hhost
      split
      · next hport =>
          simp only [reduceCtorEq, false_iff]
          intro hu
          cases hport with
          | inl hlow => exact absurd hu.1.2.2.1 (Int32.not_lt.mpr hlow)
          | inr hhigh => exact absurd hu.1.2.2.2 (Int32.not_le.mpr hhigh)
      · next hport =>
          push Not at hport
          rw [Option.some.injEq]
          constructor
          · exact fun hu => ⟨⟨hhost.1, hhost.2, Int32.not_le.mp hport.1, Int32.not_lt.mp hport.2⟩,
              hu.symm⟩
          · exact fun hu => hu.2.symm

theorem exists_parts {u : HttpUrl} (h : parseHttpUrl url = some u) :
    ∃ t : UrlText, url.val = bytes "http://" ++ t.text ∧
      (t.host ≠ [] ∧ t.host.length < 256 ∧ 0 < t.portNumber ∧ t.portNumber ≤ 65535) ∧
      u = { host := CStr.copy 256 t.host, port := t.portNumber,
            path := CStr.copy 512 t.requested } := by
  have hscheme : bytes "http://" <+: url.val := by
    by_contra hscheme
    rw [parseHttpUrl_eq_none hscheme] at h
    cases h
  obtain ⟨p, hp⟩ := hscheme
  obtain ⟨t, rfl⟩ := UrlText.exists_text p
  exact ⟨t, hp.symm, (parseHttpUrl_eq_some_iff hp.symm).mp h⟩

/-! ## Ports -/

/-- Digits up to a slash or the end are read as their value. -/
theorem toInt_atoi {digits : Bytes} (hne : digits ≠ []) (hdigits : ∀ b ∈ digits, isDigit b = true)
    (hlt : digitsVal digits < 2 ^ 31) (r : Option Bytes) :
    (atoi (digits ++ behindMark 0x2f r)).toInt = digitsVal digits := by
  have hstop : ∀ b ∈ (behindMark 0x2f r).head?, isDigit b = false := by
    cases r with
    | none => intro b hb; cases hb
    | some t =>
        intro b hb
        rw [← Option.some.inj hb]
        decide
  have hvalue : min (digitsVal digits : ℤ) (2 ^ 63 - 1) = digitsVal digits := by omega
  rw [atoi, strtol, number_digits_append hne hdigits hstop]
  simp only [signedWord, Bool.false_eq_true, if_false, hvalue]
  rw [Int64.toInt32_ofInt, Int32.toInt_ofInt_of_le (by omega) (by omega)]

theorem atoi_behindMark (r : Option Bytes) : atoi (behindMark 0x2f r) = 0 := by
  have hnone : number (behindMark 0x2f r) = none := by
    cases r with
    | none => decide
    | some t => exact number_eq_none (by decide) (by decide) (by decide) (by decide) t
  rw [atoi, strtol, hnone]
  decide

/-- A port that was taken and is written in digits is the number written. -/
theorem portNumber_of_digits {digits : Bytes} (hport : t.port = some digits)
    (hpos : 0 < t.portNumber) (hdigits : ∀ b ∈ digits, isDigit b = true)
    (hle : digitsVal digits ≤ 65535) :
    digits ≠ [] ∧ t.portNumber.toInt = digitsVal digits := by
  have hnumber : t.portNumber = atoi (digits ++ behindMark 0x2f t.path) := by
    rw [UrlText.portNumber, hport]
  have hne : digits ≠ [] := by
    intro hnil
    rw [hnumber, hnil, List.nil_append, atoi_behindMark] at hpos
    exact Int32.lt_irrefl hpos
  refine ⟨hne, ?_⟩
  rw [hnumber, toInt_atoi hne hdigits (by omega)]

end Parser

/-! ## Exactness -/

section Exact

variable {url : CString}

/-- A URL that is taken exactly is accepted exactly if it is usable. -/
theorem accepted_iff_usable (h : TakenExactly url.val) (host : Bytes) (port : ℕ) (path : Bytes) :
    (∃ u, parseHttpUrl url = some u ∧ u.host.val = host ∧ u.port.toInt = port ∧
      u.path.val = path) ↔ Usable url.val host port path := by
  constructor
  · intro hu
    obtain ⟨u, hparse, rfl, hport, rfl⟩ := hu
    obtain ⟨t, hp, ⟨hne, hlen, hpos, hle⟩, rfl⟩ := exists_parts hparse
    obtain ⟨hdigits, hshort⟩ := h t hp hne hlen hpos hle
    have hnul := nulFree_text hp
    have hhost : (CStr.copy 256 t.host).val = t.host :=
      CStr.copy_val_of_fits (nulFree_host hnul) hlen
    have hpath : (CStr.copy 512 t.requested).val = t.requested :=
      CStr.copy_val_of_fits (nulFree_requested hnul) hshort
    refine ⟨t, hp, hhost.symm, hhost.symm ▸ hne, hhost.symm ▸ hlen, ?_, hpath.symm⟩
    split
    · next hnone =>
        have hnumber : t.portNumber = 80 := by rw [UrlText.portNumber, hnone]
        have h80 : (80 : Int32).toInt = 80 := by decide
        rw [hnumber, h80] at hport
        omega
    · next digits hsome =>
        obtain ⟨hall, hmax⟩ := hdigits digits hsome
        obtain ⟨hdigitsNe, hvalue⟩ := portNumber_of_digits hsome hpos hall hmax
        have hlow := Int32.lt_iff_toInt_lt.mp hpos
        rw [Int32.toInt_zero] at hlow
        dsimp only at hport
        exact ⟨hdigitsNe, hall, by omega, by omega, by omega⟩
  · intro hu
    obtain ⟨t, hp, rfl, hne, hlen, hport, rfl⟩ := hu
    have hvalue : t.portNumber.toInt = port ∧ 1 ≤ port ∧ port ≤ 65535 := by
      rw [UrlText.portNumber]
      split at hport
      · next hnone =>
          rw [hport]
          decide
      · next digits hsome =>
          obtain ⟨hdigitsNe, hall, rfl, hlow, hhigh⟩ := hport
          exact ⟨toInt_atoi hdigitsNe hall (by omega) t.path, hlow, hhigh⟩
    have hmax : (65535 : Int32).toInt = 65535 := by decide
    have hpos : 0 < t.portNumber := by
      rw [Int32.lt_iff_toInt_lt, Int32.toInt_zero]
      omega
    have hle : t.portNumber ≤ 65535 := by
      rw [Int32.le_iff_toInt_le, hmax]
      omega
    have hnul := nulFree_text hp
    have hshort := (h t hp hne hlen hpos hle).2
    refine ⟨_, (parseHttpUrl_eq_some_iff hp).mpr ⟨⟨hne, hlen, hpos, hle⟩, rfl⟩, ?_, hvalue.1, ?_⟩
    · exact CStr.copy_val_of_fits (nulFree_host hnul) hlen
    · exact CStr.copy_val_of_fits (nulFree_requested hnul) hshort

theorem nulFree_decimalInt (n : ℤ) : (0 : Byte) ∉ decimalInt n := by
  intro h0
  cases mem_decimalInt h0 with
  | inl h => cases h
  | inr h => cases h

theorem nulFree_requestHead {path host : Bytes} (hpath : (0 : Byte) ∉ path)
    (hhost : (0 : Byte) ∉ host) (port : ℤ) (bodyLen : ℕ) :
    (0 : Byte) ∉ requestHead path host port bodyLen := by
  have hport := nulFree_decimalInt port
  have hlen : (0 : Byte) ∉ decimal bodyLen := nulFree_decimalInt bodyLen
  rw [requestHead]
  simp only [List.mem_append, hpath, hhost, hport, hlen, or_false, not_or]
  decide

/-- What is sent goes where the parser says. -/
theorem forwarded (body : Bytes) {r : ForwardRequest} (h : otlpForwardPost url body = some r) :
    ∃ u, parseHttpUrl url = some u ∧ r.host = u.host ∧
      r.portbuf.val = decimalInt u.port.toInt ∧
      r.hdr.val = requestHead u.path.val u.host.val u.port.toInt body.length ∧ r.body = body := by
  rw [otlpForwardPost] at h
  split at h
  · cases h
  · split at h
    · cases h
    · next u hparse =>
        dsimp only at h
        split at h
        · cases h
        · next hfits =>
            rw [← Option.some.inj h]
            have hlo := u.port.le_toInt
            have hhi := u.port.toInt_lt
            have hlen : (decimalInt u.port.toInt).length ≤ 10 + 1 :=
              length_decimalInt_le (by decide) (by omega)
            exact ⟨u, hparse, rfl, CStr.copy_val_of_fits (nulFree_decimalInt _) (by omega),
              CStr.copy_val_of_fits (nulFree_requestHead u.path.nulFree u.host.nulFree _ _)
                (by omega), rfl⟩

theorem takenExactly_of_endpointLaw (h : EndpointLaw url) : TakenExactly url.val := by
  intro t hp hne hlen hpos hle
  have hparse := (parseHttpUrl_eq_some_iff hp).mpr ⟨⟨hne, hlen, hpos, hle⟩, rfl⟩
  have hport : ((t.portNumber.toInt.toNat : ℕ) : ℤ) = t.portNumber.toInt := by
    have hlow := Int32.lt_iff_toInt_lt.mp hpos
    rw [Int32.toInt_zero] at hlow
    omega
  obtain ⟨t', hp', -, -, -, hwritten, hrequested⟩ :=
    (h.1 _ _ _).mp ⟨_, hparse, rfl, hport.symm, rfl⟩
  obtain rfl : t = t' := by
    apply UrlText.text_injective
    rw [hp] at hp'
    exact List.append_cancel_left hp'
  constructor
  · intro digits hsome
    rw [hsome] at hwritten
    obtain ⟨-, hall, hvalue, -, hhigh⟩ := hwritten
    exact ⟨hall, hvalue ▸ hhigh⟩
  · rw [hrequested]
    exact (CStr.copy 512 t.requested).length_lt

end Exact

/-- Endpoints are accepted and served as configured exactly if, where host and port are taken, the
port is written in digits alone and the path fits its buffer. -/
theorem endpointLaw_iff (url : CString) : EndpointLaw url ↔ TakenExactly url.val := by
  constructor
  · exact takenExactly_of_endpointLaw
  · intro h
    refine ⟨accepted_iff_usable h, ?_⟩
    intro body r hsent
    obtain ⟨u, hparse, hhost, hport, hhdr, hbody⟩ := forwarded body hsent
    have hvalue : u.port.toInt = (u.port.toInt.toNat : ℕ) := by
      obtain ⟨t, -, ⟨-, -, hpos, -⟩, rfl⟩ := exists_parts hparse
      have hlow := Int32.lt_iff_toInt_lt.mp hpos
      rw [Int32.toInt_zero] at hlow
      dsimp only
      omega
    refine ⟨u.host.val, u.port.toInt.toNat, u.path.val,
      (accepted_iff_usable h _ _ _).mp ⟨u, hparse, rfl, hvalue, rfl⟩, by rw [hhost], ?_, ?_, hbody⟩
    · rw [hport, hvalue]
      rfl
    · rw [hhdr, ← hvalue]

/-- A port with something behind it. -/
def junkPort : UrlText where
  host := bytes "tempo"
  port := some (bytes "80x")
  path := some (bytes "v1/traces")
  host_plain := by decide
  port_plain := by decide

/-- A port that is 80 only modulo `2 ^ 32`. -/
def wrappedPort : UrlText where
  host := bytes "tempo"
  port := some (bytes "4294967376")
  path := some (bytes "v1/traces")
  host_plain := by decide
  port_plain := by decide

theorem not_endpointLaw_junkPort :
    ¬ EndpointLaw (.ofBytes (bytes "http://tempo:80x/v1/traces")) ∧
      ¬ EndpointLaw (.ofBytes (bytes "http://tempo:4294967376/v1/traces")) := by
  constructor
  · intro h
    have htaken := takenExactly_of_endpointLaw h junkPort (by decide) (by decide) (by decide)
      (by decide) (by decide)
    have hdigits := (htaken.1 _ rfl).1
    revert hdigits
    decide +kernel
  · intro h
    have htaken := takenExactly_of_endpointLaw h wrappedPort (by decide) (by decide) (by decide)
      (by decide) (by decide)
    have hvalue := (htaken.1 _ rfl).2
    revert hvalue
    decide

end ProcWatch

import ProcWatch.Library.Numerals

/-! # Flat JSON objects and substring search for a key

A reader that looks for a key by its text alone finds it in an object whose string values
are escaped: no other place of the object reads as that key and a colon.
-/

namespace CLib

/-! ## Objects -/

/-- One member of a flat object; the text of a string is written as it stands. -/
inductive Member where
  | str (key text : Bytes)
  | num (key text : Bytes)
  deriving DecidableEq

namespace Member

def key : Member → Bytes
  | str key _ => key
  | num key _ => key

def value : Member → Bytes
  | str _ text => 0x22 :: text ++ [0x22]
  | num _ text => text

/-- `"key":value`. -/
def render (m : Member) : Bytes :=
  0x22 :: m.key ++ [0x22] ++ 0x3a :: m.value

end Member

/-- `{"k1":v1,"k2":v2,...}`. -/
def object : List Member → Bytes
  | [] => [0x7b, 0x7d]
  | m :: ms => 0x7b :: m.render ++ ms.flatMap (fun m => 0x2c :: m.render) ++ [0x7d]

/-- What follows a member: the remaining members and the closing brace. -/
def memberTail (ms : List Member) : Bytes :=
  ms.flatMap (fun m => 0x2c :: m.render) ++ [0x7d]

theorem memberTail_cons (m : Member) (ms : List Member) :
    memberTail (m :: ms) = 0x2c :: m.render ++ memberTail ms := by
  simp [memberTail]

/-- The tail starts with a comma or the closing brace. -/
theorem memberTail_eq_cons (ms : List Member) :
    ∃ t rest, (t = 0x2c ∨ t = 0x7d) ∧ memberTail ms = t :: rest := by
  cases ms with
  | nil => exact ⟨0x7d, [], Or.inr rfl, rfl⟩
  | cons m ms => exact ⟨0x2c, m.render ++ memberTail ms, Or.inl rfl, by simp [memberTail_cons]⟩

/-- The members up to the one at hand, each with its comma. -/
def memberHead (ms : List Member) : Bytes :=
  ms.flatMap fun m => m.render ++ [0x2c]

theorem object_append_cons (ms₁ : List Member) (m : Member) (ms₂ : List Member) :
    object (ms₁ ++ m :: ms₂) = 0x7b :: memberHead ms₁ ++ (m.render ++ memberTail ms₂) := by
  cases ms₁ with
  | nil => simp [object, memberHead, memberTail]
  | cons m₁ ms₁ =>
      have hswap : ∀ ms : List Member, ms.flatMap (fun m => 0x2c :: m.render) ++ [0x2c] =
          0x2c :: memberHead ms := by
        intro ms
        induction ms with
        | nil => rfl
        | cons m ms ih => simp [memberHead, List.flatMap_cons] at ih ⊢; rw [ih]
      have h := hswap ms₁
      simp only [List.cons_append, object, List.flatMap_append, List.flatMap_cons, memberTail,
        memberHead] at h ⊢
      simp only [List.append_assoc, List.cons_append, List.nil_append] at h ⊢
      rw [← List.singleton_append (l := m.render ++ _), ← List.append_assoc _ [0x2c], h]
      simp

theorem length_object_cons (m : Member) (ms : List Member) :
    (object (m :: ms)).length = ((m :: ms).map fun m => m.render.length + 1).sum + 1 := by
  have htail : ∀ ms : List Member, (ms.flatMap fun m => 0x2c :: m.render).length =
      (ms.map fun m => m.render.length + 1).sum := by
    intro ms
    induction ms with
    | nil => rfl
    | cons m ms ih => simp only [List.flatMap_cons, List.length_append, List.length_cons, ih,
        List.map_cons, List.sum_cons]
  simp only [object, List.length_append, List.length_cons, htail, List.map_cons, List.sum_cons,
    List.length_nil]

/-- Every byte of an object is a byte of a member or punctuation. -/
theorem mem_object {ms : List Member} {b : Byte} (h : b ∈ object ms) :
    b = 0x7b ∨ b = 0x2c ∨ b = 0x7d ∨ ∃ m ∈ ms, b ∈ m.render := by
  cases ms with
  | nil =>
      simp only [object, List.mem_cons, List.not_mem_nil, or_false] at h
      rcases h with rfl | rfl <;> simp
  | cons m ms =>
      simp only [object, List.mem_append, List.mem_cons, List.mem_flatMap, List.not_mem_nil,
        or_false] at h
      rcases h with ((rfl | h) | ⟨m', hm', rfl | h⟩) | rfl
      · simp
      · exact Or.inr (Or.inr (Or.inr ⟨m, by simp, h⟩))
      · simp
      · exact Or.inr (Or.inr (Or.inr ⟨m', by simp [hm'], h⟩))
      · simp

/-! ## Keys -/

/-- A key of letters, digits and underscores. -/
def IsKey (key : Bytes) : Prop :=
  key ≠ [] ∧ ∀ b ∈ key, (isAlnum b || b == 0x5f) = true

instance (key : Bytes) : Decidable (IsKey key) :=
  inferInstanceAs (Decidable (key ≠ [] ∧ ∀ b ∈ key, (isAlnum b || b == 0x5f) = true))

theorem IsKey.not_mem {key : Bytes} (h : IsKey key) {b : Byte}
    (hb : (isAlnum b || b == 0x5f) = false) : b ∉ key := by
  intro hmem
  rw [h.2 b hmem] at hb
  cases hb

/-- The key in quotes, something other than a comma or brace, and a colon. -/
def KeyOcc (key s : Bytes) : Prop :=
  ∃ gap rest, s = 0x22 :: key ++ 0x22 :: (gap ++ 0x3a :: rest) ∧
    ∀ b ∈ gap, b ≠ 0x2c ∧ b ≠ 0x7d

/-- No occurrence of the key starts in `pre`, when `post` follows it. -/
def KeyFree (key : Bytes) : Bytes → Bytes → Prop
  | [], _ => True
  | b :: pre, post => ¬ KeyOcc key (b :: pre ++ post) ∧ KeyFree key pre post

theorem keyFree_append {key a b post : Bytes} :
    KeyFree key (a ++ b) post ↔ KeyFree key a (b ++ post) ∧ KeyFree key b post := by
  induction a with
  | nil => simp [KeyFree]
  | cons c a ih => simp [KeyFree, ih, and_assoc]

theorem not_keyOcc_of_ne {key s : Bytes} {b : Byte} (hb : b ≠ 0x22) : ¬ KeyOcc key (b :: s) := by
  rintro ⟨gap, rest, h, -⟩
  exact hb (List.cons.inj h).1

theorem keyFree_of_noQuote {key pre post : Bytes} (h : (0x22 : Byte) ∉ pre) :
    KeyFree key pre post := by
  induction pre with
  | nil => trivial
  | cons b pre ih =>
      simp only [List.mem_cons, not_or] at h
      exact ⟨not_keyOcc_of_ne (Ne.symm h.1), ih h.2⟩

/-- A pattern that includes an occurrence of the key starts nowhere in text free of it. -/
theorem KeyFree.not_isPrefix {key pre post pat : Bytes} (hfree : KeyFree key pre post)
    (hpat : ∀ s, pat <+: s → KeyOcc key s) :
    ∀ j < pre.length, ¬ pat <+: (pre ++ post).drop j := by
  induction pre with
  | nil => simp
  | cons b pre ih =>
      intro j hj
      cases j with
      | zero => exact fun hp => hfree.1 (hpat _ hp)
      | succ j => exact ih hfree.2 j (by simpa using hj)

/-- A quote that is not followed by a key character starts no occurrence. -/
theorem not_keyOcc_quote {key s : Bytes} (hkey : IsKey key) {b : Byte}
    (hb : (isAlnum b || b == 0x5f) = false) : ¬ KeyOcc key (0x22 :: b :: s) := by
  rintro ⟨gap, rest, h, -⟩
  cases key with
  | nil => exact hkey.1 rfl
  | cons a key =>
      simp only [List.cons_append, List.cons.injEq] at h
      exact hkey.not_mem hb (by simp [h.2.1])

/-- Text in which each quote directly follows a backslash. -/
def QuoteSafe (text : Bytes) : Prop :=
  List.IsChain (fun a b : Byte => b = 0x22 → a = 0x5c) (0x22 :: text)

theorem quoteSafe_of_noQuote {text : Bytes} (h : (0x22 : Byte) ∉ text) : QuoteSafe text := by
  have hchain : ∀ p : Byte, List.IsChain (fun a b : Byte => b = 0x22 → a = 0x5c) (p :: text) := by
    induction text with
    | nil => exact fun p => List.isChain_singleton p
    | cons b text ih =>
        simp only [List.mem_cons, not_or] at h
        exact fun p => List.isChain_cons_cons.mpr ⟨fun hb => absurd hb.symm h.1, ih h.2 b⟩
  exact hchain 0x22

/-- Read from inside such text, a key ends where the text does. -/
theorem eq_of_append_quote_eq {key text x y : Bytes} {p : Byte}
    (hchain : List.IsChain (fun a b : Byte => b = 0x22 → a = 0x5c) (p :: text))
    (hkey : ∀ b ∈ key, b ≠ 0x22 ∧ b ≠ 0x5c) (hp : p ≠ 0x5c)
    (h : key ++ 0x22 :: x = text ++ 0x22 :: y) : key = text ∧ x = y := by
  induction key generalizing text p with
  | nil =>
      cases text with
      | nil => simpa using h
      | cons b text =>
          obtain ⟨rfl, -⟩ := List.cons.inj h
          exact absurd ((List.isChain_cons_cons.mp hchain).1 rfl) hp
  | cons a key ih =>
      cases text with
      | nil =>
          obtain ⟨rfl, -⟩ := List.cons.inj h
          exact absurd rfl (hkey _ (by simp)).1
      | cons b text =>
          obtain ⟨rfl, htail⟩ := List.cons.inj h
          obtain ⟨rfl, hxy⟩ := ih (List.isChain_cons_cons.mp hchain).2
            (fun c hc => hkey c (by simp [hc])) (hkey a (by simp)).2 htail
          exact ⟨rfl, hxy⟩

theorem IsKey.quoteFree {key : Bytes} (h : IsKey key) : ∀ b ∈ key, b ≠ 0x22 ∧ b ≠ 0x5c := by
  intro b hb
  constructor
  · rintro rfl
    exact h.not_mem (by decide) hb
  · rintro rfl
    exact h.not_mem (by decide) hb

/-- A quote inside a string value starts no occurrence: the next unescaped quote ends the
value, and no colon follows that. -/
theorem not_keyOcc_text {key text : Bytes} {t : Byte} (rest : Bytes) (hkey : IsKey key)
    (hsafe : QuoteSafe text) (ht : t = 0x2c ∨ t = 0x7d) :
    ¬ KeyOcc key (0x22 :: text ++ 0x22 :: t :: rest) := by
  rintro ⟨gap, rest', h, hgap⟩
  have hkt := (List.cons.inj h).2.symm
  obtain ⟨-, hxy⟩ := eq_of_append_quote_eq hsafe hkey.quoteFree (by decide) hkt
  cases gap with
  | nil =>
      obtain ⟨rfl, -⟩ := List.cons.inj hxy
      simp at ht
  | cons b gap =>
      obtain ⟨rfl, -⟩ := List.cons.inj hxy
      have hb := hgap b (by simp)
      simp [hb] at ht

theorem keyFree_string {key text rest : Bytes} {t : Byte} (hkey : IsKey key)
    (hsafe : QuoteSafe text) (ht : t = 0x2c ∨ t = 0x7d) :
    KeyFree key (0x22 :: text ++ [0x22]) (t :: rest) := by
  have hinner : ∀ (p : Byte) (text : Bytes),
      List.IsChain (fun a b : Byte => b = 0x22 → a = 0x5c) (p :: text) →
      KeyFree key (text ++ [0x22]) (t :: rest) := by
    intro p text
    induction text generalizing p with
    | nil =>
        intro _
        refine ⟨not_keyOcc_quote hkey ?_, trivial⟩
        rcases ht with rfl | rfl <;> decide
    | cons b text ih =>
        intro hchain
        have htail := (List.isChain_cons_cons.mp hchain).2
        refine ⟨?_, ih b htail⟩
        by_cases hb : b = 0x22
        · subst hb
          simpa using not_keyOcc_text rest hkey htail ht
        · exact not_keyOcc_of_ne hb
  refine ⟨?_, hinner 0x22 text hsafe⟩
  simpa using not_keyOcc_text rest hkey hsafe ht

theorem keyFree_otherKey {key k rest : Bytes} (hkey : IsKey key) (hk : IsKey k) (hne : k ≠ key) :
    KeyFree key (0x22 :: k ++ [0x22]) (0x3a :: rest) := by
  have hnoquote : (0x22 : Byte) ∉ k := hk.not_mem (by decide)
  refine ⟨?_, keyFree_append.mpr ⟨keyFree_of_noQuote hnoquote, ?_⟩⟩
  · rintro ⟨gap, rest', h, -⟩
    have hkk : key ++ 0x22 :: (gap ++ 0x3a :: rest') = k ++ 0x22 :: 0x3a :: rest := by
      simpa using h.symm
    exact hne (eq_of_append_quote_eq (quoteSafe_of_noQuote hnoquote) hkey.quoteFree (by decide) hkk).1.symm
  · exact ⟨not_keyOcc_quote hkey (by decide), trivial⟩

/-! ## Well-formed members -/

/-- An identifier for a key, and a value that cannot be mistaken for one. -/
def Member.WF (m : Member) : Prop :=
  IsKey m.key ∧
    match m with
    | .str _ text => QuoteSafe text
    | .num _ text => (0x22 : Byte) ∉ text

theorem keyFree_render {key rest : Bytes} {m : Member} {t : Byte} (hkey : IsKey key) (hm : m.WF)
    (hne : m.key ≠ key) (ht : t = 0x2c ∨ t = 0x7d) : KeyFree key m.render (t :: rest) := by
  obtain ⟨hk, hvalue⟩ := hm
  refine keyFree_append.mpr ⟨keyFree_otherKey hkey hk hne, not_keyOcc_of_ne (by decide), ?_⟩
  cases m with
  | str k text => exact keyFree_string hkey hvalue ht
  | num k text => exact keyFree_of_noQuote hvalue

/-- Nothing before a member reads as its key, when no earlier member has that key. -/
theorem keyFree_memberHead {key post : Bytes} {ms : List Member} (hkey : IsKey key)
    (hms : ∀ m ∈ ms, m.WF) (hne : ∀ m ∈ ms, m.key ≠ key) :
    KeyFree key (0x7b :: memberHead ms) post := by
  refine ⟨not_keyOcc_of_ne (by decide), ?_⟩
  induction ms with
  | nil => trivial
  | cons m ms ih =>
      have hrest : KeyFree key (memberHead ms) post :=
        ih (fun m hm => hms m (by simp [hm])) (fun m hm => hne m (by simp [hm]))
      have hm : KeyFree key m.render (0x2c :: (memberHead ms ++ post)) :=
        keyFree_render hkey (hms m (by simp)) (hne m (by simp)) (Or.inl rfl)
      rw [memberHead, List.flatMap_cons, keyFree_append, keyFree_append]
      refine ⟨⟨by simpa [memberHead] using hm, not_keyOcc_of_ne (by decide), trivial⟩, hrest⟩

/-- The object as seen by a search for a key that one of its members has. -/
theorem object_split {key : Bytes} {ms : List Member} {m : Member}
    (hms : ∀ m ∈ ms, m.WF) (hnodup : (ms.map Member.key).Nodup) (hm : m ∈ ms) (hk : m.key = key) :
    ∃ pre post t rest, object ms = pre ++ (m.render ++ post) ∧ post = t :: rest ∧
      (t = 0x2c ∨ t = 0x7d) ∧ KeyFree key pre (m.render ++ post) := by
  obtain ⟨ms₁, ms₂, rfl⟩ := List.append_of_mem hm
  obtain ⟨t, rest, ht, htail⟩ := memberTail_eq_cons ms₂
  refine ⟨0x7b :: memberHead ms₁, memberTail ms₂, t, rest, object_append_cons ms₁ m ms₂, htail,
    ht, ?_⟩
  have hkey : IsKey key := hk ▸ (hms m (by simp)).1
  refine keyFree_memberHead hkey (fun m' hm' => hms m' (by simp [hm'])) fun m' hm' heq => ?_
  rw [List.map_append, List.map_cons] at hnodup
  have hdisj := List.disjoint_of_nodup_append hnodup
  exact hdisj (List.mem_map_of_mem hm') (by simp [heq, hk])

/-! ## Scanning -/

/-- Try each position of a C string: `hit` finds a value behind the position, `read` accepts
it or not and updates the output. -/
def scan {β : Type*} (hit : Bytes → Option Bytes) (read : Bytes → β → Bool × β) :
    Bytes → β → Bool × β
  | [], out => (false, out)
  | b :: s, out =>
      if b = 0 then (false, out)
      else
        match hit (b :: s) with
        | none => scan hit read s out
        | some c =>
            let r := read c out
            if r.1 then r else scan hit read s r.2

section Scan

variable {β : Type*} {hit : Bytes → Option Bytes} {read : Bytes → β → Bool × β}

/-- A scan that only stops at occurrences of a key passes over text free of it. -/
theorem scan_append {key pre post : Bytes} {out : β}
    (hhit : ∀ s, ¬ KeyOcc key s → hit s = none) (hfree : KeyFree key pre post)
    (hnul : (0 : Byte) ∉ pre) : scan hit read (pre ++ post) out = scan hit read post out := by
  induction pre with
  | nil => rfl
  | cons b pre ih =>
      simp only [List.mem_cons, not_or] at hnul
      have hnone : hit (b :: (pre ++ post)) = none := hhit _ hfree.1
      rw [List.cons_append, scan, if_neg (Ne.symm hnul.1), hnone]
      exact ih hfree.2 hnul.2

theorem scan_cons_of_accepts {b : Byte} {s c : Bytes} {out v : β} (hb : b ≠ 0)
    (hhit : hit (b :: s) = some c) (hread : read c out = (true, v)) :
    scan hit read (b :: s) out = (true, v) := by
  simp [scan, hb, hhit, hread]

end Scan

end CLib

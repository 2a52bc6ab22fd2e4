import ProcWatch.Model.ProcScan

/-! # Lists of children -/

namespace ProcWatch

open CLib

/-! ## Adding pids one by one -/

theorem mem_addChild {out : List Int32} {tok : Bytes} {q : Int32} :
    q ∈ addChild out tok ↔ q ∈ out ∨ 0 < q ∧ (strtol tok).toInt32 = q := by
  unfold addChild pidListContains
  dsimp only
  split
  · next h =>
      rw [List.mem_append, List.mem_singleton]
      constructor
      · rintro (hq | rfl)
        · exact .inl hq
        · exact .inr ⟨h.1, rfl⟩
      · rintro (hq | ⟨_, rfl⟩)
        · exact .inl hq
        · exact .inr rfl
  · next h =>
      constructor
      · exact .inl
      · rintro (hq | ⟨hpos, rfl⟩)
        · exact hq
        · by_contra hmem
          exact h ⟨hpos, by simpa using hmem⟩

theorem nodup_addChild {out : List Int32} (h : out.Nodup) (tok : Bytes) :
    (addChild out tok).Nodup := by
  unfold addChild pidListContains
  dsimp only
  split
  · next hnew =>
      have hfresh : (strtol tok).toInt32 ∉ out := by simpa using hnew.2
      rw [List.nodup_append]
      refine ⟨h, List.nodup_singleton _, ?_⟩
      intro q hq r hr
      obtain rfl := List.mem_singleton.mp hr
      exact fun heq => hfresh (heq ▸ hq)
  · exact h

theorem mem_foldl_addChild {toks : List Bytes} {out : List Int32} {q : Int32} :
    q ∈ toks.foldl addChild out ↔
      q ∈ out ∨ 0 < q ∧ ∃ tok ∈ toks, (strtol tok).toInt32 = q := by
  induction toks generalizing out with
  | nil => simp
  | cons tok toks ih =>
      rw [List.foldl_cons, ih, mem_addChild, List.exists_mem_cons_iff]
      tauto

theorem nodup_foldl_addChild {toks : List Bytes} {out : List Int32} (h : out.Nodup) :
    (toks.foldl addChild out).Nodup := by
  induction toks generalizing out with
  | nil => exact h
  | cons tok toks ih => exact ih (nodup_addChild h tok)

/-! ## Lists as the kernel prints them -/

/-- The contents of a children file: each pid with a space behind it. -/
def listText (pids : List ℕ) : Bytes :=
  pids.flatMap fun p => decimal p ++ [0x20]

/-- The pids whose digits stand within the first `n` bytes. -/
def whole : ℕ → List ℕ → List ℕ
  | _, [] => []
  | n, p :: pids =>
      if (decimal p).length ≤ n then p :: whole (n - (decimal p).length - 1) pids else []

/-- The pids whose digits do not. -/
def beyond (n : ℕ) (pids : List ℕ) : List ℕ :=
  pids.drop (whole n pids).length

/-- The digits that the limit leaves of a pid. -/
def cutDigits : ℕ → List ℕ → Bytes
  | _, [] => []
  | n, p :: pids =>
      if (decimal p).length ≤ n then cutDigits (n - (decimal p).length - 1) pids
      else (decimal p).take n

/-- The number that these digits form, if there are any. -/
def cutNumber (n : ℕ) (pids : List ℕ) : Option ℕ :=
  if cutDigits n pids = [] then none else some (digitsVal (cutDigits n pids))

theorem digit_listByte : ∀ b : Byte, isDigit b = true → isListSep b = false ∧ b ≠ 0 ∧ b ≠ 0x0a := by
  decide +kernel

theorem mem_listText {pids : List ℕ} {b : Byte} (h : b ∈ listText pids) : b ≠ 0 ∧ b ≠ 0x0a := by
  obtain ⟨p, _, hb⟩ := List.mem_flatMap.mp h
  cases List.mem_append.mp hb with
  | inl hb => exact (digit_listByte b (isDigit_of_mem_decimal hb)).2
  | inr hb =>
      obtain rfl := List.mem_singleton.mp hb
      decide

theorem whole_append_beyond (n : ℕ) (pids : List ℕ) : whole n pids ++ beyond n pids = pids := by
  induction pids generalizing n with
  | nil => rfl
  | cons p pids ih =>
      by_cases hfits : (decimal p).length ≤ n
      · have hrest := ih (n - (decimal p).length - 1)
        rw [beyond] at hrest ⊢
        rw [whole, if_pos hfits, List.length_cons, List.drop_succ_cons, List.cons_append, hrest]
      · rw [beyond, whole, if_neg hfits]
        rfl

theorem isDigit_of_mem_cutDigits {n : ℕ} {pids : List ℕ} {b : Byte} (h : b ∈ cutDigits n pids) :
    isDigit b = true := by
  induction pids generalizing n with
  | nil => cases h
  | cons p pids ih =>
      rw [cutDigits] at h
      split at h
      · exact ih h
      · exact isDigit_of_mem_decimal (List.mem_of_mem_take h)

/-- The tokens in the first `n` bytes. -/
theorem tokens_take_listText (n : ℕ) (pids : List ℕ) :
    tokens isListSep ((listText pids).take n) =
      (whole n pids).map decimal ++
        if cutDigits n pids = [] then [] else [cutDigits n pids] := by
  induction pids generalizing n with
  | nil =>
      rw [listText, List.flatMap_nil, List.take_nil]
      rfl
  | cons p pids ih =>
      have hdigits : ∀ b ∈ decimal p, isListSep b = false :=
        fun b hb => (digit_listByte b (isDigit_of_mem_decimal hb)).1
      have htext : listText (p :: pids) = decimal p ++ 0x20 :: listText pids := by
        simp [listText]
      rw [htext, whole, cutDigits]
      by_cases hfits : (decimal p).length ≤ n
      · rw [if_pos hfits, if_pos hfits, List.take_append, List.take_of_length_le hfits]
        cases hroom : n - (decimal p).length with
        | zero =>
            have hnone := ih (0 - 1)
            rw [Nat.zero_sub, List.take_zero, tokens_nil] at hnone
            rw [List.take_zero, List.append_nil, tokens_of_plain (decimal_ne_nil p) hdigits,
              Nat.zero_sub, List.map_cons, List.cons_append, ← hnone]
        | succ m =>
            rw [List.take_succ_cons, tokens_append_cons isListSep _ _ rfl,
              tokens_of_plain (decimal_ne_nil p) hdigits, ih, Nat.add_sub_cancel, List.map_cons,
              List.cons_append, List.cons_append, List.nil_append]
      · have hshort : n ≤ (decimal p).length := (not_le.mp hfits).le
        rw [if_neg hfits, if_neg hfits, List.take_append_of_le_length hshort, List.map_nil,
          List.nil_append]
        split
        · next hnil => rw [hnil, tokens_nil]
        · next hne => exact tokens_of_plain hne fun b hb => hdigits b (List.mem_of_mem_take hb)

/-! ## Values of tokens -/

theorem digitsVal_append (s t : Bytes) :
    digitsVal s ≤ digitsVal (s ++ t) := by
  induction t using List.reverseRecOn with
  | nil => rw [List.append_nil]
  | append_singleton t b ih =>
      refine ih.trans ?_
      rw [← List.append_assoc]
      simp only [digitsVal, List.foldl_append, List.foldl_cons, List.foldl_nil]
      omega

/-- Digits of a number below `2 ^ 31` are read as that number. -/
theorem toInt_strtol {digits : Bytes} (hne : digits ≠ [])
    (hdigits : ∀ b ∈ digits, isDigit b = true) (hlt : digitsVal digits < 2 ^ 31) :
    (strtol digits).toInt32.toInt = digitsVal digits := by
  have hnumber : number digits = some (false, digitsVal digits, []) := by
    have happend := @number_digits_append digits [] hne hdigits (by simp)
    rwa [List.append_nil] at happend
  have hvalue : min (digitsVal digits : ℤ) (2 ^ 63 - 1) = digitsVal digits := by omega
  rw [strtol, hnumber]
  simp only [signedWord, Bool.false_eq_true, if_false, hvalue]
  rw [Int64.toInt32_ofInt, Int32.toInt_ofInt_of_le (by omega) (by omega)]

/-! ## Task directories -/

/-- A name in a task directory. -/
inductive DirEntry where
  | self
  | parent
  | task (tid : ℕ)

def DirEntry.name : DirEntry → Bytes
  | .self => bytes "."
  | .parent => bytes ".."
  | .task tid => decimal tid

/-- A task directory and the pids in each task's children file, `none` for a file that cannot be
opened. -/
structure TaskDir where
  entries : List DirEntry
  listed : ℕ → Option (List ℕ)
  tid_range : ∀ tid, DirEntry.task tid ∈ entries → 0 < tid ∧ tid < 2 ^ 31
  pid_lt : ∀ tid pids, listed tid = some pids → ∀ p ∈ pids, p < 2 ^ 31

namespace TaskDir

variable (d : TaskDir)

def names : List Bytes :=
  d.entries.map DirEntry.name

def children (tid : Int64) : Option Bytes :=
  (d.listed tid.toInt.toNat).map listText

def fileOf : DirEntry → Option (List ℕ)
  | .task tid => d.listed tid
  | _ => none

/-- The files that are read, in the order of the directory. -/
def files : List (List ℕ) :=
  d.entries.filterMap d.fileOf

/-- `v` occurs as a positive pid in one of the files. -/
def Listed (v : ℕ) : Prop :=
  0 < v ∧ ∃ pids ∈ d.files, v ∈ pids

/-- The result is the set of positive pids in the files, each once. -/
def Exact (out : List Int32) : Prop :=
  out.Nodup ∧ ∀ q : Int32, q ∈ out ↔ ∃ v, d.Listed v ∧ q.toInt = v

/-- The numbers read from a file, of which a buffer gets 4095 bytes. -/
def readFrom (pids : List ℕ) : List ℕ :=
  whole 4095 pids ++ (cutNumber 4095 pids).toList

/-- Each pid that the buffer loses is read elsewhere, and each number that it makes by cutting
a pid is a pid of some file. -/
def Recovered : Prop :=
  ∀ pids ∈ d.files,
    (∀ v ∈ beyond 4095 pids, 0 < v → ∃ pids' ∈ d.files, v ∈ readFrom pids') ∧
      ∀ v ∈ cutNumber 4095 pids, 0 < v → ∃ pids' ∈ d.files, v ∈ pids'

/-! ## What is read -/

theorem cutDigits_value {n v : ℕ} {pids : List ℕ} (h : cutNumber n pids = some v) :
    cutDigits n pids ≠ [] ∧ digitsVal (cutDigits n pids) = v := by
  rw [cutNumber] at h
  split at h
  · cases h
  · next hne => exact ⟨hne, Option.some.inj h⟩

theorem digitsVal_cutDigits_lt {n : ℕ} {pids : List ℕ} (h : ∀ p ∈ pids, p < 2 ^ 31) :
    digitsVal (cutDigits n pids) < 2 ^ 31 := by
  induction pids generalizing n with
  | nil => simp [cutDigits, digitsVal]
  | cons p pids ih =>
      rw [cutDigits]
      split
      · exact ih fun q hq => h q (List.mem_cons_of_mem p hq)
      · have hle := digitsVal_append ((decimal p).take n) ((decimal p).drop n)
        rw [List.take_append_drop, digitsVal_decimal] at hle
        exact hle.trans_lt (h p (by simp))

theorem whole_subset (n : ℕ) (pids : List ℕ) : ∀ p ∈ whole n pids, p ∈ pids := by
  intro p hp
  rw [← whole_append_beyond n pids]
  exact List.mem_append_left _ hp

/-- The tokens of a file stand for the numbers read from it. -/
theorem exists_token_iff {pids : List ℕ} (h : ∀ p ∈ pids, p < 2 ^ 31) {q : Int32} :
    (∃ tok ∈ tokens isListSep ((listText pids).take 4095), (strtol tok).toInt32 = q) ↔
      ∃ v ∈ readFrom pids, q.toInt = v := by
  have hwhole : ∀ p ∈ whole 4095 pids, (strtol (decimal p)).toInt32.toInt = p := by
    intro p hp
    have hvalue := digitsVal_decimal p
    rw [toInt_strtol (decimal_ne_nil p) (fun b => isDigit_of_mem_decimal)
      (hvalue.trans_lt (h p (whole_subset _ _ p hp))), hvalue]
  have hcut : cutDigits 4095 pids ≠ [] → (strtol (cutDigits 4095 pids)).toInt32.toInt =
      digitsVal (cutDigits 4095 pids) := fun hne =>
    toInt_strtol hne (fun b => isDigit_of_mem_cutDigits) (digitsVal_cutDigits_lt h)
  rw [tokens_take_listText, readFrom]
  constructor
  · rintro ⟨tok, htok, rfl⟩
    rcases List.mem_append.mp htok with htok | htok
    · obtain ⟨p, hp, rfl⟩ := List.mem_map.mp htok
      exact ⟨p, List.mem_append_left _ hp, hwhole p hp⟩
    · split at htok
      · cases htok
      · next hne =>
          obtain rfl := List.mem_singleton.mp htok
          refine ⟨digitsVal (cutDigits 4095 pids), List.mem_append_right _ ?_, hcut hne⟩
          simp [cutNumber, hne]
  · rintro ⟨v, hv, hq⟩
    rcases List.mem_append.mp hv with hv | hv
    · refine ⟨decimal v, List.mem_append_left _ (List.mem_map_of_mem hv), ?_⟩
      exact Int32.toInt_inj.mp ((hwhole v hv).trans hq.symm)
    · obtain ⟨hne, hvalue⟩ := cutDigits_value (Option.mem_toList.mp hv)
      refine ⟨cutDigits 4095 pids, List.mem_append_right _ (by simp [hne]), ?_⟩
      exact Int32.toInt_inj.mp ((hcut hne).trans (by rw [hvalue, hq]))

theorem taskId_name {e : DirEntry} (he : e ∈ d.entries) :
    (taskId e.name).bind d.children = (d.fileOf e).map listText := by
  cases e with
  | self => rfl
  | parent => rfl
  | task tid =>
      obtain ⟨hpos, hlt⟩ := d.tid_range tid he
      have hhead : (decimal tid).head? ≠ some 0x2e := by
        intro hdot
        have hmem : (0x2e : Byte) ∈ decimal tid := List.mem_of_mem_head? hdot
        have hdigit := isDigit_of_mem_decimal hmem
        cases hdigit
      have hnumber : number (decimal tid) = some (false, tid, []) := by
        have happend := @number_digits_append (decimal tid) [] (decimal_ne_nil tid)
          (fun b => isDigit_of_mem_decimal) (by simp)
        rwa [List.append_nil, digitsVal_decimal] at happend
      have hvalue : min (tid : ℤ) (2 ^ 63 - 1) = tid := by omega
      have hword : (signedWord false tid).toInt = tid := by
        simp only [signedWord, Bool.false_eq_true, if_false, hvalue]
        exact Int64.toInt_ofInt_of_le (by omega) (by omega)
      have hpositive : 0 < signedWord false tid := by
        rw [Int64.lt_iff_toInt_lt, hword]
        simpa using hpos
      rw [DirEntry.name, taskId, if_neg hhead, hnumber]
      simp only [true_and, if_pos hpositive, Option.bind_some, children, hword, Int.toNat_natCast]
      rfl

theorem fgets_listText (pids : List ℕ) :
    fgets 4096 (listText pids) =
      if listText pids = [] then none else some ((listText pids).take 4095) := by
  have hline : (listText pids).takeWhile (fun b => decide (b ≠ 0x0a)) = listText pids := by
    rw [List.takeWhile_eq_self_iff]
    intro b hb
    simpa using (mem_listText hb).2
  rw [fgets]
  simp only [hline, List.drop_length, List.take_nil, List.append_nil]

theorem cstr_take_listText (n : ℕ) (pids : List ℕ) :
    cstr ((listText pids).take n) = (listText pids).take n :=
  cstr_of_nulFree fun h0 => (mem_listText (List.mem_of_mem_take h0)).1 rfl

/-- One entry adds the numbers of its file. -/
theorem readTask_entry {e : DirEntry} (he : e ∈ d.entries) (st : Bool × List Int32) :
    (readTask d.children st e.name).2 =
      ((d.fileOf e).toList.flatMap fun pids => tokens isListSep ((listText pids).take 4095)).foldl
        addChild st.2 := by
  have hname := d.taskId_name he
  rw [readTask]
  cases htid : taskId e.name with
  | none =>
      rw [htid, Option.bind_none] at hname
      rw [Option.map_eq_none_iff.mp hname.symm]
      rfl
  | some tid =>
      rw [htid, Option.bind_some] at hname
      cases hfile : d.fileOf e with
      | none =>
          rw [hfile, Option.map_none] at hname
          simp only [hname, Option.bind_none]
          rfl
      | some pids =>
          rw [hfile, Option.map_some] at hname
          simp only [hname, Option.bind_some, fgets_listText, Option.toList_some,
            List.flatMap_cons, List.flatMap_nil, List.append_nil]
          by_cases hnil : listText pids = []
          · simp only [hnil, if_true, List.take_nil, tokens_nil, List.foldl_nil]
          · simp only [hnil, if_false, cstr_take_listText]

theorem foldl_readTask {entries : List DirEntry} (hsub : ∀ e ∈ entries, e ∈ d.entries)
    (st : Bool × List Int32) :
    ((entries.map DirEntry.name).foldl (readTask d.children) st).2 =
      ((entries.filterMap d.fileOf).flatMap fun pids =>
        tokens isListSep ((listText pids).take 4095)).foldl addChild st.2 := by
  induction entries generalizing st with
  | nil => rfl
  | cons e entries ih =>
      rw [List.map_cons, List.foldl_cons, ih fun f hf => hsub f (List.mem_cons_of_mem e hf),
        d.readTask_entry (hsub e (by simp)), ← List.foldl_append, ← List.flatMap_append]
      cases hfile : d.fileOf e <;> simp [hfile]

theorem pids_lt {pids : List ℕ} (h : pids ∈ d.files) : ∀ p ∈ pids, p < 2 ^ 31 := by
  obtain ⟨e, _, he⟩ := List.mem_filterMap.mp h
  cases e with
  | self => cases he
  | parent => cases he
  | task tid => exact d.pid_lt tid pids he

/-- The result holds the positive numbers read from the files, each once. -/
theorem readChildrenPids_spec :
    (readChildrenPids (some d.names) d.children []).2.Nodup ∧
      ∀ q : Int32, q ∈ (readChildrenPids (some d.names) d.children []).2 ↔
        ∃ v : ℕ, 0 < v ∧ (∃ pids ∈ d.files, v ∈ readFrom pids) ∧ q.toInt = v := by
  have hout : (readChildrenPids (some d.names) d.children []).2 =
      (d.files.flatMap fun pids => tokens isListSep ((listText pids).take 4095)).foldl
        addChild [] :=
    d.foldl_readTask (fun _ he => he) (false, [])
  rw [hout]
  refine ⟨nodup_foldl_addChild List.nodup_nil, ?_⟩
  intro q
  rw [mem_foldl_addChild]
  simp only [List.not_mem_nil, false_or, List.mem_flatMap]
  constructor
  · rintro ⟨hpos, tok, ⟨pids, hpids, htok⟩, hq⟩
    obtain ⟨v, hv, hval⟩ := (exists_token_iff (d.pids_lt hpids)).mp ⟨tok, htok, hq⟩
    refine ⟨v, ?_, ⟨pids, hpids, hv⟩, hval⟩
    have := Int32.lt_iff_toInt_lt.mp hpos
    rw [hval] at this
    simpa using this
  · rintro ⟨v, hpos, ⟨pids, hpids, hv⟩, hval⟩
    obtain ⟨tok, htok, hq⟩ := (exists_token_iff (d.pids_lt hpids)).mpr ⟨v, hv, hval⟩
    refine ⟨?_, tok, ⟨pids, hpids, htok⟩, hq⟩
    rw [Int32.lt_iff_toInt_lt, hval]
    simpa using hpos

/-- Numbers read are below `2 ^ 31`. -/
theorem readFrom_lt {pids : List ℕ} (h : ∀ p ∈ pids, p < 2 ^ 31) : ∀ v ∈ readFrom pids, v < 2 ^ 31 := by
  intro v hv
  rcases List.mem_append.mp hv with hv | hv
  · exact h v (whole_subset _ _ v hv)
  · obtain ⟨-, hvalue⟩ := cutDigits_value (Option.mem_toList.mp hv)
    rw [← hvalue]
    exact digitsVal_cutDigits_lt h

theorem exact_iff_read :
    d.Exact (readChildrenPids (some d.names) d.children []).2 ↔
      ∀ v : ℕ, 0 < v → ((∃ pids ∈ d.files, v ∈ readFrom pids) ↔ ∃ pids ∈ d.files, v ∈ pids) := by
  obtain ⟨hnodup, hmem⟩ := d.readChildrenPids_spec
  have hword {v : ℕ} (hlt : v < 2 ^ 31) : ∃ q : Int32, q.toInt = v :=
    ⟨Int32.ofInt v, Int32.toInt_ofInt_of_le (by omega) (by omega)⟩
  constructor
  · rintro ⟨-, hexact⟩ v hpos
    constructor
    · rintro ⟨pids, hpids, hv⟩
      obtain ⟨q, hq⟩ := hword (readFrom_lt (d.pids_lt hpids) v hv)
      obtain ⟨w, ⟨_, hw⟩, hqw⟩ := (hexact q).mp ((hmem q).mpr ⟨v, hpos, ⟨pids, hpids, hv⟩, hq⟩)
      obtain rfl : v = w := by omega
      exact hw
    · rintro ⟨pids, hpids, hv⟩
      obtain ⟨q, hq⟩ := hword (d.pids_lt hpids v hv)
      obtain ⟨w, _, hw, hqw⟩ := (hmem q).mp ((hexact q).mpr ⟨v, ⟨hpos, pids, hpids, hv⟩, hq⟩)
      obtain rfl : v = w := by omega
      exact hw
  · intro hsame
    refine ⟨hnodup, fun q => ?_⟩
    rw [hmem]
    constructor
    · rintro ⟨v, hpos, hread, hq⟩
      exact ⟨v, ⟨hpos, (hsame v hpos).mp hread⟩, hq⟩
    · rintro ⟨v, ⟨hpos, hlisted⟩, hq⟩
      exact ⟨v, hpos, (hsame v hpos).mpr hlisted, hq⟩

/-- The children are read exactly if what the line buffer loses or cuts is made up for. -/
theorem exact_iff_recovered :
    d.Exact (readChildrenPids (some d.names) d.children []).2 ↔ d.Recovered := by
  rw [exact_iff_read]
  constructor
  · intro hsame pids hpids
    constructor
    · intro v hv hpos
      apply (hsame v hpos).mpr
      refine ⟨pids, hpids, ?_⟩
      rw [← whole_append_beyond 4095 pids]
      exact List.mem_append_right _ hv
    · intro v hv hpos
      exact (hsame v hpos).mp ⟨pids, hpids, List.mem_append_right _ (Option.mem_toList.mpr hv)⟩
  · intro hrecovered v hpos
    constructor
    · rintro ⟨pids, hpids, hv⟩
      rcases List.mem_append.mp hv with hv | hv
      · exact ⟨pids, hpids, whole_subset _ _ v hv⟩
      · exact (hrecovered pids hpids).2 v (Option.mem_toList.mp hv) hpos
    · rintro ⟨pids, hpids, hv⟩
      rw [← whole_append_beyond 4095 pids] at hv
      rcases List.mem_append.mp hv with hv | hv
      · exact ⟨pids, hpids, List.mem_append_left _ hv⟩
      · exact (hrecovered pids hpids).1 v hv hpos

/-- Files that fit into the buffer are read exactly. -/
theorem recovered_of_short (h : ∀ pids ∈ d.files, (listText pids).length ≤ 4095) :
    d.Recovered := by
  have hall {n : ℕ} {pids : List ℕ} (hn : (listText pids).length ≤ n) :
      whole n pids = pids ∧ cutDigits n pids = [] := by
    induction pids generalizing n with
    | nil => exact ⟨rfl, rfl⟩
    | cons p pids ih =>
        have hlen : (listText (p :: pids)).length =
            (decimal p).length + 1 + (listText pids).length := by
          rw [listText, List.flatMap_cons, List.length_append, List.length_append]
          rfl
        have hfits : (decimal p).length ≤ n := by omega
        obtain ⟨hwhole, hcut⟩ := @ih (n - (decimal p).length - 1) (by omega)
        rw [whole, cutDigits, if_pos hfits, if_pos hfits, hwhole, hcut]
        exact ⟨rfl, rfl⟩
  intro pids hpids
  obtain ⟨hwhole, hcut⟩ := hall (h pids hpids)
  constructor
  · intro v hv
    rw [beyond, hwhole, List.drop_length] at hv
    cases hv
  · intro v hv
    rw [cutNumber, hcut] at hv
    cases hv

end TaskDir

/-- One task with 683 children: the text of the first 682 fills 4092 bytes. -/
def crowdedDir : TaskDir where
  entries := [.self, .parent, .task 7]
  listed := fun _ => some (List.range' 10000 682 ++ [10682])
  tid_range := by
    intro tid h
    simp only [List.mem_cons, DirEntry.task.injEq, List.not_mem_nil, reduceCtorEq, false_or,
      or_false] at h
    omega
  pid_lt := by
    intro tid pids h p hp
    obtain rfl := Option.some.inj h
    rw [List.mem_append, List.mem_range'_1, List.mem_singleton] at hp
    omega

theorem length_decimal_eq {p k : ℕ} (hlo : 10 ^ k ≤ p) (hhi : p < 10 ^ (k + 1)) :
    (decimal p).length = k + 1 := by
  have hle := length_decimal_le (Nat.succ_pos k) hhi
  have hge : ¬ (decimal p).length ≤ k := by
    intro hk
    have hlt := digitsVal_lt fun b hb => isDigit_of_mem_decimal (n := p) hb
    rw [digitsVal_decimal] at hlt
    have := Nat.pow_le_pow_right (show 0 < 10 by decide) hk
    omega
  omega

/-- The cut behind pids of one length. -/
theorem cutDigits_append {w n : ℕ} {xs : List ℕ} (h : ∀ p ∈ xs, (decimal p).length = w)
    (pids : List ℕ) : cutDigits ((w + 1) * xs.length + n) (xs ++ pids) = cutDigits n pids := by
  induction xs with
  | nil => simp
  | cons p xs ih =>
      have hp := h p (by simp)
      have hrest : (w + 1) * (p :: xs).length + n - w - 1 = (w + 1) * xs.length + n := by
        rw [List.length_cons, Nat.mul_succ]
        omega
      have hfits : w ≤ (w + 1) * (p :: xs).length + n := by
        rw [List.length_cons, Nat.mul_succ]
        omega
      rw [List.cons_append, cutDigits, hp, if_pos hfits, hrest,
        ih fun q hq => h q (List.mem_cons_of_mem p hq)]

theorem not_exact_crowdedDir :
    ¬ ∀ d : TaskDir, d.Exact (readChildrenPids (some d.names) d.children []).2 := by
  intro h
  have hwidth : ∀ p ∈ List.range' 10000 682, (decimal p).length = 5 := by
    intro p hp
    rw [List.mem_range'_1] at hp
    exact length_decimal_eq (by omega) (by omega)
  have hcut : cutNumber 4095 (List.range' 10000 682 ++ [10682]) = some 106 := by
    have hdigits := cutDigits_append (n := 3) hwidth [10682]
    have hvalue : cutDigits 3 [10682] = bytes "106" := by decide +kernel
    rw [List.length_range'] at hdigits
    rw [cutNumber, hdigits, hvalue]
    decide +kernel
  have hfiles : crowdedDir.files = [List.range' 10000 682 ++ [10682]] := rfl
  have hlisted := (crowdedDir.exact_iff_read.mp (h crowdedDir) 106 (by decide)).mp
    ⟨List.range' 10000 682 ++ [10682], by rw [hfiles]; exact List.mem_singleton.mpr rfl,
      List.mem_append_right _ (by rw [hcut]; exact List.mem_singleton.mpr rfl)⟩
  obtain ⟨pids, hpids, hmem⟩ := hlisted
  rw [hfiles, List.mem_singleton] at hpids
  rw [hpids, List.mem_append, List.mem_range'_1, List.mem_singleton] at hmem
  omega

end ProcWatch

import ProcWatch.Model.ProcPush
import ProcWatch.Model.ProcScan

/-! # Stat lines as the kernel prints them -/

namespace ProcWatch

open CLib

/-! ## Format -/

def isLetter (b : Byte) : Bool :=
  (0x41 ≤ b && b ≤ 0x5a) || (0x61 ≤ b && b ≤ 0x7a)

/-- The fields of `/proc/<pid>/stat`; those that nobody reads are integers of any size. The size
of an address space is below `2 ^ 63`. -/
structure KernelStat where
  pid : ℕ
  comm : Bytes
  state : Byte
  ppid : UInt64
  pgrp : ℤ
  session : ℤ
  ttyNr : ℤ
  tpgid : ℤ
  flags : ℤ
  minflt : UInt64
  cminflt : ℤ
  majflt : UInt64
  cmajflt : ℤ
  utime : UInt64
  stime : UInt64
  cutime : ℤ
  cstime : ℤ
  priority : Int64
  nice : Int64
  numThreads : Int64
  itrealvalue : ℤ
  starttime : UInt64
  vsize : UInt64
  rss : Int64
  more : List ℤ
  comm_plain : ∀ b ∈ comm, b ≠ 0 ∧ b ≠ 0x0a
  state_letter : isLetter state = true
  vsize_lt : vsize.toNat < 2 ^ 63

namespace KernelStat

variable (k : KernelStat)

/-- Fields 4 to 24. -/
def fields : List ℤ :=
  [k.ppid.toNat, k.pgrp, k.session, k.ttyNr, k.tpgid, k.flags, k.minflt.toNat, k.cminflt,
    k.majflt.toNat, k.cmajflt, k.utime.toNat, k.stime.toNat, k.cutime, k.cstime,
    k.priority.toInt, k.nice.toInt, k.numThreads.toInt, k.itrealvalue, k.starttime.toNat,
    k.vsize.toNat, k.rss.toInt]

/-- The line up to the command. -/
def front : Bytes :=
  decimal k.pid ++ 0x20 :: 0x28 :: k.comm

/-- The line behind the command and its parenthesis. -/
def back : Bytes :=
  0x20 :: k.state :: (fieldsText k.fields ++ fieldsText k.more)

def text : Bytes :=
  k.front ++ 0x29 :: k.back

def file : Bytes :=
  k.text ++ [0x0a]

/-- What the fields say. -/
def stat : ProcStat where
  utime := k.utime
  stime := k.stime
  minflt := k.minflt
  majflt := k.majflt
  priority := k.priority
  nice := k.nice
  numThreads := k.numThreads
  starttime := k.starttime
  vsize := k.vsize
  rss := k.rss
  ppid := k.ppid

end KernelStat

/-! ## The parts of a line -/

theorem mem_fieldsText {values : List ℤ} {b : Byte} (h : b ∈ fieldsText values) :
    b = 0x20 ∨ b = 0x2d ∨ isDigit b = true := by
  obtain ⟨n, _, hn⟩ := List.mem_flatMap.mp h
  cases List.mem_cons.mp hn with
  | inl h => exact .inl h
  | inr h => exact .inr (mem_decimalInt h)

/-- Bytes of the numeric part of a line are none of the delimiters. -/
theorem numeric_ne : ∀ b : Byte, (b = 0x20 ∨ b = 0x2d ∨ isDigit b = true) →
    b ≠ 0 ∧ b ≠ 0x0a ∧ b ≠ 0x28 ∧ b ≠ 0x29 := by
  decide +kernel

theorem isLetter_spec : ∀ b : Byte, isLetter b = true →
    isSpace b = false ∧ isDigit b = false ∧ b ≠ 0x2d ∧ b ≠ 0x2b ∧ b ≠ 0 ∧ b ≠ 0x0a ∧ b ≠ 0x29 := by
  decide +kernel

namespace KernelStat

variable {k : KernelStat}

theorem mem_back {b : Byte} (h : b ∈ k.back) : b ≠ 0 ∧ b ≠ 0x0a ∧ b ≠ 0x29 := by
  obtain ⟨_, _, _, _, h0, hlf, hparen⟩ := isLetter_spec _ k.state_letter
  rw [back, List.mem_cons, List.mem_cons, List.mem_append] at h
  rcases h with rfl | rfl | h | h
  · decide
  · exact ⟨h0, hlf, hparen⟩
  · obtain ⟨h0, hlf, _, hparen⟩ := numeric_ne b (mem_fieldsText h)
    exact ⟨h0, hlf, hparen⟩
  · obtain ⟨h0, hlf, _, hparen⟩ := numeric_ne b (mem_fieldsText h)
    exact ⟨h0, hlf, hparen⟩

theorem mem_decimal_pid {b : Byte} (h : b ∈ decimal k.pid) : b ≠ 0 ∧ b ≠ 0x0a ∧ b ≠ 0x28 := by
  obtain ⟨h0, hlf, hparen, _⟩ := numeric_ne b (.inr (.inr (isDigit_of_mem_decimal h)))
  exact ⟨h0, hlf, hparen⟩

theorem mem_text {b : Byte} (h : b ∈ k.text) : b ≠ 0 ∧ b ≠ 0x0a := by
  rw [text, front, List.append_assoc, List.mem_append, List.mem_append] at h
  rcases h with h | h | h
  · exact ⟨(mem_decimal_pid h).1, (mem_decimal_pid h).2.1⟩
  · rw [List.mem_cons, List.mem_cons] at h
    rcases h with rfl | rfl | h
    · decide
    · decide
    · exact k.comm_plain b h
  · rw [List.mem_cons] at h
    rcases h with rfl | h
    · decide
    · exact ⟨(mem_back h).1, (mem_back h).2.1⟩

/-- What a buffer of 4096 bytes gets of the file: the line, and its end if it fits. -/
theorem take_file (h : k.text.length < 4096) :
    ∃ eol, (eol = [] ∨ eol = [0x0a]) ∧ k.file.take 4095 = k.text ++ eol := by
  refine ⟨[0x0a].take (4095 - k.text.length), ?_, ?_⟩
  · cases 4095 - k.text.length with
    | zero => exact .inl rfl
    | succ n => exact .inr (by simp)
  · rw [file, List.take_append, List.take_of_length_le (by omega)]

variable {eol : Bytes} (heol : eol = [] ∨ eol = [0x0a])

include heol

theorem cstr_line : cstr (k.text ++ eol) = k.text ++ eol := by
  apply cstr_of_nulFree
  intro h0
  cases List.mem_append.mp h0 with
  | inl h => exact (mem_text h).1 rfl
  | inr h =>
      rcases heol with rfl | rfl
      · cases h
      · simp at h

theorem strrchr_line : strrchr (k.text ++ eol) 0x29 = some k.front.length := by
  have hrest : (0x29 : Byte) ∉ k.back ++ eol := by
    intro h
    cases List.mem_append.mp h with
    | inl h => exact (mem_back h).2.2 rfl
    | inr h =>
        rcases heol with rfl | rfl
        · cases h
        · simp at h
  rw [text, List.append_assoc]
  exact strrchr_append k.front hrest

theorem strchr_line : strchr (k.text ++ eol) 0x28 = some ((decimal k.pid).length + 1) := by
  have hnone : (decimal k.pid).findIdx? (· == 0x28) = none := by
    rw [List.findIdx?_eq_none_iff]
    intro b hb
    simpa using (mem_decimal_pid hb).2.2
  rw [strchr, cstr_line heol, text, front, List.append_assoc, List.append_assoc,
    List.findIdx?_append, hnone]
  simp [List.findIdx?_cons, Nat.add_comm]

omit heol

theorem comm_line : ((k.text ++ eol).drop ((decimal k.pid).length + 1 + 1)).take
    (k.front.length - ((decimal k.pid).length + 1) - 1) = k.comm := by
  have hlen : k.front.length - ((decimal k.pid).length + 1) - 1 = k.comm.length := by
    simp only [front, List.length_append, List.length_cons]
    omega
  have hdrop : (k.text ++ eol).drop ((decimal k.pid).length + 1 + 1) =
      k.comm ++ 0x29 :: (k.back ++ eol) := by
    rw [text, front, Nat.add_assoc, List.append_assoc, List.append_assoc, ← List.drop_drop,
      List.drop_left]
    simp
  rw [hlen, hdrop, List.take_left]

theorem rest_line : (k.text ++ eol).drop (k.front.length + 2) =
    k.state :: (fieldsText k.fields ++ (fieldsText k.more ++ eol)) := by
  rw [text, back, List.append_assoc, ← List.drop_drop, List.drop_left]
  simp

theorem lparen_lt : (decimal k.pid).length + 1 < k.front.length := by
  simp only [front, List.length_append, List.length_cons]
  omega

end KernelStat

/-! ## `read_proc_stat` -/

theorem word_unsigned (u : UInt64) : Directive.unsigned.word u.toNat = u := by
  have hpos : decide ((u.toNat : ℤ) < 0) = false := by simp
  rw [Directive.word, hpos, Int.natAbs_natCast, unsignedWord_toNat]
  simp

theorem word_signed (i : Int64) : Directive.signed.word i.toInt = i.toUInt64 := by
  rw [Directive.word, signedWord_toInt]

/-- Below `2 ^ 63` the signed conversion keeps an unsigned number. -/
theorem word_signed_toNat {u : UInt64} (h : u.toNat < 2 ^ 63) :
    Directive.signed.word u.toNat = u := by
  have hint : u.toInt64.toInt = u.toNat := by
    have hbits : u.toInt64.toInt = u.toBitVec.toInt := rfl
    rw [hbits, BitVec.toInt_eq_toNat_cond, UInt64.toNat_toBitVec, if_pos (by omega)]
  rw [← hint, word_signed, UInt64.toUInt64_toInt64]

namespace KernelStat

variable {k : KernelStat}

theorem sscanf_rest {eol : Bytes} (heol : eol = [] ∨ eol = [0x0a]) :
    sscanf statFormat (k.state :: (fieldsText k.fields ++ (fieldsText k.more ++ eol))) =
      k.state.toUInt64 :: List.zipWith Directive.word statNumbers k.fields := by
  have hnumbers : ∀ d ∈ statNumbers, d = .unsigned ∨ d = .signed := by decide
  have hbehind : ∀ b ∈ (fieldsText k.more ++ eol).head?, isDigit b = false := by
    apply head_fieldsText
    intro b hb
    rcases heol with rfl | rfl
    · cases hb
    · obtain rfl : 0x0a = b := by simpa using hb
      decide
  rw [statFormat, sscanf, sscanf_fields hnumbers rfl hbehind]

theorem readProcStat_file (h : k.text.length < 4096) (commSz : ℕ) [NeZero commSz] :
    readProcStat (some k.file) commSz = some (k.stat, CStr.copy commSz k.comm) := by
  obtain ⟨eol, heol, htake⟩ := take_file h
  have hline : (0x0a : Byte) ∉ k.text := fun hlf => (mem_text hlf).2 rfl
  have hfgets : (some k.file).bind (fgets 4096) = some (k.text ++ eol) := by
    rw [Option.bind_some, file, fgets_line hline]
    exact congrArg some htake
  rw [readProcStat, hfgets]
  simp only [cstr_line heol, strrchr_line heol, strchr_line heol, if_neg lparen_lt.not_gt, comm_line,
    rest_line, sscanf_rest heol]
  simp only [statNumbers, fields, List.zipWith_cons_cons, List.zipWith_nil_left, List.length_cons,
    List.length_nil, List.getD_cons_succ, List.getD_cons_zero, word_unsigned, word_signed,
    word_signed_toNat k.vsize_lt, Int64.toInt64_toUInt64]
  rfl

/-- Every stat line is read, with each field from its own position. -/
theorem readProcStat_fields (h : k.text.length < 4096) (commSz : ℕ) [NeZero commSz] :
    ∃ st comm, readProcStat (some k.file) commSz = some (st, comm) ∧
      st.ppid = k.ppid ∧ st.utime = k.utime ∧ st.stime = k.stime ∧ st.priority = k.priority ∧
      st.nice = k.nice ∧ st.numThreads = k.numThreads ∧ st.starttime = k.starttime ∧
      st.vsize = k.vsize ∧ st.rss = k.rss ∧ comm.val = k.comm.take (commSz - 1) := by
  refine ⟨k.stat, CStr.copy commSz k.comm, readProcStat_file h commSz, rfl, rfl, rfl, rfl, rfl,
    rfl, rfl, rfl, rfl, ?_⟩
  rw [CStr.copy_val, cstr_of_nulFree fun h0 => (k.comm_plain 0 h0).1 rfl]

end KernelStat

/-- The command `a) R 1 (b` of a process with a negative nice value. -/
def shellStat : KernelStat where
  pid := 42
  comm := bytes "a) R 1 (b"
  state := 0x53
  ppid := 7
  pgrp := 42
  session := 42
  ttyNr := 0
  tpgid := -1
  flags := 4194560
  minflt := 100
  cminflt := 0
  majflt := 3
  cmajflt := 0
  utime := 250
  stime := 125
  cutime := 0
  cstime := 0
  priority := 15
  nice := -5
  numThreads := 2
  itrealvalue := 0
  starttime := 987654
  vsize := 10485760
  rss := 512
  more := [-1, 0]
  comm_plain := by decide +kernel
  state_letter := by decide +kernel
  vsize_lt := by decide

theorem readProcStat_fields_shellStat : shellStat.text.length < 4096 ∧
    ∃ st comm, readProcStat (some shellStat.file) 64 = some (st, comm) ∧
      st.ppid = 7 ∧ st.utime = 250 ∧ st.stime = 125 ∧ st.priority = 15 ∧ st.nice = -5 ∧
      st.numThreads = 2 ∧ st.starttime = 987654 ∧ st.vsize = 10485760 ∧ st.rss = 512 ∧
      comm.val = (bytes "a) R 1 (b").take 63 :=
  ⟨by decide +kernel, KernelStat.readProcStat_fields (by decide +kernel) 64⟩

/-! ## `parse_stat` -/

namespace KernelStat

variable {k : KernelStat}

/-- The field loop ends at the state letter. -/
theorem statFields_state (n : ℕ) (t : Bytes) : statFields n (k.state :: t) = [] := by
  obtain ⟨hspace, hdigit, hminus, hplus, _⟩ := isLetter_spec _ k.state_letter
  have hblank : ¬ (k.state == 0x20) = true := by
    intro h
    rw [beq_iff_eq.mp h] at hspace
    cases hspace
  cases n with
  | zero => rfl
  | succ n =>
      have hdrop : (k.state :: t).dropWhile (fun b => b == 0x20) = k.state :: t :=
        List.dropWhile_cons_of_neg hblank
      rw [statFields, hdrop, strtoullEnd, number_eq_none hspace hdigit hminus hplus]
      rfl

theorem parseStat_file (h : k.text.length < 4096) (commCap : ℕ) [NeZero commCap] :
    parseStat (some k.file) commCap =
      some { utime := 0, stime := 0, rssPages := 0, threads := 0
             comm := CStr.copy commCap k.comm } := by
  obtain ⟨eol, heol, htake⟩ := take_file h
  have hread : readFile (some k.file) 4096 = some (k.text ++ eol) := by
    have hne : k.text ++ eol ≠ [] := by simp [text]
    rw [readFile, htake, if_neg hne]
  rw [parseStat, hread]
  simp only [cstr_line heol, strrchr_line heol, strchr_line heol, if_neg lparen_lt.not_ge, comm_line,
    rest_line, statFields_state]
  rfl

/-- Both parsers succeed with the same values, and commands that agree up to the buffers. -/
def ParsersAgree (k : KernelStat) (commSz commCap : ℕ) [NeZero commSz] [NeZero commCap] : Prop :=
  ∃ st comm sample, readProcStat (some k.file) commSz = some (st, comm) ∧
    parseStat (some k.file) commCap = some sample ∧
    sample.utime = st.utime ∧ sample.stime = st.stime ∧ sample.threads = st.numThreads ∧
    sample.rssPages = st.rss ∧
    sample.comm.val.take (commSz - 1) = comm.val.take (commCap - 1)

/-- The parsers agree only on a process without times, threads and pages. -/
theorem parsersAgree_iff (h : k.text.length < 4096) (commSz commCap : ℕ) [NeZero commSz]
    [NeZero commCap] :
    k.ParsersAgree commSz commCap ↔
      k.utime = 0 ∧ k.stime = 0 ∧ k.numThreads = 0 ∧ k.rss = 0 := by
  rw [ParsersAgree, readProcStat_file h, parseStat_file h]
  constructor
  · rintro ⟨st, comm, sample, hst, hsample, hutime, hstime, hthreads, hrss, -⟩
    obtain ⟨rfl, -⟩ := Prod.mk.inj (Option.some.inj hst)
    obtain rfl := Option.some.inj hsample
    exact ⟨hutime.symm, hstime.symm, hthreads.symm, hrss.symm⟩
  · rintro ⟨hutime, hstime, hthreads, hrss⟩
    refine ⟨_, _, _, rfl, rfl, hutime.symm, hstime.symm, hthreads.symm, hrss.symm, ?_⟩
    rw [CStr.copy_val, CStr.copy_val, List.take_take, List.take_take, Nat.min_comm]

end KernelStat

theorem parsersAgree_iff_shellStat : shellStat.text.length < 4096 ∧
    (shellStat.ParsersAgree 64 64 ↔ shellStat.utime = 0 ∧ shellStat.stime = 0 ∧
      shellStat.numThreads = 0 ∧ shellStat.rss = 0) :=
  ⟨by decide +kernel, KernelStat.parsersAgree_iff (by decide +kernel) 64 64⟩

theorem not_parsersAgree_shellStat :
    ¬ ∀ k : KernelStat, k.text.length < 4096 → k.ParsersAgree 64 64 := by
  intro h
  obtain ⟨st, comm, sample, hst, hsample, hutime, _⟩ := h shellStat (by decide +kernel)
  rw [KernelStat.readProcStat_file (by decide +kernel)] at hst
  rw [KernelStat.parseStat_file (by decide +kernel)] at hsample
  obtain ⟨rfl, -⟩ := Prod.mk.inj (Option.some.inj hst)
  obtain rfl := Option.some.inj hsample
  cases hutime

end ProcWatch

import ProcWatch.Model.ProcPush
import ProcWatch.Model.ProcScan

/-! # The CPU total of both samplers -/

namespace ProcWatch

open CLib

/-! ## Format -/

/-- The first line of `/proc/stat`; `user` and `nice` include the guest times. -/
structure KernelCpu where
  user : UInt64
  nice : UInt64
  system : UInt64
  idle : UInt64
  iowait : UInt64
  irq : UInt64
  softirq : UInt64
  steal : UInt64
  guest : UInt64
  guestNice : UInt64

namespace KernelCpu

variable (k : KernelCpu)

def values : List UInt64 :=
  [k.user, k.nice, k.system, k.idle, k.iowait, k.irq, k.softirq, k.steal, k.guest, k.guestNice]

end KernelCpu

/-- Words as the kernel prints them. -/
def wordsText (words : List UInt64) : Bytes :=
  fieldsText (words.map fun w => (w.toNat : ℤ))

def KernelCpu.text (k : KernelCpu) : Bytes :=
  bytes "cpu " ++ wordsText k.values

/-- `/proc/stat`, with any lines behind the first. -/
def KernelCpu.file (k : KernelCpu) (rest : Bytes) : Bytes :=
  k.text ++ 0x0a :: rest

/-! ## Words and their text -/

theorem wordsText_cons (w : UInt64) (words : List UInt64) :
    wordsText (w :: words) = 0x20 :: (decimal w.toNat ++ wordsText words) := rfl

theorem digit_plain : ∀ b : Byte, isDigit b = true → isDelim b = false ∧ b ≠ 0 ∧ b ≠ 0x0a := by
  decide +kernel

theorem mem_wordsText {words : List UInt64} {b : Byte} (h : b ∈ wordsText words) :
    b ≠ 0 ∧ b ≠ 0x0a := by
  induction words with
  | nil => cases h
  | cons w words ih =>
      rw [wordsText_cons, List.mem_cons, List.mem_append] at h
      rcases h with rfl | h | h
      · decide
      · exact (digit_plain b (isDigit_of_mem_decimal h)).2
      · exact ih h

theorem length_wordsText (words : List UInt64) :
    (wordsText words).length ≤ 21 * words.length := by
  induction words with
  | nil => simp [wordsText, fieldsText]
  | cons w words ih =>
      have hw : (decimal w.toNat).length ≤ 20 := by
        apply length_decimal_le (by decide)
        have := w.toNat_lt
        omega
      rw [wordsText_cons]
      simp only [List.length_cons, List.length_append]
      omega

theorem head_wordsText (words : List UInt64) {t : Bytes} (ht : ∀ b ∈ t.head?, isDigit b = false) :
    ∀ b ∈ (wordsText words ++ t).head?, isDigit b = false :=
  head_fieldsText _ ht

/-! ## Summing what `strtoull` reads one after the other -/

theorem strtoullEnd_words (w : UInt64) (words : List UInt64) {t : Bytes}
    (ht : ∀ b ∈ t.head?, isDigit b = false) :
    strtoullEnd (wordsText (w :: words) ++ t) = some (w, wordsText words ++ t) := by
  have hspace : ∀ b ∈ [(0x20 : Byte)], isSpace b = true := by simp [isSpace]
  have hnumber : number (wordsText (w :: words) ++ t) =
      some (false, digitsVal (decimal w.toNat), wordsText words ++ t) := by
    rw [wordsText_cons, ← List.singleton_append, List.append_assoc,
      number_spaces_append hspace, List.append_assoc]
    exact number_digits_append (decimal_ne_nil _) (fun b => isDigit_of_mem_decimal)
      (head_wordsText words ht)
  rw [strtoullEnd, hnumber, digitsVal_decimal]
  simp only [Option.map_some, unsignedWord_toNat]

theorem sumNumbers_words {words : List UInt64} {t : Bytes}
    (ht : ∀ b ∈ t.head?, isDigit b = false) (sum : UInt64) :
    sumNumbers words.length (wordsText words ++ t) sum = sum + words.sum := by
  induction words generalizing sum with
  | nil => simp [sumNumbers]
  | cons w words ih =>
      rw [List.length_cons, sumNumbers, strtoullEnd_words w words ht]
      simp only [ih, List.sum_cons, UInt64.add_assoc]

/-- Blanks in front of a number do not matter. -/
theorem strtoullEnd_dropWhile (p : Bytes) :
    strtoullEnd (p.dropWhile fun b => b == 0x20 || b == 0x09) = strtoullEnd p := by
  have hspace : ∀ b ∈ p.takeWhile (fun b => b == 0x20 || b == 0x09), isSpace b = true := by
    intro b hb
    have hblank := List.mem_takeWhile_imp hb
    simp only [Bool.or_eq_true, beq_iff_eq] at hblank
    rcases hblank with rfl | rfl
    · decide
    · decide
  have hsplit := number_spaces_append hspace (p.dropWhile fun b => b == 0x20 || b == 0x09)
  rw [List.takeWhile_append_dropWhile] at hsplit
  rw [strtoullEnd, strtoullEnd, hsplit]

theorem sumNumbers_dropWhile (n : ℕ) (p : Bytes) (sum : UInt64) :
    sumNumbers n (p.dropWhile fun b => b == 0x20 || b == 0x09) sum = sumNumbers n p sum := by
  cases n with
  | zero => rfl
  | succ n => rw [sumNumbers, sumNumbers, strtoullEnd_dropWhile]

/-! ## Tokens between blanks -/

theorem strtoull_word (w : UInt64) {t : Bytes} (ht : ∀ b ∈ t.head?, isDigit b = false) :
    UInt64.ofNat (strtoull (decimal w.toNat ++ t)) = w := by
  have hlt := w.toNat_lt
  rw [strtoull_digits_append (decimal_ne_nil _) (fun b => isDigit_of_mem_decimal) ht,
    digitsVal_decimal, Nat.min_eq_left (by omega), UInt64.ofNat_toNat]

theorem tokens_blank_cons (s : Bytes) : tokens isDelim (0x20 :: s) = tokens isDelim s := by
  have hsplit := tokens_append_cons isDelim [] s (show isDelim 0x20 = true from rfl)
  rw [List.nil_append, tokens_nil, List.nil_append] at hsplit
  exact hsplit

theorem tokens_words {words : List UInt64} (hne : words ≠ []) {t : Bytes}
    (ht : ∀ b ∈ t.head?, isDigit b = false) (hplain : ∀ b ∈ t, isDelim b = false) :
    (tokens isDelim (wordsText words ++ t)).map (fun tok => UInt64.ofNat (strtoull tok)) =
      words := by
  induction words with
  | nil => exact absurd rfl hne
  | cons w words ih =>
      have hword : ∀ b ∈ decimal w.toNat, isDelim b = false :=
        fun b hb => (digit_plain b (isDigit_of_mem_decimal hb)).1
      rw [wordsText_cons, List.cons_append, tokens_blank_cons, List.append_assoc]
      cases words with
      | nil =>
          have hline : ∀ b ∈ decimal w.toNat ++ t, isDelim b = false := by
            intro b hb
            cases List.mem_append.mp hb with
            | inl h => exact hword b h
            | inr h => exact hplain b h
          have hnil : wordsText [] ++ t = t := rfl
          rw [hnil, tokens_of_plain (by simp [decimal_ne_nil]) hline, List.map_singleton,
            strtoull_word w ht]
      | cons v words =>
          have hrest := ih (List.cons_ne_nil v words)
          have hlast := strtoull_word w (t := []) (by simp)
          rw [wordsText_cons, List.cons_append, tokens_blank_cons] at hrest
          rw [List.append_nil] at hlast
          rw [wordsText_cons, List.cons_append, tokens_append_cons isDelim _ _ rfl,
            tokens_of_plain (decimal_ne_nil _) hword, List.map_append, hrest, List.map_singleton,
            hlast, List.singleton_append]

/-! ## Both totals -/

namespace KernelCpu

variable (k : KernelCpu)

theorem mem_text {b : Byte} (h : b ∈ k.text) : b ≠ 0 ∧ b ≠ 0x0a := by
  have hname : ∀ b ∈ bytes "cpu ", b ≠ 0 ∧ b ≠ 0x0a := by decide +kernel
  cases List.mem_append.mp h with
  | inl h => exact hname b h
  | inr h => exact mem_wordsText h

theorem length_text : k.text.length ≤ 214 := by
  have hname : (bytes "cpu ").length = 4 := by decide
  have hwords := length_wordsText k.values
  have hcount : k.values.length = 10 := rfl
  rw [text, List.length_append, hname]
  omega

/-- A text of the first line and more, up to a length and to a NUL. -/
theorem cstr_take_file (rest : Bytes) : ∃ t, cstr ((k.file rest).take 1023) = k.text ++ 0x0a :: t := by
  have hlen := k.length_text
  obtain ⟨n, hn⟩ : ∃ n, 1023 - k.text.length = n + 1 := ⟨1022 - k.text.length, by omega⟩
  have htext : ∀ b ∈ k.text, decide (b ≠ 0) = true := fun b hb => by simpa using (k.mem_text hb).1
  refine ⟨cstr (rest.take n), ?_⟩
  rw [file, List.take_append, List.take_of_length_le (by omega), hn, List.take_succ_cons, cstr,
    List.takeWhile_append_of_pos htext]
  rfl

theorem readCpuTotal_file (rest : Bytes) : readCpuTotal (some (k.file rest)) = k.values.sum := by
  obtain ⟨t, ht⟩ := k.cstr_take_file rest
  have hname : (bytes "cpu ").length = 4 := by decide
  have hne : (k.file rest).take 1023 ≠ [] := by
    intro hnil
    rw [hnil] at ht
    have := congrArg List.length ht
    simp [cstr] at this
  have hread : readFile (some (k.file rest)) 1024 = some ((k.file rest).take 1023) := by
    rw [readFile, if_neg hne]
  have htake : (k.text ++ 0x0a :: t).take 4 = bytes "cpu " := by
    rw [text, List.append_assoc, ← hname, List.take_left]
  have hdrop : (k.text ++ 0x0a :: t).drop 3 = 0x20 :: (wordsText k.values ++ 0x0a :: t) := rfl
  have hstop : ∀ b ∈ ((0x0a : Byte) :: t).head?, isDigit b = false := by
    intro b hb
    obtain rfl : 0x0a = b := by simpa using hb
    decide
  have hblank : strtoullEnd (0x20 :: (wordsText k.values ++ 0x0a :: t)) =
      strtoullEnd (wordsText k.values ++ 0x0a :: t) := by
    rw [strtoullEnd, strtoullEnd, ← List.singleton_append, number_spaces_append (by simp [isSpace])]
  rw [readCpuTotal, hread]
  simp only [ht, htake, ne_eq, not_true_eq_false, false_and, if_false, hdrop, sumNumbers_dropWhile]
  have htotal : sumNumbers 10 (wordsText k.values ++ 0x0a :: t) 0 = 0 + k.values.sum :=
    @sumNumbers_words k.values _ hstop 0
  rw [UInt64.zero_add, sumNumbers] at htotal
  rw [sumNumbers, hblank, htotal]

/-- The totals of `parse_cpu_totals`. -/
def totals : CpuTotals :=
  { user := k.user, nice := k.nice, system := k.system, idle := k.idle, iowait := k.iowait
    irq := k.irq, softirq := k.softirq, steal := k.steal }

theorem parseCpuTotals_file (rest : Bytes) :
    parseCpuTotals (some (k.file rest)) = some k.totals := by
  have hlen := k.length_text
  have hline : (0x0a : Byte) ∉ k.text := fun hlf => (k.mem_text hlf).2 rfl
  have hfgets : (some (k.file rest)).bind (fgets 1024) = some (k.text ++ [0x0a]) := by
    rw [Option.bind_some, file, fgets_line hline, List.take_of_length_le]
    rw [List.length_append, List.length_singleton]
    omega
  have hcstr : cstr (k.text ++ [0x0a]) = k.text ++ [0x0a] := by
    apply cstr_of_nulFree
    intro h0
    cases List.mem_append.mp h0 with
    | inl h => exact (k.mem_text h).1 rfl
    | inr h => simp at h
  have hsplit : k.text ++ [0x0a] = bytes "cpu" ++ 0x20 :: (wordsText k.values ++ [0x0a]) := rfl
  have hprefix : bytes "cpu" <+: k.text ++ [0x0a] := by
    rw [hsplit]
    exact List.prefix_append _ _
  have htokens : tokens isDelim (k.text ++ [0x0a]) =
      bytes "cpu" :: tokens isDelim (wordsText k.values ++ [0x0a]) := by
    rw [hsplit, tokens_append_cons isDelim _ _ rfl,
      tokens_of_plain (by decide +kernel) (by decide +kernel), List.singleton_append]
  have hvalues : k.values ≠ [] := List.cons_ne_nil _ _
  have hwords := tokens_words hvalues (t := [0x0a]) (by simp [isDigit]) (by simp [isDelim])
  have hcount : (tokens isDelim (wordsText k.values ++ [0x0a])).length = 10 := by
    have := congrArg List.length hwords
    rwa [List.length_map] at this
  rw [parseCpuTotals, hfgets]
  simp only [hcstr, hprefix, not_true_eq_false, if_false, htokens, List.drop_succ_cons,
    List.drop_zero]
  rw [List.take_of_length_le hcount.le, hwords]
  rfl

/-- The samplers see the same total. -/
def TotalsAgree (k : KernelCpu) (rest : Bytes) : Prop :=
  ∃ t, parseCpuTotals (some (k.file rest)) = some t ∧
    readCpuTotal (some (k.file rest)) = cpuTotalsSum t

/-- The samplers agree exactly where no guest time is counted once more. -/
theorem totalsAgree_iff (rest : Bytes) : k.TotalsAgree rest ↔ k.guest + k.guestNice = 0 := by
  have hsum : k.values.sum = cpuTotalsSum k.totals + (k.guest + k.guestNice) := by
    simp only [values, List.sum_cons, List.sum_nil, cpuTotalsSum, totals,
      UInt64.add_assoc, UInt64.add_zero]
  rw [TotalsAgree, k.readCpuTotal_file, k.parseCpuTotals_file, hsum]
  constructor
  · rintro ⟨t, ht, heq⟩
    obtain rfl := Option.some.inj ht
    apply (UInt64.add_right_inj (cpuTotalsSum k.totals)).mp
    rw [heq, UInt64.add_zero]
  · intro hguest
    exact ⟨k.totals, rfl, by rw [hguest, UInt64.add_zero]⟩

end KernelCpu

/-- A host that runs a virtual guest. -/
def hostCpu : KernelCpu where
  user := 1000
  nice := 0
  system := 300
  idle := 5000
  iowait := 20
  irq := 0
  softirq := 10
  steal := 0
  guest := 600
  guestNice := 0

theorem not_totalsAgree_hostCpu : ¬ ∀ (k : KernelCpu) (rest : Bytes), k.TotalsAgree rest := by
  intro h
  obtain ⟨t, ht, heq⟩ := h hostCpu []
  rw [hostCpu.parseCpuTotals_file] at ht
  rw [hostCpu.readCpuTotal_file, ← Option.some.inj ht] at heq
  revert heq
  decide +kernel

end ProcWatch

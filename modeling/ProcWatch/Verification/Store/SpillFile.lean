import ProcWatch.Verification.Lines.RoundTrip
import ProcWatch.Verification.Store.Flush

/-! # The spill file holds a line for each record -/

namespace ProcWatch

open CLib

variable {σ : Type}

/-! ## One line -/

/-- What a replay callback compares the front of a line with. -/
def Spilled.marker : Spilled → Bytes
  | agent _ (.metric _) => bytes "\x7b\"k\":\"metric\""
  | agent _ (.otelMetric _) => bytes "\x7b\"k\":\"otelmetric\""
  | agent _ (.span _) => bytes "\x7b\"k\":\"span\""
  | sample _ => bytes "\x7b\"k\":\"sample\""

/-- A line without line ends and NUL, from the marker of its kind to its closing brace, whose
members are all there. -/
structure CompleteLine (r : Spilled) (l : Bytes) : Prop where
  oneLine : OneLine l
  uncut : l = object r.members
  marked : r.marker <+: l
  closed : [0x7d] <:+ l

theorem oneLine_of_printable {l : Bytes} (h : ∀ b ∈ l, 0x20 ≤ b) : OneLine l := by
  intro b hb
  have hle := h b hb
  refine ⟨?_, ?_, ?_⟩ <;> intro heq <;> rw [heq] at hle <;> exact absurd hle (by decide)

theorem kind_isPrefix_object (kind : Bytes) (ms : List Member) :
    bytes "\x7b\"k\":\"" ++ kind ++ [0x22] <+: object (.str (bytes "k") kind :: ms) := by
  have hfront : bytes "\x7b\"k\":\"" = 0x7b :: 0x22 :: bytes "k" ++ [0x22, 0x3a, 0x22] := by
    decide +kernel
  rw [hfront]
  exact ⟨memberTail ms, by simp [object, Member.render, Member.key, Member.value, memberTail]⟩

theorem marker_isPrefix_object (r : Spilled) : r.marker <+: object r.members := by
  have hmarker (kind : Bytes) (ms : List Member) (marker : Bytes)
      (h : marker = bytes "\x7b\"k\":\"" ++ kind ++ [0x22]) :
      marker <+: object (.str (bytes "k") kind :: ms) :=
    h ▸ kind_isPrefix_object kind ms
  rcases r with ⟨schema, m | p | x⟩ | x
  all_goals
    refine hmarker _ _ _ ?_
    rw [Spilled.marker]
    decide +kernel

theorem brace_isSuffix_object (ms : List Member) : [0x7d] <:+ object ms := by
  cases ms with
  | nil => exact ⟨[0x7b], rfl⟩
  | cons m ms => exact List.suffix_append _ _

theorem completeLine {r : Spilled} {l : Bytes} (h : r.line = some l) : CompleteLine r l := by
  have hl := Spilled.line_eq_object h
  subst hl
  exact ⟨oneLine_of_printable r.lineMembers.object_printable, rfl, marker_isPrefix_object r,
    brace_isSuffix_object r.members⟩

theorem CompleteLine.wholeLine {r : Spilled} {l : Bytes} (h : CompleteLine r l) :
    WholeLine l := by
  refine ⟨?_, h.oneLine⟩
  intro hnil
  have hsuffix := h.closed
  simp [hnil] at hsuffix

/-! ## The file -/

/-- A call of `pw_db_buf_spill` that returns 0 has appended its line. -/
theorem appended_of_pwDbBufSpill {line : Bytes} (h : WholeLine line) {w w' : World σ}
    (hrun : pwDbBufSpill line w = (.ret 0, w')) :
    Appended w.files.spill w'.files.spill [line] := by
  have hcstr : cstr line ++ [0x0a] = unlines [line] := by
    simp [unlines, h.oneLine.cstr_eq]
  have hwp : Prog.wp (pwDbBufSpill line)
      (fun rc w' => rc = 0 → Appended w.files.spill w'.files.spill [line])
      (fun _ => True) w := by
    apply wp_pwDbBufSpill trivial fun _ => trivial
    · exact fun _ => ⟨by simp [Files.set, hcstr], by simpa using h⟩
    · simp
    · simp
  exact (Prog.wp_iff_run.mp hwp).1 0 w' hrun rfl

/-- Lines spilled one after the other, and what the calls returned. -/
def spillAll : List Bytes → Code σ (List ℤ)
  | [] => return []
  | line :: lines => do
      let rc ← pwDbBufSpill line
      let rcs ← spillAll lines
      return rc :: rcs

theorem appended_of_spillAll {ls : List Bytes} (h : ∀ l ∈ ls, WholeLine l) {w w' : World σ}
    {rcs : List ℤ} (hrun : spillAll ls w = (.ret rcs, w')) (hrcs : ∀ rc ∈ rcs, rc = 0) :
    Appended w.files.spill w'.files.spill ls := by
  induction ls generalizing w rcs with
  | nil =>
      obtain ⟨-, rfl⟩ := Prod.mk.inj hrun
      exact .refl _
  | cons l ls ih =>
      rw [spillAll, Prog.bind_apply] at hrun
      cases hfirst : pwDbBufSpill l w with
      | mk o w₁ =>
          rw [hfirst] at hrun
          cases o with
          | exit => cases hrun
          | ret rc =>
              simp only [Prog.bind_apply] at hrun
              cases hrest : spillAll ls w₁ with
              | mk o w₂ =>
                  rw [hrest] at hrun
                  cases o with
                  | exit => cases hrun
                  | ret rcs' =>
                      obtain ⟨hret, rfl⟩ := Prod.mk.inj hrun
                      obtain rfl := Outcome.ret.inj hret
                      have hrc : rc = 0 := hrcs rc (by simp)
                      subst hrc
                      have hl := appended_of_pwDbBufSpill (h l (by simp)) hfirst
                      exact hl.trans (ih (fun l' hl' => h l' (by simp [hl'])) hrest
                        fun rc hrc => hrcs rc (by simp [hrc]))

/-- Whatever the records hold, each is handed over as one complete line, and the file holds just
these lines behind those it held before. -/
theorem spillAll_complete {rs : List Spilled} {ls : List Bytes}
    (hlines : List.Forall₂ (fun r l => r.line = some l) rs ls) :
    List.Forall₂ CompleteLine rs ls ∧
      ∀ (w w' : World σ) (old : List Bytes) (rcs : List ℤ), Holds w.files.spill old →
        spillAll ls w = (.ret rcs, w') → (∀ rc ∈ rcs, rc = 0) →
          Holds w'.files.spill (old ++ ls) := by
  have hcomplete : List.Forall₂ CompleteLine rs ls := hlines.imp fun _ _ h => completeLine h
  have hwhole : ∀ l ∈ ls, WholeLine l := by
    clear hlines
    induction hcomplete with
    | nil => simp
    | cons h _ ih => exact List.forall_mem_cons.mpr ⟨h.wholeLine, ih⟩
  refine ⟨hcomplete, ?_⟩
  intro w w' old rcs hold hrun hrcs
  exact hold.appended (appended_of_spillAll hwhole hrun hrcs)

/-- The sample of process 1 without a load. -/
def idleSample : Sample :=
  ⟨CStr.copy 128 (bytes "1"), Double.ofNat 0, 0⟩

def idleLine : Bytes :=
  bytes "\x7b\"k\":\"sample\",\"pid\":\"1\",\"cpu\":0,\"rss\":0\x7d"

/-- A metric with quotes, a backslash, a line end and control bytes in its fields. -/
def quotedMetric : ProcMetric where
  label := CStr.copy 100 (bytes "shop")
  service := some (CStr.copy 256 (bytes "till\n\"1\""))
  containerId := none
  pod := none
  pid := some (CStr.copy 80 (bytes "42_20260804172601"))
  comm := some (CStr.copy 64 (bytes "C:\\till"))
  runtime := some (CStr.copy 32 [0x74, 0x09, 0x01])
  cpu := Double.ofNat 0
  rss := 4096
  threads := 2

def quotedLine : Bytes :=
  bytes "\x7b\"k\":\"metric\",\"schema\":\"procwatch\",\"label\":\"shop\"," ++
    bytes "\"service\":\"till\\n\\\"1\\\"\",\"container_id\":\"\",\"pod\":\"\"," ++
    bytes "\"pid\":\"42_20260804172601\",\"comm\":\"C:\\\\till\",\"runtime\":\"t\\t\\u0001\"," ++
    bytes "\"cpu\":0,\"rss\":4096,\"threads\":2\x7d"

theorem spillAll_complete_quoted :
    List.Forall₂ CompleteLine [.agent DEFAULT_SCHEMA (.metric quotedMetric), .sample idleSample]
        [quotedLine, idleLine] ∧
      ∀ (w w' : World Unit) (old : List Bytes) (rcs : List ℤ), Holds w.files.spill old →
        spillAll [quotedLine, idleLine] w = (.ret rcs, w') → (∀ rc ∈ rcs, rc = 0) →
          Holds w'.files.spill (old ++ [quotedLine, idleLine]) :=
  spillAll_complete (.cons (by decide +kernel) (.cons (by decide +kernel) .nil))

end ProcWatch

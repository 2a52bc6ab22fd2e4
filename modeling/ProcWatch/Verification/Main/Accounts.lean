import ProcWatch.Model.MonitorMain
import ProcWatch.Verification.Agent.Replay
import ProcWatch.Verification.Agent.Room
import ProcWatch.Verification.Inject.Keys
import ProcWatch.Verification.Store.Books
import ProcWatch.Verification.Store.SpillFile

/-! # The books of `procwatch` -/

namespace ProcWatch

open CLib

/-! ## Reading a line -/

/-- The sample that `replay_sample` reads from a line. -/
def lineSample? (line : Bytes) : Option Sample :=
  if !strncmpEq line (bytes "\x7b\"k\":\"sample\"") 13 then none
  else
    let pid := jsonStrField line (bytes "pid") 128 []
    if !pid.1 then none
    else
      some
        { pid := CStr.copy 128 pid.2
          cpu := (jsonNumField line (bytes "cpu") (Double.ofNat 0)).2
          rss := toInt64 (jsonNumField line (bytes "rss") (Double.ofNat 0)).2 }

/-- The insert of a sample, as a replay goes about it. -/
def insertSample (x : Sample) : Monitor ℤ := do
  let w ← Prog.get
  if (← dbInsertSample w.user.stmtName x) ≠ 0 then return -1
  else return 0

theorem replaySample_eq (line : Bytes) :
    replaySample line = (do
      if (← ensurePrepared) ≠ 0 then return -1
      else
        match lineSample? line with
        | none => return 0
        | some x => insertSample x) := by
  rw [replaySample]
  congr 1
  funext rc
  rw [lineSample?]
  split
  · rfl
  · split
    · rfl
    · dsimp only
      split
      · rfl
      · rfl

/-! ## The terms of a monitor -/

/-- The table and the statement of a monitor. -/
structure MonitorNames where
  schema : Bytes
  label : Bytes
  stmtName : Bytes

namespace MonitorNames

def of (u : MonitorState) : MonitorNames :=
  ⟨u.schema, u.label, u.stmtName⟩

def target (n : MonitorNames) : Target :=
  ⟨.sample, n.schema, n.label⟩

/-- The names never change, and the session knows no other statement. -/
def terms (n : MonitorNames) : Terms MonitorState where
  user u := of u = n
  session c := ∀ x ∈ c.prepared, x = (n.stmtName, n.target)
  fresh := by simp [Session.fresh]

def row (n : MonitorNames) (x : Sample) : InsertedRow :=
  ⟨n.stmtName, n.target, sampleVals x⟩

def trade (n : MonitorNames) : Trade Sample where
  row := n.row
  line := sampleLine
  read line := (lineSample? line).map n.row
  rowless _ := false

end MonitorNames

variable {n : MonitorNames} {w : MonitorWorld}

/-- The names stay. -/
def SameNames (u u' : MonitorState) : Prop :=
  MonitorNames.of u' = MonitorNames.of u

instance : IsPreorder MonitorState SameNames where
  refl _ := rfl
  trans _ _ _ h h' := Eq.trans h' h

/-- The statements of a monitor other than its inserts. -/
def MonitorNames.Allows (n : MonitorNames) : Stmt → Prop
  | .exec _ => True
  | .prepare name target => name = n.stmtName ∧ target = n.target
  | .execPrepared _ _ => False

theorem Issues.holdNames {P : Stmt → Prop} {w w' : MonitorWorld} (h : Issues P SameNames w w')
    (hP : ∀ name target, P (.prepare name target) → n.Allows (.prepare name target))
    (hw : n.terms.Hold w) : n.terms.Hold w' := by
  refine ⟨Eq.trans h.user hw.user, fun c' hc' x hx => ?_⟩
  cases hc : w.conn with
  | none => simp [h.noConn hc] at hc'
  | some c =>
      obtain ⟨c₁, hc₁, hext⟩ := h.session c hc
      obtain rfl := Option.some.inj (hc₁.symm.trans hc')
      obtain ⟨new, hnew, hprepared⟩ := hext.prepared
      rw [hnew] at hx
      cases List.mem_append.mp hx with
      | inl hx =>
          have hallowed := hP x.1 x.2 (hprepared x hx)
          exact Prod.ext hallowed.1 hallowed.2
      | inr hx => exact hw.session c hc x hx

/-- Whatever the database answers, `ensure_prepared` only prepares the statement of its table. -/
theorem issues_ensurePrepared {P : Stmt → Prop} (hexec : ∀ c, P (.exec c)) (w : MonitorWorld)
    (hprepare : P (.prepare w.user.stmtName ⟨.sample, w.user.schema, w.user.label⟩)) :
    Issues P SameNames w (ensurePrepared w).2 := by
  have hkeeps : Prog.Keeps (Issues P SameNames) (do
      if w.online = false ∨ w.conn = none then return -1
      else if w.user.prepared then return 0
      else
        dbEnsureTable w.user.schema w.user.label
        dbEnsureDropInactiveJob w.user.schema
        dbPrepareInsert w.user.schema w.user.label w.user.stmtName
        setPrepared true
        return 0 : Monitor ℤ) := by
    split
    · exact Prog.keeps_pure (-1)
    · split
      · exact Prog.keeps_pure 0
      · refine Prog.keeps_bind (keeps_dbEnsureTable hexec _ _) fun _ => ?_
        refine Prog.keeps_bind (keeps_dbEnsureDropInactiveJob hexec _) fun _ => ?_
        refine Prog.keeps_bind (Prog.keeps_bind (keeps_issue hprepare) fun r => ?_) fun _ =>
          Prog.keeps_bind (fun w' => ?_) fun _ => Prog.keeps_pure 0
        · cases r with
          | done found => exact Prog.keeps_pure ()
          | refused => exact Prog.keeps_exit
          | lost => exact Prog.keeps_exit
        · exact ⟨rfl, rfl, id, fun c hc => ⟨c, hc, Extends.refl c⟩, [], by
            simp [setPrepared, Prog.modify], by simp⟩
  exact hkeeps w

theorem wp_ensurePrepared_sent (hw : n.terms.Hold w) :
    Prog.wp ensurePrepared (fun _ w' => n.terms.Hold w' ∧ Sent [] w w') (fun _ => True) w := by
  have hprepare : n.Allows (.prepare w.user.stmtName ⟨.sample, w.user.schema, w.user.label⟩) := by
    rw [← show MonitorNames.of w.user = n from hw.user]
    exact ⟨rfl, rfl⟩
  have h := issues_ensurePrepared (fun _ => trivial) w hprepare
  rw [Prog.wp]
  cases hrun : ensurePrepared w with
  | mk o w' =>
      rw [hrun] at h
      cases o with
      | ret rc => exact ⟨h.holdNames (fun _ _ => id) hw, h.sent fun _ _ => id⟩
      | exit => trivial

/-- The names that a statement is for. -/
theorem target_eq_of_hold (hw : n.terms.Hold w) {c : Session} {t : Target} (hc : w.conn = some c)
    (ht : c.target? n.stmtName = some t) : t = n.target := by
  obtain ⟨l₁, l₂, heq, -⟩ := List.lookup_eq_some_iff.mp ht
  exact (Prod.mk.inj (hw.session c hc (n.stmtName, t) (by simp [heq]))).2

theorem wp_dbInsertSample_sent (hw : n.terms.Hold w) (x : Sample) :
    Prog.wp (dbInsertSample w.user.stmtName x)
      (fun rc w' => n.terms.Hold w' ∧ Sent (if rc = 0 then [n.row x] else []) w w')
      (fun _ => True) w := by
  have hname : w.user.stmtName = n.stmtName := congrArg MonitorNames.stmtName hw.user
  have hkeep : Prog.Keeps (Issues (· = .execPrepared n.stmtName (sampleVals x)) SameNames)
      (execInsert n.stmtName (sampleVals x)) := by
    refine Prog.keeps_bind (keeps_issue rfl) fun r => ?_
    cases r with
    | done found => exact Prog.keeps_pure 0
    | refused => exact Prog.keeps_pure (-1)
    | lost => exact Prog.keeps_pure (-1)
  rw [dbInsertSample, Prog.wp_bind, Prog.wp_get, hname]
  split
  · have hsent := wp_execInsert_sent (sampleVals x) fun c t => target_eq_of_hold hw
    refine Prog.wp_mono (Prog.wp_and (hkeep.wp w) hsent) (fun rc w' h => ⟨?_, h.2⟩) fun _ _ => trivial
    exact h.1.holdNames (fun _ _ => Stmt.noConfusion) hw
  · exact ⟨hw, sent_of_eq rfl rfl⟩

theorem wp_insertSample_sent (hw : n.terms.Hold w) (x : Sample) :
    Prog.wp (insertSample x)
      (fun rc w' => n.terms.Hold w' ∧ Sent (if rc = 0 then [n.row x] else []) w w')
      (fun _ => True) w := by
  rw [insertSample, Prog.wp_bind, Prog.wp_get, Prog.wp_bind]
  refine Prog.wp_mono (wp_dbInsertSample_sent hw x) (fun rc w' h => ?_) fun _ => id
  by_cases hrc : rc = 0
  · rw [if_pos hrc] at h
    rw [if_neg (not_not.mpr hrc)]
    exact h
  · rw [if_neg hrc] at h
    rw [if_pos hrc]
    exact h

/-! ## Replayed lines -/

theorem inserts_replaySample : Inserts n.trade.read n.terms.Hold replaySample := by
  intro line w hw
  rw [replaySample_eq, Prog.wp_bind]
  refine Prog.wp_mono (wp_ensurePrepared_sent hw) (fun rc w₁ h₁ => ?_) fun _ => id
  split
  · exact h₁
  · rw [MonitorNames.trade]
    dsimp only
    cases lineSample? line with
    | none => exact h₁
    | some x =>
        refine Prog.wp_mono (wp_insertSample_sent h₁.1 x) (fun rc w₂ h₂ => ?_) fun _ => id
        exact ⟨h₂.1, h₁.2.trans h₂.2⟩

/-- A replay only sends statements, whatever the state of the monitor. -/
theorem callback_replaySample : Callback replaySample := by
  intro line
  rw [replaySample_eq]
  have hensure : Prog.Keeps Spills ensurePrepared := fun w =>
    (issues_ensurePrepared (P := fun _ => True) (fun _ => trivial) w trivial).spills
  have hexec (name : Bytes) (vals : List (Option Bytes)) :
      Prog.Keeps Spills (execInsert name vals : Monitor ℤ) := by
    refine Prog.keeps_bind ?_ fun r => ?_
    · exact (keeps_issue (P := fun _ => True) (U := SameNames) trivial).mono fun _ _ => Issues.spills
    · cases r with
      | done found => exact Prog.keeps_pure 0
      | refused => exact Prog.keeps_pure (-1)
      | lost => exact Prog.keeps_pure (-1)
  refine Prog.keeps_bind hensure fun rc => ?_
  split
  · exact Prog.keeps_pure (-1)
  · cases lineSample? line with
    | none => exact Prog.keeps_pure 0
    | some x =>
        refine Prog.keeps_bind Prog.keeps_get fun w => ?_
        refine Prog.keeps_bind (Prog.keeps_bind Prog.keeps_get fun w' => ?_) fun rc => ?_
        · split
          · exact hexec _ _
          · exact Prog.keeps_pure (-1)
        · split
          · exact Prog.keeps_pure (-1)
          · exact Prog.keeps_pure 0

/-! ## Samples -/

theorem wp_tryInsertSample_sent (hw : n.terms.Hold w) (x : Sample) :
    Prog.wp (tryInsertSample x)
      (fun ok w' => n.terms.Hold w' ∧ Sent (if ok = true then [n.row x] else []) w w')
      (fun _ => True) w := by
  rw [tryInsertSample, Prog.wp_bind, Prog.wp_get]
  split
  · exact ⟨hw, sent_of_eq rfl rfl⟩
  · rw [Prog.wp_bind]
    refine Prog.wp_mono (wp_ensurePrepared_sent hw) (fun rc w₁ h₁ => ?_) fun _ => id
    split
    · exact h₁
    · have hname : w.user.stmtName = w₁.user.stmtName :=
        congrArg MonitorNames.stmtName (Eq.trans hw.user (Eq.symm h₁.1.user))
      rw [Prog.wp_bind, hname]
      refine Prog.wp_mono (wp_dbInsertSample_sent h₁.1 x) (fun rc' w₂ h₂ => ?_) fun _ => id
      rw [Prog.wp_pure]
      refine ⟨h₂.1, ?_⟩
      simpa only [decide_eq_true_eq, List.nil_append] using h₁.2.trans h₂.2

/-- A sample is inserted, or else it is spilled. -/
theorem tallies_writeSample (x : Sample) :
    Prog.Tallies (books n.trade) n.terms.Hold [x] (fun _ => n.terms.Hold) (writeSample x) := by
  intro w hw
  rw [writeSample, Prog.wp_bind]
  refine Prog.wp_mono (wp_tryInsertSample_sent hw x) (fun inserted w₁ h₁ => ?_) fun _ => id
  cases inserted with
  | true => exact ⟨h₁.1, h₁.2.entry rfl⟩
  | false =>
      have hquiet (w₂ : MonitorWorld) (hfiles : w₂.files = w₁.files)
          (hes : w₂.events = w₁.events) : Sent [] w w₂ :=
        ⟨hfiles.trans h₁.2.files, by rw [hes]; exact h₁.2.events⟩
      simp only [Bool.false_eq_true, if_false, setOnline, Prog.wp_bind, Prog.wp_modify]
      rw [spillSample]
      cases hline : sampleLine x with
      | none =>
          exact ⟨h₁.1.same rfl rfl, (hquiet _ rfl rfl).entry_lineless hline⟩
      | some line =>
          have hwhole : WholeLine line := (completeLine (r := .sample x) hline).wholeLine
          rw [Prog.wp_bind]
          refine Prog.wp_mono (wp_pwDbBufSpill_books (T := n.trade) hwhole hline _) ?_ fun _ => id
          intro rc w₂ h₂
          have hentry : (books n.trade).entry [] w { w₁ with online := false } :=
            (hquiet _ rfl rfl).entry rfl
          exact ⟨(h₁.1.same rfl rfl).same h₂.1.conn h₂.1.user, (books n.trade).append hentry h₂.2⟩

theorem tallies_writeSamples (samples : List MonitorSample) :
    Prog.Tallies (books n.trade) n.terms.Hold (samples.map MonitorSample.sample)
      (fun _ => n.terms.Hold) (writeSamples samples) := by
  induction samples with
  | nil => exact Prog.tallies_pure ()
  | cons s samples ih => exact Prog.tallies_bind (tallies_writeSample s.sample) fun _ => ih

/-! ## The loop -/

/-- The samples that the loop takes. -/
def loopSamples (cfg : MonitorConfig) : List ProcAnswers → Baseline → List MonitorSample
  | [], _ => []
  | turn :: turns, b =>
      if !turn.rootThere then []
      else
        match monitorRound cfg turn.totals turn.snaps b with
        | none => []
        | some (b, samples) => samples ++ loopSamples cfg turns b

section Loop

theorem tallies_ensurePrepared :
    Prog.Tallies (books n.trade) n.terms.Hold [] (fun _ => n.terms.Hold) ensurePrepared :=
  tallies_of_sent fun _ hw => wp_ensurePrepared_sent hw

theorem tallies_monitorMaintenance :
    Prog.Tallies (books n.trade) n.terms.Hold [] (fun _ => n.terms.Hold) monitorMaintenance := by
  refine Prog.tallies_get_bind fun w hw => ?_
  refine Prog.tallies_bind_left (Q := fun _ => n.terms.Hold) ?_ fun _ => ?_
  · exact (tallies_pwDbBufMaintain callback_replaySample inserts_replaySample).mono
      (fun _ heq => heq ▸ hw) fun _ _ => id
  · refine Prog.tallies_get_bind fun w' hw' => Prog.tallies_ite (fun _ => ?_) fun _ => ?_
    · refine Prog.tallies_bind_left (Q := fun _ => n.terms.Hold) (tallies_of_sent fun w'' heq => ?_)
        fun _ => Prog.tallies_bind_left tallies_ensurePrepared fun _ => Prog.tallies_pure ()
      subst heq
      exact ⟨⟨hw'.user, hw'.session⟩, sent_of_eq rfl rfl⟩
    · exact (Prog.tallies_pure ()).mono (fun _ heq => heq ▸ hw') fun _ _ => id

theorem tallies_monitorLoop (cfg : MonitorConfig) (turns : List ProcAnswers) (b : Baseline) :
    Prog.Tallies (books n.trade) n.terms.Hold
      ((loopSamples cfg turns b).map MonitorSample.sample) (fun _ => n.terms.Hold)
      (monitorLoop cfg turns b) := by
  induction turns generalizing b with
  | nil => exact Prog.tallies_pure ()
  | cons turn turns ih =>
      rw [monitorLoop, loopSamples]
      refine Prog.tallies_bind_left tallies_monitorMaintenance fun _ => ?_
      split
      · exact Prog.tallies_pure ()
      · cases monitorRound cfg turn.totals turn.snaps b with
        | none => exact Prog.tallies_pure ()
        | some r =>
            rw [List.map_append]
            exact Prog.tallies_bind (tallies_writeSamples _) fun _ => ih _

theorem tallies_monitorMain (cfg : MonitorConfig) (totPrev : CpuTotals) (turns : List ProcAnswers) :
    Prog.Tallies (books n.trade) (fun w => MonitorNames.of w.user = n)
      ((loopSamples cfg turns ⟨[], totPrev⟩).map MonitorSample.sample) (fun _ => n.terms.Hold)
      (monitorMain cfg (some totPrev) turns) := by
  have hstartup : Prog.Tallies (books n.trade) (fun w => MonitorNames.of w.user = n) []
      (fun _ => n.terms.Hold) monitorStartup := by
    refine Prog.tallies_bind_left (tallies_pwDbBufInit (t := n.terms)) fun _ => ?_
    refine Prog.tallies_get_bind fun w hw => Prog.tallies_ite (fun _ => ?_) fun _ => ?_
    · refine (Prog.tallies_bind_left tallies_ensurePrepared fun _ => Prog.tallies_bind_left
        (tallies_pwDbBufFlush callback_replaySample inserts_replaySample apart_hold
          fun _ hw => hw.same rfl rfl) fun _ => Prog.tallies_pure ()).mono
        (fun _ heq => heq ▸ hw) fun _ _ => id
    · exact (Prog.tallies_pure ()).mono (fun _ heq => heq ▸ hw) fun _ _ => id
  have hend : Prog.Tallies (books n.trade) n.terms.Hold [] (fun _ => n.terms.Hold) (do
      let _ ← pwDbBufMaintain replaySample
      return 0 : Monitor ℤ) :=
    Prog.tallies_bind_left (tallies_pwDbBufMaintain callback_replaySample inserts_replaySample)
      fun _ => Prog.tallies_pure 0
  refine Prog.tallies_bind_left hstartup fun _ => ?_
  simpa using Prog.tallies_bind (tallies_monitorLoop cfg turns ⟨[], totPrev⟩) fun _ => hend

end Loop

/-! ## Whole runs -/

theorem escapedSize_le (b : Byte) : escapedSize b ≤ 6 := by
  unfold escapedSize
  split
  · decide
  · split
    · exact le_rfl
    · decide

theorem escapedLength_le (s : Bytes) : escapedLength s ≤ 6 * s.length := by
  induction s with
  | nil => exact le_rfl
  | cons b s ih =>
      have hb := escapedSize_le b
      have hcons : escapedLength (b :: s) = escapedSize b + escapedLength s := rfl
      rw [hcons, List.length_cons]
      omega

/-- The buffer of `spill_sample` has room for every key with its escapes. -/
theorem sampleLine_ne_none (cfg : MonitorConfig) (p : ProcSnapshot) (u : Usage) :
    sampleLine (monitorSample cfg p u).sample ≠ none := by
  have hdigits : ∀ b ∈ decimalInt p.pid.toInt, Plain b :=
    fun b hb => plain_of_isNumText (Double.numText_decimalInt _ b hb)
  have hlen : (decimalInt p.pid.toInt).length ≤ 10 + 1 := by
    have hlo := p.pid.le_toInt
    have hhi := p.pid.toInt_lt
    exact length_decimalInt_le (by decide) (by omega)
  have hposfix := cfg.pidPosfix.length_lt
  have hkey : (monitorSample cfg p u).sample.pid.val =
      decimalInt p.pid.toInt ++ cfg.pidPosfix.val := by
    have hcopy := copy_key p.pid cfg.pidPosfix
    have hnul := (CStr.copy 64 (decimalInt p.pid.toInt ++ cfg.pidPosfix.val)).nulFree
    have hshort := (CStr.copy 64 (decimalInt p.pid.toInt ++ cfg.pidPosfix.val)).length_lt
    exact (CStr.copy_val_of_fits hnul (by omega)).trans hcopy
  have hroom : escapedLength (monitorSample cfg p u).sample.pid.val < 256 := by
    have happend : escapedLength (decimalInt p.pid.toInt ++ cfg.pidPosfix.val) =
        escapedLength (decimalInt p.pid.toInt) + escapedLength cfg.pidPosfix.val := by
      simp [escapedLength]
    have hescapes := escapedLength_le cfg.pidPosfix.val
    rw [hkey, happend, escapedLength_of_plain hdigits]
    omega
  have hescape := (pwJsonEscape_ne_none_iff (by decide)
    (monitorSample cfg p u).sample.pid.nulFree).mpr hroom
  rw [sampleLine]
  simpa using hescape

theorem sampleLine_loopSamples {cfg : MonitorConfig} {turns : List ProcAnswers} {b : Baseline}
    {s : MonitorSample} (hs : s ∈ loopSamples cfg turns b) : sampleLine s.sample ≠ none := by
  induction turns generalizing b with
  | nil => exact absurd hs List.not_mem_nil
  | cons turn turns ih =>
      rw [loopSamples] at hs
      split at hs
      · exact absurd hs List.not_mem_nil
      · cases hround : monitorRound cfg turn.totals turn.snaps b with
        | none =>
            rw [hround] at hs
            exact absurd hs List.not_mem_nil
        | some r =>
            rw [hround] at hs
            cases List.mem_append.mp hs with
            | inr hs => exact ih hs
            | inl hs =>
                unfold monitorRound at hround
                cases htotals : turn.totals with
                | none =>
                    rw [htotals] at hround
                    cases hround
                | some totNow =>
                    rw [htotals] at hround
                    obtain rfl := Option.some.inj hround
                    obtain ⟨x, -, rfl⟩ := List.mem_map.mp hs
                    exact sampleLine_ne_none cfg x.1 _

/-- Every line that `spill_sample` writes is read as a sample. -/
theorem lineSample?_line {x : Sample} {line : Bytes} (h : sampleLine x = some line) :
    ∃ x', lineSample? line = some x' := by
  have hspilled : (Spilled.sample x).line = some line := h
  have hobject := Spilled.line_eq_object hspilled
  have hesc : pwJsonEscape 256 x.pid.val ≠ none := by
    intro hnone
    rw [sampleLine, hnone] at h
    cases h
  have hmarker : strncmpEq line (bytes "\x7b\"k\":\"sample\"") 13 = true := by
    have hstart : bytes "\x7b\"k\":\"sample\"" <+: line := by
      rw [hobject]
      exact ⟨_, rfl⟩
    have hnul : (0 : Byte) ∉ line := by
      rw [hobject]
      exact (Spilled.sample x).lineMembers.readableObject.nulFree
    rw [strncmpEq_of_isPrefix hstart hnul (by decide)]
    decide +kernel
  have hread := Spilled.readField_eq (f := ⟨bytes "pid", x.pid.val, 256, 128⟩) hspilled
    (by simp [Spilled.fields]) hesc []
  rw [Spilled.readField] at hread
  rw [lineSample?, hmarker, if_neg (by decide), hread]
  exact ⟨_, rfl⟩

theorem sound_of_line {x : Sample} (h : sampleLine x ≠ none) : n.trade.Sound x where
  line := h
  rowless := fun hrowless => Bool.noConfusion hrowless
  reread := by
    intro _
    obtain ⟨line, hline⟩ := Option.ne_none_iff_exists'.mp h
    obtain ⟨x', hread⟩ := lineSample?_line hline
    exact ⟨n.row x', line, hline, congrArg (Option.map n.row) hread, rfl, rfl⟩

/-- A monitor of process 7 before its start. -/
def shellMonitor (env : Env) (files : Files) : MonitorWorld where
  env := env
  tick := 0
  files := files
  conn := none
  online := false
  lastReconnectTry := 0
  spilled := 0
  flushed := 0
  spillDropped := 0
  user := ⟨bytes "procwatch", bytes "shop", bytes "ins_7", false⟩
  events := []

def idleTotals : CpuTotals :=
  ⟨0, 0, 0, 0, 0, 0, 0, 0⟩

/-- A turn in which process 7 is there, and alone. -/
def shellTurn : ProcAnswers where
  rootThere := true
  totals := some idleTotals
  snaps := [⟨7, 1, ⟨0, 0, 0, 0, 0, 0, 1, 0, 0, 25, 1⟩, ⟨100, 1⟩⟩]

def shellConfig : MonitorConfig :=
  ⟨CStr.copy 32 [], 1, 4⟩

/-- A sample that was spilled before, and its line. -/
def shellSpilled : Sample :=
  ⟨CStr.copy 128 (bytes "7_20260101000000"), Double.ofNat 0, 100⟩

def shellLine : Bytes :=
  bytes "\x7b\"k\":\"sample\",\"pid\":\"7_20260101000000\",\"cpu\":0,\"rss\":100\x7d"

theorem sampleLine_shellSpilled : sampleLine shellSpilled = some shellLine := by decide +kernel

/-- The spill file at the start. -/
def shellFiles : Files :=
  ⟨some (shellLine ++ [0x0a]), none, none⟩

theorem holds_shellFiles : Holds shellFiles.spill [shellLine] := by
  refine ⟨by simp [shellFiles, unlines], fun line hline => ?_⟩
  obtain rfl := List.mem_singleton.mp hline
  exact (completeLine (r := .sample shellSpilled) sampleLine_shellSpilled).wholeLine

theorem lines_shellSpilled (n : MonitorNames) : n.trade.Lines [shellSpilled] [shellLine] :=
  .cons sampleLine_shellSpilled .nil

/-- A monitor that starts over this line and takes one turn. -/
def shellRun : Outcome ℤ × MonitorWorld :=
  monitorMain shellConfig (some idleTotals) [shellTurn] (shellMonitor obligingEnv shellFiles)

end ProcWatch

import ProcWatch.Library.Ends
import ProcWatch.Verification.Store.Trace

/-! # The course of file operations and of a flush -/

namespace ProcWatch

open CLib

variable {σ α β : Type}

/-! ## File operations -/

/-- The operation of a process that goes on. -/
def Event.filed : Event → Bool
  | .file _ .died => false
  | .file _ _ => true
  | _ => false

theorem exists_of_filed {e : Event} (h : e.filed = true) : ∃ op o, o ≠ .died ∧ e = .file op o := by
  cases e with
  | file op o =>
      refine ⟨op, o, ?_, rfl⟩
      rintro rfl
      cases h
  | sql s known r => cases h
  | connected => cases h
  | spilled line ok => cases h
  | replayed line rc => cases h

/-- The connection, the flag and the state behind `user` are as before. -/
structure Beside (w w' : World σ) : Prop where
  conn : w'.conn = w.conn
  online : w'.online = w.online
  user : w'.user = w.user

theorem Beside.refl (w : World σ) : Beside w w :=
  ⟨rfl, rfl, rfl⟩

theorem Beside.trans {w w' w'' : World σ} (h : Beside w w') (h' : Beside w' w'') : Beside w w'' :=
  ⟨h'.conn.trans h.conn, h'.online.trans h.online, h'.user.trans h.user⟩

/-- File operations one after the other, the process killed in the last one where it ends. -/
def filing : Course (World σ) where
  going w w' := Beside w w' ∧ ∃ es, w'.events = w.events ++ es ∧ ∀ e ∈ es, e.filed = true
  ending w w' := Beside w w' ∧ ∃ es op, w'.events = w.events ++ (es ++ [.file op .died]) ∧
    ∀ e ∈ es, e.filed = true
  refl w := ⟨.refl w, [], (List.append_nil _).symm, fun _ he => absurd he List.not_mem_nil⟩
  trans := by
    rintro w w' w'' ⟨hb, es, hes, h⟩ ⟨hb', es', hes', h'⟩
    refine ⟨hb.trans hb', es ++ es', by rw [hes', hes, List.append_assoc], ?_⟩
    exact List.forall_mem_append.mpr ⟨h, h'⟩
  after := by
    rintro w w' w'' ⟨hb, es, hes, h⟩ ⟨hb', es', op, hes', h'⟩
    refine ⟨hb.trans hb', es ++ es', op, ?_, List.forall_mem_append.mpr ⟨h, h'⟩⟩
    rw [hes', hes, List.append_assoc, List.append_assoc]

/-- Whatever becomes of its file operations, the program only works on files. -/
abbrev Filing (m : Code σ α) : Prop :=
  Prog.Ends filing (fun _ => True) (fun _ _ => True) m

theorem filing_going_of_eq {w w' : World σ} (hb : Beside w w') (hes : w'.events = w.events) :
    filing.going w w' :=
  ⟨hb, [], by rw [hes, List.append_nil], fun _ he => absurd he List.not_mem_nil⟩

theorem filing_going_of_file {w w' : World σ} (hb : Beside w w') {op : FileOp} {o : FileOutcome}
    (hes : w'.events = w.events ++ [.file op o]) (ho : o ≠ .died) : filing.going w w' := by
  refine ⟨hb, [.file op o], hes, fun e he => ?_⟩
  obtain rfl := List.mem_singleton.mp he
  cases o with
  | died => exact absurd rfl ho
  | ok => rfl
  | failed => rfl
  | short => rfl
  | unwritten closed => rfl

theorem filing_ending_of_died {w w' : World σ} (hb : Beside w w') {op : FileOp}
    (hes : w'.events = w.events ++ [.file op .died]) : filing.ending w w' :=
  ⟨hb, [], op, hes, fun _ he => absurd he List.not_mem_nil⟩

theorem filing_pure (a : α) : Filing (pure a : Code σ α) :=
  Prog.ends_pure a

theorem filing_bind {m : Code σ α} {f : α → Code σ β} (hm : Filing m) (hf : ∀ a, Filing (f a)) :
    Filing (m >>= f) :=
  Prog.ends_bind hm hf

theorem filing_get_bind {f : World σ → Code σ β} (h : ∀ w, Filing (f w)) :
    Filing (Prog.get >>= f) :=
  Prog.ends_get_bind fun w _ => (h w).mono (fun _ _ => trivial) fun _ _ => id

theorem filing_setFile (p : Path) (content : Option Bytes) :
    Filing (setFile p content : Code σ Unit) :=
  fun _ _ => ⟨filing_going_of_eq ⟨rfl, rfl, rfl⟩ rfl, trivial⟩

theorem filing_fileOp (op : FileOp) : Filing (fileOp op : Code σ Bool) := by
  intro w _
  apply wp_fileOp
  · exact filing_ending_of_died ⟨rfl, rfl, rfl⟩ rfl
  · exact ⟨filing_going_of_file ⟨rfl, rfl, rfl⟩ rfl (by decide), trivial⟩
  · exact ⟨filing_going_of_file ⟨rfl, rfl, rfl⟩ rfl (by decide), trivial⟩

theorem filing_rename (src dst : Path) : Filing (rename src dst : Code σ RenameResult) := by
  refine filing_bind (filing_fileOp _) fun ok => filing_get_bind fun w => ?_
  cases w.files.get src with
  | none => exact filing_pure _
  | some content =>
      dsimp only
      split
      · exact filing_bind (filing_setFile _ _) fun _ =>
          filing_bind (filing_setFile _ _) fun _ => filing_pure _
      · exact filing_pure _

theorem filing_unlink (p : Path) : Filing (unlink p : Code σ Unit) := by
  refine filing_bind (filing_fileOp _) fun ok => ?_
  split
  · exact filing_setFile _ _
  · exact filing_pure ()

theorem filing_openRead (p : Path) : Filing (openRead p : Code σ (Option Bytes)) :=
  filing_bind (filing_fileOp _) fun _ => filing_get_bind fun _ => filing_pure _

theorem filing_openWrite (p : Path) : Filing (openWrite p : Code σ Bool) := by
  refine filing_bind (filing_fileOp _) fun ok => ?_
  split
  · exact filing_bind (filing_setFile _ _) fun _ => filing_pure true
  · exact filing_pure false

theorem filing_openAppend (p : Path) : Filing (openAppend p : Code σ Bool) := by
  refine filing_bind (filing_fileOp _) fun ok => ?_
  split
  · exact filing_get_bind fun _ => filing_bind (filing_setFile _ _) fun _ => filing_pure true
  · exact filing_pure false

theorem filing_writeClose (p : Path) (text : Bytes) :
    Filing (writeClose p text : Code σ Written) := by
  intro w _
  apply wp_writeClose
  · exact fun k => filing_ending_of_died ⟨rfl, rfl, rfl⟩ rfl
  · exact ⟨filing_going_of_file ⟨rfl, rfl, rfl⟩ rfl (by decide), trivial⟩
  · exact fun wrote closed left _ _ =>
      ⟨filing_going_of_file ⟨rfl, rfl, rfl⟩ rfl (uncleanWrite_ne_died left closed), trivial⟩

theorem filing_writeRest (line : Bytes) (more : List Bytes) :
    Filing (writeRest line more : Code σ Drain) := by
  refine filing_bind (filing_openWrite _) fun ok => ?_
  split
  · refine filing_bind (filing_writeClose _ _) fun r => ?_
    split
    · exact filing_pure _
    · exact filing_bind (filing_rename _ _) fun _ =>
        filing_bind (filing_unlink _) fun _ => filing_pure _
  · exact filing_bind (filing_rename _ _) fun _ => filing_pure _

theorem filing_discardClaim : Filing (discardClaim : Code σ ℤ) :=
  filing_bind (filing_unlink _) fun _ => filing_bind (filing_unlink _) fun _ => filing_pure 0

theorem filing_restore : Filing (restore : Code σ ℤ) := by
  have happend : Filing (appendSpill : Code σ Unit) := by
    refine filing_bind (filing_openRead _) fun cur => filing_bind (filing_openAppend _) fun ok => ?_
    split
    · cases cur with
      | none => exact filing_pure ()
      | some content => exact filing_bind (filing_writeClose _ _) fun _ => filing_pure ()
    · exact filing_pure ()
  have hinstall : Filing (installRest : Code σ ℤ) := by
    refine filing_bind (filing_rename _ _) fun r => ?_
    cases r with
    | ok => exact filing_bind (filing_unlink _) fun _ => filing_pure 1
    | enoent => exact filing_pure (-1)
    | failed => exact filing_pure (-1)
  exact filing_bind happend fun _ => filing_bind (filing_unlink _) fun _ => hinstall

/-! ## Courses that take file operations in -/

/-- A course to which file operations make no difference. -/
structure TakesFiles (C : Course (World σ)) : Prop where
  going : ∀ w w', filing.going w w' → C.going w w'
  ending : ∀ w w', filing.ending w w' → C.ending w w'

/-- A condition on what the store does not touch. -/
def Apart (P : World σ → Prop) : Prop :=
  ∀ w w', Beside w w' → P w → P w'

variable {C : Course (World σ)} {P R : World σ → Prop} {fn : Bytes → Code σ ℤ}

theorem Filing.ends {m : Code σ α} (h : Filing m) (hC : TakesFiles C) (hP : Apart P) :
    Prog.Ends C P (fun _ => P) m :=
  (Prog.Ends.within h hC.going hC.ending fun w w' hgoing => hP w w' hgoing.1).mono
    (fun _ hw => ⟨trivial, hw⟩) fun _ _ => And.right

/-! ## A flush -/

/-- A call of the replay callback and the record of its answer. -/
def replayCall (fn : Bytes → Code σ ℤ) (line : Bytes) : Code σ ℤ := do
  let rc ← fn line
  record (.replayed line rc)
  return rc

/-- What each answered call does, the loop over the claimed lines does. -/
theorem ends_flushLoop (hC : TakesFiles C) (hP : Apart P)
    (hcall : ∀ line, Prog.Ends C P (fun _ => P) (replayCall fn line)) (raws : List Bytes) :
    Prog.Ends C P (fun _ => P) (flushLoop fn raws) := by
  induction raws with
  | nil => exact Prog.ends_pure _
  | cons raw more ih =>
      rw [flushLoop]
      refine Prog.ends_ite (fun _ => ih) fun _ => ?_
      have hrest (rc : ℤ) : Prog.Ends C P (fun _ => P) (if rc = 0 then do
            Prog.modify fun w => { w with flushed := w.flushed + 1 }
            flushLoop fn more
          else writeRest (stripEol raw) more : Code σ Drain) := by
        refine Prog.ends_ite (fun _ => Prog.ends_bind (Prog.ends_modify fun w hw => ?_) fun _ => ih)
          fun _ => (filing_writeRest _ _).ends hC hP
        exact ⟨hC.going _ _ (filing_going_of_eq ⟨rfl, rfl, rfl⟩ rfl), hP w _ ⟨rfl, rfl, rfl⟩ hw⟩
      have hboth := Prog.ends_bind (hcall (stripEol raw)) hrest
      rwa [replayCall, Prog.bind_assoc] at hboth

/-- The flush reaches its loop only online and with a connection object. -/
theorem ends_pwDbBufFlush (hC : TakesFiles C) (hP : Apart P)
    (hcall : ∀ line, Prog.Ends C P (fun _ => P) (replayCall fn line))
    (hup : ∀ w, R w → w.online = true → w.conn ≠ none → P w) (hdown : ∀ w, P w → R w)
    (hoff : ∀ w, R w → C.going w { w with online := false } ∧ R { w with online := false }) :
    Prog.Ends C R (fun _ => R) (pwDbBufFlush fn) := by
  have hidle {w : World σ} (hw : R w) (rc : ℤ) :
      Prog.Ends C (· = w) (fun _ => R) (pure rc : Code σ ℤ) :=
    (Prog.ends_pure rc).mono (fun _ heq => heq ▸ hw) fun _ _ => id
  refine Prog.ends_get_bind fun w hw => ?_
  cases honline : w.online with
  | false => exact hidle hw (-1)
  | true =>
      cases hconn : w.conn with
      | none => exact hidle hw (-1)
      | some c =>
          dsimp only
          refine Prog.ends_ite (fun _ => ?_) fun _ => ?_
          · exact (Prog.ends_bind (Prog.ends_modify hoff) fun _ => Prog.ends_pure (-1)).mono
              (fun _ heq => heq ▸ hw) fun _ _ => id
          · -- from the claim on, the connection is there
            refine Prog.Ends.mono (P := P) (Q := fun _ => P) ?_ (fun _ heq => ?_) fun _ => hdown
            · refine Prog.ends_bind ((filing_rename _ _).ends hC hP) fun r => ?_
              cases r with
              | enoent => exact filing_discardClaim.ends hC hP
              | failed => exact Prog.ends_pure (-1)
              | ok =>
                  refine Prog.ends_bind ((filing_openRead _).ends hC hP) fun content => ?_
                  cases content with
                  | none =>
                      exact Prog.ends_bind ((filing_rename _ _).ends hC hP) fun _ =>
                        Prog.ends_pure (-1)
                  | some content =>
                      refine Prog.ends_bind (ends_flushLoop hC hP hcall _) fun d => ?_
                      cases d with
                      | failed => exact Prog.ends_pure (-1)
                      | stopped => exact filing_restore.ends hC hP
                      | drained => exact filing_discardClaim.ends hC hP
            · rw [heq]
              exact hup w hw honline (by rw [hconn]; exact Option.some_ne_none c)

end ProcWatch

import ProcWatch.Model.DbBuf

/-! # The lines of a spill file -/

namespace ProcWatch

open CLib

/-- A record's line: not empty, without line ends and NUL. -/
structure WholeLine (l : Bytes) : Prop where
  ne_nil : l ≠ []
  oneLine : OneLine l

instance (l : Bytes) : Decidable (WholeLine l) :=
  decidable_of_iff (l ≠ [] ∧ OneLine l) ⟨fun h => ⟨h.1, h.2⟩, fun h => ⟨h.ne_nil, h.oneLine⟩⟩

/-- Lines as `pw_db_buf_spill` writes them one after the other. -/
def unlines (ls : List Bytes) : Bytes :=
  ls.flatMap (· ++ [0x0a])

theorem unlines_append (ls ls' : List Bytes) : unlines (ls ++ ls') = unlines ls ++ unlines ls' :=
  List.flatMap_append

theorem unlines_cons (l : Bytes) (ls : List Bytes) :
    unlines (l :: ls) = l ++ 0x0a :: unlines ls := by
  simp [unlines]

theorem unlines_eq_flatten (ls : List Bytes) : unlines ls = (ls.map (· ++ [0x0a])).flatten :=
  List.flatMap_def

theorem getlines_line_append {l : Bytes} (h : OneLine l) (s : Bytes) :
    getlines (l ++ 0x0a :: s) = (l ++ [0x0a]) :: getlines s := by
  induction l with
  | nil => simp [getlines]
  | cons b l ih =>
      have hb : b ≠ 0x0a := (h b (by simp)).2.2
      have hl : OneLine l := fun c hc => h c (by simp [hc])
      simp [getlines, hb, ih hl]

theorem getlines_unlines {ls : List Bytes} (h : ∀ l ∈ ls, WholeLine l) :
    getlines (unlines ls) = ls.map (· ++ [0x0a]) := by
  induction ls with
  | nil => rfl
  | cons l ls ih =>
      rw [unlines_cons, getlines_line_append (h l (by simp)).oneLine,
        ih fun l' hl' => h l' (by simp [hl'])]
      rfl

theorem stripEol_line {l : Bytes} (h : OneLine l) : stripEol (l ++ [0x0a]) = l := by
  have hrest : l.reverse.dropWhile (fun b => b == 0x0a || b == 0x0d) = l.reverse := by
    cases hr : l.reverse with
    | nil => rfl
    | cons b r =>
        have hb := h b (List.mem_reverse.mp (by simp [hr]))
        simp [hb.2.1, hb.2.2]
  rw [stripEol, List.reverse_append, List.reverse_singleton, List.singleton_append,
    List.dropWhile_cons_of_pos (by simp), hrest, List.reverse_reverse]

/-- What a flush offers of a file: its lines, those with nothing on them left out. -/
def storedLines (content : Option Bytes) : List Bytes :=
  ((getlines (content.getD [])).map stripEol).filter (· ≠ [])

/-- The file holds exactly these lines, each complete. -/
structure Holds (content : Option Bytes) (ls : List Bytes) : Prop where
  text : content.getD [] = unlines ls
  whole : ∀ l ∈ ls, WholeLine l

theorem Holds.storedLines_eq {content : Option Bytes} {ls : List Bytes} (h : Holds content ls) :
    storedLines content = ls := by
  rw [storedLines, h.text, getlines_unlines h.whole, List.map_map]
  have hstrip : ls.map (stripEol ∘ (· ++ [0x0a])) = ls := by
    conv_rhs => rw [← List.map_id ls]
    apply List.map_congr_left
    intro l hl
    exact stripEol_line (h.whole l hl).oneLine
  rw [hstrip, List.filter_eq_self]
  intro l hl
  simpa using (h.whole l hl).ne_nil

theorem Holds.none : Holds none [] :=
  ⟨rfl, by simp⟩

theorem Holds.append {content content' : Option Bytes} {ls more : List Bytes}
    (h : Holds content ls) (htext : content'.getD [] = content.getD [] ++ unlines more)
    (hmore : ∀ l ∈ more, WholeLine l) : Holds content' (ls ++ more) := by
  refine ⟨by rw [htext, h.text, unlines_append], ?_⟩
  intro l hl
  cases List.mem_append.mp hl with
  | inl hl => exact h.whole l hl
  | inr hl => exact hmore l hl

end ProcWatch

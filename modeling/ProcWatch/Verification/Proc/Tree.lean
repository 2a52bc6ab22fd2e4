import ProcWatch.Model.ProcTree

/-! # The walks over a process tree -/

namespace ProcWatch

open CLib Traversal

/-! ## One loop for both walks -/

section Loop

variable {ν : Type} (record : Int32 → Option ν) (pid : ν → Int32) (kids : Int32 → List Int32)

/-- The loop with what is recorded of a pid as a parameter, `none` for an unreadable one. -/
def walkLoop : ℕ → Walk ν → Option (Walk ν)
  | 0, w => if w.head < w.queue.length then none else some w
  | fuel + 1, w =>
      match w.queue[w.head]? with
      | none => some w
      | some cur =>
          match record cur with
          | none => walkLoop fuel { w with head := w.head + 1 }
          | some n =>
              walkLoop fuel
                { queue := queueKids (kids cur) ((w.nodes ++ [n]).map pid) w.queue
                  head := w.head + 1
                  nodes := w.nodes ++ [n] }

/-- The graph of the walk: only readable pids have children. -/
def answered (p : Int32) : Option (List Int32) :=
  (record p).map fun _ => kids p

/-- The walk at its end. -/
def finished (queue : List Int32) : Walk ν :=
  { queue := queue, head := queue.length, nodes := queue.filterMap record }

variable {record pid kids}

theorem pidSeen_eq {queue snaps : List Int32} (h : ∀ p ∈ snaps, p ∈ queue) (p : Int32) :
    pidSeen p queue snaps = true ↔ p ∈ queue := by
  have hany (l : List Int32) : l.any (· == p) = true ↔ p ∈ l := by
    rw [List.any_eq_true]
    constructor
    · rintro ⟨q, hq, heq⟩
      rwa [← beq_iff_eq.mp heq]
    · exact fun hp => ⟨p, hp, beq_self_eq_true p⟩
  rw [pidSeen, Bool.or_eq_true, hany, hany]
  exact or_iff_left_of_imp (h p)

/-- Looking at the snapshots too makes no difference: their pids are queued. -/
theorem queueKids_eq {queue snaps : List Int32} (h : ∀ p ∈ snaps, p ∈ queue) (kids : List Int32) :
    queueKids kids snaps queue = enqueue queue kids := by
  induction kids generalizing queue with
  | nil => rfl
  | cons kid kids ih =>
      have hstep : queueKids (kid :: kids) snaps queue =
          queueKids kids snaps
            (if pidSeen kid queue snaps then queue else queue ++ [kid]) := rfl
      rw [hstep, enqueue_cons]
      by_cases hseen : kid ∈ queue
      · rw [if_pos hseen, if_pos ((pidSeen_eq h kid).mpr hseen)]
        exact ih h
      · rw [if_neg hseen, if_neg fun hp => hseen ((pidSeen_eq h kid).mp hp)]
        exact ih fun p hp => List.mem_append_left _ (h p hp)

theorem map_pid_filterMap (hpid : ∀ p n, record p = some n → pid n = p) (queue : List Int32) :
    (queue.filterMap record).map pid = queue.filter fun p => (record p).isSome := by
  induction queue with
  | nil => rfl
  | cons p queue ih =>
      cases hrecord : record p with
      | none => simp [hrecord, ih]
      | some n => simp [hrecord, ih, hpid p n hrecord]

/-- The loop is the breadth-first traversal, and records what it is done with. -/
theorem walkLoop_eq_explore (hpid : ∀ p n, record p = some n → pid n = p) (fuel : ℕ)
    (done pending : List Int32) :
    walkLoop record pid kids fuel
        { queue := done ++ pending, head := done.length, nodes := done.filterMap record } =
      (explore (answered record kids) fuel done pending).map (finished record) := by
  induction fuel generalizing done pending with
  | zero =>
      cases pending with
      | nil => simp [walkLoop, explore, finished]
      | cons a pending => simp [walkLoop, explore]
  | succ fuel ih =>
      cases pending with
      | nil => simp [walkLoop, explore, finished]
      | cons a pending =>
          have hcur : (done ++ a :: pending)[done.length]? = some a := by simp
          have hdone : (done ++ [a]).length = done.length + 1 := by simp
          have hsplit := split_enqueue done pending (successors (answered record kids) a) a
          have hnext := ih (done ++ [a]) ((enqueue (done ++ a :: pending)
            (successors (answered record kids) a)).drop (done.length + 1))
          rw [hsplit, hdone, List.filterMap_append] at hnext
          rw [walkLoop, explore]
          simp only [hcur]
          rw [← hnext]
          cases hrecord : record a with
          | none =>
              have hnone : successors (answered record kids) a = [] := by
                rw [successors, answered, hrecord]
                rfl
              rw [hnone]
              simp [hrecord, enqueue]
          | some n =>
              have hkids : successors (answered record kids) a = kids a := by
                rw [successors, answered, hrecord]
                rfl
              have hqueued : ∀ p ∈ (done.filterMap record ++ [n]).map pid,
                  p ∈ done ++ a :: pending := by
                intro p hp
                rw [List.map_append, List.mem_append, map_pid_filterMap hpid, List.mem_filter,
                  List.map_singleton, List.mem_singleton, hpid a n hrecord] at hp
                rcases hp with ⟨hp, _⟩ | rfl
                · exact List.mem_append_left _ hp
                · simp
              simp only [queueKids_eq hqueued, hkids, List.filterMap_cons, hrecord,
                List.filterMap_nil]

theorem nodup_nodes_of_walkLoop (hpid : ∀ p n, record p = some n → pid n = p) {fuel : ℕ}
    {root : Int32} {w : Walk ν} (h : walkLoop record pid kids fuel (Walk.start root) = some w) :
    (w.nodes.map pid).Nodup := by
  have hloop := @walkLoop_eq_explore _ record pid kids hpid fuel [] [root]
  rw [Walk.start] at h
  rw [List.nil_append, List.length_nil, List.filterMap_nil, h] at hloop
  obtain ⟨queue, hrun, rfl⟩ := Option.map_eq_some_iff.mp hloop.symm
  rw [finished, map_pid_filterMap hpid]
  exact (nodup_of_explore hrun (List.nodup_singleton root)).filter _

/-- The loop ends with every pid queued at most once and the readable reachable ones recorded. -/
theorem walkLoop_spec (hpid : ∀ p n, record p = some n → pid n = p) {root : Int32}
    {S : Finset Int32} (hroot : root ∈ S)
    (hS : ∀ p ∈ S, (record p).isSome → ∀ kid ∈ kids p, kid ∈ S) {fuel : ℕ}
    (hfuel : S.card ≤ fuel) :
    ∃ queue, explore (answered record kids) fuel [] [root] = some queue ∧
      walkLoop record pid kids fuel (Walk.start root) = some (finished record queue) ∧
      queue.Nodup ∧
      ∀ p, p ∈ queue ↔ Relation.ReflTransGen
        (fun p kid => (record p).isSome ∧ kid ∈ kids p) root p := by
  have hedge : Edge (answered record kids) = fun p kid => (record p).isSome ∧ kid ∈ kids p := by
    funext p kid
    rw [Edge, successors, answered]
    cases record p <;> simp
  have hclosed : ∀ p ∈ S, ∀ kid, Edge (answered record kids) p kid → kid ∈ S := by
    intro p hp kid hkid
    rw [hedge] at hkid
    exact hS p hp hkid.1 kid hkid.2
  obtain ⟨queue, hrun, hnodup, hmem⟩ := explore_spec hroot hclosed hfuel
  refine ⟨queue, hrun, ?_, hnodup, ?_⟩
  · have hloop := @walkLoop_eq_explore _ _ _ kids hpid fuel [] [root]
    rw [hrun] at hloop
    exact hloop
  · rwa [hedge] at hmem

end Loop

/-! ## Both walks -/

namespace Proc

variable (proc : Proc)

/-- What `main` records of a pid. -/
def snapshot (cur : Int32) : Option ProcSnapshot :=
  (readProcStat (proc.stat cur) 1).map fun r =>
    { pid := cur, ppid := r.1.parent, stat := r.1, status := proc.status cur }

/-- What `snapshot_tree` records of a pid. -/
def node (cur : Int32) : Option TreeNode :=
  (readProcStat (proc.stat cur) 64).map fun r =>
    { pid := cur, stat := r.1, status := proc.status cur, comm := r.2 }

def Readable (p : Int32) : Prop :=
  (proc.node p).isSome = true

/-- `kid` is in the child list of a readable pid. -/
def Child (p kid : Int32) : Prop :=
  proc.Readable p ∧ kid ∈ proc.kids p

/-- Whether a stat file can be read does not depend on the buffer for the command. -/
theorem readProcStat_map_fst (file : Option Bytes) (m n : ℕ) [NeZero m] [NeZero n] :
    (readProcStat file m).map Prod.fst = (readProcStat file n).map Prod.fst := by
  unfold readProcStat
  cases file.bind (fgets 4096) with
  | none => rfl
  | some line =>
      dsimp only
      split
      · split
        · rfl
        · split <;> rfl
      · rfl

theorem isSome_snapshot (p : Int32) : (proc.snapshot p).isSome = (proc.node p).isSome := by
  have hsize := congrArg Option.isSome (readProcStat_map_fst (proc.stat p) 1 64)
  rw [Option.isSome_map, Option.isSome_map] at hsize
  rw [snapshot, node, Option.isSome_map, Option.isSome_map, hsize]

theorem mainWalk_eq (fuel : ℕ) (w : Walk ProcSnapshot) :
    mainWalk proc fuel w = walkLoop proc.snapshot ProcSnapshot.pid proc.kids fuel w := by
  induction fuel generalizing w with
  | zero => rfl
  | succ fuel ih =>
      rw [mainWalk, walkLoop]
      cases w.queue[w.head]? with
      | none => rfl
      | some cur =>
          simp only [snapshot]
          cases readProcStat (proc.stat cur) 1 with
          | none => exact ih _
          | some r => exact ih _

theorem snapshotTree_eq (fuel : ℕ) (w : Walk TreeNode) :
    snapshotTree proc fuel w = walkLoop proc.node TreeNode.pid proc.kids fuel w := by
  induction fuel generalizing w with
  | zero => rfl
  | succ fuel ih =>
      rw [snapshotTree, walkLoop]
      cases w.queue[w.head]? with
      | none => rfl
      | some cur =>
          simp only [node]
          cases readProcStat (proc.stat cur) 64 with
          | none => exact ih _
          | some r => exact ih _

theorem snapshot_pid (p : Int32) (snap : ProcSnapshot) (h : proc.snapshot p = some snap) :
    snap.pid = p := by
  obtain ⟨r, -, rfl⟩ := Option.map_eq_some_iff.mp h
  rfl

theorem node_pid (p : Int32) (n : TreeNode) (h : proc.node p = some n) : n.pid = p := by
  obtain ⟨r, -, rfl⟩ := Option.map_eq_some_iff.mp h
  rfl

/-- The nodes of a walk have different pids. -/
theorem nodup_nodes_of_snapshotTree {fuel : ℕ} {root : Int32} {w : Walk TreeNode}
    (h : snapshotTree proc fuel (Walk.start root) = some w) :
    (w.nodes.map TreeNode.pid).Nodup := by
  rw [snapshotTree_eq] at h
  exact nodup_nodes_of_walkLoop proc.node_pid h

theorem nodup_snaps_of_mainWalk {fuel : ℕ} {root : Int32} {w : Walk ProcSnapshot}
    (h : mainWalk proc fuel (Walk.start root) = some w) :
    (w.nodes.map ProcSnapshot.pid).Nodup := by
  rw [mainWalk_eq] at h
  exact nodup_nodes_of_walkLoop proc.snapshot_pid h

/-- Both walks end, queue the same pids, each once, and record exactly the readable pids that
the root reaches through readable pids, in one order. -/
theorem walks_exact {root : Int32} {S : Finset Int32} (hroot : root ∈ S)
    (hS : ∀ p ∈ S, proc.Readable p → ∀ kid ∈ proc.kids p, kid ∈ S) {fuel : ℕ}
    (hfuel : S.card ≤ fuel) :
    ∃ w w', mainWalk proc fuel (Walk.start root) = some w ∧
      snapshotTree proc fuel (Walk.start root) = some w' ∧
      w'.queue = w.queue ∧ w.queue.Nodup ∧
      w'.nodes.map TreeNode.pid = w.nodes.map ProcSnapshot.pid ∧
      (w.nodes.map ProcSnapshot.pid).Nodup ∧
      ∀ p, p ∈ w.nodes.map ProcSnapshot.pid ↔
        proc.Readable p ∧ Relation.ReflTransGen proc.Child root p := by
  have hsame : answered proc.snapshot proc.kids = answered proc.node proc.kids := by
    funext p
    have hsome := proc.isSome_snapshot p
    rw [answered, answered]
    cases hsnap : proc.snapshot p <;> cases hnode : proc.node p <;>
      simp [hsnap, hnode] at hsome ⊢
  have hS' : ∀ p ∈ S, (proc.snapshot p).isSome → ∀ kid ∈ proc.kids p, kid ∈ S := by
    intro p hp hread
    rw [proc.isSome_snapshot] at hread
    exact hS p hp hread
  obtain ⟨queue, hrun, hmain, hnodup, -⟩ := walkLoop_spec proc.snapshot_pid hroot hS' hfuel
  obtain ⟨queue', hrun', htree, -, hmem⟩ := walkLoop_spec proc.node_pid hroot hS hfuel
  rw [hsame, hrun'] at hrun
  obtain rfl := Option.some.inj hrun
  have hpids : (queue'.filterMap proc.snapshot).map ProcSnapshot.pid =
      queue'.filter fun p => (proc.node p).isSome := by
    rw [map_pid_filterMap proc.snapshot_pid]
    simp only [isSome_snapshot]
  refine ⟨_, _, (proc.mainWalk_eq fuel _).trans hmain, (proc.snapshotTree_eq fuel _).trans htree,
    rfl, hnodup, ?_, ?_, ?_⟩
  · exact (map_pid_filterMap proc.node_pid queue').trans hpids.symm
  · rw [finished, hpids]
    exact hnodup.filter _
  · intro p
    rw [finished, hpids, List.mem_filter, hmem]
    exact and_comm

end Proc

/-- Processes 7 and 8 list each other, themselves and a process 9 that has gone. -/
def cyclicProc : Proc where
  stat := fun p =>
    if p = 9 then none
    else some (bytes "7 (a) R 1 7 7 0 -1 0 0 0 0 0 5 6 0 0 20 0 1 0 99 0 0\n")
  status := fun _ => ⟨0, 1⟩
  tasks := fun _ => some [bytes ".", bytes "..", bytes "7"]
  lists := fun p _ => some (if p = 7 then bytes "8 7 8 " else bytes "7 9 ")

theorem walks_exact_cyclicProc :
    ∃ w w', mainWalk cyclicProc 3 (Walk.start 7) = some w ∧
      snapshotTree cyclicProc 3 (Walk.start 7) = some w' ∧
      w'.queue = w.queue ∧ w.queue.Nodup ∧
      w'.nodes.map TreeNode.pid = w.nodes.map ProcSnapshot.pid ∧
      (w.nodes.map ProcSnapshot.pid).Nodup ∧
      ∀ p, p ∈ w.nodes.map ProcSnapshot.pid ↔
        cyclicProc.Readable p ∧ Relation.ReflTransGen cyclicProc.Child 7 p := by
  have hroot : (7 : Int32) ∈ ({7, 8, 9} : Finset Int32) := by simp
  have hkids : cyclicProc.kids 7 = [8, 7] ∧ cyclicProc.kids 8 = [7, 9] ∧
      (cyclicProc.node 9).isSome = false := by
    decide +kernel
  refine cyclicProc.walks_exact hroot ?_ (by decide)
  intro p hp hread kid hkid
  rw [Finset.mem_insert, Finset.mem_insert, Finset.mem_singleton] at hp
  rcases hp with rfl | rfl | rfl
  · rw [hkids.1] at hkid
    revert hkid
    simp only [List.mem_cons, List.not_mem_nil, or_false, Finset.mem_insert, Finset.mem_singleton]
    tauto
  · rw [hkids.2.1] at hkid
    revert hkid
    simp only [List.mem_cons, List.not_mem_nil, or_false, Finset.mem_insert, Finset.mem_singleton]
    tauto
  · rw [Proc.Readable, hkids.2.2] at hread
    cases hread

end ProcWatch

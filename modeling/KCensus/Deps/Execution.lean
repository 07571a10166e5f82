import KCensus.Deps.Executed
import KCensus.Deps.InstanceTable
import KCensus.Lib.Tarjan

namespace KCensus.Deps

open Lib

variable {n : Nat} [NeZero n]

namespace InstanceTable

def committedAt (t : InstanceTable n) (uid : Uid) : Bool :=
  match t.get uid with
  | some i => i.isCommitted
  | none => false

def settledAt (t : InstanceTable n) (uid : Uid) : Bool :=
  match t.get uid with
  | some i => i.isSettled
  | none => false

end InstanceTable

def skipExecuted (executed : Executed n) : Nat → Uid → Uid
  | 0, uid => uid
  | fuel + 1, uid =>
      if executed.contains uid then skipExecuted executed fuel (uid.add n) else uid

-- One replica's log; a turn that goes on has found an instance, so the log bounds the turns.
def candidatesFrom (instances : InstanceTable n) (executed : Executed n) : Nat → Uid → List Uid
  | 0, _ => []
  | fuel + 1, uid =>
      let ready := skipExecuted executed (executed.ahead.card + 1) uid
      if instances.committedAt ready then
        ready :: candidatesFrom instances executed fuel (ready.add n)
      else []

def candidates (instances : InstanceTable n) (executed : Executed n) : List Uid :=
  (List.finRange n).flatMap fun replica =>
    candidatesFrom instances executed ((instances.logs replica).length + 1)
      (executed.nextUnexecuted replica)

def depsAt (instances : InstanceTable n) (uid : Uid) : DepSet n :=
  match instances.get uid with
  | some i => i.deps
  | none => DepSet.new n

def nextExecutable (instances : InstanceTable n) (executed : Executed n) : Option Uid :=
  ((candidates instances executed).filter fun uid =>
    ((depsAt instances uid).pendingOver executed).all (· = uid)).min?

def cyclePossible (instances : InstanceTable n) (executed : Executed n) : Bool :=
  (candidates instances executed).any fun uid =>
    ((depsAt instances uid).pendingOver executed).all fun dep =>
      dep = uid || instances.committedAt dep

-- The dependencies the traversal looks at from `uid`.
def pendingDeps (instances : InstanceTable n) (executed : Executed n) (uid : Uid) : List Uid :=
  ((depsAt instances uid).pendingOver executed).filter (· ≠ uid)

def roots (instances : InstanceTable n) : List Uid :=
  ((instances.iter.filter fun entry => entry.2.isCommitted).map Prod.fst).insertionSort (· ≤ ·)

-- A path of the traversal visits committed instances only, and none of them twice.
def executableOrder (instances : InstanceTable n) (executed : Executed n) : List Uid :=
  (Tarjan.visitRoots instances.committedAt (pendingDeps instances executed) (· ≤ ·)
    (roots instances).length (roots instances) Tarjan.Scratch.empty).order

def executableOrderFrom (instances : InstanceTable n) (executed : Executed n)
    (s : Tarjan.Scratch Uid) : List Uid × Tarjan.Scratch Uid :=
  let s := Tarjan.visitRoots instances.committedAt (pendingDeps instances executed) (· ≤ ·)
    (roots instances).length (roots instances) { s with nextIndex := 1, order := [] }
  (s.order, s.clear)

theorem committedAt_iff (t : InstanceTable n) (uid : Uid) :
    t.committedAt uid = true ↔ ∃ i, t.get uid = some i ∧ i.isCommitted = true := by
  unfold InstanceTable.committedAt
  cases t.get uid <;> simp

theorem settledAt_iff (t : InstanceTable n) (uid : Uid) :
    t.settledAt uid = true ↔ ∃ i, t.get uid = some i ∧ i.isSettled = true := by
  unfold InstanceTable.settledAt
  cases t.get uid <;> simp

theorem mem_pendingDeps (t : InstanceTable n) (e : Executed n) (uid v : Uid) :
    v ∈ pendingDeps t e uid ↔ (depsAt t uid).contains v ∧ ¬ e.contains v ∧ v ≠ uid := by
  simp [pendingDeps, DepSet.mem_pendingOver, and_assoc]

theorem mem_roots (t : InstanceTable n) (uid : Uid) :
    uid ∈ roots t ↔ t.committedAt uid = true := by
  simp only [roots, List.mem_insertionSort, List.mem_map, List.mem_filter, Prod.exists,
    committedAt_iff, InstanceTable.mem_iter]
  simp

theorem skipExecuted_eq {e : Executed n} {uid : Uid} (h : ¬ e.contains uid) (fuel : Nat) :
    skipExecuted e fuel uid = uid := by
  cases fuel with
  | zero => rfl
  | succ fuel => simp [skipExecuted, h]

theorem committed_of_mem_candidatesFrom {t : InstanceTable n} {e : Executed n} (fuel : Nat)
    (uid : Uid) {v : Uid} (h : v ∈ candidatesFrom t e fuel uid) : t.committedAt v = true := by
  induction fuel generalizing uid with
  | zero => simp [candidatesFrom] at h
  | succ fuel ih =>
    simp only [candidatesFrom] at h
    split at h
    · rename_i hc
      rcases List.mem_cons.1 h with rfl | h
      · exact hc
      · exact ih _ h
    · cases h

theorem committed_of_mem_candidates {t : InstanceTable n} {e : Executed n} {v : Uid}
    (h : v ∈ candidates t e) : t.committedAt v = true := by
  obtain ⟨r, -, hr⟩ := List.mem_flatMap.1 h
  exact committed_of_mem_candidatesFrom _ _ hr

theorem head_mem_candidates {t : InstanceTable n} {e : Executed n} (he : e.Wf) (r : Fin n)
    (h : t.committedAt (e.nextUnexecuted r) = true) : e.nextUnexecuted r ∈ candidates t e := by
  refine List.mem_flatMap.2 ⟨r, List.mem_finRange r, ?_⟩
  simp only [candidatesFrom, skipExecuted_eq (Executed.not_contains_next he r), h, if_true]
  exact List.mem_cons_self

theorem nextExecutable_spec {t : InstanceTable n} {e : Executed n} {uid : Uid}
    (h : nextExecutable t e = some uid) :
    t.committedAt uid = true ∧ ∀ v, (depsAt t uid).contains v → v = uid ∨ e.contains v := by
  have hm := List.min?_mem h
  rw [List.mem_filter] at hm
  refine ⟨committed_of_mem_candidates hm.1, fun v hv => ?_⟩
  by_cases he : e.contains v
  · exact Or.inr he
  · left
    have := List.all_eq_true.1 hm.2 v ((DepSet.mem_pendingOver _ _ _).2 ⟨hv, he⟩)
    simpa using this

theorem executableOrder_spec (t : InstanceTable n) (e : Executed n) :
    Tarjan.Emitted t.committedAt (pendingDeps t e) (· ≤ ·) (executableOrder t e) ∧
      ∀ uid, t.committedAt uid = true →
        (∀ v, Tarjan.Reach (pendingDeps t e) uid v → t.committedAt v = true) →
        uid ∈ executableOrder t e := by
  have hnodes : ∀ v, t.committedAt v = true → v ∈ (roots t).toFinset := fun v hv =>
    List.mem_toFinset.2 ((mem_roots t v).2 hv)
  have hempty : Tarjan.Inv t.committedAt (pendingDeps t e) (· ≤ ·) ∅ Tarjan.Scratch.empty :=
    Tarjan.Inv.empty
  obtain ⟨hinv, -, hall⟩ := Tarjan.visitRoots_spec hnodes (List.toFinset_card_le _) (roots t)
    (fun v hv => (mem_roots t v).1 hv) _ hempty
  exact ⟨hinv.emitted, fun uid hu hr => hall uid ((mem_roots t uid).2 hu) hr⟩

end KCensus.Deps

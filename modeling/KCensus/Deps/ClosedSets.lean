import KCensus.Deps.Execution
import Mathlib.Order.Bounds.Defs
import Mathlib.Data.Set.Basic

namespace KCensus.Deps

open Lib

variable {n : Nat} [NeZero n]

-- Committed instances that wait for each other only.
def Closed (t : InstanceTable n) (e : Executed n) (ids : Set Uid) : Prop :=
  ∀ uid ∈ ids, t.committedAt uid = true ∧
    ∀ dep ∈ (depsAt t uid).pendingOver e, dep ≠ uid → dep ∈ ids

-- What nothing missing or uncommitted holds back.
def Executable (t : InstanceTable n) (e : Executed n) (uid : Uid) : Prop :=
  ∀ dep, Tarjan.Reach (pendingDeps t e) uid dep → t.committedAt dep = true

theorem mem_pendingDeps_iff (t : InstanceTable n) (e : Executed n) (uid dep : Uid) :
    dep ∈ pendingDeps t e uid ↔ dep ∈ (depsAt t uid).pendingOver e ∧ dep ≠ uid := by
  simp [pendingDeps]

namespace Executable

variable {t : InstanceTable n} {e : Executed n} {uid dep : Uid}

theorem committed (h : Executable t e uid) : t.committedAt uid = true :=
  h uid (Tarjan.Reach.refl uid)

theorem step (h : Executable t e uid) (hd : dep ∈ pendingDeps t e uid) : Executable t e dep :=
  fun v hv => h v ((Tarjan.Reach.edge hd).trans hv)

end Executable

theorem closed_executable (t : InstanceTable n) (e : Executed n) :
    Closed t e {uid | Executable t e uid} := by
  intro uid hu
  exact ⟨Executable.committed hu, fun dep hd hne =>
    Executable.step hu ((mem_pendingDeps_iff t e uid dep).2 ⟨hd, hne⟩)⟩

theorem Closed.executable {t : InstanceTable n} {e : Executed n} {ids : Set Uid}
    (h : Closed t e ids) {uid : Uid} (hu : uid ∈ ids) : Executable t e uid := by
  have hmem : ∀ dep, Tarjan.Reach (pendingDeps t e) uid dep → dep ∈ ids := by
    intro dep hd
    induction hd with
    | refl => exact hu
    | tail _ hvw ih =>
      obtain ⟨hp, hne⟩ := (mem_pendingDeps_iff _ _ _ _).1 hvw
      exact (h _ ih).2 _ hp hne
  exact fun dep hd => (h dep (hmem dep hd)).1

theorem isGreatest_executable (t : InstanceTable n) (e : Executed n) :
    IsGreatest {ids | Closed t e ids} {uid | Executable t e uid} :=
  ⟨closed_executable t e, fun _ hids _ hu => hids.executable hu⟩

theorem isGreatest_iff {t : InstanceTable n} {e : Executed n} {ids : Set Uid} :
    IsGreatest {ids | Closed t e ids} ids ↔ ∀ uid, uid ∈ ids ↔ Executable t e uid := by
  constructor
  · intro h uid
    rw [h.unique (isGreatest_executable t e)]
    exact Iff.rfl
  · intro h
    have hset : ids = {uid | Executable t e uid} := Set.ext h
    rw [hset]
    exact isGreatest_executable t e

theorem mem_executableOrder (t : InstanceTable n) (e : Executed n) (uid : Uid) :
    uid ∈ executableOrder t e ↔ Executable t e uid := by
  obtain ⟨hemit, hall⟩ := executableOrder_spec t e
  constructor
  · intro hu dep hd
    exact hemit.avail_of_mem dep (hemit.reach_mem hu hd)
  · intro hu
    exact hall uid hu.committed hu

theorem executableOrderFrom_empty (t : InstanceTable n) (e : Executed n) :
    executableOrderFrom t e Tarjan.Scratch.empty =
      (executableOrder t e, Tarjan.Scratch.empty) := by
  have hempty : Tarjan.Inv t.committedAt (pendingDeps t e) (· ≤ ·) ∅ Tarjan.Scratch.empty :=
    Tarjan.Inv.empty
  have hnodes : ∀ v, t.committedAt v = true → v ∈ (roots t).toFinset := fun v hv =>
    List.mem_toFinset.2 ((mem_roots t v).2 hv)
  have hinv := (Tarjan.visitRoots_spec hnodes (List.toFinset_card_le _) (roots t)
    (fun v hv => (mem_roots t v).1 hv) _ hempty).1
  have hmarked := Tarjan.visitRoots_marked t.committedAt (pendingDeps t e) (· ≤ ·)
    (roots t).length (roots t) Tarjan.Scratch.empty fun _ _ => ⟨rfl, rfl⟩
  exact Prod.ext rfl (hmarked.clear hinv.stack_nil)

theorem executableOrder_pairwise (t : InstanceTable n) (e : Executed n) :
    ∃ components, executableOrder t e = components.flatten ∧
      Tarjan.Condensed (pendingDeps t e) (· < ·) components := by
  obtain ⟨hemit, -⟩ := executableOrder_spec t e
  obtain ⟨components, hflat, hcond⟩ := hemit.condensed
  have hnd : components.flatten.Nodup := hflat ▸ hemit.nodup
  refine ⟨components, hflat.symm, hcond.nonempty, fun c hc => ?_, hcond.connected, hcond.below⟩
  exact (hcond.sorted c hc).imp₂ (fun _ _ hle hne => lt_of_le_of_ne hle hne)
    ((List.nodup_flatten.1 hnd).1 c hc)

theorem executable_order_correct (t : InstanceTable n) (e : Executed n) :
    let (order, scratch) := executableOrderFrom t e Tarjan.Scratch.empty
    order.Nodup ∧
      IsGreatest {ids | Closed t e ids} {uid | uid ∈ order} ∧
      (∃ components, order = components.flatten ∧
        Tarjan.Condensed (pendingDeps t e) (· < ·) components) ∧
      (∀ uid, scratch.index uid = 0 ∧ scratch.lowlink uid = 0) ∧
      (executableOrderFrom t e scratch).1 = order := by
  rw [executableOrderFrom_empty]
  refine ⟨(executableOrder_spec t e).1.nodup, isGreatest_iff.2 (mem_executableOrder t e),
    executableOrder_pairwise t e, fun _ => ⟨rfl, rfl⟩, ?_⟩
  exact congrArg Prod.fst (executableOrderFrom_empty t e)

def named (i : Nat) (replica : Fin 3) : Uid := uidAt i replica

def committedWith (deps : List Uid) : Instance 3 :=
  (Instance.new 0 0 [] (DepSet.new 3)).commit (deps.foldl DepSet.insert (DepSet.new 3))

-- Two commands that name each other, and one that names a command nobody has heard of.
def knot : InstanceTable 3 :=
  (((InstanceTable.new 3).insert (named 0 0) (committedWith [named 0 1])).insert (named 0 1)
    (committedWith [named 0 0])).insert (named 0 2) (committedWith [named 1 0])

example : executableOrder knot (Executed.new 3) = [named 0 0, named 0 1] := by decide +kernel

theorem executable_order_correct_knot :
    IsGreatest {ids | Closed knot (Executed.new 3) ids}
      {uid | uid ∈ (executableOrderFrom knot (Executed.new 3) Tarjan.Scratch.empty).1} :=
  (executable_order_correct knot (Executed.new 3)).2.1

end KCensus.Deps

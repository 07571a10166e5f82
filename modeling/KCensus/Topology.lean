import Mathlib.Data.Fintype.Card
import Mathlib.Data.List.FinRange
import Mathlib.Algebra.GroupWithZero.Nat
import Mathlib.Order.Lattice.Nat

namespace KCensus

-- The sizes of the concrete clusters.
instance neZero_two : NeZero 2 := ⟨by decide⟩

instance neZero_three : NeZero 3 := ⟨by decide⟩

instance neZero_four : NeZero 4 := ⟨by decide⟩

-- Durations are numbers of nanoseconds; this is `Duration::MAX`.
def durationMax : Nat := 2 ^ 64 * 1000000000 - 1

structure Topology (n : Nat) where
  replicas : Finset (Fin n)
  aliveReplicas : Finset (Fin n)
  linkLatency : Fin n → Fin n → Nat
  alive_subset : aliveReplicas ⊆ replicas

namespace Topology

variable {n : Nat} (topology : Topology n)

def nbReplicas : Nat := topology.replicas.card

def isAlive (pid : Fin n) : Bool := pid ∈ topology.aliveReplicas

def aliveList : List (Fin n) := (List.finRange n).filter topology.isAlive

@[simp] theorem mem_aliveList {pid : Fin n} :
    pid ∈ topology.aliveList ↔ pid ∈ topology.aliveReplicas := by
  simp [aliveList, isAlive]

theorem nodup_aliveList : topology.aliveList.Nodup :=
  (List.nodup_finRange n).filter _

theorem toFinset_aliveList : topology.aliveList.toFinset = topology.aliveReplicas := by
  ext pid
  simp

theorem length_aliveList : topology.aliveList.length = topology.aliveReplicas.card := by
  rw [← topology.toFinset_aliveList, List.toFinset_card_of_nodup topology.nodup_aliveList]

theorem card_alive_le : topology.aliveReplicas.card ≤ topology.nbReplicas :=
  Finset.card_le_card topology.alive_subset

-- Two majorities of the replicas have a live replica in common.
theorem exists_common {s t : Finset (Fin n)} (hs : s ⊆ topology.aliveReplicas)
    (ht : t ⊆ topology.aliveReplicas) (hsc : 1 + topology.nbReplicas / 2 ≤ s.card)
    (htc : 1 + topology.nbReplicas / 2 ≤ t.card) : ∃ pid ∈ s, pid ∈ t := by
  by_contra hno
  have hd : Disjoint s t := Finset.disjoint_left.mpr fun pid h1 h2 => hno ⟨pid, h1, h2⟩
  have hu := Finset.card_le_card (Finset.union_subset hs ht)
  rw [Finset.card_union_of_disjoint hd] at hu
  have := topology.card_alive_le
  omega

end Topology

end KCensus

import Mathlib.Data.Fintype.Card
import Mathlib.Data.Finset.Card

namespace KCensus.Deps

variable {n : Nat}

-- `coordinator` is what every process was told by the plan.
inductive DepMode (n : Nat) where
  | ePaxos (coordinator : Fin n → Fin n)
  | swiftPaxos (leader : Fin n) (quorum : Option (Finset (Fin n)))

def DepMode.Valid (alive : Finset (Fin n)) (majority : Nat) : DepMode n → Prop
  | ePaxos coordinator =>
      (∀ p, coordinator p ∈ alive) ∧ ∀ p ∈ alive, coordinator p = p
  | swiftPaxos leader quorum =>
      leader ∈ alive ∧
        ∀ members, quorum = some members →
          leader ∈ members ∧ members ⊆ alive ∧ majority ≤ members.card

structure Cluster (n : Nat) where
  alive : Finset (Fin n)
  nbReplicas : Nat
  mode : DepMode n
  acks : Bool
  crossShard : Bool
  alive_le : alive.card ≤ nbReplicas
  mode_valid : mode.Valid alive (1 + nbReplicas / 2)

namespace Cluster

variable (c : Cluster n)

def isSwift : Bool :=
  match c.mode with
  | .ePaxos _ => false
  | .swiftPaxos _ _ => true

def batchAcks : Bool := c.acks && c.isSwift

def perKeyDeps : Bool := c.crossShard

def slowQuorum : Nat := 1 + c.nbReplicas / 2

def fastQuorum : Nat :=
  match c.mode with
  | .ePaxos _ => max ((c.nbReplicas * 3 - 1) / 4) c.slowQuorum
  | .swiftPaxos _ (some _) => c.slowQuorum
  | .swiftPaxos _ none => max ((c.nbReplicas * 3 - 1) / 4 + 1) c.slowQuorum

def readLeader : Option (Fin n) :=
  match c.mode with
  | .ePaxos _ => none
  | .swiftPaxos leader _ => some leader

def leader (coordinatorPid : Fin n) : Fin n :=
  match c.mode with
  | .ePaxos _ => coordinatorPid
  | .swiftPaxos leader _ => leader

def isReplica (pid : Fin n) : Bool := pid ∈ c.alive

def nonReplicas : List (Fin n) := (List.finRange n).filter (· ∉ c.alive)

def reachable : Nat := c.alive.card

def inFastQuorum (pid : Fin n) : Bool :=
  c.isReplica pid &&
    match c.mode with
    | .ePaxos _ => true
    | .swiftPaxos _ quorum => quorum.all (pid ∈ ·)

def swiftFastQuorumReached (endorsers : Finset (Fin n)) : Bool :=
  match c.mode with
  | .ePaxos _ => false
  | .swiftPaxos leader quorum =>
      match quorum with
      | some members => members ⊆ endorsers
      | none => leader ∈ endorsers && decide (c.fastQuorum ≤ endorsers.card)

theorem isReplica_leader {c : Cluster n} {pid : Fin n} (hs : c.isSwift = true) :
    c.isReplica (c.leader pid) = true := by
  have hv := c.mode_valid
  unfold isSwift at hs
  cases hm : c.mode with
  | ePaxos coordinator =>
    rw [hm] at hs
    cases hs
  | swiftPaxos leader quorum =>
    rw [hm] at hv
    simp only [isReplica, Cluster.leader, hm, decide_eq_true_eq]
    exact hv.1

theorem isReplica_of_inFastQuorum {c : Cluster n} {pid : Fin n} (h : c.inFastQuorum pid = true) :
    c.isReplica pid = true := (Bool.and_eq_true_iff.1 h).1

theorem slow_le_fast (c : Cluster n) : c.slowQuorum ≤ c.fastQuorum := by
  unfold fastQuorum
  split
  · exact Nat.le_max_right _ _
  · exact Nat.le_refl _
  · exact Nat.le_max_right _ _

theorem slow_le_of_reached {c : Cluster n} {endorsers : Finset (Fin n)}
    (h : c.swiftFastQuorumReached endorsers = true) : c.slowQuorum ≤ endorsers.card := by
  have hv := c.mode_valid
  unfold swiftFastQuorumReached at h
  cases hm : c.mode with
  | ePaxos coordinator =>
    rw [hm] at h
    cases h
  | swiftPaxos leader quorum =>
    rw [hm] at h hv
    cases quorum with
    | some members =>
      simp only [decide_eq_true_eq] at h
      exact Nat.le_trans (hv.2 members rfl).2.2 (Finset.card_le_card h)
    | none =>
      simp only [Bool.and_eq_true, decide_eq_true_eq] at h
      exact Nat.le_trans c.slow_le_fast h.2

theorem quorums_meet {c : Cluster n} {a b : Finset (Fin n)} (ha : a ⊆ c.alive) (hb : b ⊆ c.alive)
    (hca : c.slowQuorum ≤ a.card) (hcb : c.slowQuorum ≤ b.card) : ∃ q, q ∈ a ∧ q ∈ b := by
  by_contra hn
  push Not at hn
  have hdisj : Disjoint a b := Finset.disjoint_left.2 hn
  have hle := Finset.card_le_card (Finset.union_subset ha hb)
  rw [Finset.card_union_of_disjoint hdisj] at hle
  have := c.alive_le
  unfold slowQuorum at hca hcb
  omega

theorem isReplica_of_coordinates {c : Cluster n} {me : Fin n} (hs : c.isSwift = false)
    (hc : ∀ coordinator, c.mode = .ePaxos coordinator → coordinator me = me) :
    c.isReplica me = true := by
  have hv := c.mode_valid
  unfold isSwift at hs
  cases hm : c.mode with
  | ePaxos coordinator =>
    rw [hm] at hv
    rw [isReplica, decide_eq_true_eq, ← hc coordinator hm]
    exact hv.1 me
  | swiftPaxos leader quorum =>
    rw [hm] at hs
    cases hs

end Cluster

end KCensus.Deps

import KCensus.Topology
import Mathlib.Data.Finset.Union
import Mathlib.Order.Disjoint

namespace KCensus.Propagation

variable {n : Nat}

abbrev Knowledge (n : Nat) := Finset (Fin n)

-- What stops the plan: the source panics at these points.
inductive PlanPanic where
  | indexOutOfBounds
  | assertion
deriving DecidableEq, Repr

structure TriangularPath (n : Nat) where
  first : Fin n
  second : Fin n
  totalLatency : Nat
deriving DecidableEq

structure KnowledgeLevel (n : Nat) where
  time : Nat
  k : Fin n → Knowledge n
  trianglesCount : Nat

def isValidKnowledge (pid : Fin n) (knowledge : Fin n → Knowledge n) (minQuorum : Nat) : Bool :=
  let quorum := Finset.univ.biUnion knowledge
  decide (quorum = knowledge pid) && decide (minQuorum ≤ quorum.card)

def deducers (quorumA : Knowledge n) (knowledgeA : Fin n → Knowledge n) (quorumB : Knowledge n)
    (knowledgeB : Fin n → Knowledge n) : Finset (Fin n) :=
  Finset.univ.filter fun p => ¬ Disjoint quorumA (knowledgeB p) ∨ ¬ Disjoint quorumB (knowledgeA p)

def areCompatible (a : Fin n) (knowledgeA : Fin n → Knowledge n) (b : Fin n)
    (knowledgeB : Fin n → Knowledge n) (minQuorum : Nat) : Bool :=
  let quorumA := knowledgeA a
  let quorumB := knowledgeB b
  if quorumB.card < minQuorum then false
  else decide (minQuorum ≤ (deducers quorumA knowledgeA quorumB knowledgeB).card)

theorem deducers_comm (quorumA : Knowledge n) (knowledgeA : Fin n → Knowledge n)
    (quorumB : Knowledge n) (knowledgeB : Fin n → Knowledge n) :
    deducers quorumA knowledgeA quorumB knowledgeB =
      deducers quorumB knowledgeB quorumA knowledgeA := by
  simp only [deducers, or_comm]

theorem deducers_mono {quorumA quorumA' quorumB quorumB' : Knowledge n}
    {knowledgeA knowledgeA' knowledgeB knowledgeB' : Fin n → Knowledge n}
    (hqa : quorumA ⊆ quorumA') (ha : ∀ p, knowledgeA p ⊆ knowledgeA' p)
    (hqb : quorumB ⊆ quorumB') (hb : ∀ p, knowledgeB p ⊆ knowledgeB' p) :
    deducers quorumA knowledgeA quorumB knowledgeB ⊆
      deducers quorumA' knowledgeA' quorumB' knowledgeB' := by
  intro p hp
  simp only [deducers, Finset.mem_filter, Finset.mem_univ, true_and] at hp ⊢
  rcases hp with h | h
  · exact Or.inl fun hd => h (hd.mono hqa (hb p))
  · exact Or.inr fun hd => h (hd.mono hqb (ha p))

theorem areCompatible_iff {a b : Fin n} {knowledgeA knowledgeB : Fin n → Knowledge n}
    {minQuorum : Nat} :
    areCompatible a knowledgeA b knowledgeB minQuorum = true ↔
      minQuorum ≤ (knowledgeB b).card ∧
        minQuorum ≤ (deducers (knowledgeA a) knowledgeA (knowledgeB b) knowledgeB).card := by
  simp only [areCompatible]
  split
  · simp only [Bool.false_eq_true, false_iff, not_and]
    omega
  · simp only [decide_eq_true_eq]
    exact ⟨fun h => ⟨by omega, h⟩, And.right⟩

-- The tables of `LatencyTables` that the search reads; the path latencies are given.
structure LatencyTables (n : Nat) where
  maxQuorum : Nat
  minQuorum : Nat
  pathLatencies : Fin n → Fin n → Nat
  quorum3pPathRtts : Fin n → Fin n → List Nat

def LatencyTables.new (topology : Topology n) (pathLatencies : Fin n → Fin n → Nat) :
    LatencyTables n :=
  let maxFaults := (topology.nbReplicas - 1) / 2
  { maxQuorum := topology.nbReplicas - maxFaults
    minQuorum := max (maxFaults + 1) (1 + topology.nbReplicas / 2)
    pathLatencies
    quorum3pPathRtts := fun src dest =>
      (topology.aliveList.map fun replica =>
        pathLatencies src replica + pathLatencies replica dest).mergeSort (· ≤ ·) }

def indexed {α : Type*} (xs : List α) (i : Nat) : Except PlanPanic α :=
  match xs[i]? with
  | some x => .ok x
  | none => .error .indexOutOfBounds

def LatencyTables.quorumPath (t : LatencyTables n) (src : Fin n) : List Nat :=
  t.quorum3pPathRtts src src

def triangularPaths (topology : Topology n) (t : LatencyTables n) (proposer leader : Fin n) :
    List (TriangularPath n) :=
  (topology.aliveList.flatMap fun first =>
    topology.aliveList.map fun second =>
      { first, second
        totalLatency := t.pathLatencies proposer first + t.pathLatencies first second
          + t.pathLatencies second leader }).mergeSort (·.totalLatency ≤ ·.totalLatency)

def learnTriangle (knowledges : Fin n → Knowledge n) (t : TriangularPath n) : Fin n → Knowledge n :=
  Function.update knowledges t.second (insert t.first (knowledges t.second))

-- `ti` is how many triangles came before.
def triangleLoop (leader : Fin n) (minQuorum : Nat) (minLat maxLat : Nat) :
    List (TriangularPath n) → Nat → (Fin n → Knowledge n) →
      Except PlanPanic (List (KnowledgeLevel n))
  | [], _, _ => .ok []
  | t :: ts, ti, knowledges =>
      if maxLat < t.totalLatency then .ok []
      else
        let knowledges := learnTriangle knowledges t
        if t.totalLatency < minLat then triangleLoop leader minQuorum minLat maxLat ts (ti + 1) knowledges
        else if ts.head?.any (·.totalLatency = t.totalLatency) then
          triangleLoop leader minQuorum minLat maxLat ts (ti + 1) knowledges
        else if ¬ minQuorum ≤ (knowledges leader).card then .error .assertion
        else if ¬ isValidKnowledge leader knowledges minQuorum then .error .assertion
        else
          match triangleLoop leader minQuorum minLat maxLat ts (ti + 1) knowledges with
          | .error e => .error e
          | .ok levels =>
              .ok ({ time := t.totalLatency, k := knowledges, trianglesCount := ti + 1 } :: levels)

def knowledgeLevels (topology : Topology n) (t : LatencyTables n) (proposer leader : Fin n) :
    Except PlanPanic (List (KnowledgeLevel n)) := do
  let minLat ← indexed (t.quorum3pPathRtts proposer leader) (t.minQuorum - 1)
  let maxRtt ← indexed (t.quorumPath leader) (t.maxQuorum - 1)
  triangleLoop leader t.minQuorum minLat (minLat + maxRtt) (triangularPaths topology t proposer leader)
    0 fun _ => ∅

end KCensus.Propagation

import KCensus.Propagation.Knowledge
import KCensus.Lib.Loops

namespace KCensus.Propagation

variable {n : Nat}

structure BestSol (n : Nat) where
  leaders : Fin n → Fin n
  levels : Fin n → Nat
  sumOfLatencies : Nat

structure LevelSearchData (n : Nat) where
  leaders : Fin n → Fin n
  knowledgeLevels : Fin n → Fin n → List (KnowledgeLevel n)
  compatibleLevels : Fin n → List (Fin n → Nat)
  usefulLevels : Fin n → List Bool
  maxLevels : Fin n → Nat
  minQuorum : Nat

namespace LevelSearchData

variable (data : LevelSearchData n)

def levelsOf (pid : Fin n) : List (KnowledgeLevel n) :=
  data.knowledgeLevels pid (data.leaders pid)

def knowledgeLevel (pid : Fin n) (level : Nat) : Except PlanPanic (KnowledgeLevel n) :=
  indexed (data.levelsOf pid) level

def areCompatible (a : Fin n) (levelA : Nat) (b : Fin n) (levelB : Nat) :
    Except PlanPanic Bool := do
  let kA ← data.knowledgeLevel a levelA
  let kB ← data.knowledgeLevel b levelB
  return Propagation.areCompatible (data.leaders a) kA.k (data.leaders b) kB.k data.minQuorum

-- `while !are_compatible(a, level, b, 0) { level += 1 }`, with `left` levels from `level` on.
def raiseLevel (a b : Fin n) : Nat → Nat → Except PlanPanic Nat
  | 0, _ => .error .indexOutOfBounds
  | left + 1, level => do
      if ← data.areCompatible a level b 0 then return level
      else raiseLevel a b left (level + 1)

def maxLevel (a : Fin n) : Except PlanPanic Nat :=
  (List.finRange n).foldlM
    (fun level b => data.raiseLevel a b ((data.levelsOf a).length - level) level) 0

-- `while b_level > 0 && are_compatible(a, a_level, b, b_level - 1) { b_level -= 1 }`
def lowerLevel (a : Fin n) (aLevel : Nat) (b : Fin n) : Nat → Except PlanPanic Nat
  | 0 => return 0
  | bLevel + 1 => do
      if ← data.areCompatible a aLevel b bLevel then lowerLevel a aLevel b bLevel
      else return bLevel + 1

def compatibilityLoop (a : Fin n) : List Nat → (Fin n → Nat) → List Bool → List (Fin n → Nat) →
    Except PlanPanic (List Bool × List (Fin n → Nat))
  | [], _, useful, compatible => return (useful, compatible)
  | aLevel :: aLevels, currentLevels, useful, compatible => do
      let lowered ← Lib.tabulate (fun b => data.lowerLevel a aLevel b (currentLevels b))
        (List.finRange n) currentLevels
      let compatibilityChanged := (List.finRange n).any fun b => lowered b < currentLevels b
      compatibilityLoop a aLevels lowered (useful ++ [compatible.isEmpty || compatibilityChanged])
        (compatible ++ [lowered])

end LevelSearchData

-- The loop over the processes that come after `pidA`: levels, `new_curr_total_time` and
-- `new_min_total_time`.
def requireLevels (data : LevelSearchData n) (pidA : Fin n) (levelA : Nat) (minLevels : Fin n → Nat) :
    List (Fin n) → (Fin n → Nat) → Nat → Nat → Except PlanPanic ((Fin n → Nat) × Nat × Nat)
  | [], levels, currTotal, minTotal => return (levels, currTotal, minTotal)
  | pidB :: pids, levels, currTotal, minTotal => do
      let minLevelB ← data.knowledgeLevel pidB (minLevels pidB)
      let reqLevels ← indexed (data.compatibleLevels pidA) levelA
      let levels :=
        if reqLevels pidB > levels pidB then Function.update levels pidB (reqLevels pidB) else levels
      let levelB ← data.knowledgeLevel pidB (levels pidB)
      requireLevels data pidA levelA minLevels pids levels (currTotal + levelB.time)
        (minTotal + minLevelB.time)

def levelLoop (data : LevelSearchData n) (pidA : Fin n) (pids : List (Fin n))
    (minLevels : Fin n → Nat) (partialTotalTime : Nat)
    (search : BestSol n → (Fin n → Nat) → Nat → Except PlanPanic (BestSol n))
    (levelA : Nat) (best : BestSol n) : Except PlanPanic (ForInStep (BestSol n)) := do
  let useful ← indexed (data.usefulLevels pidA) levelA
  if !useful then return .yield best
  let kA ← data.knowledgeLevel pidA levelA
  let partialTotalTime := partialTotalTime + kA.time
  let (levels, newCurrTotalTime, newMinTotalTime) ←
    requireLevels data pidA levelA minLevels pids (Function.update minLevels pidA levelA)
      partialTotalTime partialTotalTime
  if best.sumOfLatencies ≤ newMinTotalTime then return .done best
  if best.sumOfLatencies ≤ newCurrTotalTime then return .yield best
  if ¬ partialTotalTime < best.sumOfLatencies then throw .assertion
  if pids.isEmpty then
    return .yield
      { leaders := data.leaders, levels := levels, sumOfLatencies := partialTotalTime }
  let best ← search best levels partialTotalTime
  return .yield best

def bestAvgSearchInner (data : LevelSearchData n) :
    List (Fin n) → BestSol n → (Fin n → Nat) → Nat → Except PlanPanic (BestSol n)
  | [], _, _, _ => .error .indexOutOfBounds
  | pidA :: pids, best, minLevels, partialTotalTime =>
      Lib.forUntil
        (levelLoop data pidA pids minLevels partialTotalTime (bestAvgSearchInner data pids))
        (List.range' (minLevels pidA) (data.maxLevels pidA + 1 - minLevels pidA)) best

def bestAvgSearch (best : BestSol n) (leaders : Fin n → Fin n)
    (knowledgeLevels : Fin n → Fin n → List (KnowledgeLevel n)) (topology : Topology n)
    (minQuorum : Nat) : Except PlanPanic (BestSol n) := do
  let partialLatency :=
    ((List.finRange n).map fun proposer => topology.linkLatency (leaders proposer) proposer).sum
  let data : LevelSearchData n :=
    { leaders := leaders, knowledgeLevels := knowledgeLevels, compatibleLevels := fun _ => []
      usefulLevels := fun _ => [], maxLevels := fun _ => 0, minQuorum := minQuorum }
  let minLatency ← (List.finRange n).foldlM
    (fun minLatency pid => do
      let level ← data.knowledgeLevel pid 0
      return minLatency + level.time) partialLatency
  if minLatency > best.sumOfLatencies then return best
  let maxLevels ← Lib.tabulate data.maxLevel (List.finRange n) data.maxLevels
  let tables ← Lib.tabulate
    (fun a => data.compatibilityLoop a (List.range (data.levelsOf a).length) maxLevels [] [])
    (List.finRange n) fun _ => ([], [])
  bestAvgSearchInner
    { data with
      maxLevels := maxLevels, usefulLevels := fun a => (tables a).1
      compatibleLevels := fun a => (tables a).2 }
    (List.finRange n) best (fun _ => 0) partialLatency

def bestLeadersSearch (knowledgeLevels : Fin n → Fin n → List (KnowledgeLevel n))
    (topology : Topology n) (minQuorum : Nat) :
    List (Fin n) → BestSol n → (Fin n → Fin n) → Except PlanPanic (BestSol n)
  | [], best, leaders => bestAvgSearch best leaders knowledgeLevels topology minQuorum
  | proposer :: proposers, best, prevLeaders =>
      Lib.forUntil
        (fun leader best => do
          if topology.isAlive proposer && decide (leader ≠ proposer) then return .yield best
          let best ← bestLeadersSearch knowledgeLevels topology minQuorum proposers best
            (Function.update prevLeaders proposer leader)
          return .yield best)
        (topology.aliveList.mergeSort
          fun l l' => topology.linkLatency l proposer ≤ topology.linkLatency l' proposer)
        best

def allKnowledgeLevels (topology : Topology n) (t : LatencyTables n) :
    Except PlanPanic (Fin n → Fin n → List (KnowledgeLevel n)) :=
  Lib.tabulate
    (fun proposer =>
      Lib.tabulate
        (fun leader =>
          if topology.isAlive proposer && decide (leader ≠ proposer) then .ok []
          else knowledgeLevels topology t proposer leader)
        topology.aliveList fun _ => [])
    (List.finRange n) fun _ _ => []

-- The part of `kcensus_plan` up to the choice of leaders and levels.
def requirementSearch [NeZero n] (topology : Topology n) (t : LatencyTables n) :
    Except PlanPanic (BestSol n) := do
  let knowledgeLevels ← allKnowledgeLevels topology t
  let best ← bestLeadersSearch knowledgeLevels topology t.minQuorum (List.finRange n)
    { leaders := fun _ => 0, levels := fun _ => 0, sumOfLatencies := durationMax } fun _ => 0
  if best.sumOfLatencies = durationMax then throw .assertion
  return best

end KCensus.Propagation

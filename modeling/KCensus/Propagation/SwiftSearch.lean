import KCensus.Propagation.Knowledge
import KCensus.Lib.Loops

namespace KCensus.Propagation

variable {n : Nat}

-- The tables of `LatencyTables` that `swift_paxos_plan` reads.
structure LinkTables (n : Nat) where
  majQuorum : Nat
  linkRtts : Fin n → Fin n → Nat
  quorum3pLinkRtts : Fin n → Fin n → List Nat

def LinkTables.new (topology : Topology n) : LinkTables n where
  majQuorum := topology.nbReplicas - (topology.nbReplicas - 1) / 2
  linkRtts := fun src dest => topology.linkLatency src dest + topology.linkLatency dest src
  quorum3pLinkRtts := fun src dest =>
    (topology.aliveList.map fun replica =>
      topology.linkLatency src replica + topology.linkLatency replica dest).mergeSort (· ≤ ·)

def LinkTables.quorumLink (t : LinkTables n) (src : Fin n) : List Nat := t.quorum3pLinkRtts src src

structure SwiftPaxosPlan (n : Nat) where
  leader : Fin n
  fixedFastQuorum : Option (Finset (Fin n))
  latencies : Fin n → Nat
  expectsSlowAcks : Finset (Fin n)

structure SwiftBest (n : Nat) where
  total : Nat
  leader : Fin n
  quorum : Option (Finset (Fin n))
  latencies : Fin n → Nat
  expectsSlowAcks : Finset (Fin n)

structure SwiftSearch (n : Nat) where
  leader : Fin n
  candidates : List (Fin n)
  suffixSorted : List (Fin n → List Nat)
  mpaxos : Fin n → Nat
  linkRtts : Fin n → Fin n → Nat

def sumOf (latencies : Fin n → Nat) : Nat := ((List.finRange n).map latencies).sum

def fastPaxosQuorum (topology : Topology n) (majQuorum : Nat) : Nat :=
  max ((topology.nbReplicas * 3 - 1) / 4 + 1) majQuorum

-- The delays from `requester` to the replicas and back, once each has the leader's proposal too.
def throughLeader (topology : Topology n) (leader requester : Fin n) : List Nat :=
  (topology.aliveList.map fun replica =>
    max (topology.linkLatency requester replica)
      (topology.linkLatency requester leader + topology.linkLatency leader replica) +
        topology.linkLatency replica requester).mergeSort (· ≤ ·)

def leaderPriorities (topology : Topology n) (t : LinkTables n) :
    Except PlanPanic (List (Fin n)) := do
  let keys ← Lib.tabulate (fun leader => indexed (t.quorumLink leader) (t.majQuorum - 1))
    topology.aliveList fun _ => 0
  return topology.aliveList.mergeSort fun a b => keys a ≤ keys b

def swiftMpaxosLatencies (topology : Topology n) (t : LinkTables n) :
    Except PlanPanic (Fin n → Fin n → Nat) :=
  Lib.tabulate
    (fun leader =>
      Lib.tabulate
        (fun requester => indexed (throughLeader topology leader requester) (t.majQuorum - 1))
        (List.finRange n) fun _ => 0)
    (List.finRange n) fun _ _ => 0

def quorumRtts (topology : Topology n) (t : LinkTables n) (requester : Fin n) : List Nat :=
  (topology.aliveList.map fun replica => t.linkRtts requester replica).mergeSort (· ≤ ·)

def tryFullSize (topology : Topology n) (t : LinkTables n) (mpaxos : Fin n → Fin n → Nat)
    (best : SwiftBest n) (leader : Fin n) : Except PlanPanic (SwiftBest n) := do
  let fast ← Lib.tabulate
    (fun requester => do
      let rtt ← indexed (quorumRtts topology t requester)
        (fastPaxosQuorum topology t.majQuorum - 1)
      return max rtt (t.linkRtts requester leader))
    (List.finRange n) fun _ => 0
  let latencies := fun r => if fast r < mpaxos leader r then fast r else mpaxos leader r
  if sumOf latencies ≤ best.total then
    return { total := sumOf latencies, leader := leader, quorum := none, latencies := latencies
             expectsSlowAcks := Finset.univ.filter fun r => ¬ fast r < mpaxos leader r }
  else return best

def fullSizeLoop (topology : Topology n) (t : LinkTables n) (mpaxos : Fin n → Fin n → Nat)
    (leaders : List (Fin n)) (best : SwiftBest n) : Except PlanPanic (SwiftBest n) :=
  if fastPaxosQuorum topology t.majQuorum < topology.aliveList.length then
    leaders.foldlM (tryFullSize topology t mpaxos) best
  else return best

namespace SwiftSearch

variable (search : SwiftSearch n)

def complete (fast : Fin n → Nat) (chosen : List (Fin n)) (best : SwiftBest n) : SwiftBest n :=
  let latencies := fun r => min (fast r) (search.mpaxos r)
  if sumOf latencies < best.total then
    { total := sumOf latencies, leader := search.leader, quorum := some chosen.toFinset
      latencies := latencies
      expectsSlowAcks := Finset.univ.filter fun r => search.mpaxos r < fast r }
  else best

def stillToCome (start slots : Nat) : Except PlanPanic (Fin n → Nat) :=
  Lib.tabulate
    (fun r => do
      let rtts ← indexed search.suffixSorted start
      indexed (rtts r) (slots - 1))
    (List.finRange n) fun _ => 0

-- The subtraction that bounds the loop underflows when there are too few candidates.
def explore : Nat → Nat → (Fin n → Nat) → List (Fin n) → SwiftBest n →
    Except PlanPanic (SwiftBest n)
  | 0, _, fast, chosen, best => return search.complete fast chosen best
  | slots + 1, start, fast, chosen, best => do
      let nearest ← search.stillToCome start (slots + 1)
      let bound := sumOf fun r => min (max (fast r) (nearest r)) (search.mpaxos r)
      if best.total ≤ bound then return best
      if search.candidates.length < slots + 1 then throw .assertion
      (List.range' start (search.candidates.length - (slots + 1) + 1 - start)).foldlM
        (fun best next => do
          let member ← indexed search.candidates next
          explore slots (next + 1) (fun r => max (fast r) (search.linkRtts r member))
            (chosen ++ [member]) best)
        best

end SwiftSearch

def swiftCandidates (topology : Topology n) (t : LinkTables n) (leader : Fin n) : List (Fin n) :=
  let distance := fun candidate => sumOf fun r => t.linkRtts r candidate
  (topology.aliveList.filter (· ≠ leader)).mergeSort fun a b => distance b ≤ distance a

def swiftSearch (topology : Topology n) (t : LinkTables n) (mpaxos : Fin n → Fin n → Nat)
    (leader : Fin n) : SwiftSearch n :=
  let candidates := swiftCandidates topology t leader
  { leader := leader
    candidates := candidates
    suffixSorted := (List.range (candidates.length + 1)).map fun start r =>
      ((candidates.drop start).map fun c => t.linkRtts r c).mergeSort (· ≤ ·)
    mpaxos := mpaxos leader
    linkRtts := t.linkRtts }

def searchLeader (topology : Topology n) (t : LinkTables n) (mpaxos : Fin n → Fin n → Nat)
    (best : SwiftBest n) (leader : Fin n) : Except PlanPanic (SwiftBest n) :=
  let search := swiftSearch topology t mpaxos leader
  if t.majQuorum = 0 ∨ search.candidates.length < t.majQuorum - 1 then return best
  else search.explore (t.majQuorum - 1) 0 (fun r => t.linkRtts r leader) [leader] best

def swiftPaxosPlan [NeZero n] (topology : Topology n) (t : LinkTables n) :
    Except PlanPanic (SwiftPaxosPlan n) := do
  let leaders ← leaderPriorities topology t
  let mpaxos ← swiftMpaxosLatencies topology t
  let best : SwiftBest n :=
    { total := durationMax, leader := 0, quorum := none, latencies := fun _ => durationMax
      expectsSlowAcks := ∅ }
  let best ← fullSizeLoop topology t mpaxos leaders best
  let best ← topology.aliveList.foldlM (searchLeader topology t mpaxos) best
  return { leader := best.leader, fixedFastQuorum := best.quorum, latencies := best.latencies
           expectsSlowAcks := best.expectsSlowAcks }

end KCensus.Propagation

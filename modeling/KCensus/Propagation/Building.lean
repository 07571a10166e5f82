import KCensus.Lib.Timeline
import KCensus.Propagation.Graphs
import KCensus.Propagation.PlanBounds

namespace KCensus.Propagation

open Lib (Timeline first? last?)

variable {n : Nat}

-- The shortest paths of `LatencyTables` node by node: whom a message to `dest` comes from in the
-- end, and whom it goes to first.
structure Routes (n : Nat) where
  prevDest : Fin n → Fin n → Fin n
  nextSrc : Fin n → Fin n → Fin n

namespace KnowledgeState

variable (state other : KnowledgeState n)

-- What `other` knows is known here too.
def merge : KnowledgeState n :=
  { state with
    knowledge := fun i => state.knowledge i ∪ other.knowledge i
    remoteStates := fun i => max (state.remoteStates i) (other.remoteStates i) }

def learn (msg : MessageId n) (known : Knowledge n) : KnowledgeState n :=
  { state with
    dependencies := insert msg state.dependencies
    knowledge := Function.update state.knowledge msg.dest (state.knowledge msg.dest ∪ known) }

def arriving (dest : Fin n) (time : Nat) : KnowledgeState n where
  knowledge := Function.update state.knowledge dest (insert dest (state.knowledge dest))
  remoteStates := Function.update state.remoteStates dest time
  dependencies := ∅
  neededBy := []

def initial (proposer node : Fin n) : KnowledgeState n where
  knowledge := fun i => if node = proposer ∧ i = proposer then {proposer} else ∅
  remoteStates := fun _ => 0
  dependencies := ∅
  neededBy := []

end KnowledgeState

-- The graph of one proposer while it is being built.
structure Draft (n : Nat) where
  messageTimes : Fin n → Fin n → Finset Nat
  shouldIncludeValue : Finset (MessageId n)
  states : Fin n → Timeline (KnowledgeState n)

-- Where the walk along a path has come to, and whether still by shortest paths from the proposer.
structure Walk (n : Nat) where
  currentTime : Nat
  maxSlack : Nat
  current : Fin n
  fromProposer : Bool

namespace Draft

def start (proposer : Fin n) : Draft n where
  messageTimes := fun _ _ => ∅
  shouldIncludeValue := ∅
  states := fun node => { times := {0}, value := fun _ => .initial proposer node }

variable (draft : Draft n)

-- The earliest message from `src` to `dest` that is not too late.
def reusable (src dest : Fin n) (currentTime deadline : Nat) : Option Nat :=
  first? ((draft.messageTimes src dest).filter fun t => currentTime ≤ t ∧ t ≤ deadline)

def post (msg : MessageId n) (valueOnly : Bool) : Except PlanPanic (Draft n) :=
  if msg.time ∈ draft.messageTimes msg.src msg.dest then .error .assertion
  else
    match (draft.states msg.src).get? msg.time with
    | none => .error .assertion
    | some state =>
        .ok
          { messageTimes :=
              Function.update draft.messageTimes msg.src
                (Function.update (draft.messageTimes msg.src) msg.dest
                  (insert msg.time (draft.messageTimes msg.src msg.dest)))
            shouldIncludeValue :=
              if valueOnly then insert msg draft.shouldIncludeValue else draft.shouldIncludeValue
            states :=
              Function.update draft.states msg.src ((draft.states msg.src).set msg.time
                { state with neededBy := state.neededBy ++ [msg] }) }

def addState (dest : Fin n) (time : Nat) : Except PlanPanic (Draft n) :=
  match last? ((draft.states dest).times.filter (· < time)) with
  | none => .error .assertion
  | some prev =>
      .ok { draft with
            states := Function.update draft.states dest ((draft.states dest).set time
              (((draft.states dest).value prev).arriving dest time)) }

def deliver (msg : MessageId n) (arrival : Nat) : Except PlanPanic (Draft n) :=
  if msg.src = msg.dest then .error .assertion
  else
    match (draft.states msg.dest).get? arrival, (draft.states msg.src).get? msg.time with
    | some state, some srcState =>
        let ks := (state.learn msg (srcState.knowledge msg.src)).merge srcState
        .ok { draft with
              states := Function.update draft.states msg.dest
                (((draft.states msg.dest).set arrival ks).mapAfter arrival (·.merge ks)) }
    | _, _ => .error .assertion

end Draft

section

variable (topology : Topology n) (routes : Routes n) (proposer leader : Fin n)

-- One step of a walk; `step` counts the checkpoints passed.
def hop (valueOnly : Bool) (step : Nat) (target : Fin n) (s : Draft n × Walk n) :
    Except PlanPanic (Draft n × Walk n) := do
  let (draft, walk) := s
  let src := walk.current
  let dest := routes.nextSrc src target
  if src = dest then throw .assertion
  let fromProposer :=
    walk.fromProposer && (decide (step = 0) || decide (routes.prevDest proposer dest = src))
  let deadline := walk.currentTime + walk.maxSlack
  let found := draft.reusable src dest walk.currentTime deadline
  let msg : MessageId n :=
    { proposer := proposer, src := src, dest := dest, time := found.getD walk.currentTime }
  let draft ←
    if found.isSome then pure draft
    else do
      let draft ← draft.post msg valueOnly
      if valueOnly ≠ fromProposer then throw .assertion
      pure draft
  let arrival := msg.time + topology.linkLatency src dest
  let draft ←
    if arrival ∈ (draft.states dest).times then pure draft
    else do
      if found.isSome then throw .assertion
      draft.addState dest arrival
  let draft ← draft.deliver msg arrival
  return (draft, { currentTime := arrival, maxSlack := deadline - msg.time, current := dest
                   fromProposer := fromProposer })

-- `while current != target`, at most `hops` times; shortest paths visit nobody twice.
def walkTo (valueOnly : Bool) (step : Nat) (target : Fin n) :
    Nat → Draft n × Walk n → Except PlanPanic (Draft n × Walk n)
  | hops, s =>
      if s.2.current = target then return s
      else
        match hops with
        | 0 => .error .assertion
        | hops + 1 => do
            let s ← hop topology routes proposer valueOnly step target s
            walkTo valueOnly step target hops s

def passCheckpoint (valueOnly : Bool) (s : Draft n × Walk n) (checkpoint : Nat × Fin n) :
    Except PlanPanic (Draft n × Walk n) :=
  let (step, target) := checkpoint
  let (draft, walk) := s
  walkTo topology routes proposer valueOnly step target n
    (draft, { walk with
              fromProposer := walk.fromProposer && !(decide (0 < step) && decide (target = leader)) })

def checkpoints (valueOnly : Bool) (t : TriangularPath n) : List (Nat × Fin n) :=
  if valueOnly then [(0, t.first), (1, t.first), (2, t.first)]
  else [(0, t.first), (1, t.second), (2, leader)]

def leaderKnows (leaderLatency : Nat) (valueOnly : Bool) (draft : Draft n) (t : TriangularPath n) :
    Except PlanPanic Bool :=
  if valueOnly then .ok false
  else
    match last? ((draft.states leader).times.filter (· ≤ leaderLatency)) with
    | none => .error .assertion
    | some last => .ok (decide (t.first ∈ ((draft.states leader).value last).knowledge t.second))

def slackOf (leaderLatency : Nat) (valueOnly : Bool) (t : TriangularPath n) : Except PlanPanic Nat :=
  if t.totalLatency ≤ leaderLatency then .ok (leaderLatency - t.totalLatency)
  else if valueOnly then .ok 0
  else .error .assertion

def followPath (leaderLatency : Nat) (valueOnly : Bool) (draft : Draft n) (t : TriangularPath n) :
    Except PlanPanic (Draft n) := do
  let known ← leaderKnows leader leaderLatency valueOnly draft t
  if known then return draft
  let maxSlack ← slackOf leaderLatency valueOnly t
  let (draft, _) ← (checkpoints leader valueOnly t).foldlM
    (passCheckpoint topology routes proposer leader valueOnly)
    (draft, { currentTime := 0, maxSlack := maxSlack, current := proposer, fromProposer := true })
  return draft

def valueOnlyPaths (t : LatencyTables n) : List (TriangularPath n) :=
  ((List.finRange n).reverse.map fun pid =>
    { first := pid, second := pid, totalLatency := t.pathLatencies proposer pid }).mergeSort
      (·.totalLatency ≤ ·.totalLatency)

-- The values first, then the triangles, the longest ones first.
def buildGraph (t : LatencyTables n) (level : KnowledgeLevel n) : Except PlanPanic (Draft n) := do
  let triangles := (triangularPaths topology t proposer leader).take level.trianglesCount
  let last ← indexed triangles (level.trianglesCount - 1)
  if last.totalLatency ≠ level.time then throw .assertion
  let draft ← (valueOnlyPaths proposer t).reverse.foldlM
    (followPath topology routes proposer leader level.time true) (.start proposer)
  let draft ← triangles.reverse.foldlM
    (followPath topology routes proposer leader level.time false) draft
  if draft.shouldIncludeValue.card ≠ n - 1 then throw .assertion
  return draft

def minProposerLatency (t : LatencyTables n) : Except PlanPanic Nat :=
  topology.aliveList.foldlM
    (fun least leader => do
      let lat ← indexed (t.quorum3pPathRtts proposer leader) (t.minQuorum - 1)
      return min least (lat + topology.linkLatency leader proposer))
    durationMax

end

structure KCensusPlan (n : Nat) where
  graphs : Fin n → Draft n
  leaders : Fin n → Fin n
  latencies : Fin n → Nat

def planProposer (topology : Topology n) (routes : Routes n) (t : LatencyTables n)
    (minEffort : MinEffortPlan n) (kl : Fin n → Fin n → List (KnowledgeLevel n)) (best : BestSol n)
    (proposer : Fin n) : Except PlanPanic (Draft n × Nat) := do
  let leader := best.leaders proposer
  let level ← indexed (kl proposer leader) (best.levels proposer)
  let least ← minProposerLatency topology proposer t
  if minEffort.latencies proposer ≠ least then throw .assertion
  let draft ← buildGraph topology routes proposer leader t level
  return (draft, level.time + topology.linkLatency leader proposer)

def kcensusPlan [NeZero n] (topology : Topology n) (routes : Routes n) (t : LatencyTables n)
    (minEffort : MinEffortPlan n) : Except PlanPanic (KCensusPlan n) := do
  let kl ← allKnowledgeLevels topology t
  let best ← requirementSearch topology t
  let built ← Lib.tabulate (planProposer topology routes t minEffort kl best) (List.finRange n)
    fun proposer => (.start proposer, 0)
  let latencies := fun proposer => (built proposer).2
  if sumOf latencies ≠ best.sumOfLatencies then throw .assertion
  return { graphs := fun proposer => (built proposer).1, leaders := best.leaders
           latencies := latencies }

end KCensus.Propagation

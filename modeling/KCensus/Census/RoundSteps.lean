import KCensus.Census.RoundState

namespace KCensus.Census

open Propagation (PropagationGraphs MessageId)

variable {n : Nat}

namespace RoundState

def new (majority : Nat) (myPid : Fin n) : RoundState n where
  myPid := myPid
  majority := majority
  nodeStates := NodeState.new
  propagationStates := fun _ => 0
  proposers := []
  leaders := []
  receivedMsgs := ∅
  paxosAcceptCount := 0

def clear (r : RoundState n) : RoundState n :=
  { new r.majority r.myPid with nodeStates := fun pid => NodeState.new (r.nodeStates pid).id }

def getMyV (r : RoundState n) : Option Nat := r.myState.v

def preparedFor (r : RoundState n) : Option (Fin n) := r.myState.preparedFor

def amIFrozen (r : RoundState n) : Bool := r.myState.isFrozen

def setMyState (r : RoundState n) (s : NodeState n) : RoundState n :=
  { r with nodeStates := Function.update r.nodeStates r.myPid s }

-- `none` is a failed assertion, here and below.
def kcensusTryAccept (r : RoundState n) (v : Nat) (proposer : Fin n) (graph : PropagationGraphs n) :
    Option (RoundState n × Bool) :=
  if r.getMyV.isSome ∨ r.hasConflict then some (r, false)
  else if r.amIFrozen then none
  else
    match r.myState.acceptWithKState v proposer 0 graph with
    | none => none
    | some state =>
        let leader := graph.getLeader proposer
        match r.proposers with
        | [] =>
            if r.leaders = [] then
              some ({ r.setMyState state with proposers := [proposer], leaders := [leader] }, true)
            else none
        | proposers =>
            if proposers = [proposer] ∧ r.leaders = [leader] then some (r.setMyState state, true)
            else none

def updateKState (r : RoundState n) (time : Nat) (graph : PropagationGraphs n) :
    Option (RoundState n) :=
  if r.getMyV.isNone then none else (r.myState.updateKState time graph).map r.setMyState

def freezeAndPrepareFor (r : RoundState n) (leader : Fin n) : RoundState n :=
  r.setMyState (r.myState.prepareFor leader)

def freezeAndPrepareForLeaders (r : RoundState n) : RoundState n :=
  r.leaders.foldl freezeAndPrepareFor r

def receiveMsg (r : RoundState n) (msg : MessageId n) : Option (RoundState n) :=
  if msg ∈ r.receivedMsgs then none
  else some { r with receivedMsgs := insert msg r.receivedMsgs }

def hasReceived (r : RoundState n) (dependencies : Finset (MessageId n)) : Bool :=
  dependencies ⊆ r.receivedMsgs

def setPropagationState (r : RoundState n) (proposer : Fin n) (stateId : Nat) : RoundState n :=
  { r with propagationStates := Function.update r.propagationStates proposer stateId }

def getPaxosAcceptRound (r : RoundState n) : Option (Fin n) := r.myState.paxosAcceptRound

def canStartPaxosAccept (r : RoundState n) (aliveReplicas : Finset (Fin n)) : Bool :=
  if r.preparedFor ≠ some r.myPid ∨ compareRounds (some r.myPid) r.getPaxosAcceptRound ≠ .gt then
    false
  else
    decide (r.majority ≤
      (aliveReplicas.filter fun pid => (r.nodeStates pid).preparedFor = some r.myPid).card)

-- The highest fallback vote of the census with its value.
def highestVote (r : RoundState n) : Option (Option (Fin n) × Option Nat) :=
  (List.finRange n).foldlM
    (fun best pid =>
      let node := r.nodeStates pid
      if compareRounds node.paxosAcceptRound best.1 = .gt then
        if node.v.isSome then some (node.paxosAcceptRound, node.v) else none
      else some best)
    (none, none)

-- Whether the report of `pid` rules out that the command of `proposer` was committed.
def rulesOut (r : RoundState n) (graph : PropagationGraphs n) (proposer : Fin n)
    (quorum : Propagation.Knowledge n) (pid : Fin n) : Option Bool :=
  let node := r.nodeStates pid
  if !node.isFrozen then some false
  else if node.kProposer ≠ some proposer then
    match node.kProposer with
    | some other => (graph.getKnowledge other pid node.kStateNanos).map fun k => ¬ Disjoint k quorum
    | none => some (decide (pid ∈ quorum))
  else some (decide (graph.getFinalStateId proposer pid ≠ node.kStateNanos))

def survives (r : RoundState n) (graph : PropagationGraphs n) (proposer : Fin n)
    (quorum : Propagation.Knowledge n) : List (Fin n) → Option Bool
  | [] => some true
  | pid :: pids => do
      if ← r.rulesOut graph proposer quorum pid then return false
      r.survives graph proposer quorum pids

def adoptAmong (r : RoundState n) (graph : PropagationGraphs n) :
    List (Fin n) → Option (Option Nat)
  | [] => some none
  | proposer :: proposers => do
      let v ← (r.nodeStates proposer).v
      let requiredK ← graph.getFinalKnowledge proposer
      let quorum := requiredK (graph.getLeader proposer)
      if ← r.survives graph proposer quorum (List.finRange n) then return some v
      r.adoptAmong graph proposers

def adopt (r : RoundState n) (graph : PropagationGraphs n) : Option (Option Nat) :=
  match r.highestVote with
  | none => none
  | some (some _, v) => some v
  | some (none, _) => r.adoptAmong graph r.proposers

def paxosAccept (r : RoundState n) (leader : Fin n) (v : Nat) : RoundState n :=
  let (state, counts) := r.myState.paxosAccept leader v
  let r := r.setMyState state
  if counts && leader = r.myPid then { r with paxosAcceptCount := r.paxosAcceptCount + 1 } else r

def recvPaxosAccept (r : RoundState n) (src : Fin n) (v : Nat) : RoundState n :=
  let (state, counts) := (r.nodeStates src).paxosAccept r.myPid v
  let r := { r with nodeStates := Function.update r.nodeStates src state }
  if counts then { r with paxosAcceptCount := r.paxosAcceptCount + 1 } else r

def canPaxosCommit (r : RoundState n) : Bool := r.majority ≤ r.paxosAcceptCount

def isClear (r : RoundState n) : Bool :=
  r.proposers.isEmpty && r.leaders.isEmpty && decide (r.receivedMsgs = ∅) &&
    decide (r.paxosAcceptCount = 0) && decide (∀ p, r.propagationStates p = 0) &&
    decide (∀ p, r.nodeStates p = NodeState.new (r.nodeStates p).id)

end RoundState

end KCensus.Census

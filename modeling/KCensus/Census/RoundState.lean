import KCensus.Census.NodeState

namespace KCensus.Census

open Propagation (PropagationGraphs MessageId)

variable {n : Nat}

def buildRemoteState (graph : PropagationGraphs n) (v : Nat) (msgId : MessageId n) (pid : Fin n) :
    Option (NodeState n) := do
  let state ← (graph.schedule msgId.proposer msgId.src).get msgId.time
  let remoteStateId := state.remoteStates pid
  if remoteStateId ≠ 0 ∨ pid = msgId.proposer then
    (NodeState.new pid).acceptWithKState v msgId.proposer remoteStateId graph
  else return NodeState.new pid

structure RoundState (n : Nat) where
  myPid : Fin n
  majority : Nat
  nodeStates : Fin n → NodeState n
  propagationStates : Fin n → Nat
  proposers : List (Fin n)
  leaders : List (Fin n)
  receivedMsgs : Finset (MessageId n)
  paxosAcceptCount : Nat

-- What a Spread says about every process: explicitly, or by its place in the schedule.
structure Report (n : Nat) where
  v : Nat
  msgId : MessageId n
  remoteStates : Option (Fin n → NodeState n)

def Report.nodeState (report : Report n) (graph : PropagationGraphs n) (pid : Fin n) :
    Option (NodeState n) :=
  match report.remoteStates with
  | some remoteStates => some (remoteStates pid)
  | none => buildRemoteState graph report.v report.msgId pid

namespace RoundState

def myState (r : RoundState n) : NodeState n := r.nodeStates r.myPid

def hasConflict (r : RoundState n) : Bool :=
  decide (1 < r.proposers.length) || r.myState.paxosAcceptRound.isSome

def canKcensusCommit (r : RoundState n) (graph : PropagationGraphs n) : Bool :=
  match r.myState.kProposer with
  | some proposer =>
      decide (graph.getLeader proposer = r.myPid) &&
        decide (graph.getFinalStateId proposer r.myPid = r.myState.kStateNanos)
  | none => false

def hearProposer (r : RoundState n) (graph : PropagationGraphs n) (proposer : Fin n) :
    RoundState n :=
  let leader := graph.getLeader proposer
  { r with
    proposers := r.proposers ++ [proposer]
    leaders := if leader ∈ r.leaders then r.leaders else r.leaders ++ [leader] }

def updateRemoteState (report : Report n) (graph : PropagationGraphs n) (myProposer : Option (Fin n))
    (r : RoundState n) (pid : Fin n) : Option (RoundState n) := do
  let remote ← report.nodeState graph pid
  let order ← remote.partialCmp (r.nodeStates pid)
  if order ≠ .gt then return r
  if pid = r.myPid then none
  let r := { r with nodeStates := Function.update r.nodeStates pid remote }
  match remote.kProposer with
  | none => return r
  | some proposer =>
      if remote.paxosAcceptRound.isSome ∨ remote.v.isNone then none
      if proposer ∈ r.proposers then return r
      if some proposer = myProposer then none
      return r.hearProposer graph proposer

def updateRemoteStates (r : RoundState n) (graph : PropagationGraphs n) (report : Report n) :
    Option (RoundState n) :=
  (List.finRange n).foldlM (updateRemoteState report graph r.myState.kProposer) r

end RoundState

end KCensus.Census

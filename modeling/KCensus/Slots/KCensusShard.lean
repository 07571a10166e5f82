import KCensus.Census.RoundSteps
import KCensus.Slots.World

namespace KCensus.Slots

open Census (RoundState)
open Propagation (PropagationGraphs MessageId KnowledgeState)

variable {n : Nat}

abbrev KCensusShard (n : Nat) := ConsensusShard n (RoundState n)

abbrev KCTurn (n : Nat) := Turn n (RoundState n)

-- A deployment: every process was given the same graphs.
structure KCensusSettings (n : Nat) where
  cluster : Cluster n
  graphs : PropagationGraphs n

namespace KCensusSettings

open Turn

variable [NeZero n] (k : KCensusSettings n) (me : Fin n) (order : HashOrder n)

def orFail {α : Type} : Option α → Except Panic α
  | some a => .ok a
  | none => .error .failed

def newRoundState : RoundState n := RoundState.new k.cluster.majority me

def changeRound (g : RoundState n → RoundState n) : KCTurn n Unit :=
  modify fun s => { s with roundState := g s.roundState }

def commitSlot (v : Nat) : KCTurn n (CommandBatch n) := advance v RoundState.clear

def valueForMsg (msg : KCensusMsg n) : KCTurn n (Option (CommandBatch n)) := do
  let s ← get
  if msg.includesValue then
    match s.queuedCommands.lookup msg.getV with
    | some value => return some value
    | none => throw .failed
  else return none

def sendTo (msg : KCensusMsg n) (dest : Fin n) : KCTurn n Unit := do
  let value ← valueForMsg msg
  Turn.send k.cluster me (.kcensusM msg) value dest

def broadcastPaxosAccept (v : Nat) (newValue : Bool) : KCTurn n Unit := do
  let s ← get
  let msg := KCensusMsg.paxosAccept s.slot me v newValue
  let value ← valueForMsg msg
  Turn.broadcast me (.kcensusM msg) value

def commitAndBroadcast (v : Nat) (fast : Bool) : KCTurn n (CommandBatch n) := do
  let s ← get
  check (s.roundState.getMyV = some v) .failed
  emit (.decided s.slot v fast)
  priorityBroadcast me (.commit s.slot v) none (getRequester v)
  commitSlot v

-- What the sender of a Spread says about the others: nothing as long as it saw no conflict.
def remoteStates (v : Nat) (proposer : Fin n) (r : RoundState n) :
    Except Panic (Option (Fin n → Census.NodeState n)) :=
  if r.hasConflict then
    if (r.nodeStates proposer).v = some v ∨ (r.nodeStates proposer).paxosAcceptRound.isSome then
      .ok (some r.nodeStates)
    else .error .failed
  else .ok none

def spreadOne (v : Nat) (proposer : Fin n) (newValue valueOnly : Bool) (msgId : MessageId n) :
    KCTurn n Unit := do
  check (!valueOnly || newValue) .failed
  let withValue := newValue && k.graphs.shouldIncludeValue msgId
  if valueOnly && !withValue then return ()
  else
    check (msgId.src = me) .failed
    check (msgId.proposer = proposer) .failed
    if valueOnly then sendTo k me (.spreadValueOnly v msgId) msgId.dest
    else
      let s ← get
      let remote ← lift fun s => remoteStates v proposer s.roundState
      sendTo k me (.spread s.slot v msgId remote withValue newValue) msgId.dest

def spreadAll (v : Nat) (proposer : Fin n) (newValue valueOnly : Bool) :
    List (MessageId n) → KCTurn n Unit
  | [] => return ()
  | msgId :: msgIds => do
      spreadOne k me v proposer newValue valueOnly msgId
      spreadAll v proposer newValue valueOnly msgIds

def innerSpread (v : Nat) (proposer : Fin n) (stateId : Nat) (newValue valueOnly : Bool) :
    KCTurn n Unit := do
  let msgIds ← lift fun _ => orFail (k.graphs.getNewMessagesToSpread proposer me stateId)
  spreadAll k me v proposer newValue valueOnly msgIds

def spread (v : Nat) (proposer : Fin n) (stateId : Nat) (newValue : Bool) : KCTurn n Unit :=
  innerSpread k me v proposer stateId newValue false

def tryAccept (v : Nat) (proposer : Fin n) : KCTurn n Bool := do
  let (r, accepted) ← lift fun s => orFail (s.roundState.kcensusTryAccept v proposer k.graphs)
  changeRound fun _ => r
  return accepted

def proposeAndSpread (v : Nat) (newValue : Bool) : KCTurn n Unit := do
  let accepted ← tryAccept k v me
  check accepted .failed
  spread k me v me 0 newValue

def graphSpreadValueOnly (prevMsgId : MessageId n) (v : Nat) : KCTurn n Unit := do
  let s ← get
  if v ∈ s.queuedCommands then
    innerSpread k me v prevMsgId.proposer (k.graphs.msgArrivalStateId prevMsgId) true true
  else return ()

def graphSpreadNewValueOnly (v : Nat) : KCTurn n Unit := innerSpread k me v me 0 true true

-- The schedule loop; `true` is its end without a conflict.
def followSchedule (v : Nat) (proposer : Fin n) (newValue conflict : Bool) :
    List (Nat × KnowledgeState n) → KCTurn n Bool
  | [] => return !conflict
  | (nextState, knowledge) :: later => do
      let s ← get
      if s.roundState.hasReceived knowledge.dependencies then
        changeRound (·.setPropagationState proposer nextState)
        if conflict then pure ()
        else onRound fun r => orFail (r.updateKState nextState k.graphs)
        spread k me v proposer nextState newValue
        followSchedule v proposer newValue conflict later
      else return false

def adopted (v : Nat) : KCTurn n (Nat × Bool) := do
  let adoptedV ← lift fun s => orFail (s.roundState.adopt k.graphs)
  match adoptedV with
  | some adoptedV => return (adoptedV, false)
  | none =>
      let s ← get
      match s.newBatchToPropose order with
      | some batch =>
          let v ← storeNewCommand batch
          return (v, true)
      | none => return (v, false)

def fallBack (v : Nat) (conflict : Bool) : KCTurn n Unit := do
  let s ← get
  if s.roundState.preparedFor = some me then
    check conflict .failed
    check (k.cluster.isReplica me) .failed
    if s.roundState.canStartPaxosAccept k.cluster.topology.aliveReplicas then
      let (adoptedV, newValue) ← adopted k order v
      broadcastPaxosAccept me adoptedV newValue
      changeRound (·.paxosAccept me adoptedV)
    else return ()
  else return ()

def updateRemoteStates (report : Census.Report n) : KCTurn n Unit :=
  onRound fun r => orFail (r.updateRemoteStates k.graphs report)

-- The conflict branch of a Spread with the assertion of its other side.
def settleConflict (explicitRemoteStates : Bool) : KCTurn n Bool := do
  let s ← get
  if s.roundState.hasConflict then
    leaveFastPath
    changeRound RoundState.freezeAndPrepareForLeaders
    return true
  else
    check (!explicitRemoteStates && !s.roundState.amIFrozen) .conflictUnseen
    return false

def absorb (report : Census.Report n) : KCTurn n Bool := do
  let s ← get
  let oldLeaderCount := s.roundState.leaders.length
  updateRemoteStates k report
  let accepted ← tryAccept k report.v report.msgId.proposer
  check (!accepted || decide (oldLeaderCount = 0)) .failed
  settleConflict report.remoteStates.isSome

def onSpread (report : Census.Report n) (newValue : Bool) :
    KCTurn n (Option (CommandBatch n)) := do
  let v := report.v
  let proposer := report.msgId.proposer
  let conflict ← absorb k report
  onRound fun r => orFail (r.receiveMsg report.msgId)
  let s ← get
  let reachedFinalKState ← followSchedule k me v proposer newValue conflict
    (k.graphs.laterStates proposer me (s.roundState.propagationStates proposer))
  if k.graphs.getLeader proposer = me ∧ reachedFinalKState = true then
    let value ← commitAndBroadcast me v true
    return some value
  else
    fallBack k me order v conflict
    return none

def onPaxosAccept (src leader : Fin n) (v : Nat) : KCTurn n (Option (CommandBatch n)) := do
  leaveFastPath
  changeRound (·.freezeAndPrepareFor leader)
  let s ← get
  if s.roundState.preparedFor ≠ some leader then return none
  else if leader ≠ me then
    check (leader = src) .failed
    changeRound (·.paxosAccept leader v)
    sendTo k me (.paxosAccept s.slot leader v false) leader
    return none
  else
    changeRound (·.recvPaxosAccept src v)
    let s ← get
    if s.roundState.canPaxosCommit then
      let value ← commitAndBroadcast me v false
      return some value
    else return none

def onMsg (src : Fin n) (msg : KCensusMsg n) : KCTurn n (Option (CommandBatch n)) := do
  let s ← get
  match msg with
  | .spread slot v msgId remoteStates withValue newValue =>
      if slot < s.slot then
        if withValue then
          check newValue .failed
          graphSpreadValueOnly k me msgId v
          return none
        else return none
      else
        check (slot = s.slot) .failed
        onSpread k me order ⟨v, msgId, remoteStates⟩ newValue
  | .spreadValueOnly v msgId =>
      graphSpreadValueOnly k me msgId v
      return none
  | .paxosAccept slot leader v _ =>
      if slot < s.slot ∨ k.cluster.isReplica me = false then return none
      else onPaxosAccept k me src leader v

def processMessage (msg : ConsensusMessage n) : KCTurn n (Option (CommandBatch n)) :=
  match msg.msg with
  | .kcensusM kcensusMsg => onMsg k me order msg.src kcensusMsg
  | _ => throw .failed

def proposeStart (value : CommandBatch n) (contention : Bool) : KCTurn n Unit := do
  let v ← storeNewCommand value
  if contention then graphSpreadNewValueOnly k me v else proposeAndSpread k me v true

def algorithm : ConsensusShardTrait n (RoundState n) where
  processMessage := processMessage k me order
  canForwardProposals := fun _ => true
  proposeStart := proposeStart k me
  reproposeStart := fun v => proposeAndSpread k me v false
  commitSlot := commitSlot
  hasFastPath := true
  getMyV := fun s => s.roundState.getMyV
  ongoing := fun s => !s.roundState.proposers.isEmpty
  shouldLead := fun _ => .ok (decide (me = k.cluster.leader))

def deployment : Deployment n (RoundState n) where
  cluster := k.cluster
  algorithm := k.algorithm
  newRoundState := k.newRoundState

end KCensusSettings

end KCensus.Slots

import KCensus.Slots.PaxosFamily.RoundState
import KCensus.Slots.World

namespace KCensus.Slots

variable {n : Nat}

inductive PFModeSetting (n : Nat) where
  | paxos
  | multiPaxos
  | multiPaxos3P
  | ePaxos
  | pando (delegates : Fin n → Fin n)
  | swiftPaxos (quorum : Option (Finset (Fin n)))
deriving DecidableEq

def PFModeSetting.isSwift : PFModeSetting n → Bool
  | swiftPaxos _ => true
  | _ => false

def PFModeSetting.isMultiPaxos : PFModeSetting n → Bool
  | multiPaxos => true
  | multiPaxos3P => true
  | _ => false

-- A deployment, as `lib.rs` sets it up.
structure PaxosFamily (n : Nat) where
  cluster : Cluster n
  mode : PFModeSetting n
  committers : Option (Fin n → Fin n)
  leaders_alive : ∀ p ∈ cluster.leaderPriority, p ∈ cluster.topology.aliveReplicas
  toAll_eq : cluster.sendPaxosMessagesToAll = mode.isSwift
  swift_leader : mode.isSwift = true → cluster.leaderPriority = [cluster.leader]
  swift_committers : mode.isSwift = true → committers = none

abbrev PaxosFamilyShard (n : Nat) := ConsensusShard n (PaxosFamilyRoundState n)

abbrev PFTurn (n : Nat) := Turn n (PaxosFamilyRoundState n)

namespace PaxosFamily

open Turn

variable [NeZero n] (f : PaxosFamily n) (me : Fin n) (order : HashOrder n)

def startingRound : WithBot (PaxosRound n) :=
  if f.mode.isMultiPaxos then (PaxosRound.zero.nextLeaderRound f.cluster.leader : PaxosRound n)
  else ⊥

def replica : Bool := f.cluster.isReplica me

def canPropose : Bool := f.replica me || f.mode.isSwift

def getCommitter (v : Nat) : Option (Fin n) :=
  match f.committers with
  | some committers => (getRequester v).map committers
  | none => if f.mode.isSwift then getRequester v else none

def getLeader (s : PaxosFamilyShard n) : Fin n :=
  if f.mode.isMultiPaxos then f.cluster.leader
  else
    (f.cluster.leaderPriority.find? fun leader =>
      f.cluster.isReplica leader &&
        s.queuedCommands.keys.any fun v => f.getCommitter v = some leader).getD f.cluster.leader

def shouldLead (s : PaxosFamilyShard n) : Except Panic Bool :=
  if me ≠ f.getLeader s || f.canPropose me then .ok (decide (me = f.getLeader s))
  else .error .failed

def delegateOrLeader (round : PaxosRound n) (rv : Option (RoundV n)) : Fin n :=
  match f.mode with
  | .pando delegates => delegates round.leader
  | .swiftPaxos _ =>
      match rv with
      | some (.fastV proposer _) => if round.leader ≠ me then proposer else round.leader
      | _ => round.leader
  | _ => round.leader

def roundOf (s : PaxosFamilyShard n) : Except Panic (PaxosRound n) :=
  match s.roundState.round with
  | some round => .ok round
  | none => .error .failed

def valueOf (s : PaxosFamilyShard n) : Except Panic Nat :=
  match s.roundState.getV with
  | some v => .ok v
  | none => .error .failed

omit [NeZero n] in
theorem value_of_ok {s : PaxosFamilyShard n} {v : Nat} (h : valueOf s = .ok v) :
    s.roundState.getV = some v := by
  rw [valueOf] at h
  split at h
  · cases h
    assumption
  · cases h

def rvOf (s : PaxosFamilyShard n) : Except Panic (RoundV n) :=
  match s.roundState.maxRv with
  | some rv => .ok rv
  | none => .error .failed

def changeRound (g : PaxosFamilyRoundState n → PaxosFamilyRoundState n) : PFTurn n Unit :=
  modify fun s => { s with roundState := g s.roundState }

def commitSlot (v : Nat) : PFTurn n (CommandBatch n) :=
  advance v fun r => (r.gotoRound f.startingRound).fullClear

def sendMsg (msg : PaxosMsg n) (dest : Fin n) : PFTurn n Unit :=
  Turn.send f.cluster me (.paxosM msg) none dest

def broadcastMsg (msg : PaxosMsg n) (withValue : Bool) : PFTurn n Unit := do
  let s ← get
  if withValue then
    match s.queuedCommands.lookup msg.getV with
    | some value => Turn.broadcast me (.paxosM msg) (some value)
    | none => throw .failed
  else Turn.broadcast me (.paxosM msg) none

def answerPrepare (dest : Fin n) : PFTurn n Unit := do
  let s ← get
  let round ← lift roundOf
  let rv ← lift rvOf
  sendMsg f me (.prepare s.slot round rv) dest

def broadcastAccept : PFTurn n Unit := do
  if f.mode.isSwift then pure () else leaveFastPath
  let s ← get
  let round ← lift roundOf
  let v ← lift valueOf
  broadcastMsg me (.accept s.slot round v) false

def toldCommitter (v : Nat) (leader : Fin n) : Option (Fin n) :=
  if f.mode = .multiPaxos3P ∨ f.mode.isSwift then
    (f.getCommitter v).filter fun committer => committer ≠ leader && committer ≠ me
  else none

def answerAccept : PFTurn n Unit := do
  let s ← get
  let round ← lift roundOf
  let v ← lift valueOf
  let msg := PaxosMsg.accept s.slot round v
  match f.toldCommitter me v round.leader with
  | some committer => sendMsg f me msg committer
  | none => pure ()
  sendMsg f me msg round.leader

def broadcastCommit : PFTurn n Unit := do
  let s ← get
  let v ← lift valueOf
  priorityBroadcast me (.commit s.slot v) none (getRequester v)

def castVote (round : PaxosRound n) (v : Nat) : PFTurn n Unit := do
  let s ← get
  if f.replica me then emit (.voted s.slot round v) else pure ()

def acceptFrom (src : Fin n) (round : PaxosRound n) (v : Nat) : PFTurn n Unit := do
  onRound fun r => r.receiveAccept f.cluster me src round v
  castVote f me round v

def acceptMine (round : PaxosRound n) : PFTurn n Unit := do
  onRound fun r => r.selfAccept f.cluster me round
  let v ← lift valueOf
  castVote f me round v

def acceptPhase (round : PaxosRound n) : PFTurn n Unit := do
  acceptMine f me round
  broadcastAccept f me

-- The commit sites that announce nothing; `fast` says by which route they got there.
def commitQuietly (v : Nat) (fast : Bool) : PFTurn n (Option (CommandBatch n)) := do
  let s ← get
  emit (.decided s.slot v fast)
  let value ← commitSlot f v
  return some value

def clientAnswer (src : Fin n) (round : PaxosRound n) (rv : RoundV n) :
    Option (Finset (Fin n)) → PFTurn n (Option (CommandBatch n)) := fun quorum =>
  match rv with
  | .fastV proposer v => do
      check (src ≠ round.leader) .failed
      onRound fun r => r.swiftAnswered me src proposer v quorum false
      let s ← get
      if s.roundState.swiftCanCommit f.cluster quorum.isSome then commitQuietly f v true
      else return none
  | .paxosV _ _ => throw .failed

def clientPrepare (src : Fin n) (round : PaxosRound n) (rv : RoundV n) :
    PFTurn n (Option (CommandBatch n)) :=
  if f.getCommitter rv.getV ≠ some me then return none
  else
    match f.mode with
    | .swiftPaxos quorum => clientAnswer f me src round rv quorum
    | _ => throw .failed

def clientVote (src : Fin n) (round : PaxosRound n) (v : Nat) :
    PFTurn n (Option (CommandBatch n)) := do
  acceptFrom f me src round v
  let s ← get
  if s.roundState.paxosCanCommit f.cluster then commitQuietly f v false else return none

def clientAccept (src : Fin n) (round : PaxosRound n) (v : Nat) :
    PFTurn n (Option (CommandBatch n)) :=
  if f.getCommitter v ≠ some me then return none
  else
    match f.mode with
    | .swiftPaxos quorum =>
        if src = round.leader then do
          onRound fun r => r.swiftAnswered me src me v quorum true
          let s ← get
          if s.roundState.swiftCanCommit f.cluster quorum.isSome then commitQuietly f v true
          else clientVote f me src round v
        else clientVote f me src round v
    | _ => throw .failed

def onFastAnswer (src : Fin n) (round : PaxosRound n) (rv : RoundV n) :
    PFTurn n (Option (CommandBatch n)) :=
  match rv with
  | .fastV proposer v => do
      onRound fun r => r.epaxosAnswered me src proposer v
      let s ← get
      if s.roundState.epaxosCanCommit f.cluster then
        broadcastCommit me
        commitQuietly f v true
      else
        match s.roundState.epaxosTryAdopt f.cluster order with
        | some v =>
            check (s.roundState.isPrepared f.cluster) .failed
            changeRound (·.adoptFromEpaxos v)
            acceptPhase f me round
            return none
        | none => return none
  | .paxosV _ _ => throw .failed

def onPromise (src : Fin n) (round : PaxosRound n) (rv : RoundV n) (wasPrepared : Bool) :
    PFTurn n (Option (CommandBatch n)) := do
  changeRound (·.receivePromise f.cluster me src rv)
  let s ← get
  if f.mode.isSwift then
    if round.leader ≠ me then clientPrepare f me src round rv
    else if s.roundState.lastAcceptedRound = ⊥ then
      acceptPhase f me round
      return none
    else return none
  else if f.mode = .ePaxos ∧ s.roundState.lastAcceptedRound = ⊥ then
    onFastAnswer f me order src round rv
  else if !wasPrepared && s.roundState.isPrepared f.cluster then
    acceptPhase f me round
    return none
  else return none

def onPrepare (src : Fin n) (round : PaxosRound n) (rv : RoundV n) :
    PFTurn n (Option (CommandBatch n)) := do
  let delegate := f.delegateOrLeader me round (some rv)
  changeRound fun r => if r.getV.isNone then r.paxosProposeV f.cluster me rv else r
  let s ← get
  if delegate ≠ me then
    if (f.mode.isSwift = true ∧ delegate = round.leader) ∨
        s.roundState.lastAcceptedRound = round then
      return none
    else
      answerPrepare f me delegate
      check (delegate = src || delegate ≠ round.leader) .failed
      return none
  else onPromise f me order src round rv (s.roundState.isPrepared f.cluster)

def acceptQuorum (round : PaxosRound n) (v : Nat) : PFTurn n (Option (CommandBatch n)) := do
  let s ← get
  if s.roundState.paxosCanCommit f.cluster then
    leaveFastPath
    if round.leader = me then broadcastCommit me
    else if f.getCommitter v = some me then
      match getRequester v with
      | none => throw .failed
      | some requester => if requester ≠ me then broadcastCommit me else pure ()
    else pure ()
    commitQuietly f v false
  else return none

def amCommitter (v : Nat) : Bool :=
  (decide (f.mode = .multiPaxos3P) || f.mode.isSwift) && decide (f.getCommitter v = some me)

def onLeaderAccept (src : Fin n) (round : PaxosRound n) (v : Nat) :
    PFTurn n (Option (CommandBatch n)) := do
  answerAccept f me
  if f.amCommitter me v then
    match f.mode with
    | .swiftPaxos quorum =>
        onRound fun r => r.swiftAnswered me src me v quorum true
        let s ← get
        if s.roundState.swiftCanCommit f.cluster quorum.isSome then commitQuietly f v true
        else acceptQuorum f me round v
    | _ => acceptQuorum f me round v
  else return none

def onAccept (src : Fin n) (round : PaxosRound n) (v : Nat) :
    PFTurn n (Option (CommandBatch n)) := do
  if f.mode.isSwift then pure () else leaveFastPath
  acceptFrom f me src round v
  if me ≠ round.leader then
    if src = f.delegateOrLeader me round none then onLeaderAccept f me src round v
    else
      check (f.amCommitter me v) .failed
      acceptQuorum f me round v
  else acceptQuorum f me round v

-- `false` is a message of an older slot or round.
def enterRound (src : Fin n) (slot : Nat) (round : PaxosRound n) : PFTurn n Bool := do
  let s ← get
  if slot < s.slot ∨ (round : WithBot (PaxosRound n)) < s.roundState.round then return false
  else
    changeRound fun r => if r.round < round then r.gotoRound round else r
    check (slot = s.slot) .failed
    check (f.cluster.isReplica src || f.mode.isSwift) .failed
    return true

-- An accept message of the current slot that came too late for its round.
def noteOutranked (slot : Nat) : PFTurn n (Option (CommandBatch n)) := do
  let s ← get
  if slot = s.slot then emit (.outranked slot) else pure ()
  return none

def processMessage (msg : ConsensusMessage n) : PFTurn n (Option (CommandBatch n)) :=
  if !f.replica me && !f.mode.isSwift then return none
  else
    match msg.msg with
    | .paxosM (.forwardRequest _) => return none
    | .paxosM (.prepare slot round rv) => do
        let entered ← enterRound f msg.src slot round
        if !entered then return none
        else if f.replica me then onPrepare f me order msg.src round rv
        else clientPrepare f me msg.src round rv
    | .paxosM (.accept slot round v) => do
        let entered ← enterRound f msg.src slot round
        if !entered then noteOutranked slot
        else if f.replica me then onAccept f me msg.src round v
        else clientAccept f me msg.src round v
    | _ => throw .failed

def proposedRound (r : PaxosFamilyRoundState n) : PaxosRound n :=
  (r.round.unbotD .zero).nextLeaderRound (if f.mode.isSwift then f.cluster.leader else me)

def leadsSwift : Bool := f.mode.isSwift && decide (f.cluster.leader = me)

def suggest (v : Nat) : PFTurn n (RoundV n) :=
  match f.mode with
  | .ePaxos => do
      onRound fun r => r.epaxosAnswered me me me v
      return .fastV me v
  | .swiftPaxos quorum => do
      onRound fun r => r.swiftProposeV f.cluster me v quorum (decide (f.cluster.leader = me))
      return .fastV me v
  | _ => return .paxosV ⊥ v

def propose (v : Nat) (withValue : Bool) : PFTurn n Unit := do
  let s ← get
  check (s.roundState.round = f.startingRound) .failed
  check s.roundState.getV.isNone .failed
  let round := f.proposedRound me s.roundState
  changeRound (·.gotoRound round)
  check (f.mode.isMultiPaxos == decide ((round : WithBot (PaxosRound n)) = f.startingRound)) .failed
  if f.mode.isMultiPaxos || f.leadsSwift me then
    changeRound (·.paxosProposeV f.cluster me (.paxosV ⊥ v))
    acceptMine f me round
    broadcastMsg me (.accept s.slot round v) withValue
  else
    let rv ← suggest f me v
    changeRound (·.paxosProposeV f.cluster me rv)
    broadcastMsg me (.prepare s.slot round rv) withValue

def forward (value : CommandBatch n) : PFTurn n Unit := do
  let v ← storeNewCommand value
  let s ← get
  priorityBroadcast me (.paxosM (.forwardRequest v)) (some value) (some (f.getLeader s))

def proposeNew (value : CommandBatch n) : PFTurn n Unit := do
  let v ← storeNewCommand value
  propose f me v true

def proposeStart (value : CommandBatch n) (contention : Bool) : PFTurn n Unit := do
  if !f.canPropose me || contention then forward f me value
  else if f.mode.isMultiPaxos then
    let lead ← lift (f.shouldLead me)
    if lead then proposeNew f me value else forward f me value
  else proposeNew f me value

def algorithm : ConsensusShardTrait n (PaxosFamilyRoundState n) where
  processMessage := processMessage f me order
  canForwardProposals := fun _ => true
  proposeStart := proposeStart f me
  reproposeStart := fun v => propose f me v false
  commitSlot := commitSlot f
  hasFastPath := decide (f.mode = .ePaxos) || f.mode.isSwift
  getMyV := fun s => s.roundState.getV
  ongoing := fun s => s.roundState.getV.isSome
  shouldLead := f.shouldLead me

def newRoundState : PaxosFamilyRoundState n := .new f.startingRound

def deployment : Deployment n (PaxosFamilyRoundState n) where
  cluster := f.cluster
  algorithm := f.algorithm
  newRoundState := fun _ => f.newRoundState

end PaxosFamily

end KCensus.Slots

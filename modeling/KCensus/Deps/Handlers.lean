import KCensus.Deps.Shard

namespace KCensus.Deps

variable {n : Nat} [NeZero n]

namespace DepShard

variable (c : Cluster n) (me : Fin n)

def swiftLeaderAccept (id : Uid) (myDeps : DepSet n) (s : DepShard n) : DepShard n :=
  s.withInstance id fun i =>
    let s := s.put id (((i.recordPreaccept me myDeps).accept myDeps).ackAccept me)
    if c.batchAcks then s.queueAck (.accept id myDeps) (requesterOf n id)
    else s.priorityBroadcast ⟨.accept id myDeps, none⟩ (requesterOf n id)

-- The part of `submit` that is not handed over to another process, up to the first decision.
def openInstance (id : Uid) (commands : List (Command n)) (s : DepShard n) : DepShard n :=
  let initDeps := s.depsFor c (keysOf commands)
  let i := Instance.new me (c.leader me) commands initDeps
  let i := if c.inFastQuorum me then i.recordPreaccept me initDeps else i
  let i := i.setCoordinatorDeps initDeps
  let s := s.noteSeen c id (keysOf commands)
  let s := { s with nextUid := s.nextUid.add n, instances := s.instances.insert id i }
  let s := (s.emit (.created id commands)).emit (.proposed id initDeps)
  let s := s.broadcast ⟨.preAccept id initDeps, some commands⟩
  if c.isSwift && decide (me = c.leader me) then s.swiftLeaderAccept c me id initDeps else s

def submit (commands : List (Command n)) (s : DepShard n) : DepShard n :=
  match c.mode with
  | .ePaxos coordinator =>
      if coordinator me ≠ me then s.send me ⟨.forward, some commands⟩ (coordinator me)
      else (s.openInstance c me s.nextUid commands).tryCommit c me s.nextUid
  | .swiftPaxos _ _ => (s.openInstance c me s.nextUid commands).tryCommit c me s.nextUid

def receiveRead (id : Nat) (src : Fin n) (seen : DepSet n) (s : DepShard n) : DepShard n :=
  { s with reads := s.reads.receive id src seen }

-- `submit_read` before it looks for a quorum.
def askReplicas (command : Command n) (s : DepShard n) : DepShard n :=
  let id := s.reads.nextId
  let s := { s with reads := s.reads.insert command }
  let s := s.emit (.readSubmitted id command)
  let s := if c.isReplica me then s.receiveRead id me (s.depsFor c [command.shard]) else s
  s.broadcast ⟨.readRequest id command.shard, none⟩

def submitRead (command : Command n) (s : DepShard n) : DepShard n :=
  (s.askReplicas c me command).serveReadyReads

def createInstance (id : Uid) (commands : List (Command n)) (s : DepShard n) : DepShard n :=
  let s := s.noteSeen c id (keysOf commands)
  let coordinatorPid := requesterOf n id
  let s := { s with
    instances := s.instances.insert id
      (Instance.new coordinatorPid (c.leader coordinatorPid) commands (DepSet.new n)) }
  s.emit (.created id commands)

def ownDeps (id : Uid) (coordinatorDeps : DepSet n) (keys : List Nat) (s : DepShard n) :
    DepSet n :=
  (if c.isSwift then s.depsFor c keys
   else coordinatorDeps.unionWith ((s.depsFor c keys).clearReplica (requesterOf n id))).withoutUid id

-- What a voter does with its own proposal.
def castVote (src : Fin n) (id : Uid) (myDeps : DepSet n) (echoes : Bool) (s : DepShard n) :
    DepShard n :=
  let s := s.emit (.proposed id myDeps)
  let acked := if echoes then none else some myDeps
  match c.mode with
  | .ePaxos _ => s.send me ⟨.preAcceptOk id acked, none⟩ src
  | .swiftPaxos leader _ =>
      if me = leader then s.swiftLeaderAccept c me id myDeps
      else if c.batchAcks then s.queueAck (.preAcceptOk id acked) (requesterOf n id)
      else s.priorityBroadcast ⟨.preAcceptOk id acked, none⟩ (requesterOf n id)

-- `on_pre_accept` before it looks for a quorum.
def answerPreAccept (src : Fin n) (id : Uid) (deps : DepSet n) (i : Instance n)
    (s : DepShard n) : DepShard n :=
  let myDeps := s.ownDeps c id deps (keysOf i.commands)
  let i := i.setCoordinatorDeps deps
  let i := if c.inFastQuorum src then i.recordPreaccept src deps else i
  if i.isSettled then s.put id i
  else
    let i := { i with deps := myDeps }
    if c.inFastQuorum me then
      (s.put id (i.recordPreaccept me myDeps)).castVote c me src id myDeps (myDeps = deps)
    else s.put id i

def onPreAccept (src : Fin n) (id : Uid) (deps : DepSet n) (s : DepShard n) : DepShard n :=
  s.withInstance id fun i => (s.answerPreAccept c me src id deps i).tryCommit c me id

def onPreAcceptOk (src : Fin n) (id : Uid) (deps : Option (DepSet n)) (s : DepShard n) :
    DepShard n :=
  s.withInstance id fun i =>
    match deps.or i.coordinatorDeps with
    | none => s.emit .panicked
    | some deps =>
        if i.isCommitted || i.hasPreaccept src then s
        else (s.put id (i.recordPreaccept src deps)).tryCommit c me id

def depsAreSettled (id : Uid) (deps : DepSet n) (s : DepShard n) : Bool :=
  (deps.pendingOver s.executed).all fun dep => dep = id || s.instances.settledAt dep

-- `on_accept` before it looks for a quorum.
def answerAccept (src : Fin n) (id : Uid) (deps : DepSet n) (i : Instance n) (s : DepShard n) :
    DepShard n :=
  let i := if c.isSwift then i else i.markLeftFastPath
  if i.isSettled then s.put id i
  else
    let i := (i.accept deps).ackAccept src
    let i := if c.isSwift then i.recordPreaccept src deps else i
    if c.isReplica me then
      let s := s.put id (i.ackAccept me)
      if c.isSwift then
        if c.batchAcks then s.queueAck (.acceptOk id) (requesterOf n id)
        else s.priorityBroadcast ⟨.acceptOk id, none⟩ (requesterOf n id)
      else s.send me ⟨.acceptOk id, none⟩ src
    else s.put id i

def onAccept (src : Fin n) (id : Uid) (deps : DepSet n) (s : DepShard n) : DepShard n :=
  let s := s.emit (.dispatchedAccept id deps (s.depsAreSettled id deps))
  s.withInstance id fun i => (s.answerAccept c me src id deps i).tryCommit c me id

def onAcceptOk (src : Fin n) (id : Uid) (s : DepShard n) : DepShard n :=
  s.withInstance id fun i =>
    if i.isCommitted ∨ src ∈ i.acceptAcked then s
    else (s.put id (i.ackAccept src)).tryCommit c me id

def defer (key : Uid) (src : Fin n) (msg : DepMsg n) (s : DepShard n) : DepShard n :=
  { s with
    parkedAccepts :=
      match msg with
      | .accept id _ => insert id s.parkedAccepts
      | _ => s.parkedAccepts
    deferred := s.deferred ++ [(key, src, msg)] }

def heldFor (key : Uid) (s : DepShard n) : List (Held n) :=
  (s.deferred.filter fun entry => entry.1 = key).map Prod.snd

def acceptIds (held : List (Held n)) : List Uid :=
  held.filterMap fun entry =>
    match entry.2 with
    | .accept id _ => some id
    | _ => none

-- `take_deferred` is `heldFor` for its answer and `release` for what it leaves behind.
def release (key : Uid) (s : DepShard n) : DepShard n :=
  { s with
    deferred := s.deferred.filter fun entry => entry.1 ≠ key
    parkedAccepts := s.parkedAccepts \ (acceptIds (s.heldFor key)).toFinset }

def firstUnsettled (id : Uid) (deps : DepSet n) (s : DepShard n) : Option Uid :=
  (deps.pendingOver s.executed).find? fun dep => dep ≠ id && !s.instances.settledAt dep

def blockedBy (msg : DepMsg n) (s : DepShard n) : Option Uid :=
  if c.isSwift = false ∨ s.parkedAccepts = ∅ ∨ c.isReplica me = false then none
  else
    match msg with
    | .accept id deps => s.firstUnsettled id deps
    | _ => none

def dispatch (src : Fin n) (msg : DepMsg n) (s : DepShard n) : DepShard n :=
  match msg with
  | .forward | .readRequest _ _ | .readResponse _ _ => s.emit .panicked
  | .preAccept id deps => s.onPreAccept c me src id deps
  | .preAcceptOk id deps => s.onPreAcceptOk c me src id deps
  | .accept id deps => s.onAccept c me src id deps
  | .acceptOk id => s.onAcceptOk c me src id
  | .commit id deps => s.onCommit me id deps

-- One turn of the loop in `deliver`, on the queue whose head is popped.
def deliverTurn (queue : List (Held n)) (s : DepShard n) : DepShard n × List (Held n) :=
  match queue with
  | [] => (s, [])
  | (src, msg) :: rest =>
      match msg.id with
      | none => (s.emit .panicked, rest)
      | some id =>
          if s.executed.contains id then (s, rest)
          else
            match s.blockedBy c me msg with
            | some dep =>
                ((s.emit (.blocked id dep (dep ∈ s.parkedAccepts))).defer dep src msg, rest)
            | none =>
                let s := s.dispatch c me src msg
                (s.release id, rest ++ s.heldFor id)

-- The end of `handle`, up to the first turn of the loop it enters.
def handleAbout (id : Uid) (src : Fin n) (packet : Packet n) (s : DepShard n) :
    DepShard n × List (Held n) :=
  if s.executed.contains id then (s, [])
  else if s.instances.containsKey id then s.deliverTurn c me [(src, packet.msg)]
  else
    match packet.value with
    | none => (s.defer id src packet.msg, [])
    | some commands => (s.createInstance c id commands).deliverTurn c me [(src, packet.msg)]

def handle (src : Fin n) (packet : Packet n) (s : DepShard n) : DepShard n × List (Held n) :=
  match packet.msg with
  | .readRequest id key => (s.send me ⟨.readResponse id (s.depsFor c [key]), none⟩ src, [])
  | .readResponse id seen => ((s.receiveRead id src seen).serveReadyReads, [])
  | msg =>
      match msg.id with
      | none =>
          match packet.value with
          | some commands => (s.submit c me commands, [])
          | none => (s.emit .panicked, [])
      | some id => s.handleAbout c me id src packet

def drainReady (s : DepShard n) : DepShard n := { s with ready := [] }

def canSleep (s : DepShard n) : Bool :=
  !c.perKeyDeps && s.instances.isEmpty && s.deferred.isEmpty && s.reads.isEmpty && s.ready.isEmpty

def fallAsleep (s : DepShard n) : SleepingDepShard n :=
  ⟨s.nextUid, s.reads.nextId, s.executed.watermark⟩

def wakeUp (state : SleepingDepShard n) : DepShard n :=
  { DepShard.new c me with
    nextUid := state.nextUid
    seen := state.watermark
    executed := (Executed.new n).setWatermark state.watermark
    reads := { (DepShard.new c me).reads with nextId := state.nextReadId } }

end DepShard

end KCensus.Deps

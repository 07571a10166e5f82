import KCensus.Deps.Cluster
import KCensus.Deps.Execution
import KCensus.Deps.Message
import KCensus.Deps.ReadTracker

namespace KCensus.Deps

variable {n : Nat} [NeZero n]

abbrev Held (n : Nat) := Fin n × DepMsg n

-- `deferred` lists the held messages of all keys in arrival order, each under its key.
structure DepShard (n : Nat) [NeZero n] where
  sinks : List (Event n)
  nextUid : Uid
  seen : DepSet n
  executed : Executed n
  instances : InstanceTable n
  deferred : List (Uid × Held n)
  parkedAccepts : Finset Uid
  reads : ReadTracker n
  ready : List (Command n)
  conflicts : Nat → Option (DepSet n)

structure SleepingDepShard (n : Nat) where
  nextUid : Uid
  nextReadId : Nat
  watermark : DepSet n

def SleepingDepShard.new (me : Fin n) : SleepingDepShard n := ⟨uidAt 0 me, 0, DepSet.new n⟩

def keysOf (commands : List (Command n)) : List Nat := commands.map Command.shard

namespace DepShard

variable (c : Cluster n) (me : Fin n)

def new : DepShard n where
  sinks := []
  nextUid := uidAt 0 me
  seen := DepSet.new n
  executed := Executed.new n
  instances := InstanceTable.new n
  deferred := []
  parkedAccepts := ∅
  reads := ReadTracker.new c.slowQuorum c.readLeader
  ready := []
  conflicts := fun _ => none

def emit (e : Event n) (s : DepShard n) : DepShard n := { s with sinks := s.sinks ++ [e] }

def broadcast (packet : Packet n) (s : DepShard n) : DepShard n := s.emit (.broadcast packet none)

def priorityBroadcast (packet : Packet n) (priority : Fin n) (s : DepShard n) : DepShard n :=
  s.emit (.broadcast packet (some priority))

def send (packet : Packet n) (dest : Fin n) (s : DepShard n) : DepShard n :=
  if dest = me then s else s.emit (.send packet dest)

def queueAck (msg : DepMsg n) (requester : Fin n) (s : DepShard n) : DepShard n :=
  s.emit (.queueAck msg requester)

def withInstance (id : Uid) (s : DepShard n) (f : Instance n → DepShard n) : DepShard n :=
  match s.instances.get id with
  | some i => f i
  | none => s.emit .panicked

def put (id : Uid) (i : Instance n) (s : DepShard n) : DepShard n :=
  { s with instances := s.instances.modify id fun _ => i }

def depsFor (keys : List Nat) (s : DepShard n) : DepSet n :=
  if c.perKeyDeps then
    keys.foldl (fun deps key =>
      match s.conflicts key with
      | some seen => deps.unionWith seen
      | none => deps) (DepSet.new n)
  else s.seen

def noteKey (id : Uid) (conflicts : Nat → Option (DepSet n)) (key : Nat) :
    Nat → Option (DepSet n) := fun k =>
  if k = key then some (((conflicts key).getD (DepSet.new n)).insert id) else conflicts k

def noteSeen (id : Uid) (keys : List Nat) (s : DepShard n) : DepShard n :=
  { s with
    seen := s.seen.insert id
    conflicts := if c.perKeyDeps then keys.foldl (noteKey id) s.conflicts else s.conflicts }

def serveReadyReads (s : DepShard n) : DepShard n :=
  let ready := s.reads.ready s.executed
  { s with
    reads := s.reads.takeReady s.executed
    ready := s.ready ++ ready.map Prod.snd
    sinks := s.sinks ++ ready.map fun (id, command) => .served id command }

def execute (s : DepShard n) (uid : Uid) : DepShard n :=
  s.withInstance uid fun i =>
    { s with
      instances := s.instances.remove uid
      executed := s.executed.insert uid
      ready := s.ready ++ i.commands
      sinks := s.sinks ++ [.executed uid i.commands] }

def runExecutable : Nat → DepShard n → DepShard n
  | 0, s => s
  | fuel + 1, s =>
      match nextExecutable s.instances s.executed with
      | some uid => runExecutable fuel (s.execute uid)
      | none => s

def executeCycles (s : DepShard n) : DepShard n :=
  if cyclePossible s.instances s.executed then
    let order := executableOrder s.instances s.executed
    order.foldl execute (s.emit (.ordered order))
  else s

def executeReady (s : DepShard n) : DepShard n :=
  (executeCycles (runExecutable s.instances.len s)).serveReadyReads

def commitReport (id : Uid) (deps : DepSet n) (i : Instance n) (s : DepShard n) :
    Option CommitReport :=
  if !i.isCommitted && i.commands.any (·.requester = me) then
    some
      { fast := i.onFastPath
        waitedFor := ((deps.pendingOver s.executed).filter (· ≠ id)).length }
  else none

def fillReport (report : Option CommitReport) (i : Instance n) : Instance n :=
  match report with
  | some report =>
      { i with
        commands := i.commands.map fun command =>
          if command.requester = i.coordinatorPid ∧ command.readOnly = false then
            { command with report := some report }
          else command }
  | none => i

def onCommit (id : Uid) (deps : DepSet n) (s : DepShard n) : DepShard n :=
  s.withInstance id fun i =>
    if i.isCommitted then s
    else
      ((s.put id (fillReport (commitReport me id deps i s) (i.commit deps))).emit
        (.committed id deps)).executeReady

def commitAndBroadcast (id : Uid) (deps : DepSet n) (s : DepShard n) : DepShard n :=
  (s.onCommit me id deps).broadcast ⟨.commit id deps, none⟩

def epaxosTryCommitAccepted (id : Uid) (s : DepShard n) : DepShard n :=
  s.withInstance id fun i =>
    if i.coordinatorPid ≠ me ∨ i.phase ≠ .accepted ∨ i.acceptAcked.card < c.slowQuorum then s
    else (s.put id i.markLeftFastPath).commitAndBroadcast me id i.deps

def epaxosTryCommit (id : Uid) (s : DepShard n) : DepShard n :=
  s.withInstance id fun i =>
    if i.coordinatorPid ≠ me then s
    else if i.isSettled then s.epaxosTryCommitAccepted c me id
    else if i.allPreacceptsEndorse && decide (c.fastQuorum ≤ i.preacceptsCount) then
      match i.leaderDeps with
      | some deps => s.commitAndBroadcast me id deps
      | none => s.emit .panicked
    else if c.slowQuorum ≤ i.preacceptsCount ∧
        (i.allPreacceptsEndorse = false ∨ c.reachable < c.fastQuorum) then
      ((s.put id ((i.markLeftFastPath.accept i.union).ackAccept me)).broadcast
        ⟨.accept id i.union, none⟩).epaxosTryCommitAccepted c me id
    else s

-- The leader announces the decision to whoever casts no vote and did not propose it.
def announce (id : Uid) (deps : DepSet n) (proposer : Fin n) (s : DepShard n) : DepShard n :=
  (c.nonReplicas.filter (· ≠ proposer)).foldl
    (fun s dest => s.send me ⟨.commit id deps, none⟩ dest) s

def swiftTryCommit (id : Uid) (s : DepShard n) : DepShard n :=
  match s.instances.get id with
  | none => s
  | some i =>
      if i.isCommitted then s
      else
        match i.acceptedDeps with
        | none => s
        | some leaderDeps =>
            let fast := i.fastEndorsers.any c.swiftFastQuorumReached
            let viaMajority := decide (c.slowQuorum ≤ i.acceptAcked.card)
            if fast || viaMajority then
              let s := (s.put id (i.setFastPath fast)).onCommit me id leaderDeps
              if me = c.leader i.coordinatorPid then
                s.announce c me id leaderDeps i.coordinatorPid
              else s
            else s

def tryCommit (id : Uid) (s : DepShard n) : DepShard n :=
  if c.isSwift then s.swiftTryCommit c me id else s.epaxosTryCommit c me id

end DepShard

end KCensus.Deps

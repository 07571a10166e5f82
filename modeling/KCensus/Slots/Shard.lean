import KCensus.Lib.HashMap
import KCensus.Lib.Turn
import KCensus.Slots.Message
import KCensus.Slots.ReadTracker

namespace KCensus.Slots

open Lib (HashMap)

variable {n : Nat} {R : Type}

structure Cluster (n : Nat) where
  topology : Topology n
  leaderPriority : List (Fin n)
  sendPaxosMessagesToAll : Bool
  hasLeader : leaderPriority ≠ []

namespace Cluster

variable (c : Cluster n)

def isReplica (pid : Fin n) : Bool := c.topology.isAlive pid

def majority : Nat := 1 + c.topology.nbReplicas / 2

def leader : Fin n := c.leaderPriority.head c.hasLeader

def shouldOnlySendToReplicas (packet : Packet n) : Bool :=
  match packet.msg.msg with
  | .commit _ _ => false
  | .readRequest _ => true
  | .readResponse _ _ => false
  | .kcensusM (.paxosAccept _ _ _ _) => packet.value.isNone
  | .kcensusM _ => false
  | .paxosM _ => packet.value.isNone && !c.sendPaxosMessagesToAll

end Cluster

-- The order in which one turn of the main loop iterates over hash maps.
structure HashOrder (n : Nat) where
  uids : List Nat → List Nat
  processes : List (Fin n) → List (Fin n)
  uids_perm : ∀ l, (uids l).Perm l
  processes_perm : ∀ l, (processes l).Perm l

def HashOrder.same : HashOrder n := ⟨id, id, fun _ => .refl _, fun _ => .refl _⟩

inductive Panic where
  | removingMissing (v : Nat)
  | lastVDiffers
  | batchInBatch
  | conflictUnseen
  | noSink
  | failed
deriving DecidableEq

-- What a turn does to the outside, and what the proofs remember of it.
inductive Event (n : Nat) where
  | broadcast (packet : Packet n) (priority : Option (Fin n))
  | send (packet : Packet n) (dest : Fin n)
  | received (src : Fin n) (packet : Packet n)
  | submitted (command : Command n)
  | created (v : Nat) (value : CommandBatch n)
  | voted (slot : Nat) (round : PaxosRound n) (v : Nat)
  | committed (slot v : Nat)
  | decided (slot v : Nat) (fast : Bool)
  | learned (slot v : Nat) (src : Fin n)
  | outranked (slot : Nat)
  | handed (write : Option (Nat × Nat)) (command : Command n)
  | readIssued (id : Nat) (command : Command n)
  | readServed (id : Nat) (command : Command n)
  | unready (v : Nat)
deriving DecidableEq

structure ConsensusShard (n : Nat) (R : Type) where
  sinks : List (Event n)
  nextUid : Nat
  slot : Nat
  queuedCommands : HashMap Nat (CommandBatch n)
  lastV : Option Nat
  slotLeftFastPath : Bool
  queuedMessages : List (ConsensusMessage n)
  myQueuedCommands : List (Command n)
  readTracker : ReadTracker n
  roundState : R

structure SleepingShard where
  nextUid : Nat
  slot : Nat
  lastV : Option Nat
  nextReadId : Nat
deriving DecidableEq

def SleepingShard.new (myPid : Fin n) : SleepingShard := ⟨2 * myPid, 0, none, 0⟩

abbrev Turn (n : Nat) (R : Type) := Lib.Turn Panic (ConsensusShard n R)

namespace ConsensusShard

variable (c : Cluster n) (me : Fin n)

def new (roundState : R) : ConsensusShard n R where
  sinks := []
  nextUid := 2 * me
  slot := 0
  queuedCommands := ∅
  lastV := none
  slotLeftFastPath := false
  queuedMessages := []
  myQueuedCommands := []
  readTracker := ReadTracker.new c.majority
  roundState := roundState

def hasQueuedCommands (s : ConsensusShard n R) : Bool := !Lib.HashMap.isEmpty s.queuedCommands

def holdsSingle (s : ConsensusShard n R) (v : Nat) : Bool :=
  (s.queuedCommands.lookup v).any CommandBatch.isSingle

def valueReady (s : ConsensusShard n R) (msg : ConsensusMessage n) : Except Panic Bool :=
  match msg.getV with
  | none => .ok true
  | some v =>
      match s.queuedCommands.lookup v with
      | none => .ok false
      | some (.single _) => .ok true
      | some (.batch slot vs) =>
          if slot = s.slot then .ok (vs.all fun v => v ∈ s.queuedCommands) else .error .failed

def ledByAnother (msg : ConsensusMessage n) : Bool :=
  match msg.msg with
  | .paxosM (.prepare _ round _) => round.leader ≠ me
  | .paxosM (.accept _ round _) => round.leader ≠ me
  | _ => false

def readyToProcess (s : ConsensusShard n R) (msg : ConsensusMessage n) : Except Panic Bool :=
  if msg.getSlot = some s.slot then
    if msg.lastV = none ∨ msg.lastV = s.lastV then
      return (← s.valueReady msg) || ledByAnother me msg
    else .error .lastVDiffers
  else .ok (msg.getSlot.all (· < s.slot))

def newBatchToPropose (order : HashOrder n) (s : ConsensusShard n R) : Option (CommandBatch n) :=
  if s.queuedCommands.keys.length ≤ 1 then none
  else
    let vs := (order.uids s.queuedCommands.keys).filter s.holdsSingle
    if vs.length ≤ 1 then none else some (.batch s.slot vs)

def vToRepropose (s : ConsensusShard n R) : Except Panic Nat :=
  match (s.queuedCommands.keys.filter s.holdsSingle).min? with
  | some v => .ok v
  | none => .error .failed

end ConsensusShard

-- In the order of the source, `get_v_to_repropose` to `get_next_uid` and what the sinks do.
namespace Turn

open ConsensusShard

variable (c : Cluster n) (me : Fin n)

def lift {α : Type} (f : ConsensusShard n R → Except Panic α) : Turn n R α := fun s =>
  match f s with
  | .ok a => .ok a s
  | .error e => .error e s

def onRound (f : R → Except Panic R) : Turn n R Unit := fun s =>
  match f s.roundState with
  | .ok r => .ok () { s with roundState := r }
  | .error e => .error e s

def check (b : Bool) (e : Panic) : Turn n R Unit := Lib.Turn.check b e

def emit (e : Event n) : Turn n R Unit := modify fun s => { s with sinks := s.sinks ++ [e] }

def leaveFastPath : Turn n R Unit := modify fun s => { s with slotLeftFastPath := true }

def priorityBroadcast (msg : ConsensusMsg n) (value : Option (CommandBatch n))
    (priority : Option (Fin n)) : Turn n R Unit := do
  let s ← get
  emit (.broadcast ⟨⟨msg, me, s.lastV⟩, value⟩ priority)

def broadcast (msg : ConsensusMsg n) (value : Option (CommandBatch n)) : Turn n R Unit :=
  priorityBroadcast me msg value none

def sendPacket (packet : Packet n) (dest : Fin n) : Turn n R Unit := do
  check (dest ≠ me || c.shouldOnlySendToReplicas packet && !c.isReplica dest) .noSink
  emit (.send packet dest)

def sendWith (msg : ConsensusMsg n) (value : Option (CommandBatch n)) (lastV : Option Nat)
    (dest : Fin n) : Turn n R Unit :=
  sendPacket c me ⟨⟨msg, me, lastV⟩, value⟩ dest

def send (msg : ConsensusMsg n) (value : Option (CommandBatch n)) (dest : Fin n) :
    Turn n R Unit := do
  let s ← get
  sendWith c me msg value s.lastV dest

def storeNewCommand (value : CommandBatch n) : Turn n R Nat := do
  let s ← get
  let v := if value.isSingle then s.nextUid else s.nextUid + 1
  modify fun s =>
    { s with
      nextUid := s.nextUid + 2 * n
      queuedCommands := s.queuedCommands.insert v value
      sinks := s.sinks ++ [.created v value] }
  return v

def isStale (s : ConsensusShard n R) : CommandBatch n → Bool
  | .single _ => false
  | .batch slot _ => slot < s.slot

def storeRemoteCommand (v : Nat) (value : CommandBatch n) : Turn n R Unit :=
  modify fun s =>
    if isStale s value then s else { s with queuedCommands := s.queuedCommands.insert v value }

def outlives (committedSlot : Nat) : CommandBatch n → Bool
  | .single _ => true
  | .batch slot _ => committedSlot < slot

def purgeBatches (committedSlot : Nat) : Turn n R Unit :=
  modify fun s =>
    { s with
      queuedCommands := HashMap.retain (fun _ value => outlives committedSlot value)
        s.queuedCommands }

def removeCommand (v : Nat) : Turn n R (CommandBatch n) := do
  let s ← get
  match s.queuedCommands.lookup v with
  | some value =>
      modify fun s => { s with queuedCommands := s.queuedCommands.erase v }
      return value
  | none => throw (.removingMissing v)

-- What `commit_slot` does in every algorithm; `clear` is what it does to the round state.
def advance (v : Nat) (clear : R → R) : Turn n R (CommandBatch n) := do
  let value ← removeCommand v
  let s ← get
  purgeBatches s.slot
  modify fun s =>
    { s with
      lastV := some v
      slot := s.slot + 1
      roundState := clear s.roundState
      sinks := s.sinks ++ [.committed s.slot v] }
  return value

end Turn

def getRequester (v : Nat) [NeZero n] : Option (Fin n) :=
  if v % 2 = 0 then some (Fin.ofNat n (v / 2)) else none

end KCensus.Slots

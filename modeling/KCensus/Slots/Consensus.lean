import KCensus.Slots.Shard

namespace KCensus.Slots

open Lib (HashMap)

variable {n : Nat} {R : Type}

-- One algorithm at one process, in one turn of its main loop.
structure ConsensusShardTrait (n : Nat) (R : Type) where
  processMessage : ConsensusMessage n → Turn n R (Option (CommandBatch n))
  canForwardProposals : ConsensusShard n R → Bool
  proposeStart : CommandBatch n → Bool → Turn n R Unit
  reproposeStart : Nat → Turn n R Unit
  commitSlot : Nat → Turn n R (CommandBatch n)
  hasFastPath : Bool
  getMyV : ConsensusShard n R → Option Nat
  ongoing : ConsensusShard n R → Bool
  shouldLead : ConsensusShard n R → Except Panic Bool

namespace Turn

open ConsensusShard

variable (c : Cluster n) (me : Fin n) (order : HashOrder n) (algo : ConsensusShardTrait n R)

def startRead (command : Command n) : Turn n R Unit := do
  let s ← get
  let id := s.readTracker.nextId
  modify fun s =>
    { s with
      readTracker := s.readTracker.insert command (algo.getMyV s).isNone
      sinks := s.sinks ++ [.readIssued id command] }
  broadcast me (.readRequest id) none

def isAnswerTo (id : Nat) (msg : ConsensusMessage n) : Bool :=
  match msg.msg with
  | .readResponse other _ => other = id
  | _ => false

def receiveReady (id : Nat) (fromQueue : Bool) : Turn n R (Option (CommandBatch n)) := do
  let s ← get
  let fast := !fromQueue && !s.queuedMessages.any (isAnswerTo id)
  match s.readTracker.receiveReady id s.slot fast with
  | (readTracker, some command) =>
      modify fun s =>
        { s with readTracker := readTracker, sinks := s.sinks ++ [.readServed id command] }
      return some (.single command)
  | (readTracker, none) =>
      modify fun s => { s with readTracker := readTracker }
      return none

def fullProcessMessage (msg : ConsensusMessage n) (fromQueue : Bool) :
    Turn n R (Option (CommandBatch n)) :=
  match msg.msg with
  | .commit slot v => do
      let s ← get
      if slot < s.slot then return none
      else
        emit (.learned slot v msg.src)
        let value ← algo.commitSlot v
        return some value
  | .readRequest id => do
      let s ← get
      sendWith c me (.readResponse id (s.slot + (algo.getMyV s).isSome.toNat)) none none msg.src
      return none
  | .readResponse id _ => receiveReady id fromQueue
  | .kcensusM _ => algo.processMessage msg
  | .paxosM _ => algo.processMessage msg

def stamp (fast : Bool) (committedSlot : Nat) (command : Command n) : Command n :=
  if command.requester = me then
    { command with report := some ⟨fast, committedSlot - command.arrivalSlot⟩ }
  else command

def commitWrite (fast : Bool) (committedSlot : Nat) (v : Option Nat) (command : Command n) :
    Turn n R Unit := do
  check (!command.readOnly) .failed
  emit (.handed (v.map (committedSlot, ·)) (stamp me fast committedSlot command))

def commitEach (fast : Bool) (committedSlot : Nat) : List Nat → Turn n R Unit
  | [] => pure ()
  | v :: vs => do
      match ← removeCommand v with
      | .single command => commitWrite me fast committedSlot (some v) command
      | .batch _ _ => throw .batchInBatch
      commitEach fast committedSlot vs

def handReads : List (Nat × Command n) → Turn n R Unit
  | [] => pure ()
  | (id, command) :: reads => do
      emit (.readServed id command)
      emit (.handed none command)
      handReads reads

def serveReads : Turn n R Unit := do
  let s ← get
  let (readTracker, reads) := s.readTracker.commitSlot s.slot
  modify fun s => { s with readTracker := readTracker }
  handReads reads

def commitWrites (batch : CommandBatch n) : Turn n R Unit := do
  let s ← get
  let fast := algo.hasFastPath && !s.slotLeftFastPath
  modify fun s => { s with slotLeftFastPath := false }
  match batch with
  | .single command => commitWrite me fast (s.slot - 1) s.lastV command
  | .batch _ vs => commitEach me fast (s.slot - 1) vs
  serveReads

def commitCommands : Option (CommandBatch n) → Turn n R Bool
  | none => return false
  | some (.single command) =>
      if command.readOnly then do
        emit (.handed none command)
        return true
      else do
        commitWrites me algo (.single command)
        return true
  | some (.batch slot vs) => do
      commitWrites me algo (.batch slot vs)
      return true

-- A message of the current slot that is handled without the payload of its uid.
def noteUnready (msg : ConsensusMessage n) : Turn n R Unit := do
  let s ← get
  match msg.getV, s.valueReady msg with
  | some v, .ok false => if msg.getSlot = some s.slot then emit (.unready v) else return ()
  | _, _ => return ()

def processAndCommit (msg : ConsensusMessage n) (fromQueue : Bool) : Turn n R Bool := do
  noteUnready msg
  let batch ← fullProcessMessage c me algo msg fromQueue
  commitCommands me algo batch

-- The queue from one restart of its loop to the next; `true` is a restart.
def scanQueue : List (ConsensusMessage n) → List (ConsensusMessage n) → Turn n R Bool
  | _, [] => return false
  | before, msg :: rest => do
      let ready ← lift (readyToProcess me · msg)
      if ready then
        modify fun s => { s with queuedMessages := before ++ rest }
        let committed ← processAndCommit c me algo msg true
        if committed then return true
        else scanQueue before rest
      else scanQueue (before ++ [msg]) rest

-- Every restart has taken a message out of the queue.
def processQueue : Nat → Turn n R Unit
  | 0 => return ()
  | fuel + 1 => do
      let s ← get
      let restart ← scanQueue c me algo [] s.queuedMessages
      if restart then processQueue fuel else return ()

def proposeNext : Turn n R Unit := do
  let s ← get
  let ongoing := algo.ongoing s || !s.queuedMessages.isEmpty
  if !ongoing && s.hasQueuedCommands then
    let lead ← lift algo.shouldLead
    if lead then
      match newBatchToPropose order s with
      | some batch => algo.proposeStart batch false
      | none =>
          let v ← lift vToRepropose
          algo.reproposeStart v
    else return ()
  else if ongoing then return ()
  else
    match s.myQueuedCommands with
    | [] => return ()
    | command :: rest =>
        modify fun s => { s with myQueuedCommands := rest }
        check (!command.readOnly) .failed
        algo.proposeStart (.single command) false

def takeCommand (command : Command n) : Turn n R Unit := do
  let s ← get
  let command := { command with arrivalSlot := s.slot }
  emit (.submitted command)
  if command.readOnly then startRead me algo command
  else
    let contention := algo.ongoing s || !s.queuedMessages.isEmpty || s.hasQueuedCommands
    if algo.canForwardProposals s || !contention then
      algo.proposeStart (.single command) contention
    else modify fun s => { s with myQueuedCommands := s.myQueuedCommands ++ [command] }

def storeValue (packet : Packet n) : Turn n R Unit :=
  match packet.value with
  | none => return ()
  | some value =>
      match packet.msg.getV with
      | none => throw .failed
      | some v => storeRemoteCommand v value

-- Whether the shard may have something new to propose.
def takeMessage (packet : Packet n) : Turn n R Bool := do
  emit (.received packet.msg.src packet)
  storeValue packet
  let ready ← lift (readyToProcess me · packet.msg)
  if ready then
    let committed ← processAndCommit c me algo packet.msg false
    if committed || packet.value.isSome then
      let s ← get
      processQueue c me algo (s.queuedMessages.length + 1)
      return true
    else return false
  else
    modify fun s => { s with queuedMessages := s.queuedMessages ++ [packet.msg] }
    return false

def onCommand (command : Command n) : Turn n R Unit := do
  takeCommand me algo command
  proposeNext order algo

def onPacket (packet : Packet n) : Turn n R Unit := do
  let mayPropose ← takeMessage c me algo packet
  if mayPropose then proposeNext order algo else return ()

end Turn

namespace ConsensusShard

def wakeUp (state : SleepingShard) (physical : ConsensusShard n R) : ConsensusShard n R :=
  { physical with
    nextUid := state.nextUid
    slot := state.slot
    lastV := state.lastV
    slotLeftFastPath := false
    readTracker := { physical.readTracker with nextId := state.nextReadId } }

def fallAsleep (s : ConsensusShard n R) : SleepingShard :=
  ⟨s.nextUid, s.slot, s.lastV, s.readTracker.nextId⟩

def canSleep (algo : ConsensusShardTrait n R) (s : ConsensusShard n R) : Bool :=
  !algo.ongoing s && !s.hasQueuedCommands && s.queuedMessages.isEmpty &&
    s.myQueuedCommands.isEmpty && s.readTracker.isEmpty

end ConsensusShard

def SleepingShard.isNoop (state : SleepingShard) (msg : ConsensusMessage n) : Bool :=
  msg.isReadResponse || msg.getSlot.any (· < state.slot)

end KCensus.Slots

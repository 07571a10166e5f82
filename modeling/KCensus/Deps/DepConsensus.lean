import KCensus.Deps.World
import KCensus.ShardPool
import Mathlib.Data.List.SplitBy

namespace KCensus.Deps

variable {n : Nat} [NeZero n]

inductive Message (n : Nat) where
  | consensusM (shard : Nat) (packet : Packet n)
  | depAcks (acks : List (Nat × DepMsg n))
deriving DecidableEq

def ackBatchLimit : Nat := 17

-- The `MultiSink` that all the shards of a process share.
structure ProcessSink (n : Nat) where
  links : Fin n → List (Message n)
  pendingFast : List (Nat × DepMsg n)
  pendingSlow : List (Nat × DepMsg n)
  ackRecipients : Finset (Fin n)

namespace ProcessSink

variable (c : Cluster n) (me : Fin n)

def new : ProcessSink n := ⟨fun _ => [], [], [], ∅⟩

def push (message : Message n) (goesTo : Fin n → Bool) (m : ProcessSink n) : ProcessSink n :=
  { m with links := fun dest => if goesTo dest then m.links dest ++ [message] else m.links dest }

def broadcast (shard : Nat) (packet : Packet n) (priority : Option (Fin n)) (m : ProcessSink n) :
    ProcessSink n :=
  m.push (.consensusM shard packet) fun dest =>
    decide (dest ≠ me) &&
      (decide (priority = some dest) || !packet.msg.replicasOnly || c.isReplica dest)

def send (shard : Nat) (packet : Packet n) (dest : Fin n) (m : ProcessSink n) : ProcessSink n :=
  if packet.msg.replicasOnly && !c.isReplica dest then m
  else m.push (.consensusM shard packet) (· = dest)

def sendAcks (acks : List (Nat × DepMsg n)) (m : ProcessSink n) : ProcessSink n :=
  m.push (.depAcks acks) fun dest =>
    decide (dest ≠ me) && (c.isReplica dest || decide (dest ∈ m.ackRecipients))

def flushAcks (m : ProcessSink n) : ProcessSink n :=
  if m.pendingFast = [] ∧ m.pendingSlow = [] then m
  else
    { m.sendAcks c me (m.pendingFast ++ m.pendingSlow) with
      pendingFast := []
      pendingSlow := []
      ackRecipients := ∅ }

def queueAck (shard : Nat) (msg : DepMsg n) (requester : Fin n) (m : ProcessSink n) :
    ProcessSink n :=
  match msg with
  | .preAcceptOk _ _ | .accept _ _ =>
      let m := { m with
        pendingFast := m.pendingFast ++ [(shard, msg)]
        ackRecipients := insert requester m.ackRecipients }
      if ackBatchLimit ≤ m.pendingFast.length then m.flushAcks c me else m
  | .acceptOk _ =>
      let m := { m with
        pendingSlow := m.pendingSlow ++ [(shard, msg)]
        ackRecipients := insert requester m.ackRecipients }
      if ackBatchLimit ≤ m.pendingSlow.length then m.flushAcks c me else m
  | _ => m

def apply (shard : Nat) (m : ProcessSink n) : Event n → ProcessSink n
  | .broadcast packet priority => m.broadcast c me shard packet priority
  | .send packet dest => m.send c shard packet dest
  | .queueAck msg requester => m.queueAck c me shard msg requester
  | _ => m

def pop (dest : Fin n) (m : ProcessSink n) : ProcessSink n :=
  { m with links := fun d => if d = dest then (m.links d).tail else m.links d }

end ProcessSink

structure PhysicalShard (n : Nat) [NeZero n] where
  shardId : Nat
  shard : DepShard n

namespace PhysicalShard

def wakeUp (shardId : Nat) (state : SleepingDepShard n) (physical : PhysicalShard n) :
    PhysicalShard n where
  shardId := shardId
  shard :=
    { physical.shard with
      nextUid := state.nextUid
      reads := { physical.shard.reads with nextId := state.nextReadId }
      seen := state.watermark
      executed := physical.shard.executed.setWatermark state.watermark }

def fallAsleep (physical : PhysicalShard n) : SleepingDepShard n × PhysicalShard n :=
  (physical.shard.fallAsleep,
    { physical with
      shard :=
        { physical.shard with
          executed := Executed.new n
          seen := DepSet.new n
          instances := physical.shard.instances.reset } })

def pooled (c : Cluster n) : PooledShard (PhysicalShard n) (SleepingDepShard n) where
  wakeUp := wakeUp
  fallAsleep := fallAsleep
  canSleep := fun physical => physical.shard.canSleep c

def new (c : Cluster n) (me : Fin n) : PhysicalShard n := ⟨0, DepShard.new c me⟩

end PhysicalShard

-- What a process asks of wherever it keeps its logical shards.
structure ShardStore (n : Nat) [NeZero n] (σ : Type) where
  wake : Nat → σ → σ
  activeShard : Nat → σ → Option (PhysicalShard n)
  writeBack : Nat → PhysicalShard n → σ → σ
  isNoop : Nat → DepMsg n → σ → Bool
  trySleep : Nat → σ → σ

abbrev DepPool (n : Nat) [NeZero n] := ShardPool (PhysicalShard n) (SleepingDepShard n)

def isNoopWhenAsleep (state : SleepingDepShard n) (id : Uid) : Bool := state.watermark.contains id

namespace ShardStore

def pooled (c : Cluster n) (me : Fin n) : ShardStore n (DepPool n) where
  wake := fun k pool => (pool.wake (PhysicalShard.pooled c) (PhysicalShard.new c me) k).1
  activeShard := ShardPool.activeShard
  writeBack := fun k physical pool =>
    match pool.active k with
    | some index => pool.writeBack index physical
    | none => pool
  isNoop := fun k msg pool =>
    !pool.isActive k && msg.id.any (isNoopWhenAsleep (pool.sleepingState k))
  trySleep := ShardPool.trySleep (PhysicalShard.pooled c)

def neverSleeping : ShardStore n (Nat → DepShard n) where
  wake := fun _ shards => shards
  activeShard := fun k shards => some ⟨k, shards k⟩
  writeBack := fun k physical shards => Function.update shards k physical.shard
  isNoop := fun _ _ _ => false
  trySleep := fun _ shards => shards

end ShardStore

inductive Task (n : Nat) where
  | applyDepMsg (shard : Nat) (src : Fin n) (packet : Packet n)
  | submit (shard : Nat) (commands : List (Command n))
  | submitRead (shard : Nat) (command : Command n)

def Message.tasks (src : Fin n) : Message n → List (Task n)
  | consensusM shard packet => [.applyDepMsg shard src packet]
  | depAcks acks => acks.map fun (shard, msg) => .applyDepMsg shard src ⟨msg, none⟩

def Cluster.route (c : Cluster n) (key : Nat) : Nat := if c.crossShard then 0 else key

def submitOne (c : Cluster n) (command : Command n) : Task n :=
  if command.readOnly then .submitRead (c.route command.shard) command
  else .submit (c.route command.shard) [command]

def sortsBefore (a b : Command n) : Bool :=
  if a.readOnly = b.readOnly then a.shard ≤ b.shard else b.readOnly

def submitRun (commands : List (Command n)) : Option (Task n) :=
  commands.head?.map fun command => .submit command.shard commands

-- `submit_batch` on a batch its sort has put in order.
def submitBatch (c : Cluster n) (batch : List (Command n)) : List (Task n) :=
  match batch with
  | [command] => [submitOne c command]
  | batch =>
      let writes := batch.takeWhile (!·.readOnly)
      let reads := batch.dropWhile (!·.readOnly)
      let submissions :=
        if c.crossShard then (if writes = [] then [] else [.submit 0 writes])
        else (writes.splitBy fun a b => a.shard = b.shard).filterMap submitRun
      submissions ++ reads.reverse.map (submitOne c)

-- A process, with what is left of the event it is at.
structure DepConsensus (n : Nat) [NeZero n] (σ : Type) where
  pool : σ
  sinks : ProcessSink n
  busy : Bool
  todo : List (Task n)
  serving : Nat
  queue : List (Held n)
  touched : List Nat

namespace DepConsensus

variable {σ : Type} (store : ShardStore n σ) (c : Cluster n) (me : Fin n)

def new (pool : σ) : DepConsensus n σ := ⟨pool, ProcessSink.new, false, [], 0, [], []⟩

abbrev Log (n : Nat) := List (Nat × Event n)

def turn (k : Nat) (f : DepShard n → DepShard n × List (Held n)) (p : DepConsensus n σ) :
    DepConsensus n σ × Log n :=
  match store.activeShard k p.pool with
  | none => (p, [(k, .panicked)])
  | some physical =>
      let (shard, queue) := f physical.shard
      ({ p with
          pool := store.writeBack k { physical with shard := { shard with sinks := [] } } p.pool
          sinks := shard.sinks.foldl (ProcessSink.apply c me physical.shardId) p.sinks
          serving := k
          queue := queue },
        shard.sinks.map (Prod.mk physical.shardId))

def wake (k : Nat) (p : DepConsensus n σ) : DepConsensus n σ :=
  { p with pool := store.wake k p.pool, touched := p.touched ++ [k] }

def perform (p : DepConsensus n σ) : Task n → DepConsensus n σ × Log n
  | .applyDepMsg k src packet =>
      if store.isNoop k packet.msg p.pool then (p, [(k, .received src packet)])
      else (p.wake store k).turn store c me k fun s =>
        (s.emit (.received src packet)).handle c me src packet
  | .submit k commands =>
      (p.wake store k).turn store c me k fun s =>
        ((s.emit (.submitted commands)).submit c me commands, [])
  | .submitRead k command =>
      (p.wake store k).turn store c me k fun s => (s.submitRead c me command, [])

def drain (k : Nat) (p : DepConsensus n σ) : DepConsensus n σ × Log n :=
  p.turn store c me k fun s =>
    if s.ready = [] then (s, []) else ((s.emit (.handed s.ready)).drainReady, [])

def drainAll : List Nat → DepConsensus n σ → DepConsensus n σ × Log n
  | [], p => (p, [])
  | k :: ks, p =>
      let (p, log) := p.drain store c me k
      let (p, more) := drainAll ks p
      (p, log ++ more)

def sleepAll (ks : List Nat) (p : DepConsensus n σ) : DepConsensus n σ :=
  { p with pool := ks.foldl (fun pool k => store.trySleep k pool) p.pool }

def finish (p : DepConsensus n σ) : DepConsensus n σ × Log n :=
  let (p', log) := p.drainAll store c me p.touched
  ({ p'.sleepAll store p.touched with touched := [], busy := false }, log)

end DepConsensus

structure System (n : Nat) [NeZero n] (σ : Type) where
  procs : Fin n → DepConsensus n σ
  hist : List (Fin n × Nat × Event n)

inductive Act (n : Nat) where
  | receive (src p : Fin n)
  | submit (p : Fin n) (batch : List (Command n))
  | work (p : Fin n)
  | deliver (p : Fin n)
  | finish (p : Fin n)
  | flushAcks (p : Fin n)

namespace System

variable {σ : Type} (store : Fin n → ShardStore n σ) (c : Cluster n)

def init (pool : Fin n → σ) : System n σ := ⟨fun p => DepConsensus.new (pool p), []⟩

def set (p : Fin n) (result : DepConsensus n σ × DepConsensus.Log n) (sys : System n σ) :
    System n σ where
  procs := Function.update sys.procs p result.1
  hist := sys.hist ++ result.2.map (Prod.mk p)

def popLink (src p : Fin n) (sys : System n σ) : System n σ :=
  { sys with
    procs := Function.update sys.procs src
      { sys.procs src with sinks := (sys.procs src).sinks.pop p } }

def step (sys : System n σ) : Act n → Option (System n σ)
  | .receive src p =>
      match (sys.procs p).busy, (sys.procs src).sinks.links p with
      | false, message :: _ =>
          let sys := sys.popLink src p
          some (sys.set p ({ sys.procs p with busy := true, todo := message.tasks src }, []))
      | _, _ => none
  | .submit p batch =>
      if (sys.procs p).busy = false ∧ batch.Pairwise (fun a b => sortsBefore a b) then
        some (sys.set p ({ sys.procs p with busy := true, todo := submitBatch c batch }, []))
      else none
  | .work p =>
      match (sys.procs p).queue, (sys.procs p).todo with
      | [], task :: rest =>
          some (sys.set p ({ sys.procs p with todo := rest }.perform (store p) c p task))
      | _, _ => none
  | .deliver p =>
      match (sys.procs p).queue with
      | [] => none
      | queue =>
          some (sys.set p ((sys.procs p).turn (store p) c p (sys.procs p).serving
            fun s => s.deliverTurn c p queue))
  | .finish p =>
      if (sys.procs p).busy ∧ (sys.procs p).queue = [] ∧ (sys.procs p).todo = [] then
        some (sys.set p ((sys.procs p).finish (store p) c p))
      else none
  | .flushAcks p =>
      if (sys.procs p).busy = false then
        some (sys.set p
          ({ sys.procs p with sinks := (sys.procs p).sinks.flushAcks c p }, []))
      else none

def run (labels : List (Act n)) (sys : System n σ) : Option (System n σ) :=
  labels.foldlM (fun sys label => sys.step store c label) sys

end System

end KCensus.Deps

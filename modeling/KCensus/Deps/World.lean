import KCensus.Deps.Handlers

namespace KCensus.Deps

variable {n : Nat} [NeZero n]

-- One process's outgoing links, each with what it has not delivered yet, and its held acks.
structure MultiSink (n : Nat) where
  links : Fin n → List (Packet n)
  pendingFast : List (DepMsg n)
  pendingSlow : List (DepMsg n)
  ackRecipients : Finset (Fin n)

namespace MultiSink

variable (c : Cluster n) (me : Fin n)

def new : MultiSink n := ⟨fun _ => [], [], [], ∅⟩

def push (packet : Packet n) (goesTo : Fin n → Bool) (m : MultiSink n) : MultiSink n :=
  { m with links := fun dest => if goesTo dest then m.links dest ++ [packet] else m.links dest }

def broadcast (packet : Packet n) (priority : Option (Fin n)) (m : MultiSink n) : MultiSink n :=
  m.push packet fun dest =>
    decide (dest ≠ me) &&
      (decide (priority = some dest) || !packet.msg.replicasOnly || c.isReplica dest)

def send (packet : Packet n) (dest : Fin n) (m : MultiSink n) : MultiSink n :=
  if packet.msg.replicasOnly && !c.isReplica dest then m else m.push packet (· = dest)

def bundle (m : MultiSink n) : List (Packet n) :=
  (m.pendingFast ++ m.pendingSlow).map fun msg => ⟨msg, none⟩

def flushAcks (m : MultiSink n) : MultiSink n :=
  { links := fun dest =>
      if dest ≠ me ∧ (c.isReplica dest ∨ dest ∈ m.ackRecipients) then m.links dest ++ m.bundle
      else m.links dest
    pendingFast := []
    pendingSlow := []
    ackRecipients := ∅ }

def queueAck (msg : DepMsg n) (requester : Fin n) (m : MultiSink n) : MultiSink n :=
  match msg with
  | .preAcceptOk _ _ | .accept _ _ =>
      { m with
        pendingFast := m.pendingFast ++ [msg]
        ackRecipients := insert requester m.ackRecipients }
  | .acceptOk _ =>
      { m with
        pendingSlow := m.pendingSlow ++ [msg]
        ackRecipients := insert requester m.ackRecipients }
  | _ => m

-- What the acks of the other shards of the process add to the bundle they share.
def owe (requesters : Finset (Fin n)) (m : MultiSink n) : MultiSink n :=
  { m with ackRecipients := m.ackRecipients ∪ requesters }

-- `full` stands for the acks the other shards of the process hold in the same bundle.
def apply (full : Bool) (m : MultiSink n) : Event n → MultiSink n
  | .broadcast packet priority => m.broadcast c me packet priority
  | .send packet dest => m.send c packet dest
  | .queueAck msg requester =>
      let m := m.queueAck msg requester
      if full then m.flushAcks c me else m
  | _ => m

def pop (dest : Fin n) (m : MultiSink n) : MultiSink n :=
  { m with links := fun d => if d = dest then (m.links d).tail else m.links d }

end MultiSink

inductive Slot (n : Nat) [NeZero n] where
  | awake (shard : DepShard n)
  | asleep (state : SleepingDepShard n)

-- The shard a message or a command meets, which `wake` puts into a slot of the pool.
def Slot.wake (c : Cluster n) (me : Fin n) : Slot n → DepShard n
  | awake shard => shard
  | asleep state => DepShard.wakeUp c me state

def Slot.isNoop : Slot n → DepMsg n → Bool
  | awake _, _ => false
  | asleep state, msg => msg.id.any fun id => state.watermark.contains id

-- One logical shard at every process, the run so far, and what is on its way.
structure World (n : Nat) [NeZero n] where
  slots : Fin n → Slot n
  queues : Fin n → List (Held n)
  sinks : Fin n → MultiSink n
  hist : List (Fin n × Event n)

inductive Label (n : Nat) where
  | submit (p : Fin n) (commands : List (Command n)) (full : Bool)
  | submitRead (p : Fin n) (command : Command n)
  | receive (src p : Fin n) (full : Bool)
  | deliver (p : Fin n) (full : Bool)
  | flush (p : Fin n)
  | owe (p : Fin n) (requesters : Finset (Fin n))
  | drain (p : Fin n)
  | sleep (p : Fin n)

namespace World

variable (c : Cluster n)

def init : World n where
  slots := fun p => .asleep (SleepingDepShard.new p)
  queues := fun _ => []
  sinks := fun _ => MultiSink.new
  hist := []

def shard (w : World n) (p : Fin n) : DepShard n := (w.slots p).wake c p

def link (w : World n) (src dest : Fin n) : List (Packet n) := (w.sinks src).links dest

def note (p : Fin n) (e : Event n) (w : World n) : World n := { w with hist := w.hist ++ [(p, e)] }

-- Puts the outcome of a turn back, and what it sent on the links.
def settle (p : Fin n) (full : Bool) (s : DepShard n) (queue : List (Held n)) (w : World n) :
    World n where
  slots := Function.update w.slots p (.awake { s with sinks := [] })
  queues := Function.update w.queues p queue
  sinks := Function.update w.sinks p (s.sinks.foldl (MultiSink.apply c p full) (w.sinks p))
  hist := w.hist ++ s.sinks.map (Prod.mk p)

def popLink (src p : Fin n) (w : World n) : World n :=
  { w with sinks := Function.update w.sinks src ((w.sinks src).pop p) }

def step (w : World n) : Label n → Option (World n)
  | .submit p commands full =>
      if w.queues p = [] ∧ commands ≠ [] ∧ commands.all (!·.readOnly) then
        some (w.settle c p full
          (((w.shard c p).emit (.submitted commands)).submit c p commands) [])
      else none
  | .submitRead p command =>
      if w.queues p = [] ∧ command.readOnly then
        some (w.settle c p false ((w.shard c p).submitRead c p command) [])
      else none
  | .receive src p full =>
      match w.queues p, w.link src p with
      | [], packet :: _ =>
          let w := w.popLink src p
          if (w.slots p).isNoop packet.msg then some (w.note p (.received src packet))
          else
            let (s, queue) :=
              ((w.shard c p).emit (.received src packet)).handle c p src packet
            some (w.settle c p full s queue)
      | _, _ => none
  | .deliver p full =>
      match w.queues p with
      | [] => none
      | queue =>
          let (s, queue) := (w.shard c p).deliverTurn c p queue
          some (w.settle c p full s queue)
  | .flush p => some { w with sinks := Function.update w.sinks p ((w.sinks p).flushAcks c p) }
  | .owe p requesters =>
      some { w with sinks := Function.update w.sinks p ((w.sinks p).owe requesters) }
  | .drain p =>
      if w.queues p = [] then
        some (w.settle c p false
          (((w.shard c p).emit (.handed (w.shard c p).ready)).drainReady) [])
      else none
  | .sleep p =>
      if w.queues p = [] ∧ (w.shard c p).canSleep c then
        some { w with slots := Function.update w.slots p (.asleep (w.shard c p).fallAsleep) }
      else none

inductive Reachable : World n → Prop where
  | init : Reachable init
  | step {w w' : World n} {l : Label n} :
      Reachable w → w.step c l = some w' → Reachable w'

def run (labels : List (Label n)) (w : World n) : World n :=
  labels.foldl (fun w l => (w.step c l).getD w) w

variable {c} in
theorem Reachable.run {w : World n} (h : Reachable c w) (labels : List (Label n)) :
    Reachable c (w.run c labels) := by
  induction labels generalizing w with
  | nil => exact h
  | cons l labels ih =>
    rw [World.run, List.foldl_cons]
    refine ih ?_
    cases hs : w.step c l with
    | none => exact h
    | some w' => exact h.step hs

def decision (p : Fin n) (id : Uid) (w : World n) : Option (DepSet n) :=
  w.hist.findSome? fun entry =>
    match entry with
    | (q, .committed v deps) => if q = p ∧ v = id then some deps else none
    | _ => none

theorem mem_of_decision {w : World n} {p : Fin n} {id : Uid} {deps : DepSet n}
    (h : w.decision p id = some deps) : (p, Event.committed id deps) ∈ w.hist := by
  obtain ⟨⟨q, e⟩, hm, he⟩ := List.exists_of_findSome?_eq_some h
  cases e <;> simp only [reduceCtorEq, Option.ite_none_right_eq_some, Option.some.injEq] at he
  obtain ⟨⟨rfl, rfl⟩, rfl⟩ := he
  exact hm

end World

end KCensus.Deps

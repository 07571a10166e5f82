import KCensus.Topology
import Mathlib.Data.List.MinMax

namespace KCensus.Delay

variable {n : Nat} {C A : Type}

-- The delayer only asks which messages are consensus messages.
inductive Message (C A : Type) where
  | hello (pid : Nat)
  | consensusM (msg : C)
  | depAcks (acks : A)
  | ready
  | done

def Message.isConsensusMsg : Message C A → Bool
  | .consensusM _ | .depAcks _ => true
  | _ => false

structure MsgWithSource (n : Nat) (C A : Type) where
  msg : Message C A
  src : Fin n

structure MsgWithDeadline (n : Nat) (C A : Type) where
  msg : MsgWithSource n C A
  deadline : Nat

-- What `run` is given; dividing a `Duration` by zero panics.
structure Setup (n : Nat) where
  topology : Topology n
  speedup : Nat
  speedup_pos : 0 < speedup
  myPid : Fin n
  simulateDelays : Bool

-- A message handed to the consumer: when, and its deadline if it was delayed.
structure Forwarded (n : Nat) (C A : Type) where
  msg : MsgWithSource n C A
  deadline : Option Nat
  time : Nat

structure Delayer (n : Nat) (C A : Type) where
  queues : Fin n → List (MsgWithDeadline n C A)
  streamEnded : Bool
  consumerGone : Bool
  receiver : Bool
  now : Nat
  forwarded : List (Forwarded n C A)

inductive Event (n : Nat) (C A : Type) where
  | next (msg : MsgWithSource n C A) (jitter : Nat → Nat)
  | streamEnd
  | timer
  | closed
  | receiverDropped

namespace Delayer

def new : Delayer n C A where
  queues := fun _ => []
  streamEnded := false
  consumerGone := false
  receiver := true
  now := 0
  forwarded := []

variable (d : Delayer n C A)

def optDeadline : Option Nat :=
  if d.consumerGone then none
  else ((List.finRange n).filterMap fun src => (d.queues src).head?.map (·.deadline)).min?

def isEmpty : Bool := d.optDeadline.isNone

def ended : Bool := d.isEmpty && d.streamEnded

def send (msg : MsgWithSource n C A) (deadline : Option Nat) : Delayer n C A :=
  if d.receiver then { d with forwarded := d.forwarded ++ [⟨msg, deadline, d.now⟩] }
  else { d with consumerGone := true }

def setQueue (src : Fin n) (queue : List (MsgWithDeadline n C A)) : Delayer n C A :=
  { d with queues := Function.update d.queues src queue }

def enqueue (setup : Setup n) (msg : MsgWithSource n C A) (jitter : Nat → Nat) : Delayer n C A :=
  let base := setup.topology.linkLatency msg.src setup.myPid / setup.speedup
  let deadline := d.now + jitter base
  let deadline :=
    match (d.queues msg.src).getLast? with
    | some last => max deadline last.deadline
    | none => deadline
  d.setQueue msg.src (d.queues msg.src ++ [⟨msg, deadline⟩])

-- The `while` loop over the queue of `src`, and whether it broke out of the loop over the queues.
def releaseFrom (src : Fin n) : List (MsgWithDeadline n C A) → Delayer n C A → Delayer n C A × Bool
  | [], d => (d, false)
  | m :: queue, d =>
      if m.deadline < d.now then
        let d := (d.setQueue src queue).send m.msg (some m.deadline)
        if d.consumerGone then (d, true) else releaseFrom src queue d
      else (d, false)

def release : List (Fin n) → Delayer n C A → Delayer n C A
  | [], d => d
  | src :: srcs, d =>
      match releaseFrom src (d.queues src) d with
      | (d, true) => d
      | (d, false) => release srcs d

-- One branch of the `select!`, or the consumer going away; `none` where the branch is off.
def handle (setup : Setup n) : Event n C A → Option (Delayer n C A)
  | .next msg jitter =>
      if d.ended || d.streamEnded then none
      else if d.consumerGone then some d
      else if !msg.msg.isConsensusMsg then some (d.send msg none)
      else if setup.simulateDelays then some (d.enqueue setup msg jitter)
      else some (d.send msg none)
  | .streamEnd =>
      if d.ended || d.streamEnded then none else some { d with streamEnded := true }
  | .timer => if d.ended || d.isEmpty then none else some (d.release (List.finRange n))
  | .closed =>
      if d.ended || d.consumerGone || d.receiver then none else some { d with consumerGone := true }
  | .receiverDropped => some { d with receiver := false }

def step (setup : Setup n) (d : Delayer n C A) (event : Nat × Event n C A) :
    Option (Delayer n C A) :=
  { d with now := d.now + event.1 }.handle setup event.2

def run (setup : Setup n) (events : List (Nat × Event n C A)) : Option (Delayer n C A) :=
  events.foldlM (step setup) new

end Delayer

end KCensus.Delay

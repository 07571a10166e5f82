import KCensus.Deps.Message
import KCensus.Lib.Loops

namespace KCensus.Sinks

open Deps (DepMsg)
open Lib (checkedSub)

variable {n : Nat}

def ackBatchLimit : Nat := 17

structure PendingAcks where
  fast : Nat
  slow : Nat

namespace PendingAcks

def any (counts : PendingAcks) : Bool := 0 < counts.fast || 0 < counts.slow

def room (counts : PendingAcks) : Option Nat := do
  let fast ← checkedSub ackBatchLimit counts.fast
  let slow ← checkedSub ackBatchLimit counts.slow
  checkedSub (fast + slow) 1

end PendingAcks

abbrev Ack (n : Nat) := Nat × DepMsg n

inductive AckKind where
  | fast
  | slow
deriving DecidableEq

-- Which queue `queue_ack` picks; it panics on what is no ack.
def ackKind : DepMsg n → Option AckKind
  | .preAcceptOk _ _ | .accept _ _ => some .fast
  | .acceptOk _ => some .slow
  | _ => none

structure MultiSink (n : Nat) where
  sinks : Finset (Fin n)
  aliveReplicas : Finset (Fin n)
  pendingFast : List (Ack n)
  pendingSlow : List (Ack n)
  pendingCounts : PendingAcks
  ackRecipients : Finset (Fin n)

-- One `DepAcks` message and the sinks it is sent on.
structure Bundle (n : Nat) where
  acks : List (Ack n)
  dests : Finset (Fin n)
deriving DecidableEq

namespace MultiSink

def connected (myPid : Fin n) (aliveReplicas : Finset (Fin n)) : MultiSink n where
  sinks := Finset.univ.erase myPid
  aliveReplicas := aliveReplicas
  pendingFast := []
  pendingSlow := []
  pendingCounts := ⟨0, 0⟩
  ackRecipients := ∅

def pending (m : MultiSink n) : AckKind → List (Ack n)
  | .fast => m.pendingFast
  | .slow => m.pendingSlow

-- The emptied vector of the bundle becomes the queue of fast acks.
def sendAcks (m : MultiSink n) (acks : List (Ack n)) (requesters : Finset (Fin n)) :
    MultiSink n × Bundle n :=
  ({ m with pendingFast := [] },
    { acks, dests := m.sinks.filter fun dest => dest ∈ m.aliveReplicas ∨ dest ∈ requesters })

def flushAcks (m : MultiSink n) : MultiSink n × List (Bundle n) :=
  if m.pendingCounts.any then
    let acks := m.pendingFast ++ m.pendingSlow
    let recipients := m.ackRecipients
    let (m, bundle) := { m with
      pendingCounts := ⟨0, 0⟩, pendingFast := [], pendingSlow := []
      ackRecipients := ∅ }.sendAcks acks recipients
    ({ m with ackRecipients := ∅ }, [bundle])
  else (m, [])

-- The second component is what `fetch_add` makes of the counter.
def push (m : MultiSink n) (ack : Ack n) : AckKind → MultiSink n × Nat
  | .fast =>
      ({ m with
          pendingFast := m.pendingFast ++ [ack]
          pendingCounts := { m.pendingCounts with fast := m.pendingCounts.fast + 1 } },
        m.pendingCounts.fast + 1)
  | .slow =>
      ({ m with
          pendingSlow := m.pendingSlow ++ [ack]
          pendingCounts := { m.pendingCounts with slow := m.pendingCounts.slow + 1 } },
        m.pendingCounts.slow + 1)

def owe (m : MultiSink n) : Option (Fin n) → MultiSink n
  | some requester => { m with ackRecipients := insert requester m.ackRecipients }
  | none => m

def queueAck (m : MultiSink n) (shard : Nat) (msg : DepMsg n) (requester : Option (Fin n)) :
    Option (MultiSink n × List (Bundle n)) :=
  match ackKind msg with
  | none => none
  | some kind =>
      let (m, count) := m.push (shard, msg) kind
      let m := m.owe requester
      if ackBatchLimit ≤ count then some m.flushAcks else some (m, [])

inductive Call (n : Nat) where
  | queueAck (shard : Nat) (msg : DepMsg n) (requester : Option (Fin n))
  | flushAcks

def Call.IsAck : Call n → Prop
  | .queueAck _ msg _ => (ackKind msg).isSome
  | .flushAcks => True

def perform (m : MultiSink n) : Call n → Option (MultiSink n × List (Bundle n))
  | .queueAck shard msg requester => m.queueAck shard msg requester
  | .flushAcks => some m.flushAcks

-- The calls one after the other, with the bundles they send.
def run (m : MultiSink n) : List (Call n) → Option (MultiSink n × List (Bundle n))
  | [] => some (m, [])
  | call :: calls => do
      let (m, sent) ← m.perform call
      let (m, bundles) ← m.run calls
      some (m, sent ++ bundles)

end MultiSink

end KCensus.Sinks

import KCensus.Command
import KCensus.Census.NodeState
import Mathlib.Data.Prod.Lex
import Mathlib.Order.WithBot

namespace KCensus.Slots

open Propagation (MessageId)
open Census (NodeState)

variable {n : Nat}

structure PaxosRound (n : Nat) where
  roundGroup : Nat
  leader : Fin n
deriving DecidableEq

namespace PaxosRound

def key (r : PaxosRound n) : Nat ×ₗ Fin n := toLex (r.roundGroup, r.leader)

theorem key_injective : Function.Injective (key : PaxosRound n → Nat ×ₗ Fin n) := by
  rintro ⟨a, b⟩ ⟨c, d⟩ h
  cases h
  rfl

instance : LinearOrder (PaxosRound n) := LinearOrder.lift' key key_injective

def zero [NeZero n] : PaxosRound n := ⟨0, 0⟩

def nextLeaderRound (r : PaxosRound n) (myPid : Fin n) : PaxosRound n where
  roundGroup := if r.leader ≤ myPid then r.roundGroup else r.roundGroup + 1
  leader := myPid

end PaxosRound

inductive RoundV (n : Nat) where
  | fastV (proposer : Fin n) (v : Nat)
  | paxosV (acceptRound : WithBot (PaxosRound n)) (v : Nat)
deriving DecidableEq

namespace RoundV

def getV : RoundV n → Nat
  | paxosV _ v => v
  | fastV _ v => v

def getAcceptRound : RoundV n → WithBot (PaxosRound n)
  | paxosV acceptRound _ => acceptRound
  | fastV _ _ => ⊥

end RoundV

inductive PaxosMsg (n : Nat) where
  | prepare (slot : Nat) (round : PaxosRound n) (rv : RoundV n)
  | accept (slot : Nat) (round : PaxosRound n) (v : Nat)
  | forwardRequest (v : Nat)
deriving DecidableEq

namespace PaxosMsg

def getV : PaxosMsg n → Nat
  | prepare _ _ rv => rv.getV
  | accept _ _ v => v
  | forwardRequest v => v

def getSlot : PaxosMsg n → Option Nat
  | prepare slot _ _ => some slot
  | accept slot _ _ => some slot
  | forwardRequest _ => none

end PaxosMsg

inductive KCensusMsg (n : Nat) where
  | spread (slot v : Nat) (msgId : MessageId n) (remoteStates : Option (Fin n → NodeState n))
      (withValue newValue : Bool)
  | spreadValueOnly (v : Nat) (msgId : MessageId n)
  | paxosAccept (slot : Nat) (leader : Fin n) (v : Nat) (newValue : Bool)
deriving DecidableEq

namespace KCensusMsg

def getV : KCensusMsg n → Nat
  | spread _ v _ _ _ _ => v
  | spreadValueOnly v _ => v
  | paxosAccept _ _ v _ => v

def getSlot : KCensusMsg n → Option Nat
  | spread slot _ _ _ _ _ => some slot
  | spreadValueOnly _ _ => none
  | paxosAccept slot _ _ _ => some slot

def includesValue : KCensusMsg n → Bool
  | spread _ _ _ _ withValue _ => withValue
  | spreadValueOnly _ _ => true
  | paxosAccept _ _ _ newValue => newValue

end KCensusMsg

-- The messages of the slot layer; the dependency layer runs an object of its own.
inductive ConsensusMsg (n : Nat) where
  | kcensusM (msg : KCensusMsg n)
  | paxosM (msg : PaxosMsg n)
  | commit (slot v : Nat)
  | readRequest (id : Nat)
  | readResponse (id nextReadableSlot : Nat)
deriving DecidableEq

inductive CommandBatch (n : Nat) where
  | single (command : Command n)
  | batch (slot : Nat) (vs : List Nat)
deriving DecidableEq

namespace CommandBatch

def isSingle : CommandBatch n → Bool
  | single _ => true
  | batch _ _ => false

-- `arrival_slot` and `report` do not travel.
def received : CommandBatch n → CommandBatch n
  | single command => single { command with arrivalSlot := 0, report := none }
  | batch slot vs => batch slot vs

end CommandBatch

structure ConsensusMessage (n : Nat) where
  msg : ConsensusMsg n
  src : Fin n
  lastV : Option Nat
deriving DecidableEq

namespace ConsensusMessage

def getV (m : ConsensusMessage n) : Option Nat :=
  match m.msg with
  | .kcensusM msg => some msg.getV
  | .paxosM msg => some msg.getV
  | .commit _ v => some v
  | .readRequest _ => none
  | .readResponse _ _ => none

def getSlot (m : ConsensusMessage n) : Option Nat :=
  match m.msg with
  | .kcensusM msg => msg.getSlot
  | .paxosM msg => msg.getSlot
  | .commit slot _ => some slot
  | .readRequest _ => none
  | .readResponse _ nextReadableSlot => some nextReadableSlot

def isReadResponse (m : ConsensusMessage n) : Bool :=
  match m.msg with
  | .readResponse _ _ => true
  | _ => false

end ConsensusMessage

structure Packet (n : Nat) where
  msg : ConsensusMessage n
  value : Option (CommandBatch n)
deriving DecidableEq

namespace Packet

def received (p : Packet n) : Packet n := { p with value := p.value.map CommandBatch.received }

end Packet

end KCensus.Slots

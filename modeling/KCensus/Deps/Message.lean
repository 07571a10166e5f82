import KCensus.Command
import KCensus.Deps.Executed

namespace KCensus.Deps

inductive DepMsg (n : Nat) where
  | forward
  | preAccept (id : Uid) (deps : DepSet n)
  | preAcceptOk (id : Uid) (deps : Option (DepSet n))
  | accept (id : Uid) (deps : DepSet n)
  | acceptOk (id : Uid)
  | commit (id : Uid) (deps : DepSet n)
  | readRequest (id : Nat) (key : Nat)
  | readResponse (id : Nat) (seen : DepSet n)
deriving DecidableEq

namespace DepMsg

variable {n : Nat}

def id : DepMsg n → Option Uid
  | forward | readRequest _ _ | readResponse _ _ => none
  | preAccept id _ | preAcceptOk id _ | accept id _ | acceptOk id | commit id _ => some id

def replicasOnly : DepMsg n → Bool
  | preAcceptOk _ _ | accept _ _ | acceptOk _ | readRequest _ _ => true
  | forward | preAccept _ _ | commit _ _ | readResponse _ _ => false

-- What `queue_ack` takes.
def isAck : DepMsg n → Bool
  | preAcceptOk _ _ | accept _ _ | acceptOk _ => true
  | _ => false

def isPreAccept : DepMsg n → Bool
  | preAccept _ _ => true
  | _ => false

-- What goes out to everybody at once.
def isOffer : DepMsg n → Bool
  | preAccept _ _ | accept _ _ => true
  | _ => false

def isCommit : DepMsg n → Bool
  | commit _ _ => true
  | _ => false

end DepMsg

-- A message with the payload that travels beside it.
structure Packet (n : Nat) where
  msg : DepMsg n
  value : Option (List (Command n))
deriving DecidableEq

-- What a shard hands to its sinks, and the moments of a run that are worth a line in its log.
inductive Event (n : Nat) where
  | broadcast (packet : Packet n) (priority : Option (Fin n))
  | send (packet : Packet n) (dest : Fin n)
  | queueAck (msg : DepMsg n) (requester : Fin n)
  | submitted (commands : List (Command n))
  | received (src : Fin n) (packet : Packet n)
  | created (id : Uid) (commands : List (Command n))
  | proposed (id : Uid) (deps : DepSet n)
  | dispatchedAccept (id : Uid) (deps : DepSet n) (settled : Bool)
  | blocked (id dep : Uid) (parked : Bool)
  | committed (id : Uid) (deps : DepSet n)
  | executed (id : Uid) (commands : List (Command n))
  | ordered (uids : List Uid)
  | readSubmitted (id : Nat) (command : Command n)
  | served (id : Nat) (command : Command n)
  | handed (commands : List (Command n))
  | panicked
deriving DecidableEq

def Event.executedId {n : Nat} : Event n → Option Uid
  | .executed id _ => some id
  | _ => none

def Event.openedId {n : Nat} : Event n → Option Uid
  | .broadcast ⟨.preAccept id _, _⟩ _ => some id
  | _ => none

def Event.acceptance {n : Nat} : Event n → Option (Uid × DepSet n)
  | .broadcast ⟨.accept id deps, _⟩ _ | .queueAck (.accept id deps) _ => some (id, deps)
  | _ => none

def executedIds {n : Nat} (events : List (Event n)) : List Uid := events.filterMap Event.executedId

end KCensus.Deps

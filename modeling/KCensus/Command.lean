import KCensus.Topology
import Mathlib.Data.Fin.Basic

namespace KCensus

structure CommitReport where
  fast : Bool
  waitedFor : Nat
deriving DecidableEq, Repr

structure Command (n : Nat) where
  requester : Fin n
  shard : Nat
  command : List UInt8
  readOnly : Bool
  arrivalSlot : Nat
  report : Option CommitReport
deriving DecidableEq, Repr

namespace Command

variable {n : Nat}

-- What the requester asked for; the other fields are its own bookkeeping.
def request (c : Command n) : Fin n × Nat × List UInt8 × Bool :=
  (c.requester, c.shard, c.command, c.readOnly)

end Command

end KCensus

import KCensus.Propagation.Graphs
import Mathlib.Order.WithBot
import Mathlib.Order.Fin.Basic

namespace KCensus.Census

open Propagation (PropagationGraphs MessageId)

variable {n : Nat}

structure NodeState (n : Nat) where
  id : Fin n
  v : Option Nat
  kProposer : Option (Fin n)
  kStateNanos : Nat
  preparedFor : Option (Fin n)
  paxosAcceptRound : Option (Fin n)
deriving DecidableEq

def compareRounds : Option (Fin n) → Option (Fin n) → Ordering
  | none, none => .eq
  | none, some _ => .lt
  | some _, none => .gt
  | some a, some b => compare a b

namespace NodeState

def new (id : Fin n) : NodeState n :=
  { id, v := none, kProposer := none, kStateNanos := 0, preparedFor := none
    paxosAcceptRound := none }

def isFrozen (s : NodeState n) : Bool := s.preparedFor.isSome

-- `none` is a failed assertion.
def partialCmp (self other : NodeState n) : Option Ordering :=
  if self.id ≠ other.id then none
  else
    let acceptOrd := compareRounds self.paxosAcceptRound other.paxosAcceptRound
    let prepareOrd := compareRounds self.preparedFor other.preparedFor
    if acceptOrd ≠ .eq then
      if prepareOrd = acceptOrd ∨ prepareOrd = .eq then some acceptOrd else none
    else if prepareOrd ≠ .eq then some prepareOrd
    else
      let stateOrd := compare self.kStateNanos other.kStateNanos
      if stateOrd ≠ .eq then some stateOrd
      else if self.v.isSome = other.v.isSome then
        if self = other then some .eq else none
      else
        let vOrd := compare self.v.isSome other.v.isSome
        let propOrd := compare self.kProposer.isSome other.kProposer.isSome
        if vOrd = propOrd then some vOrd else none

def updateKState (s : NodeState n) (duration : Nat) (graph : PropagationGraphs n) :
    Option (NodeState n) :=
  if s.isFrozen then none
  else
    match s.kProposer with
    | none => none
    | some proposer =>
        let s := { s with kStateNanos := duration % 2 ^ 64 }
        if graph.finalState proposer s.id duration then
          some { s with preparedFor := some (graph.getLeader proposer) }
        else some s

def acceptWithKState (s : NodeState n) (v : Nat) (proposer : Fin n) (duration : Nat)
    (graph : PropagationGraphs n) : Option (NodeState n) :=
  if s.v.isSome ∨ s.kProposer.isSome ∨ s.kStateNanos ≠ 0 then none
  else ({ s with v := some v, kProposer := some proposer }).updateKState duration graph

def prepareFor (s : NodeState n) (leader : Fin n) : NodeState n :=
  if compareRounds s.preparedFor (some leader) = .lt then { s with preparedFor := some leader }
  else s

def paxosAccept (s : NodeState n) (leader : Fin n) (v : Nat) : NodeState n × Bool :=
  let s := s.prepareFor leader
  if s.preparedFor = some leader ∧ compareRounds s.paxosAcceptRound (some leader) = .lt then
    ({ s with v := some v, paxosAcceptRound := some leader, kProposer := none, kStateNanos := 0 },
      true)
  else (s, false)

end NodeState

end KCensus.Census

import KCensus.Slots.Shard

namespace KCensus.Slots

open Lib (HashMap)

variable {n : Nat}

-- One of the two bit sets of a round with its counter.
structure Tally (n : Nat) where
  members : Finset (Fin n)
  count : Nat
  count_eq : count = members.card
deriving DecidableEq

namespace Tally

def empty : Tally n := ⟨∅, 0, rfl⟩

def note (pid : Fin n) (t : Tally n) : Tally n :=
  if h : pid ∈ t.members then t
  else ⟨insert pid t.members, t.count + 1, by rw [Finset.card_insert_of_notMem h, t.count_eq]⟩

end Tally

structure PaxosFamilyRoundState (n : Nat) where
  round : WithBot (PaxosRound n)
  prepared : Tally n
  accepted : Tally n
  maxRv : Option (RoundV n)
  fastAnswerSet : Finset (Fin n)
  fastAnswers : Nat
  fastPreaccepted : Nat
  fastProposerToV : HashMap (Fin n) Nat
  epaxosProposerScores : Fin n → Nat
  swiftProposerScores : Fin n → Nat
  swiftLeaderAnswer : Option Nat
deriving DecidableEq

namespace PaxosFamilyRoundState

variable (c : Cluster n) (me : Fin n)

def ePaxosQuorum : Nat := max ((c.topology.nbReplicas * 3 - 1) / 4) c.majority

def fastPaxosQuorum : Nat := max ((c.topology.nbReplicas * 3 - 1) / 4 + 1) c.majority

def new (startingRound : WithBot (PaxosRound n)) : PaxosFamilyRoundState n where
  round := startingRound
  prepared := .empty
  accepted := .empty
  maxRv := none
  fastAnswerSet := ∅
  fastAnswers := 0
  fastPreaccepted := 0
  fastProposerToV := ∅
  epaxosProposerScores := fun _ => 2
  swiftProposerScores := fun _ => 0
  swiftLeaderAnswer := none

def nextRound (r : PaxosFamilyRoundState n) : PaxosFamilyRoundState n :=
  { r with prepared := .empty, accepted := .empty }

def gotoRound (round : WithBot (PaxosRound n)) (r : PaxosFamilyRoundState n) :
    PaxosFamilyRoundState n :=
  nextRound { r with round := round }

def fullClear (r : PaxosFamilyRoundState n) : PaxosFamilyRoundState n :=
  { r.nextRound with
    maxRv := none
    fastAnswerSet := ∅
    fastAnswers := 0
    fastPreaccepted := 0
    fastProposerToV := ∅
    epaxosProposerScores := fun _ => 2
    swiftProposerScores := fun _ => 0
    swiftLeaderAnswer := none }

def isClear (startingRound : WithBot (PaxosRound n)) (r : PaxosFamilyRoundState n) : Bool :=
  decide (r.round = startingRound) && r.maxRv.isNone && decide (r.prepared.count = 0) &&
    decide (r.accepted.count = 0) && decide (r.prepared.members = ∅) &&
    decide (r.accepted.members = ∅) && decide (r.fastAnswers = 0) &&
    decide (r.fastPreaccepted = 0) && decide (r.fastAnswerSet = ∅) &&
    Lib.HashMap.isEmpty r.fastProposerToV && r.swiftLeaderAnswer.isNone &&
    decide (∀ p, r.epaxosProposerScores p = 2) && decide (∀ p, r.swiftProposerScores p = 0)

def getV (r : PaxosFamilyRoundState n) : Option Nat := r.maxRv.map RoundV.getV

def lastAcceptedRound (r : PaxosFamilyRoundState n) : WithBot (PaxosRound n) :=
  match r.maxRv with
  | some rv => rv.getAcceptRound
  | none => ⊥

def tally (src : Fin n) (t : Tally n) : Tally n :=
  let t := if src ≠ me then t.note src else t
  if c.isReplica me then t.note me else t

def receivePromise (src : Fin n) (rv : RoundV n) (r : PaxosFamilyRoundState n) :
    PaxosFamilyRoundState n :=
  { r with
    maxRv := if r.maxRv = none ∨ r.lastAcceptedRound < rv.getAcceptRound then some rv else r.maxRv
    prepared := tally c me src r.prepared }

def paxosProposeV (rv : RoundV n) (r : PaxosFamilyRoundState n) : PaxosFamilyRoundState n :=
  r.receivePromise c me me rv

def receiveAccept (src : Fin n) (round : PaxosRound n) (v : Nat) (r : PaxosFamilyRoundState n) :
    Except Panic (PaxosFamilyRoundState n) :=
  let rv := some (RoundV.paxosV (round : WithBot (PaxosRound n)) v)
  if r.lastAcceptedRound < round ∨ r.maxRv = rv then
    .ok { r with maxRv := rv, accepted := tally c me src r.accepted }
  else .error .failed

def selfAccept (round : PaxosRound n) (r : PaxosFamilyRoundState n) :
    Except Panic (PaxosFamilyRoundState n) :=
  match r.getV with
  | some v => if r.accepted.count = 0 then r.receiveAccept c me me round v else .error .failed
  | none => .error .failed

def adoptFromEpaxos (v : Nat) (r : PaxosFamilyRoundState n) : PaxosFamilyRoundState n :=
  { r with maxRv := some (.paxosV ⊥ v) }

def isPrepared (r : PaxosFamilyRoundState n) : Bool := c.majority ≤ r.prepared.count

def paxosCanCommit (r : PaxosFamilyRoundState n) : Bool := c.majority ≤ r.accepted.count

def epaxosAnswered (src proposer : Fin n) (v : Nat) (r : PaxosFamilyRoundState n) :
    Except Panic (PaxosFamilyRoundState n) :=
  if src ∉ r.fastAnswerSet then
    let score := r.epaxosProposerScores proposer
    .ok { r with
      fastAnswerSet := insert src r.fastAnswerSet
      fastProposerToV := r.fastProposerToV.insert proposer v
      fastAnswers := r.fastAnswers + 1
      fastPreaccepted := if proposer = me then r.fastPreaccepted + 1 else r.fastPreaccepted
      epaxosProposerScores :=
        Function.update r.epaxosProposerScores proposer
          (if src ≠ proposer then score + 1 else score - 1) }
  else if src ≠ me then .error .failed
  else .ok r

def outsideQuorum (fixedQuorum : Option (Finset (Fin n))) (src : Fin n) : Bool :=
  fixedQuorum.any fun quorum => src ∉ quorum

def swiftAnswered (src proposer : Fin n) (v : Nat) (fixedQuorum : Option (Finset (Fin n)))
    (leader : Bool) (r : PaxosFamilyRoundState n) : Except Panic (PaxosFamilyRoundState n) :=
  if src ∉ r.fastAnswerSet then
    let r := { r with
      fastAnswerSet := insert src r.fastAnswerSet
      fastProposerToV := r.fastProposerToV.insert proposer v }
    if outsideQuorum fixedQuorum src then if leader then .error .failed else .ok r
    else
      .ok { r with
        fastAnswers := r.fastAnswers + 1
        fastPreaccepted := if proposer = me then r.fastPreaccepted + 1 else r.fastPreaccepted
        swiftProposerScores :=
          Function.update r.swiftProposerScores proposer (r.swiftProposerScores proposer + 1)
        swiftLeaderAnswer := if leader then some v else r.swiftLeaderAnswer }
  else if src ≠ me then .error .failed
  else .ok r

def swiftProposeV (v : Nat) (fixedQuorum : Option (Finset (Fin n))) (leader : Bool)
    (r : PaxosFamilyRoundState n) : Except Panic (PaxosFamilyRoundState n) :=
  if c.isReplica me then r.swiftAnswered me me me v fixedQuorum leader else .ok r

def epaxosCanCommit (r : PaxosFamilyRoundState n) : Bool :=
  decide (r.fastProposerToV.entries.length = 1) && decide (ePaxosQuorum c ≤ r.fastPreaccepted)

def swiftCanCommit (fixedQuorum : Bool) (r : PaxosFamilyRoundState n) : Bool :=
  decide (r.fastProposerToV.entries.length = 1) && r.swiftLeaderAnswer.isSome &&
    decide ((if fixedQuorum then c.majority else fastPaxosQuorum c) ≤ r.fastPreaccepted)

-- The best score so far and the value it belongs to.
def consider (r : PaxosFamilyRoundState n) (best : Nat × Option Nat) (proposer : Fin n) :
    Nat × Option Nat :=
  if best.1 < r.epaxosProposerScores proposer then
    (r.epaxosProposerScores proposer, r.fastProposerToV.lookup proposer)
  else best

def epaxosTryAdopt (order : HashOrder n) (r : PaxosFamilyRoundState n) : Option Nat :=
  if r.fastAnswers < c.majority then none
  else if r.fastProposerToV.entries.length < 2 then none
  else ((order.processes r.fastProposerToV.keys).foldl (consider r) (0, none)).2

section

variable {c} {me} {r r' : PaxosFamilyRoundState n} {src : Fin n}

theorem receiveAccept_getV {round : PaxosRound n} {v : Nat}
    (h : r.receiveAccept c me src round v = .ok r') : r'.round = r.round ∧ r'.getV = some v := by
  simp only [receiveAccept] at h
  split at h
  · cases h
    exact ⟨rfl, rfl⟩
  · cases h

theorem swiftAnswered_getV {proposer : Fin n} {v : Nat} {quorum : Option (Finset (Fin n))}
    {leader : Bool} (h : r.swiftAnswered me src proposer v quorum leader = .ok r') :
    r'.getV = r.getV := by
  simp only [swiftAnswered] at h
  split at h
  · split at h
    · split at h
      · cases h
      · cases h
        rfl
    · cases h
      rfl
  · split at h
    · cases h
    · cases h
      rfl

end

end PaxosFamilyRoundState

end KCensus.Slots

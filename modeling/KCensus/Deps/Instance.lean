import KCensus.Command
import KCensus.Deps.DepSet

namespace KCensus.Deps

inductive Phase where
  | preAccepted
  | accepted
  | committed
deriving DecidableEq, Repr

structure Instance (n : Nat) where
  coordinatorPid : Fin n
  commands : List (Command n)
  leader : Fin n
  deps : DepSet n
  phase : Phase
  preaccepts : Fin n → Option (DepSet n)
  endorsers : Finset (Fin n)
  union : DepSet n
  acceptAcked : Finset (Fin n)
  leftFastPath : Bool
  coordinatorDeps : Option (DepSet n)

namespace Instance

variable {n : Nat}

def new (coordinatorPid leader : Fin n) (commands : List (Command n)) (deps : DepSet n) :
    Instance n where
  coordinatorPid := coordinatorPid
  commands := commands
  leader := leader
  deps := deps
  phase := .preAccepted
  preaccepts := fun _ => none
  endorsers := ∅
  union := DepSet.new n
  acceptAcked := ∅
  leftFastPath := false
  coordinatorDeps := none

def isCommitted (i : Instance n) : Bool := i.phase = .committed

def isSettled (i : Instance n) : Bool := i.phase ≠ .preAccepted

def leaderDeps (i : Instance n) : Option (DepSet n) := i.preaccepts i.leader

def setCoordinatorDeps (i : Instance n) (deps : DepSet n) : Instance n :=
  { i with coordinatorDeps := i.coordinatorDeps.or (some deps) }

def hasPreaccept (i : Instance n) (src : Fin n) : Bool := (i.preaccepts src).isSome

-- The source answers `false` exactly when `hasPreaccept` held before.
def recordPreaccept (i : Instance n) (src : Fin n) (deps : DepSet n) : Instance n :=
  if i.hasPreaccept src then i
  else
    { i with
      union := i.union.unionWith deps
      endorsers :=
        if src = i.leader then
          insert src i.endorsers ∪ Finset.univ.filter fun other => i.preaccepts other = some deps
        else if i.leaderDeps = some deps then insert src i.endorsers
        else i.endorsers
      preaccepts := fun other => if other = src then some deps else i.preaccepts other }

def preacceptors (i : Instance n) : Finset (Fin n) :=
  Finset.univ.filter fun src => (i.preaccepts src).isSome

def preacceptsCount (i : Instance n) : Nat := i.preacceptors.card

def allPreacceptsEndorse (i : Instance n) : Bool := i.endorsers.card = i.preacceptsCount

def acceptedDeps (i : Instance n) : Option (DepSet n) := if i.isSettled then some i.deps else none

def fastEndorsers (i : Instance n) : Option (Finset (Fin n)) :=
  if i.leaderDeps.isSome then some (i.acceptAcked ∪ i.endorsers) else none

def accept (i : Instance n) (deps : DepSet n) : Instance n :=
  { i with deps := deps, phase := .accepted }

def ackAccept (i : Instance n) (src : Fin n) : Instance n :=
  { i with acceptAcked := insert src i.acceptAcked }

def markLeftFastPath (i : Instance n) : Instance n := { i with leftFastPath := true }

def setFastPath (i : Instance n) (fast : Bool) : Instance n := { i with leftFastPath := !fast }

def onFastPath (i : Instance n) : Bool := !i.leftFastPath

def commit (i : Instance n) (deps : DepSet n) : Instance n :=
  { i with deps := deps, phase := .committed }

@[simp] theorem commands_recordPreaccept (i : Instance n) (src : Fin n) (deps : DepSet n) :
    (i.recordPreaccept src deps).commands = i.commands := by
  unfold recordPreaccept
  split <;> rfl

@[simp] theorem settled_recordPreaccept (i : Instance n) (src : Fin n) (deps : DepSet n) :
    (i.recordPreaccept src deps).isSettled = i.isSettled := by
  unfold recordPreaccept
  split <;> rfl

@[simp] theorem coordinatorDeps_recordPreaccept (i : Instance n) (src : Fin n) (deps : DepSet n) :
    (i.recordPreaccept src deps).coordinatorDeps = i.coordinatorDeps := by
  unfold recordPreaccept
  split <;> rfl

@[simp] theorem commands_setCoordinatorDeps (i : Instance n) (deps : DepSet n) :
    (i.setCoordinatorDeps deps).commands = i.commands := rfl

@[simp] theorem commands_accept (i : Instance n) (deps : DepSet n) :
    (i.accept deps).commands = i.commands := rfl

@[simp] theorem commands_ackAccept (i : Instance n) (src : Fin n) :
    (i.ackAccept src).commands = i.commands := rfl

end Instance

end KCensus.Deps

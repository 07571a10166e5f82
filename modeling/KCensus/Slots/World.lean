import KCensus.Slots.Consensus
import Mathlib.Logic.Function.Basic

namespace KCensus.Slots

variable {n : Nat} {R : Type}

structure Deployment (n : Nat) (R : Type) where
  cluster : Cluster n
  algorithm : Fin n → HashOrder n → ConsensusShardTrait n R
  newRoundState : Fin n → R

def Deployment.canSleep (d : Deployment n R) (p : Fin n) (s : ConsensusShard n R) : Bool :=
  s.canSleep (d.algorithm p .same)

inductive Place (n : Nat) (R : Type) where
  | awake (shard : ConsensusShard n R)
  | asleep (state : SleepingShard)

def Place.isNoop (packet : Packet n) : Place n R → Bool
  | awake _ => false
  | asleep state => packet.value.isNone && state.isNoop packet.msg

def Place.shard? : Place n R → Option (ConsensusShard n R)
  | awake shard => some shard
  | asleep _ => none

-- The link from `src` to `dest` carries what the events of `src` put on it.
def Event.packetsTo (c : Cluster n) (src dest : Fin n) : Event n → List (Packet n)
  | .broadcast packet priority =>
      if dest ≠ src ∧ (priority = some dest ∨
          (c.shouldOnlySendToReplicas packet && !c.isReplica dest) = false) then
        [packet.received]
      else []
  | .send packet target =>
      if target = dest ∧ (c.shouldOnlySendToReplicas packet && !c.isReplica dest) = false then
        [packet.received]
      else []
  | _ => []

-- One logical shard at every process, the run so far, and what is on its way.
structure World (n : Nat) (R : Type) where
  places : Fin n → Place n R
  links : Fin n → Fin n → List (Packet n)
  crashed : Fin n → Option Panic
  hist : List (Fin n × Event n)

inductive Label (n : Nat) where
  | submit (p : Fin n) (command : Command n) (order : HashOrder n)
  | receive (src p : Fin n) (order : HashOrder n)
  | sleep (p : Fin n)

def Label.pid : Label n → Fin n
  | submit p _ _ => p
  | receive _ p _ => p
  | sleep p => p

namespace World

variable (d : Deployment n R)

def init : World n R where
  places := fun p => .asleep (SleepingShard.new p)
  links := fun _ _ => []
  crashed := fun _ => none
  hist := []

def pristine (p : Fin n) : ConsensusShard n R :=
  ConsensusShard.new d.cluster p (d.newRoundState p)

def physical (p : Fin n) (w : World n R) : ConsensusShard n R :=
  match w.places p with
  | .awake shard => shard
  | .asleep _ => pristine d p

def meet (spare : ConsensusShard n R) (p : Fin n) (w : World n R) : ConsensusShard n R :=
  match w.places p with
  | .awake shard => shard
  | .asleep state => ConsensusShard.wakeUp state spare

def failure {α : Type} : EStateM.Result Panic (ConsensusShard n R) α → Option Panic
  | .ok _ _ => none
  | .error e _ => some e

-- Puts the outcome of a turn back, and what it sent on the links.
def settle {α : Type} (p : Fin n) (r : EStateM.Result Panic (ConsensusShard n R) α)
    (w : World n R) : World n R :=
  let s := Lib.Turn.state r
  { places := Function.update w.places p (.awake { s with sinks := [] })
    links := Function.update w.links p fun dest =>
      w.links p dest ++ s.sinks.flatMap (Event.packetsTo d.cluster p dest)
    crashed := Function.update w.crashed p (failure r)
    hist := w.hist ++ s.sinks.map (Prod.mk p) }

def popLink (src p : Fin n) (w : World n R) : World n R :=
  { w with links :=
      Function.update w.links src (Function.update (w.links src) p (w.links src p).tail) }

def note (p : Fin n) (e : Event n) (w : World n R) : World n R := { w with hist := w.hist ++ [(p, e)] }

def step (spare : ConsensusShard n R) (w : World n R) : Label n → Option (World n R)
  | .submit p command order =>
      if w.crashed p = none then
        some (w.settle d p
          (Turn.onCommand p order (d.algorithm p order) command (w.meet spare p)))
      else none
  | .receive src p order =>
      match w.links src p with
      | [] => none
      | packet :: _ =>
          if w.crashed p = none then
            let w := w.popLink src p
            if (w.places p).isNoop packet then some (w.note p (.received src packet))
            else
              some (w.settle d p
                (Turn.onPacket d.cluster p order (d.algorithm p order) packet (w.meet spare p)))
          else none
  | .sleep p =>
      match w.places p with
      | .asleep _ => none
      | .awake shard =>
          if w.crashed p = none ∧ d.canSleep p shard = true then
            some { w with places := Function.update w.places p (.asleep shard.fallAsleep) }
          else none

-- `shard` is idle at `p` in a run of its own, so it may serve another logical shard next.
def Spare (p : Fin n) (w : World n R) (shard : ConsensusShard n R) : Prop :=
  w.crashed p = none ∧ w.physical d p = shard ∧ d.canSleep p shard = true

inductive Reachable : World n R → Prop where
  | init : Reachable init
  | step {w w' other : World n R} {spare : ConsensusShard n R} {l : Label n} :
      Reachable w → Reachable other → Spare d l.pid other spare →
      w.step d spare l = some w' → Reachable w'

inductive Run (ok : World n R → Label n → Prop) : World n R → Prop where
  | init : Run ok init
  | step {w w' other : World n R} {spare : ConsensusShard n R} {l : Label n} :
      Run ok w → Reachable d other → Spare d l.pid other spare → ok w l →
      w.step d spare l = some w' → Run ok w'

-- The steps of `labels`, with a shard that never served another one for each that wakes up.
def follow (labels : List (Label n)) (w : World n R) : Option (World n R) :=
  labels.foldlM (fun w l => w.step d (pristine d l.pid) l) w

-- The same, as far as every step is as `ok` says in the state that it starts in.
def followIf (ok : World n R → Label n → Prop) [∀ w l, Decidable (ok w l)] (labels : List (Label n))
    (w : World n R) : Option (World n R) :=
  labels.foldlM (fun w l => if ok w l then w.step d (pristine d l.pid) l else none) w

variable {d}

theorem Reachable.follow (hfresh : ∀ p, d.canSleep p (pristine d p) = true) {labels : List (Label n)}
    {w w' : World n R} (h : Reachable d w) (hw : w.follow d labels = some w') : Reachable d w' := by
  induction labels generalizing w with
  | nil =>
    cases hw
    exact h
  | cons l labels ih =>
    rw [World.follow, List.foldlM_cons, Option.bind_eq_bind, Option.bind_eq_some_iff] at hw
    obtain ⟨mid, hstep, hrest⟩ := hw
    exact ih (.step h .init ⟨rfl, rfl, hfresh l.pid⟩ hstep) hrest

theorem Run.reachable {ok : World n R → Label n → Prop} {w : World n R} (h : Run d ok w) :
    Reachable d w := by
  induction h with
  | init => exact .init
  | step hw ho hs hok hstep ih => exact .step ih ho hs hstep

theorem Run.followIf {ok : World n R → Label n → Prop} [∀ w l, Decidable (ok w l)]
    (hfresh : ∀ p, d.canSleep p (pristine d p) = true) {labels : List (Label n)} {w w' : World n R}
    (h : Run d ok w) (hw : w.followIf d ok labels = some w') : Run d ok w' := by
  induction labels generalizing w with
  | nil =>
    cases hw
    exact h
  | cons l labels ih =>
    rw [World.followIf, List.foldlM_cons, Option.bind_eq_bind, Option.bind_eq_some_iff] at hw
    obtain ⟨mid, hstep, hrest⟩ := hw
    split at hstep
    · rename_i hok
      exact ih (.step h .init ⟨rfl, rfl, hfresh l.pid⟩ hok hstep) hrest
    · cases hstep

end World

end KCensus.Slots

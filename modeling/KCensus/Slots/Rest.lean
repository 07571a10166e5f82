import KCensus.Slots.Conduct

namespace KCensus.Slots

open Lib.Turn (Meets Along)
open Turn Conduct ConsensusShard

variable {n : Nat} {R : Type} {me : Fin n}

def Event.isCommitted : Event n → Bool
  | .committed _ _ => true
  | _ => false

-- A message of the current slot was handled without its payload, and no slot was decided since.
def Strays (events : List (Event n)) : Prop :=
  ∃ v before after, events = before ++ .unready v :: after ∧ ∀ e ∈ after, e.isCommitted = false

-- A process of an algorithm: its messages, the round state of a slot in which nothing was heard
-- yet, and those that keep a shard awake. What never changes in them makes them `fit`.
structure Rest (me : Fin n) (R : Type) where
  follows : Bool
  readQuorum : Nat
  speaks : ConsensusMsg n → Bool → Prop
  fit : R → Prop
  valued : R → Prop
  idle : R

-- What there is to know of every packet that the process hands over.
structure Rest.Proper (x : Rest me R) (packet : Packet n) : Prop where
  src : packet.msg.src = me
  answer : packet.msg.isReadResponse = true → packet.msg.lastV = none
  speaks : x.speaks packet.msg.msg packet.value.isSome

def Rest.Says (x : Rest me R) : Event n → Prop
  | .broadcast packet _ => x.Proper packet
  | .send packet _ => x.Proper packet
  | _ => True

variable {x : Rest me R} {s t u : ConsensusShard n R} {α β : Type}

namespace Rest

-- What the work on a slot leaves of the state of a shard.
structure Kept (x : Rest me R) (s t : ConsensusShard n R) : Prop where
  slot : t.slot = s.slot
  tracker : t.readTracker = s.readTracker
  held : ∀ v ∈ s.queuedCommands, v ∈ t.queuedCommands
  fit : x.fit s.roundState → x.fit t.roundState
  valued : x.valued s.roundState → x.valued t.roundState
  said : Said (fun e => x.Says e ∧ e.isCommitted = false) s t

instance : IsPreorder (ConsensusShard n R) x.Kept where
  refl _ := ⟨rfl, rfl, fun _ => id, id, id, .refl⟩
  trans _ _ _ h h' := ⟨h'.slot.trans h.slot, h'.tracker.trans h.tracker, fun v hv => h'.held v (h.held v hv),
    h'.fit ∘ h.fit, h'.valued ∘ h.valued, h.said.trans h'.said⟩

abbrev Keeps (x : Rest me R) (m : Turn n R α) (s : ConsensusShard n R) : Prop := Along x.Kept m s

-- What the handling of a message comes to: a slot that is decided begins the next one.
def Ended (x : Rest me R) (s : ConsensusShard n R) :
    Option (CommandBatch n) → ConsensusShard n R → Prop
  | none, t => x.Kept s t
  | some _, t => t.slot = s.slot + 1 ∧ t.readTracker = s.readTracker ∧ (x.fit s.roundState → t.roundState = x.idle) ∧
      Said x.Says s t

theorem Kept.proper (h : x.Kept s t) : Said x.Says s t := h.said.mono fun _ he => he.1

theorem Kept.ended (h : x.Kept s t) {r : Option (CommandBatch n)} (hu : x.Ended t r u) :
    x.Ended s r u := by
  cases r with
  | none => exact IsTrans.trans _ _ _ h hu
  | some value =>
    exact ⟨hu.1.trans (congrArg (· + 1) h.slot), hu.2.1.trans h.tracker,
      fun hfit => hu.2.2.1 (h.fit hfit), h.proper.trans hu.2.2.2⟩

theorem Kept.hand {m : Turn n R (Option (CommandBatch n))} (h : x.Kept s t)
    (hm : Meets m t (x.Ended t) (fun _ => x.Kept t)) :
    Meets m t (x.Ended s) (fun _ => x.Kept s) :=
  hm.mono (fun _ _ => h.ended) fun _ _ => IsTrans.trans _ _ _ h

namespace Keeps

variable {m : Turn n R α} {f : α → Turn n R β} {g : ConsensusShard n R → Except Panic α}

theorem get {f : ConsensusShard n R → Turn n R β} (h : x.Keeps (f s) s) :
    x.Keeps (MonadState.get >>= f) s := h

theorem lift : x.Keeps (lift g) s := meets_lift.2 ⟨fun _ _ => refl s, fun _ _ => refl s⟩

theorem lift_bind (hf : ∀ a, g s = .ok a → x.Keeps (f a) s) : x.Keeps (Turn.lift g >>= f) s :=
  Lib.Turn.meets_bind.2 (meets_lift.2 ⟨hf, fun _ _ => refl s⟩)

theorem emit {e : Event n} (he : x.Says e) (hc : e.isCommitted = false) :
    x.Keeps (emit e) s :=
  ⟨rfl, rfl, fun _ => id, id, id, [e], rfl, fun _ hm => List.mem_singleton.1 hm ▸ ⟨he, hc⟩⟩

theorem leaveFastPath : x.Keeps (Turn.leaveFastPath : Turn n R Unit) s :=
  ⟨rfl, rfl, fun _ => id, id, id, .of_eq rfl⟩

theorem onRound {g : R → Except Panic R} (hfit : ∀ r, g s.roundState = .ok r →
    x.fit s.roundState → x.fit r) (hvalued : ∀ r, g s.roundState = .ok r →
    x.valued s.roundState → x.valued r) : x.Keeps (onRound g) s :=
  meets_onRound.2 ⟨fun r hr => ⟨rfl, rfl, fun _ => id, hfit r hr, hvalued r hr, .of_eq rfl⟩,
    fun _ _ => refl s⟩

theorem changeRound {g : R → R} (hfit : x.fit s.roundState → x.fit (g s.roundState))
    (hvalued : x.valued s.roundState → x.valued (g s.roundState)) :
    x.Keeps (modify fun s => { s with roundState := g s.roundState } : Turn n R Unit) s :=
  ⟨rfl, rfl, fun _ => id, hfit, hvalued, .of_eq rfl⟩

theorem hand (hm : x.Keeps m s) {f : α → Turn n R (Option (CommandBatch n))}
    (hf : ∀ a t, x.Kept s t → Meets (f a) t (x.Ended t) (fun _ => x.Kept t)) :
    Meets (m >>= f) s (x.Ended s) (fun _ => x.Kept s) :=
  hm.read (fun a t ht => ht.hand (hf a t ht)) fun _ _ => id

section messages

variable {c : Cluster n} {msg : ConsensusMsg n} {value : Option (CommandBatch n)}
  {lastV : Option Nat} {dest : Fin n}

theorem priorityBroadcast {priority : Option (Fin n)}
    (hp : ∀ lastV, x.Proper ⟨⟨msg, me, lastV⟩, value⟩) :
    x.Keeps (Turn.priorityBroadcast me msg value priority : Turn n R Unit) s :=
  .get (.emit (hp s.lastV) rfl)

theorem send (hp : ∀ lastV, x.Proper ⟨⟨msg, me, lastV⟩, value⟩) :
    x.Keeps (Turn.send c me msg value dest : Turn n R Unit) s :=
  .get (.bind .check fun _ _ _ => Keeps.emit (hp s.lastV) rfl)

end messages

theorem storeNewCommand {value : CommandBatch n} :
    Meets (Turn.storeNewCommand value : Turn n R Nat) s
      (fun v t => x.Kept s t ∧ v ∈ t.queuedCommands) (fun _ => x.Kept s) := by
  simp only [Turn.storeNewCommand, Lib.Turn.meets_bind, Lib.Turn.meets_get, Lib.Turn.meets_modify,
    Lib.Turn.meets_pure]
  refine ⟨⟨rfl, rfl, fun v hv => (AList.mem_insert _).2 (Or.inr hv), id, id, [_], rfl, fun e he => ?_⟩,
    (AList.mem_insert _).2 (Or.inl rfl)⟩
  exact List.mem_singleton.1 he ▸ ⟨trivial, rfl⟩

theorem advance {v : Nat} {clear : R → R} (hclear : ∀ r, x.fit r → clear r = x.idle) :
    Meets (Turn.advance v clear) s (fun value => x.Ended s (some value)) (fun _ => x.Kept s) := by
  simp only [Turn.advance, removeCommand, purgeBatches, Lib.Turn.meets_bind, Lib.Turn.meets_get]
  split
  · refine ⟨rfl, rfl, fun hfit => hclear _ hfit, [_], rfl, fun e he => ?_⟩
    exact List.mem_singleton.1 he ▸ trivial
  · exact refl s

end Keeps

def Stocked (x : Rest me R) (s : ConsensusShard n R) : Prop :=
  (∃ v, v ∈ s.queuedCommands) ∨ x.valued s.roundState

def Idle (x : Rest me R) (s : ConsensusShard n R) : Prop :=
  s.roundState = x.idle ∧ s.slotLeftFastPath = false

-- A shard has something to do, or is as one that was never used.
structure Tidy (x : Rest me R) (s : ConsensusShard n R) : Prop where
  quorum : s.readTracker.readQuorum = x.readQuorum
  fit : x.fit s.roundState
  rest : x.Stocked s ∨ x.Idle s ∨ x.follows = true ∧ Strays s.sinks

def Rested (x : Rest me R) (msg : ConsensusMessage n) (s t : ConsensusShard n R) : Prop :=
  t = { s with sinks := t.sinks } ∨ x.Stocked t ∨
    x.follows = true ∧ s.valueReady msg = .ok false ∧ msg.getSlot = some s.slot

def Replied (x : Rest me R) (msg : ConsensusMessage n) (s : ConsensusShard n R)
    (r : Option (CommandBatch n)) (t : ConsensusShard n R) : Prop :=
  x.Ended s r t ∧ (r = none → x.Rested msg s t)

-- What the pool relies on in an algorithm at `me`.
structure Habitual (x : Rest me R) (algo : ConsensusShardTrait n R) : Prop where
  idle : x.fit x.idle
  ongoing : ∀ {s : ConsensusShard n R}, x.valued s.roundState → algo.ongoing s = true
  valued : ∀ {s : ConsensusShard n R}, x.follows = true → algo.ongoing s = true →
    x.valued s.roundState
  speaks : ∀ {msg : ConsensusMsg n} {withValue : Bool}, (∀ m, msg ≠ .kcensusM m) →
    (∀ m, msg ≠ .paxosM m) → x.speaks msg withValue
  processMessage : ∀ {s : ConsensusShard n R} {msg : ConsensusMessage n},
    s.readyToProcess me msg = .ok true →
    Meets (algo.processMessage msg) s (x.Replied msg s) (fun _ => x.Kept s)
  commitSlot : ∀ {s : ConsensusShard n R} {v : Nat},
    Meets (algo.commitSlot v) s (fun value => x.Ended s (some value)) (fun _ => x.Kept s)
  proposeStart : ∀ {s : ConsensusShard n R} {value : CommandBatch n} {contention : Bool},
    Meets (algo.proposeStart value contention) s
      (fun _ t => x.Kept s t ∧ ∃ v, v ∈ t.queuedCommands) (fun _ => x.Kept s)
  reproposeStart : ∀ {s : ConsensusShard n R} {v : Nat}, x.Keeps (algo.reproposeStart v) s
  stale : ∀ {s : ConsensusShard n R} {msg : ConsensusMessage n} {slot : Nat},
    msg.getSlot = some slot → slot < s.slot → x.speaks msg.msg false →
    (∀ slot v, msg.msg ≠ .commit slot v) → msg.isReadResponse = false →
    algo.processMessage msg s = .ok none s

end Rest

end KCensus.Slots

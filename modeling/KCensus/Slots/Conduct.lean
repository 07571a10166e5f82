import KCensus.Slots.Turns

namespace KCensus.Slots

open Lib.Turn (Meets)
open Turn

variable {n : Nat} {R : Type}

-- The accept phase of `leader` for `v` in `slot`: its opening message, or a vote in it.
def ConsensusMsg.Accepts (leader : Fin n) (slot v : Nat) : ConsensusMsg n → Prop
  | .kcensusM (.paxosAccept slot' leader' v' _) => slot' = slot ∧ leader' = leader ∧ v' = v
  | .paxosM (.accept slot' round v') => slot' = slot ∧ round.leader = leader ∧ v' = v
  | _ => False

theorem ConsensusMsg.Accepts.names {leader : Fin n} {slot v : Nat} {m : ConsensusMessage n}
    (h : m.msg.Accepts leader slot v) : m.getSlot = some slot ∧ m.getV = some v := by
  obtain ⟨msg, src, lastV⟩ := m
  cases msg with
  | kcensusM msg =>
    cases msg with
    | paxosAccept slot' leader' v' newValue =>
      obtain ⟨rfl, -, rfl⟩ := h
      exact ⟨rfl, rfl⟩
    | _ => exact h.elim
  | paxosM msg =>
    cases msg with
    | accept slot' round v' =>
      obtain ⟨rfl, -, rfl⟩ := h
      exact ⟨rfl, rfl⟩
    | _ => exact h.elim
  | _ => exact h.elim

def ConsensusMsg.isCommit : ConsensusMsg n → Bool
  | .commit _ _ => true
  | _ => false

-- What is said outside of decisions. Where a fallback is an accept phase, a process opens only
-- its own, and votes only in those it has heard of.
def Event.Plain (me : Fin n) (phased : Prop) (heard : Fin n → Nat → Nat → Prop) : Event n → Prop
  | .broadcast packet _ => packet.msg.src = me ∧ packet.msg.msg.isCommit = false ∧
      (phased → ∀ leader slot v, packet.msg.msg.Accepts leader slot v → leader = me)
  | .send packet _ => packet.msg.src = me ∧ packet.msg.msg.isCommit = false ∧
      (phased → ∀ leader slot v, packet.msg.msg.Accepts leader slot v → heard leader slot v)
  | .decided _ _ _ => False
  | .learned _ _ _ => False
  | .handed write _ => write = none
  | _ => True

-- How a process carries on: what it may say, and what of its state it keeps.
structure Conduct (n : Nat) (R : Type) where
  me : Fin n
  phased : Prop
  heard : Fin n → Nat → Nat → Prop
  keeps : ConsensusShard n R → ConsensusShard n R → Prop
  refl : ∀ s, keeps s s
  trans : ∀ {s t u}, keeps s t → keeps t u → keeps s u
  emits : ∀ (s : ConsensusShard n R) e, keeps s { s with sinks := s.sinks ++ [e] }

def Conduct.still (me : Fin n) (phased : Prop) (heard : Fin n → Nat → Nat → Prop) :
    Conduct n R where
  me := me
  phased := phased
  heard := heard
  keeps s t := t = { s with sinks := t.sinks }
  refl _ := rfl
  trans h h' := h'.trans (by rw [h])
  emits _ _ := rfl

namespace Conduct

variable {y : Conduct n R} {s t u : ConsensusShard n R} {α β : Type}

def Says (y : Conduct n R) (e : Event n) : Prop := e.Plain y.me y.phased y.heard

def Said (fits : Event n → Prop) (s t : ConsensusShard n R) : Prop :=
  ∃ said, t.sinks = s.sinks ++ said ∧ ∀ e ∈ said, fits e

theorem Said.refl {fits : Event n → Prop} : Said fits s s :=
  ⟨[], (List.append_nil _).symm, fun _ he => absurd he List.not_mem_nil⟩

theorem Said.of_eq {fits : Event n → Prop} (h : t.sinks = s.sinks) : Said fits s t :=
  ⟨[], by rw [h, List.append_nil], fun _ he => absurd he List.not_mem_nil⟩

theorem Said.trans {fits : Event n → Prop} (h : Said fits s t) (h' : Said fits t u) :
    Said fits s u := by
  obtain ⟨said, hsaid, hfits⟩ := h
  obtain ⟨said', hsaid', hfits'⟩ := h'
  refine ⟨said ++ said', by rw [hsaid', hsaid, List.append_assoc], fun e he => ?_⟩
  exact (List.mem_append.1 he).elim (hfits e) (hfits' e)

theorem Said.mono {fits fits' : Event n → Prop} (h : Said fits s t)
    (hfits : ∀ e, fits e → fits' e) : Said fits' s t := by
  obtain ⟨said, hsaid, hall⟩ := h
  exact ⟨said, hsaid, fun e he => hfits e (hall e he)⟩

structure Goes (y : Conduct n R) (s t : ConsensusShard n R) : Prop where
  keeps : y.keeps s t
  said : Said y.Says s t

theorem Goes.refl : y.Goes s s := ⟨y.refl s, .refl⟩

theorem Goes.trans (h : y.Goes s t) (h' : y.Goes t u) : y.Goes s u :=
  ⟨y.trans h.keeps h'.keeps, h.said.trans h'.said⟩

-- From `s` on, the program does nothing but what the conduct allows.
def Acts (y : Conduct n R) (m : Turn n R α) (s : ConsensusShard n R) : Prop :=
  Meets m s (fun _ => y.Goes s) (fun _ => y.Goes s)

namespace Acts

variable {m : Turn n R α} {f : α → Turn n R β}

theorem after (h : y.Goes s t) (hm : y.Acts m t) :
    Meets m t (fun _ => y.Goes s) (fun _ => y.Goes s) :=
  Meets.mono hm (fun _ _ => h.trans) fun _ _ => h.trans

theorem bind (hm : y.Acts m s) (hf : ∀ a t, y.Goes s t → y.Acts (f a) t) : y.Acts (m >>= f) s := by
  rw [Acts, Lib.Turn.meets_bind]
  exact Meets.mono hm (fun a t ht => after ht (hf a t ht)) fun _ _ => id

theorem read (hm : y.Acts m s) {Q : β → ConsensusShard n R → Prop}
    {E : Panic → ConsensusShard n R → Prop} (hf : ∀ a t, y.Goes s t → Meets (f a) t Q E)
    (he : ∀ e t, y.Goes s t → E e t) : Meets (m >>= f) s Q E := by
  rw [Lib.Turn.meets_bind]
  exact Meets.mono hm hf he

theorem get {f : ConsensusShard n R → Turn n R β} (h : y.Acts (f s) s) :
    y.Acts (MonadState.get >>= f) s := h

theorem pure (a : α) : y.Acts (Pure.pure a) s := Goes.refl

theorem throw (e : Panic) : y.Acts (MonadExcept.throw e : Turn n R α) s := Goes.refl

theorem check {b : Bool} {e : Panic} : y.Acts (Turn.check b e) s := by
  rw [Acts, meets_check]
  exact ⟨fun _ => Goes.refl, fun _ => Goes.refl⟩

theorem lift {g : ConsensusShard n R → Except Panic α} : y.Acts (Turn.lift g) s := by
  rw [Acts, meets_lift]
  exact ⟨fun _ _ => Goes.refl, fun _ _ => Goes.refl⟩

theorem lift_bind {g : ConsensusShard n R → Except Panic α}
    (hf : ∀ a, g s = .ok a → y.Acts (f a) s) : y.Acts (Turn.lift g >>= f) s := by
  rw [Acts, Lib.Turn.meets_bind, meets_lift]
  exact ⟨hf, fun _ _ => Goes.refl⟩

theorem emit {e : Event n} (he : y.Says e) : y.Acts (Turn.emit e) s := by
  rw [Acts, Turn.emit, Lib.Turn.meets_modify]
  exact ⟨y.emits s e, [e], rfl, fun e' hm => List.mem_singleton.1 hm ▸ he⟩

theorem onRound {g : R → Except Panic R}
    (h : ∀ r, g s.roundState = .ok r → y.keeps s { s with roundState := r }) :
    y.Acts (Turn.onRound g) s := by
  rw [Acts, meets_onRound]
  exact ⟨fun r hr => ⟨h r hr, .of_eq rfl⟩, fun _ _ => Goes.refl⟩

theorem update {g : ConsensusShard n R → ConsensusShard n R} (h : y.keeps s (g s))
    (hsinks : (g s).sinks = s.sinks) : y.Acts (modify g : Turn n R Unit) s := ⟨h, .of_eq hsinks⟩

end Acts

section messages

variable {c : Cluster n} {msg : ConsensusMsg n} {value : Option (CommandBatch n)}
  {lastV : Option Nat} {dest : Fin n}

theorem broadcast (hcommit : msg.isCommit = false)
    (hown : y.phased → ∀ leader slot v, msg.Accepts leader slot v → leader = y.me)
    {priority : Option (Fin n)} :
    y.Acts (priorityBroadcast y.me msg value priority) s :=
  .get (.emit ⟨rfl, hcommit, hown⟩)

theorem sendWith (hcommit : msg.isCommit = false)
    (hheard : y.phased → ∀ leader slot v, msg.Accepts leader slot v → y.heard leader slot v) :
    y.Acts (Turn.sendWith c y.me msg value lastV dest) s :=
  .bind .check fun _ _ _ => .emit ⟨rfl, hcommit, hheard⟩

theorem send (hcommit : msg.isCommit = false)
    (hheard : y.phased → ∀ leader slot v, msg.Accepts leader slot v → y.heard leader slot v) :
    y.Acts (Turn.send c y.me msg value dest) s :=
  .get (sendWith hcommit hheard)

end messages

end Conduct

open Conduct

variable {me : Fin n} {phased voter : Prop} {busy : ConsensusShard n R → Prop}
  {s t u : ConsensusShard n R}

-- The events of a decision: the Commit may follow it, and after a fallback names its value.
def Event.Decides (me : Fin n) (phased : Prop) (slot v : Nat) (fast : Bool) : Event n → Prop
  | .decided slot' v' fast' => slot' = slot ∧ v' = v ∧ fast' = fast
  | .broadcast packet _ => packet.msg.src = me ∧ packet.value = none ∧
      ∃ u, packet.msg.msg = .commit slot u ∧ (phased → fast = false → u = v)
  | _ => False

structure Told (me : Fin n) (phased : Prop) (heard : Fin n → Nat → Nat → Prop) (v : Nat)
    (fast : Bool) (s t : ConsensusShard n R) : Prop where
  said : Said (fun e => e.Plain me phased heard ∨ e.Decides me phased s.slot v fast) s t
  decided : .decided s.slot v fast ∈ t.sinks
  heard : phased → fast = false → heard me s.slot v

def Voiced (me : Fin n) (phased : Prop) (heard : Fin n → Nat → Nat → Prop)
    (s t : ConsensusShard n R) : Prop :=
  Said (fun e => e.Plain me phased heard) s t ∨ ∃ v fast, Told me phased heard v fast s t

-- A shard that has left the fast path has something to do.
structure Steady (busy : ConsensusShard n R → Prop) (s t : ConsensusShard n R) : Prop where
  slot : t.slot = s.slot
  left : s.slotLeftFastPath = true → t.slotLeftFastPath = true
  busy : (s.slotLeftFastPath = true → busy s) → t.slotLeftFastPath = true → busy t

theorem Steady.refl : Steady busy s s := ⟨rfl, id, id⟩

theorem Steady.trans (h : Steady busy s t) (h' : Steady busy t u) : Steady busy s u :=
  ⟨h'.slot.trans h.slot, fun hl => h'.left (h.left hl), fun hb => h'.busy (h.busy hb)⟩

def Answered (me : Fin n) (phased voter : Prop) (busy : ConsensusShard n R → Prop)
    (msg : ConsensusMsg n) (s : ConsensusShard n R) :
    Option (CommandBatch n) → ConsensusShard n R → Prop
  | none, t => Steady busy s t ∧
      Said (fun e => e.Plain me phased msg.Accepts) s t ∧
      (phased → voter → ∀ leader v, leader ≠ me → msg.Accepts leader s.slot v →
        t.slotLeftFastPath = true ∨ .outranked s.slot ∈ t.sinks)
  | some _, t => ∃ v fast, Told me phased msg.Accepts v fast s t ∧ t.slot = s.slot + 1 ∧
      (fast = false → t.slotLeftFastPath = true ∨ ¬ phased ∧ ¬ voter)

structure Proposed (me : Fin n) (phased : Prop) (busy : ConsensusShard n R → Prop)
    (s t : ConsensusShard n R) : Prop where
  steady : Steady busy s t
  said : Said (fun e => e.Plain me phased fun _ _ _ => False) s t

-- What the reports rely on in an algorithm at `me`.
structure Candid (me : Fin n) (phased voter : Prop) (busy : ConsensusShard n R → Prop)
    (algo : ConsensusShardTrait n R) : Prop where
  processMessage : ∀ {s : ConsensusShard n R} {msg : ConsensusMessage n},
    s.readyToProcess me msg = .ok true →
    Meets (algo.processMessage msg) s (Answered me phased voter busy msg.msg s)
      (fun _ => Voiced me phased msg.msg.Accepts s)
  proposeStart : ∀ {s : ConsensusShard n R} {value : CommandBatch n} {contention : Bool},
    Meets (algo.proposeStart value contention) s (fun _ => Proposed me phased busy s)
      (fun _ => Proposed me phased busy s)
  reproposeStart : ∀ {s : ConsensusShard n R} {v : Nat},
    Meets (algo.reproposeStart v) s (fun _ => Proposed me phased busy s)
      (fun _ => Proposed me phased busy s)
  commitSlot : ∃ clear, ∀ v, algo.commitSlot v = advance v clear
  restless : ∀ {s : ConsensusShard n R}, busy s → s.canSleep algo = false
  lasting : ∀ {s t : ConsensusShard n R}, (∀ v ∈ s.queuedCommands, v ∈ t.queuedCommands) →
    t.roundState = s.roundState → busy s → busy t

namespace Turn

theorem advance_ends {v : Nat} {clear : R → R} :
    Meets (advance v clear) s
      (fun _ t => t.slot = s.slot + 1 ∧ t.slotLeftFastPath = s.slotLeftFastPath ∧
        t.sinks = s.sinks ++ [.committed s.slot v])
      (fun _ t => t = s) := by
  simp only [advance, removeCommand, purgeBatches, Lib.Turn.meets_bind, Lib.Turn.meets_get]
  split
  · exact ⟨rfl, rfl, rfl⟩
  · exact rfl

end Turn

theorem Told.after {heard : Fin n → Nat → Nat → Prop} {v : Nat} {fast : Bool}
    (h' : Told me phased heard v fast t u) (h : Said (fun e => e.Plain me phased heard) s t)
    (hslot : t.slot = s.slot) : Told me phased heard v fast s u := by
  obtain ⟨hsaid, hdecided, hheard⟩ := h'
  rw [hslot] at hsaid hdecided hheard
  exact ⟨(h.mono fun _ => Or.inl).trans hsaid, hdecided, hheard⟩

theorem Voiced.after {heard : Fin n → Nat → Nat → Prop} (h' : Voiced me phased heard t u)
    (h : Said (fun e => e.Plain me phased heard) s t) (hslot : t.slot = s.slot) :
    Voiced me phased heard s u := by
  rcases h' with hsaid | ⟨v, fast, htold⟩
  · exact Or.inl (h.trans hsaid)
  · exact Or.inr ⟨v, fast, htold.after h hslot⟩

theorem Told.advance {heard : Fin n → Nat → Nat → Prop} {v : Nat} {fast : Bool}
    (h : Told me phased heard v fast s t) {slot w : Nat}
    (hsinks : u.sinks = t.sinks ++ [.committed slot w]) : Told me phased heard v fast s u := by
  refine ⟨h.said.trans ⟨_, hsinks, fun e he => Or.inl ?_⟩, ?_, h.heard⟩
  · exact List.mem_singleton.1 he ▸ trivial
  · exact hsinks ▸ List.mem_append_left _ h.decided

end KCensus.Slots

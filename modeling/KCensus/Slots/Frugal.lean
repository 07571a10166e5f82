import KCensus.Slots.Upkeep

namespace KCensus.Slots

open Lib.Turn (Meets Along)
open Turn Conduct

variable {n : Nat} {R : Type} {α β : Type}

def Event.Quiet (me : Fin n) : Event n → Prop
  | .broadcast packet _ => packet.msg.src = me ∧ packet.value = none
  | .send packet _ => packet.msg.src = me ∧ packet.value = none
  | .received _ _ => False
  | .submitted _ => False
  | .created _ _ => False
  | .committed _ _ => False
  | .handed write _ => write = none
  | _ => True

structure Hushed (me : Fin n) (s t : ConsensusShard n R) : Prop where
  commands : t.queuedCommands = s.queuedCommands
  nextUid : t.nextUid = s.nextUid
  slot : t.slot = s.slot
  lastV : t.lastV = s.lastV
  mine : t.myQueuedCommands = s.myQueuedCommands
  reads : s.readTracker.ReadsOnly → t.readTracker.ReadsOnly
  said : Said (Event.Quiet me) s t

variable {me : Fin n} {s t u : ConsensusShard n R}

instance : IsPreorder (ConsensusShard n R) (Hushed me) where
  refl _ := ⟨rfl, rfl, rfl, rfl, rfl, id, .refl⟩
  trans _ _ _ h h' := ⟨h'.commands.trans h.commands, h'.nextUid.trans h.nextUid,
    h'.slot.trans h.slot, h'.lastV.trans h.lastV, h'.mine.trans h.mine, h'.reads ∘ h.reads,
    h.said.trans h'.said⟩

namespace Hushed

theorem emit {e : Event n} (he : e.Quiet me) : Along (Hushed me) (emit e) s :=
  ⟨rfl, rfl, rfl, rfl, rfl, id, [e], rfl, fun _ hm => List.mem_singleton.1 hm ▸ he⟩

theorem onRound {g : R → Except Panic R} : Along (Hushed me) (Turn.onRound g) s :=
  meets_onRound.2 ⟨fun _ _ => ⟨rfl, rfl, rfl, rfl, rfl, id, .of_eq rfl⟩, fun _ _ => refl s⟩

theorem lift {g : ConsensusShard n R → Except Panic α} : Along (Hushed me) (Turn.lift g) s :=
  meets_lift.2 ⟨fun _ _ => refl s, fun _ _ => refl s⟩

theorem leaveFastPath : Along (Hushed me) (Turn.leaveFastPath : Turn n R Unit) s :=
  ⟨rfl, rfl, rfl, rfl, rfl, id, .of_eq rfl⟩

theorem priorityBroadcast {msg : ConsensusMsg n} {priority : Option (Fin n)} :
    Along (Hushed me) (Turn.priorityBroadcast me msg none priority) s :=
  Meets.get (emit ⟨rfl, rfl⟩)

theorem sendWith {c : Cluster n} {msg : ConsensusMsg n} {lastV : Option Nat} {dest : Fin n} :
    Along (Hushed me) (Turn.sendWith c me msg none lastV dest) s :=
  .bind .check fun _ _ _ => emit ⟨rfl, rfl⟩

theorem send {c : Cluster n} {msg : ConsensusMsg n} {dest : Fin n} :
    Along (Hushed me) (Turn.send c me msg none dest) s :=
  Meets.get sendWith

end Hushed

-- The slot is closed with the uid `v`, whose payload is taken out.
structure Advanced (s : ConsensusShard n R) (v : Nat) (value : CommandBatch n)
    (t : ConsensusShard n R) : Prop where
  found : s.queuedCommands.lookup v = some value
  kept : ∀ w value', t.queuedCommands.lookup w = some value' →
    w ≠ v ∧ s.queuedCommands.lookup w = some value'
  nextUid : t.nextUid = s.nextUid
  slot : t.slot = s.slot + 1
  lastV : t.lastV = some v
  mine : t.myQueuedCommands = s.myQueuedCommands
  reads : t.readTracker = s.readTracker
  sinks : t.sinks = s.sinks ++ [.committed s.slot v]

-- The payload of a uid goes out at most once.
def Sends (me : Fin n) (v : Nat) (value : CommandBatch n) (said : List (Event n)) : Prop :=
  (∀ e ∈ said, e.Quiet me) ∨ ∃ before packet priority, said = before ++ [.broadcast packet priority] ∧
    packet.msg.src = me ∧ packet.msg.getV = some v ∧ packet.value = some value ∧
    ∀ e ∈ before, e.Quiet me

structure Announces (me : Fin n) (v : Nat) (value : CommandBatch n) (s t : ConsensusShard n R) :
    Prop where
  commands : t.queuedCommands = s.queuedCommands
  nextUid : t.nextUid = s.nextUid
  slot : t.slot = s.slot
  lastV : t.lastV = s.lastV
  mine : t.myQueuedCommands = s.myQueuedCommands
  reads : s.readTracker.ReadsOnly → t.readTracker.ReadsOnly
  said : ∃ said, t.sinks = s.sinks ++ said ∧ Sends me v value said

theorem Hushed.announces {v : Nat} {value : CommandBatch n} (h : Hushed me s t) :
    Announces me v value s t := by
  obtain ⟨said, hsaid, hquiet⟩ := h.said
  exact ⟨h.commands, h.nextUid, h.slot, h.lastV, h.mine, h.reads, said, hsaid, Or.inl hquiet⟩

theorem Hushed.announced {v : Nat} {value : CommandBatch n} (h : Hushed me s t) {packet : Packet n}
    {priority : Option (Fin n)} (hsrc : packet.msg.src = me) (hv : packet.msg.getV = some v)
    (hvalue : packet.value = some value) :
    Announces me v value s { t with sinks := t.sinks ++ [.broadcast packet priority] } := by
  obtain ⟨said, hsaid, hquiet⟩ := h.said
  refine ⟨h.commands, h.nextUid, h.slot, h.lastV, h.mine, h.reads,
    said ++ [.broadcast packet priority], ?_,
    Or.inr ⟨said, packet, priority, rfl, hsrc, hv, hvalue, hquiet⟩⟩
  rw [← List.append_assoc, ← hsaid]

def withCreated (s : ConsensusShard n R) (v : Nat) (value : CommandBatch n) : ConsensusShard n R :=
  { s with
    nextUid := s.nextUid + 2 * n
    queuedCommands := s.queuedCommands.insert v value
    sinks := s.sinks ++ [.created v value] }

def freshUid (s : ConsensusShard n R) (value : CommandBatch n) : Nat :=
  if value.isSingle then s.nextUid else s.nextUid + 1

abbrev Introduced (me : Fin n) (s : ConsensusShard n R) (value : CommandBatch n)
    (t : ConsensusShard n R) : Prop :=
  Announces me (freshUid s value) value (withCreated s (freshUid s value) value) t

def Concluded (me : Fin n) (s : ConsensusShard n R) :
    Option (CommandBatch n) → ConsensusShard n R → Prop
  | none, t => Hushed me s t
  | some value, t => ∃ u v, Hushed me s u ∧ Advanced u v value t

abbrev Concludes (me : Fin n) (m : Turn n R (Option (CommandBatch n))) (s : ConsensusShard n R) :
    Prop :=
  Meets m s (Concluded me s) (fun _ => Hushed me s)

-- An algorithm that sends every payload once, right after it got its uid.
structure Frugal (me : Fin n) (algo : ConsensusShardTrait n R) : Prop where
  processMessage : ∀ {s msg}, Concludes me (algo.processMessage msg) s
  commitSlot : ∀ {s v}, Meets (algo.commitSlot v) s (Advanced s v) (fun _ t => t = s)
  proposeStart : ∀ {s value contention}, Meets (algo.proposeStart value contention) s
    (fun _ => Introduced me s value) (fun _ t => Hushed me s t ∨ Introduced me s value t)
  reproposeStart : ∀ {s v}, Along (Hushed me) (algo.reproposeStart v) s
  forwards : ∀ s, algo.canForwardProposals s = true

theorem Concluded.after {r : Option (CommandBatch n)} (h : Hushed me s t) (hr : Concluded me t r u) :
    Concluded me s r u := by
  cases r with
  | none => exact IsTrans.trans _ _ _ h hr
  | some value =>
    obtain ⟨w, v, hw, hadvanced⟩ := hr
    exact ⟨w, v, IsTrans.trans _ _ _ h hw, hadvanced⟩

namespace Concludes

theorem bind {m : Turn n R α} {f : α → Turn n R (Option (CommandBatch n))}
    (hm : Along (Hushed me) m s) (hf : ∀ a t, Hushed me s t → Concludes me (f a) t) :
    Concludes me (m >>= f) s :=
  hm.read (fun a t ht => (hf a t ht).mono (fun _ _ => .after ht) fun _ _ hu => IsTrans.trans _ _ _ ht hu)
    fun _ _ => id

theorem get {f : ConsensusShard n R → Turn n R (Option (CommandBatch n))}
    (h : Concludes me (f s) s) : Concludes me (MonadState.get >>= f) s := h

theorem none : Concludes me (return Option.none) s := refl s

theorem throw {e : Panic} : Concludes me (MonadExcept.throw e) s := refl s

theorem of_along {m : Turn n R Unit} (hm : Along (Hushed me) m s) :
    Concludes me (do
      m
      return Option.none) s :=
  bind hm fun _ _ _ => none

end Concludes

theorem advance_advanced {v : Nat} {clear : R → R} :
    Meets (Turn.advance v clear) s (Advanced s v) (fun _ t => t = s) := by
  simp only [advance, removeCommand, purgeBatches, Lib.Turn.meets_bind, Lib.Turn.meets_get]
  split
  · rename_i value hfound
    refine ⟨hfound, fun w value' hw => ?_, rfl, rfl, rfl, rfl, rfl, rfl⟩
    obtain ⟨hkept, -⟩ := Lib.HashMap.lookup_retain.1 hw
    rcases eq_or_ne w v with rfl | hne
    · rw [AList.lookup_erase] at hkept
      cases hkept
    · rw [AList.lookup_erase_ne hne] at hkept
      exact ⟨hne, hkept⟩
  · rfl

namespace Hushed

theorem startRead {algo : ConsensusShardTrait n R} {command : Command n}
    (hread : command.readOnly = true) : Along (Hushed me) (Turn.startRead me algo command) s := by
  refine Meets.get (Along.bind (m := modify _)
    ⟨rfl, rfl, rfl, rfl, rfl, fun h => h.insert hread _, [_], rfl, fun e he => ?_⟩
    fun _ _ _ => priorityBroadcast)
  exact List.mem_singleton.1 he ▸ trivial

theorem receiveReady {id : Nat} {fromQueue : Bool} (hreads : s.readTracker.ReadsOnly) :
    Meets (Turn.receiveReady id fromQueue) s
      (fun r t => Hushed me s t ∧ ∀ value, r = some value → value.isRead = true)
      (fun _ => Hushed me s) := by
  refine Meets.get ?_
  dsimp only
  set fast := !fromQueue && !s.queuedMessages.any (isAnswerTo id)
  obtain ⟨hrest, hserved⟩ := hreads.receiveReady id s.slot fast
  split
  · rename_i heq
    rw [heq] at hrest hserved
    refine ⟨⟨rfl, rfl, rfl, rfl, rfl, fun _ => hrest, [_], rfl, fun e he => ?_⟩, fun value hvalue => ?_⟩
    · exact List.mem_singleton.1 he ▸ trivial
    · cases hvalue
      exact hserved _ rfl
  · rename_i heq
    rw [heq] at hrest
    exact ⟨⟨rfl, rfl, rfl, rfl, rfl, fun _ => hrest, .of_eq rfl⟩, fun value hvalue => by cases hvalue⟩

end Hushed

namespace Hushed

theorem handReads (reads : List (Nat × Command n)) :
    Along (Hushed me) (Turn.handReads reads : Turn n R Unit) s := by
  induction reads generalizing s with
  | nil => exact .pure _
  | cons read reads ih =>
    exact .bind (emit trivial) fun _ _ _ => .bind (emit rfl) fun _ _ _ => ih

theorem serveReads : Along (Hushed me) (Turn.serveReads : Turn n R Unit) s :=
  Meets.get (Along.bind (m := modify _)
    ⟨rfl, rfl, rfl, rfl, rfl, fun h => h.commitSlot s.slot, .of_eq rfl⟩ fun _ _ _ => handReads _)

end Hushed

-- What is left to do while a decided value is handed over, and of a batch of it.
structure Handover (y : Upkeep n R) (me : Fin n) (due : Nat → List Nat → ConsensusShard n R → Prop) :
    Prop where
  fair : ∀ {value s}, y.handing value s → y.fair s
  fairDue : ∀ {k vs s}, due k vs s → y.fair s
  same : ∀ {s t}, t.sinks = s.sinks → y.fair s → y.fair t
  hushed : ∀ {s t}, y.good s → Hushed me s t → y.good t
  read : ∀ {s command}, y.handing (.single command) s → command.readOnly = true →
    y.good { s with sinks := s.sinks ++ [.handed none command] }
  write : ∀ {s command} fast left, y.handing (.single command) s → command.readOnly = false →
    y.good { s with
      slotLeftFastPath := left
      sinks := s.sinks ++
        [.handed (s.lastV.map (s.slot - 1, ·)) (stamp me fast (s.slot - 1) command)] }
  batch : ∀ {s slot vs} left, y.handing (.batch slot vs) s →
    due (s.slot - 1) vs { s with slotLeftFastPath := left }
  next : ∀ {s k v vs command} fast, due k (v :: vs) s →
    s.queuedCommands.lookup v = some (.single command) → command.readOnly = false →
    due k vs { s with
      queuedCommands := s.queuedCommands.erase v
      sinks := s.sinks ++ [.handed (some (k, v)) (stamp me fast k command)] }
  done : ∀ {s k}, due k [] s → y.good s

namespace Handover

variable {y : Upkeep n R} {algo : ConsensusShardTrait n R}
  {due : Nat → List Nat → ConsensusShard n R → Prop}

theorem commitEach (h : Handover y me due) {fast : Bool} {k : Nat} (vs : List Nat) (hs : due k vs s) :
    y.Keeps (Turn.commitEach me fast k vs) s := by
  induction vs generalizing s with
  | nil => exact h.done hs
  | cons v vs ih =>
    simp only [Upkeep.Keeps, Turn.commitEach, removeCommand, Lib.Turn.meets_bind, Lib.Turn.meets_get]
    split
    · rename_i value hfound
      cases value with
      | single command =>
        simp only [Lib.Turn.meets_bind, Lib.Turn.meets_modify, Lib.Turn.meets_pure, commitWrite,
          Turn.emit, meets_check]
        refine ⟨fun hwrite => ?_, fun _ => h.same (s := s) rfl (h.fairDue hs)⟩
        exact ih (h.next fast hs hfound (by simpa using hwrite))
      | batch slot vs' => exact h.same (s := s) rfl (h.fairDue hs)
    · exact h.fairDue hs

theorem serve (h : Handover y me due) {m : Turn n R Unit} (hm : y.Keeps m s)
    (hfair : ∀ {s}, y.good s → y.fair s) :
    y.Keeps (do
      m
      serveReads) s :=
  Upkeep.Keeps.bind hm fun _ _ ht => Hushed.serveReads.mono (fun _ _ hu => h.hushed ht hu)
    fun _ _ hu => hfair (h.hushed ht hu)

theorem commitCommands (h : Handover y me due) (hfair : ∀ {s}, y.good s → y.fair s)
    {value : CommandBatch n} (hs : y.handing value s) :
    y.Keeps (Turn.commitCommands me algo (some value)) s := by
  cases value with
  | batch slot vs =>
    refine Upkeep.Keeps.bind (y := y) (Meets.get ?_) fun _ _ ht => ht
    exact h.serve (h.commitEach vs (h.batch false hs)) hfair
  | single command =>
    rw [Turn.commitCommands]
    split
    · exact h.read hs ‹_›
    · rename_i hwrite
      refine Upkeep.Keeps.bind (y := y) (Meets.get ?_) fun _ _ ht => ht
      refine h.serve (Lib.Turn.meets_bind.2 (meets_check.2 ⟨fun _ => ?_, fun _ => ?_⟩)) hfair
      · have hgood := h.write (algo.hasFastPath && !s.slotLeftFastPath) false hs
          (Bool.eq_false_of_not_eq_true hwrite)
        exact hgood
      · exact h.same (s := s) rfl (h.fair hs)

end Handover

namespace Upkeep

variable {y : Upkeep n R} {c : Cluster n} {order : HashOrder n} {algo : ConsensusShardTrait n R}

-- For what is only about payloads, decisions and what is handed over.
theorem Upheld.of_frugal (hfrugal : Frugal me algo) (hheard : ∀ m, y.heard m)
    (hfair : ∀ {s}, y.good s → y.fair s) (hidle : ∀ {s}, y.good s → s.myQueuedCommands = [])
    (hhushed : ∀ {s t}, y.good s → Hushed me s t → y.good t)
    (hqueue : ∀ {s messages}, y.good s → y.good { s with queuedMessages := messages })
    (hsubmit : ∀ {s command}, y.good s → y.taken command { s with sinks := s.sinks ++ [.submitted command] })
    (hread : ∀ {s t command}, y.taken command s → command.readOnly = true → Hushed me s t → y.good t)
    (hwrite : ∀ {s t command}, y.taken command s → command.readOnly = false →
      Introduced me s (.single command) t → y.good t)
    (hstuck : ∀ {s t command}, y.taken command s → command.readOnly = false → Hushed me s t → y.fair t)
    (hbatch : ∀ {s t batch}, y.good s → ConsensusShard.newBatchToPropose order s = some batch →
      Introduced me s batch t → y.good t)
    (hreads : ∀ {s}, y.good s → s.readTracker.ReadsOnly)
    (hserve : ∀ {s value}, y.good s → value.isRead = true → y.handing value s)
    (hadvance : ∀ {s t v value}, y.good s → Advanced s v value t → y.handing value t)
    (hhand : ∀ {s value}, y.handing value s → y.Keeps (commitCommands me algo (some value)) s) :
    y.Upheld c me order algo := by
  have hkeeps : ∀ {α : Type} {m : Turn n R α} {s}, y.good s → Along (Hushed me) m s → y.Keeps m s :=
    fun h hm => hm.mono (fun _ _ => hhushed h) fun _ _ ht => hfair (hhushed h ht)
  have hstart : ∀ {s batch}, y.good s → ConsensusShard.newBatchToPropose order s = some batch →
      y.Keeps (algo.proposeStart batch false) s := fun h hnew =>
    hfrugal.proposeStart.mono (fun _ _ ht => hbatch h hnew ht) fun _ _ ht =>
      ht.elim (fun ht => hfair (hhushed h ht)) fun ht => hfair (hbatch h hnew ht)
  exact {
    fair := hfair
    submitted := hsubmit
    unready := fun h => hkeeps h (Hushed.emit trivial)
    queue := fun h _ => hqueue h
    queued := fun _ m _ => hheard m
    startRead := fun h hro => (Hushed.startRead hro).mono (fun _ _ => hread h hro)
      fun _ _ ht => hfair (hread h hro ht)
    answerRead := fun h => hkeeps h Hushed.sendWith
    receiveReady := by
      intro s id fromQueue h
      refine (Hushed.receiveReady (hreads h)).mono (fun r t ht => ?_) fun _ _ ht => hfair (hhushed h ht)
      cases r with
      | none => exact hhushed h ht.1
      | some value => exact hserve (hhushed h ht.1) (ht.2 value rfl)
    learn := by
      intro s msg slot v h _ _ _ _
      refine Keeps.bind (hkeeps h (Hushed.emit (e := .learned slot v msg.src) trivial)) fun _ t ht => ?_
      refine Lib.Turn.meets_bind.2 (hfrugal.commitSlot.mono (fun value u hu => hadvance ht hu) ?_)
      rintro _ _ rfl
      exact hfair ht
    processMessage := by
      intro s msg h _ _
      refine hfrugal.processMessage.mono (fun r t ht => ?_) fun _ _ ht => hfair (hhushed h ht)
      cases r with
      | none => exact hhushed h ht
      | some value =>
        obtain ⟨u, v, hu, hadvanced⟩ := ht
        exact hadvance (hhushed h hu) hadvanced
    hand := hhand
    proposeStart := fun h hro => hfrugal.proposeStart.mono (fun _ _ => hwrite h hro) fun _ _ ht =>
      ht.elim (hstuck h hro) fun ht => hfair (hwrite h hro ht)
    postpone := fun {s command} _ hforward => by
      rw [hfrugal.forwards s] at hforward
      cases hforward
    resume := fun {s command rest} h hmine => by
      rw [hidle h] at hmine
      cases hmine
    proposeBatch := hstart
    reproposeStart := fun h _ _ => hkeeps h hfrugal.reproposeStart }

end Upkeep

end KCensus.Slots

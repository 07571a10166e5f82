import KCensus.Slots.Conduct

namespace KCensus.Slots

open Lib.Turn (Meets Along)
open Turn Conduct ConsensusShard

variable {n : Nat} {R : Type} {α β : Type}

-- What holds of a shard between the steps of its main loop, while it has a command to deal with or a
-- decided value to hand over, and of one that failed; `heard` is what holds of its messages.
structure Upkeep (n : Nat) (R : Type) where
  good : ConsensusShard n R → Prop
  taken : Command n → ConsensusShard n R → Prop
  handing : CommandBatch n → ConsensusShard n R → Prop
  fair : ConsensusShard n R → Prop
  heard : ConsensusMessage n → Prop

namespace Upkeep

variable (y : Upkeep n R)

def Came : Option (CommandBatch n) → ConsensusShard n R → Prop
  | none => y.good
  | some value => y.handing value

abbrev Keeps (m : Turn n R α) (s : ConsensusShard n R) : Prop :=
  Meets m s (fun _ => y.good) (fun _ => y.fair)

abbrev Decides (m : Turn n R (Option (CommandBatch n))) (s : ConsensusShard n R) : Prop :=
  Meets m s y.Came (fun _ => y.fair)

-- The main loop keeps to it, if these parts of it and the algorithm do.
structure Upheld (c : Cluster n) (me : Fin n) (order : HashOrder n)
    (algo : ConsensusShardTrait n R) : Prop where
  fair : ∀ {s}, y.good s → y.fair s
  submitted : ∀ {s command}, y.good s →
    Meets (emit (.submitted command)) s (fun _ => y.taken command) (fun _ => y.fair)
  unready : ∀ {s v}, y.good s → y.Keeps (emit (.unready v)) s
  queue : ∀ {s messages}, y.good s → (∀ m ∈ messages, y.heard m) →
    y.good { s with queuedMessages := messages }
  queued : ∀ {s}, y.good s → ∀ m ∈ s.queuedMessages, y.heard m
  startRead : ∀ {s command}, y.taken command s → command.readOnly = true →
    y.Keeps (startRead me algo command) s
  answerRead : ∀ {s id slot dest}, y.good s →
    y.Keeps (sendWith c me (.readResponse id slot) none none dest) s
  receiveReady : ∀ {s id fromQueue}, y.good s → y.Decides (receiveReady id fromQueue) s
  learn : ∀ {s msg slot v}, y.good s → y.heard msg → msg.msg = .commit slot v →
    s.readyToProcess me msg = .ok true → ¬ slot < s.slot →
    y.Decides (do
      emit (.learned slot v msg.src)
      let value ← algo.commitSlot v
      return some value) s
  processMessage : ∀ {s msg}, y.good s → y.heard msg → s.readyToProcess me msg = .ok true →
    y.Decides (algo.processMessage msg) s
  hand : ∀ {s value}, y.handing value s → y.Keeps (commitCommands me algo (some value)) s
  proposeStart : ∀ {s command contention}, y.taken command s → command.readOnly = false →
    y.Keeps (algo.proposeStart (.single command) contention) s
  postpone : ∀ {s command}, y.good s → algo.canForwardProposals s = false →
    y.Keeps (do
      emit (.submitted command)
      modify fun s => { s with myQueuedCommands := s.myQueuedCommands ++ [command] }) s
  resume : ∀ {s command rest}, y.good s → s.myQueuedCommands = command :: rest →
    y.Keeps (do
      modify fun s => { s with myQueuedCommands := rest }
      check (!command.readOnly) .failed
      algo.proposeStart (.single command) false) s
  proposeBatch : ∀ {s batch}, y.good s → newBatchToPropose order s = some batch →
    y.Keeps (algo.proposeStart batch false) s
  reproposeStart : ∀ {s v}, y.good s → algo.shouldLead s = .ok true →
    s.vToRepropose = .ok v → y.Keeps (algo.reproposeStart v) s

variable {y} {c : Cluster n} {me : Fin n} {order : HashOrder n} {algo : ConsensusShardTrait n R}
  {s t : ConsensusShard n R} {msg : ConsensusMessage n}

theorem Keeps.get {f : ConsensusShard n R → Turn n R β} (h : y.Keeps (f s) s) :
    y.Keeps (MonadState.get >>= f) s := h

theorem Keeps.bind {m : Turn n R α} {f : α → Turn n R β} {Q : β → ConsensusShard n R → Prop}
    (hm : y.Keeps m s) (hf : ∀ a t, y.good t → Meets (f a) t Q (fun _ => y.fair)) :
    Meets (m >>= f) s Q (fun _ => y.fair) :=
  Lib.Turn.meets_bind.2 (hm.post hf)

theorem Keeps.lift_bind {g : ConsensusShard n R → Except Panic α} {f : α → Turn n R β}
    {Q : β → ConsensusShard n R → Prop} (hfair : y.fair s)
    (hf : ∀ a, g s = .ok a → Meets (f a) s Q (fun _ => y.fair)) :
    Meets (lift g >>= f) s Q (fun _ => y.fair) :=
  Lib.Turn.meets_bind.2 (meets_lift.2 ⟨hf, fun _ _ => hfair⟩)

namespace Upheld

theorem proposeNext (hy : y.Upheld c me order algo) (h : y.good s) :
    y.Keeps (Turn.proposeNext order algo) s := by
  refine Keeps.get ?_
  dsimp only
  split
  · refine Keeps.lift_bind (hy.fair h) fun lead hlead => ?_
    split
    · rename_i hyes
      subst hyes
      split
      · exact hy.proposeBatch h ‹_›
      · exact Keeps.lift_bind (hy.fair h) fun v hv => hy.reproposeStart h hlead hv
    · exact h
  · split
    · exact h
    · split
      · exact h
      · exact hy.resume h ‹_›

theorem takeCommand (hy : y.Upheld c me order algo) (h : y.good s) {command : Command n} :
    y.Keeps (Turn.takeCommand me algo command) s := by
  refine Keeps.get ?_
  dsimp only
  set sent : Command n := { command with arrivalSlot := s.slot }
  have hemit : y.taken sent { s with sinks := s.sinks ++ [.submitted sent] } := hy.submitted h
  rw [Keeps, Lib.Turn.meets_bind, emit, Lib.Turn.meets_modify]
  split
  · exact hy.startRead hemit ‹_›
  · rename_i hwrite
    split
    · exact hy.proposeStart hemit (Bool.eq_false_of_not_eq_true hwrite)
    · rename_i hforward
      rw [Bool.or_eq_true, not_or, Bool.not_eq_true] at hforward
      exact hy.postpone h hforward.1

theorem onCommand (hy : y.Upheld c me order algo) (h : y.good s) {command : Command n} :
    y.Keeps (Turn.onCommand me order algo command) s :=
  Keeps.bind (hy.takeCommand h) fun _ _ ht => hy.proposeNext ht

theorem noteUnready (hy : y.Upheld c me order algo) (h : y.good s) :
    Meets (Turn.noteUnready msg) s (fun _ t => y.good t ∧ t = { s with sinks := t.sinks })
      (fun _ => y.fair) := by
  refine Meets.get ?_
  split
  · split
    · exact ⟨hy.unready h, rfl⟩
    · exact ⟨h, rfl⟩
  · exact ⟨h, rfl⟩

theorem fullProcessMessage (hy : y.Upheld c me order algo) (h : y.good s) (hmsg : y.heard msg)
    (hready : s.readyToProcess me msg = .ok true) {fromQueue : Bool} :
    y.Decides (Turn.fullProcessMessage c me algo msg fromQueue) s := by
  rw [Turn.fullProcessMessage]
  cases hm : msg.msg with
  | commit slot v =>
    refine Meets.get ?_
    split
    · exact h
    · exact hy.learn h hmsg hm hready ‹_›
  | readRequest id => exact Meets.get (Keeps.bind (hy.answerRead h) fun _ _ ht => ht)
  | readResponse id slot => exact hy.receiveReady h
  | kcensusM m => exact hy.processMessage h hmsg hready
  | paxosM m => exact hy.processMessage h hmsg hready

theorem processAndCommit (hy : y.Upheld c me order algo) (h : y.good s) (hmsg : y.heard msg)
    (hready : s.readyToProcess me msg = .ok true) {fromQueue : Bool} :
    y.Keeps (Turn.processAndCommit c me algo msg fromQueue) s := by
  rw [Turn.processAndCommit, Keeps, Lib.Turn.meets_bind]
  refine (hy.noteUnready h).post ?_
  rintro - t ⟨ht, hsame⟩
  have hreadyt : t.readyToProcess me msg = .ok true := by
    rw [hsame]
    exact hready
  refine Lib.Turn.meets_bind.2 ((hy.fullProcessMessage ht hmsg hreadyt).post fun r u hu => ?_)
  cases r with
  | none => exact hu
  | some value => exact hy.hand hu

theorem scanQueue (hy : y.Upheld c me order algo) {before : List (ConsensusMessage n)}
    (rest : List (ConsensusMessage n)) (h : y.good s) (hbefore : ∀ m ∈ before, y.heard m)
    (hrest : ∀ m ∈ rest, y.heard m) : y.Keeps (Turn.scanQueue c me algo before rest) s := by
  induction rest generalizing before s with
  | nil => exact h
  | cons msg rest ih =>
    have hmsg := hrest msg List.mem_cons_self
    have hlater : ∀ m ∈ rest, y.heard m := fun m hm => hrest m (List.mem_cons_of_mem _ hm)
    rw [Turn.scanQueue]
    refine Keeps.lift_bind (hy.fair h) fun ready hready => ?_
    cases ready with
    | false =>
      refine ih h (fun m hm => ?_) hlater
      rcases List.mem_append.1 hm with hm | hm
      · exact hbefore m hm
      · exact List.mem_singleton.1 hm ▸ hmsg
    | true =>
      have htaken := hy.queue h fun m hm => (List.mem_append.1 hm).elim (hbefore m) (hlater m)
      rw [if_pos rfl, Lib.Turn.meets_bind, Lib.Turn.meets_modify]
      refine Keeps.bind (hy.processAndCommit htaken hmsg hready) fun committed t ht => ?_
      split
      · exact ht
      · exact ih ht hbefore hlater

theorem processQueue (hy : y.Upheld c me order algo) (fuel : Nat) (h : y.good s) :
    y.Keeps (Turn.processQueue c me algo fuel) s := by
  induction fuel generalizing s with
  | zero => exact h
  | succ fuel ih =>
    have hscan := hy.scanQueue s.queuedMessages h (fun m hm => absurd hm List.not_mem_nil)
      (hy.queued h)
    refine Keeps.get (Keeps.bind hscan fun restart t ht => ?_)
    split
    · exact ih ht
    · exact ht

theorem takeMessage (hy : y.Upheld c me order algo) {packet : Packet n}
    (harrive : y.Keeps (do
      emit (.received packet.msg.src packet)
      storeValue packet) s) (hmsg : y.heard packet.msg) :
    y.Keeps (Turn.takeMessage c me algo packet) s := by
  rw [Keeps, Lib.Turn.meets_bind] at harrive
  rw [Turn.takeMessage, Keeps, Lib.Turn.meets_bind]
  refine harrive.post fun _ t ht => Keeps.bind ht fun _ u hu => ?_
  refine Keeps.lift_bind (hy.fair hu) fun ready hready => ?_
  split
  · rename_i hyes
    subst hyes
    refine Keeps.bind (hy.processAndCommit hu hmsg hready) fun committed v hv => ?_
    split
    · exact Keeps.get (Keeps.bind (hy.processQueue _ hv) fun _ _ hw => hw)
    · exact hv
  · rw [Lib.Turn.meets_bind, Lib.Turn.meets_modify]
    refine hy.queue hu fun m hm => ?_
    rcases List.mem_append.1 hm with hm | hm
    · exact hy.queued hu m hm
    · exact List.mem_singleton.1 hm ▸ hmsg

theorem onPacket (hy : y.Upheld c me order algo) {packet : Packet n}
    (harrive : y.Keeps (do
      emit (.received packet.msg.src packet)
      storeValue packet) s) (hmsg : y.heard packet.msg) :
    y.Keeps (Turn.onPacket c me order algo packet) s := by
  refine Keeps.bind (hy.takeMessage harrive hmsg) fun mayPropose t ht => ?_
  split
  · exact hy.proposeNext ht
  · exact ht

end Upheld

end Upkeep

-- The run so far, seen from the turn of `me`.
def soFar (past : List (Fin n × Event n)) (me : Fin n) (s : ConsensusShard n R) :
    List (Fin n × Event n) := past ++ s.sinks.map (Prod.mk me)

section histories

variable {past : List (Fin n × Event n)} {me : Fin n} {s t : ConsensusShard n R}

theorem soFar_snoc {e : Event n} (hsinks : t.sinks = s.sinks ++ [e]) :
    soFar past me t = soFar past me s ++ [(me, e)] := by
  rw [soFar, soFar, hsinks, List.map_append, ← List.append_assoc]
  rfl

theorem soFar_said {said : List (Event n)} (hsinks : t.sinks = s.sinks ++ said) :
    soFar past me t = soFar past me s ++ said.map (Prod.mk me) := by
  rw [soFar, soFar, hsinks, List.map_append, ← List.append_assoc]

theorem soFar_flushed (hsinks : s.sinks = []) : soFar past me s = past := by
  rw [soFar, hsinks]
  exact List.append_nil past

end histories

def Event.carried : Event n → Option (ConsensusMessage n)
  | .broadcast packet _ => some packet.msg
  | .send packet _ => some packet.msg
  | _ => none

-- What a process says outside of its algorithm and of decisions.
def Event.Idle (me : Fin n) : Event n → Prop
  | .broadcast packet _ => packet.msg.src = me ∧ ∃ id, packet.msg.msg = .readRequest id
  | .send packet _ => packet.msg.src = me ∧ ∃ id slot, packet.msg.msg = .readResponse id slot
  | .voted _ _ _ => False
  | .committed _ _ => False
  | .decided _ _ _ => False
  | _ => True

-- Neither the slot nor its round is touched.
structure Idles (me : Fin n) (s t : ConsensusShard n R) : Prop where
  slot : t.slot = s.slot
  round : t.roundState = s.roundState
  messages : t.queuedMessages = s.queuedMessages
  said : Said (Event.Idle me) s t

variable {me : Fin n} {s t : ConsensusShard n R}

instance : IsPreorder (ConsensusShard n R) (Idles me) where
  refl _ := ⟨rfl, rfl, rfl, .refl⟩
  trans _ _ _ h h' := ⟨h'.slot.trans h.slot, h'.round.trans h.round, h'.messages.trans h.messages,
    h.said.trans h'.said⟩

namespace Idles

theorem emit {e : Event n} (he : e.Idle me) : Along (Idles me) (emit e) s :=
  ⟨rfl, rfl, rfl, [e], rfl, fun _ hm => List.mem_singleton.1 hm ▸ he⟩

theorem storeNewCommand {value : CommandBatch n} :
    Along (Idles me) (Turn.storeNewCommand value) s :=
  ⟨rfl, rfl, rfl, [_], rfl, fun _ hm => List.mem_singleton.1 hm ▸ trivial⟩

theorem storeValue {packet : Packet n} : Along (Idles me) (Turn.storeValue packet) s := by
  rw [Turn.storeValue]
  split
  · exact .pure _
  · split
    · exact .throw _
    · rw [Along, storeRemoteCommand, Lib.Turn.meets_modify]
      split
      · exact refl s
      · exact ⟨rfl, rfl, rfl, .of_eq rfl⟩

theorem startRead {algo : ConsensusShardTrait n R} {command : Command n} :
    Along (Idles me) (Turn.startRead me algo command) s := by
  refine Meets.get (Along.bind (m := modify _) ⟨rfl, rfl, rfl, [_], rfl, fun e he => ?_⟩
    fun _ _ _ => Meets.get (emit ⟨rfl, _, rfl⟩))
  exact List.mem_singleton.1 he ▸ trivial

theorem answerRead {c : Cluster n} {id slot : Nat} {dest : Fin n} :
    Along (Idles me) (sendWith c me (.readResponse id slot) none none dest) s :=
  .bind .check fun _ _ _ => emit ⟨rfl, _, _, rfl⟩

theorem receiveReady {id : Nat} {fromQueue : Bool} :
    Along (Idles me) (Turn.receiveReady id fromQueue) s := by
  refine Meets.get ?_
  dsimp only
  split
  · exact ⟨rfl, rfl, rfl, [_], rfl, fun e he => List.mem_singleton.1 he ▸ trivial⟩
  · exact ⟨rfl, rfl, rfl, .of_eq rfl⟩

theorem commitWrite {fast : Bool} {slot : Nat} {v : Option Nat} {command : Command n} :
    Along (Idles me) (Turn.commitWrite me fast slot v command) s :=
  .bind .check fun _ _ _ => emit trivial

theorem commitEach {fast : Bool} {slot : Nat} (vs : List Nat) :
    Along (Idles me) (Turn.commitEach me fast slot vs) s := by
  induction vs generalizing s with
  | nil => exact .pure _
  | cons v vs ih =>
    have hremove : Along (Idles me) (removeCommand v) s := by
      simp only [Along, removeCommand, Lib.Turn.meets_bind, Lib.Turn.meets_get]
      split
      · exact ⟨rfl, rfl, rfl, .of_eq rfl⟩
      · exact refl s
    refine .bind hremove fun value _ _ => ?_
    cases value with
    | single command => exact .bind commitWrite fun _ _ _ => ih
    | batch slot vs => exact .throw _

theorem handReads (reads : List (Nat × Command n)) :
    Along (Idles me) (Turn.handReads reads : Turn n R Unit) s := by
  induction reads generalizing s with
  | nil => exact .pure _
  | cons read reads ih => exact .bind (emit trivial) fun _ _ _ => .bind (emit trivial) fun _ _ _ => ih

theorem commitWrites {algo : ConsensusShardTrait n R} {batch : CommandBatch n} :
    Along (Idles me) (Turn.commitWrites me algo batch) s := by
  have hreads : ∀ t, Along (Idles me) (serveReads : Turn n R Unit) t := fun t =>
    Meets.get (Along.bind (m := modify _) ⟨rfl, rfl, rfl, .of_eq rfl⟩ fun _ _ _ => handReads _)
  refine Meets.get (Along.bind (m := modify _) ⟨rfl, rfl, rfl, .of_eq rfl⟩ fun _ t _ => ?_)
  cases batch with
  | single command => exact .bind commitWrite fun _ _ _ => hreads _
  | batch slot vs => exact .bind (commitEach vs) fun _ _ _ => hreads _

theorem commitCommands {algo : ConsensusShardTrait n R} {r : Option (CommandBatch n)} :
    Along (Idles me) (Turn.commitCommands me algo r) s := by
  cases r with
  | none => exact .pure _
  | some value =>
    cases value with
    | batch slot vs => exact .bind commitWrites fun _ _ _ => .pure _
    | single command =>
      rw [Turn.commitCommands]
      split
      · exact .bind (emit trivial) fun _ _ _ => .pure _
      · exact .bind commitWrites fun _ _ _ => .pure _

end Idles

namespace Upkeep

variable {y : Upkeep n R} {c : Cluster n} {order : HashOrder n} {algo : ConsensusShardTrait n R}

-- For what is only about slots, rounds and what is said of them.
theorem Upheld.of_idles (htaken : ∀ command s, y.taken command s ↔ y.good s)
    (hhanding : ∀ value s, y.handing value s ↔ y.good s)
    (hfair : ∀ {s}, y.good s → y.fair s) (hidle : ∀ {s t}, y.good s → Idles me s t → y.good t)
    (hqueue : ∀ {s messages}, y.good s → (∀ m ∈ messages, y.heard m) →
      y.good { s with queuedMessages := messages })
    (hqueued : ∀ {s}, y.good s → ∀ m ∈ s.queuedMessages, y.heard m)
    (hlearn : ∀ {s msg slot v}, y.good s → y.heard msg → msg.msg = .commit slot v →
      s.readyToProcess me msg = .ok true → ¬ slot < s.slot → y.Keeps (algo.commitSlot v) s)
    (hprocess : ∀ {s msg}, y.good s → y.heard msg → s.readyToProcess me msg = .ok true →
      y.Keeps (algo.processMessage msg) s)
    (hstart : ∀ {s value contention}, y.good s → y.Keeps (algo.proposeStart value contention) s)
    (hrestart : ∀ {s v}, y.good s → algo.shouldLead s = .ok true → y.Keeps (algo.reproposeStart v) s) :
    y.Upheld c me order algo := by
  have hcame : ∀ r t, y.Came r t ↔ y.good t := by
    intro r t
    cases r with
    | none => exact Iff.rfl
    | some value => exact hhanding value t
  have hkeeps : ∀ {α : Type} {m : Turn n R α} {s}, y.good s → Along (Idles me) m s → y.Keeps m s :=
    fun h hm => hm.mono (fun _ _ => hidle h) fun _ _ ht => hfair (hidle h ht)
  have hmine : ∀ {s} {commands : List (Command n)}, y.good s →
      y.good { s with myQueuedCommands := commands } := fun h =>
    hidle h ⟨rfl, rfl, rfl, .of_eq rfl⟩
  exact {
    fair := hfair
    submitted := fun {s command} h => (hkeeps h (Idles.emit (e := .submitted command) trivial)).post
      fun _ t => (htaken command t).2
    unready := fun h => hkeeps h (Idles.emit trivial)
    queue := hqueue
    queued := hqueued
    startRead := fun {s command} h _ => hkeeps ((htaken command s).1 h) Idles.startRead
    answerRead := fun h => hkeeps h Idles.answerRead
    receiveReady := fun h => (hkeeps h Idles.receiveReady).post fun r t => (hcame r t).2
    learn := by
      intro s msg slot v h hmsg hm hready hslot
      have hsaid : y.good { s with sinks := s.sinks ++ [.learned slot v msg.src] } :=
        hidle h ⟨rfl, rfl, rfl, [_], rfl, fun e he => List.mem_singleton.1 he ▸ trivial⟩
      rw [Decides, Lib.Turn.meets_bind, emit, Lib.Turn.meets_modify]
      exact Keeps.bind (hlearn hsaid hmsg hm hready hslot) fun value t ht =>
        (hcame (some value) t).2 ht
    processMessage := fun h hmsg hready =>
      (hprocess h hmsg hready).post fun r t => (hcame r t).2
    hand := fun {s value} h => hkeeps ((hhanding value s).1 h) Idles.commitCommands
    proposeStart := fun {s command _} h _ => hstart ((htaken command s).1 h)
    postpone := fun h _ => Keeps.bind (hkeeps h (Idles.emit trivial)) fun _ _ ht => hmine ht
    resume := fun h _ => Keeps.bind (m := modify _) (hmine h) fun _ _ ht =>
      Keeps.bind (hkeeps ht .check) fun _ _ hu => hstart hu
    proposeBatch := fun h _ => hstart h
    reproposeStart := fun h hlead _ => hrestart h hlead }

end Upkeep

end KCensus.Slots

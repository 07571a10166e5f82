import KCensus.Deps.Frames
import KCensus.Deps.Links
import KCensus.Deps.Tables

namespace KCensus.Deps

open Relation

variable {n : Nat} [NeZero n]

-- Payloads travel with the proposal of their coordinator and with nothing else that is kept.
def Packet.Valid (c : Cluster n) (src : Fin n) (packet : Packet n) : Prop :=
  match packet.msg with
  | .preAccept id _ => requesterOf n id = src ∧ packet.value.isSome = true
  | .forward => packet.value.isSome = true
  | .accept _ _ => packet.value = none ∧ (c.isSwift = true → c.leader src = src)
  | _ => packet.value = none

-- Acks are held back exactly when they are batched, and SwiftPaxos tells its decisions to those
-- who cast no vote.
def Event.Valid (c : Cluster n) (me : Fin n) : Event n → Prop
  | .broadcast packet _ => packet.Valid c me ∧ (packet.msg.isAck = true → c.batchAcks = false) ∧
      (packet.msg.isCommit = true → c.isSwift = false)
  | .send packet dest => packet.Valid c me ∧ (packet.msg.isAck = true → c.batchAcks = false) ∧
      dest ≠ me ∧ packet.msg.isOffer = false ∧
      (packet.msg.isCommit = true → c.isSwift = true ∧ c.isReplica dest = false)
  | .queueAck msg _ => Packet.Valid c me ⟨msg, none⟩ ∧ msg.isAck = true ∧ c.batchAcks = true
  | .received _ _ => False
  | _ => True

theorem Event.Valid.packet {c : Cluster n} {me : Fin n} {e : Event n} (h : e.Valid c me)
    {packet : Packet n} (hp : e.packet? = some packet) : packet.Valid c me := by
  cases e <;> simp only [Event.packet?, Option.some.injEq, reduceCtorEq] at hp
  all_goals exact hp ▸ h.1

theorem Event.valid_packet {c : Cluster n} {me : Fin n} {e : Event n}
    (h : e.Valid c me ∨ ∃ src packet, e = .received src packet) {packet : Packet n}
    (hp : e.packet? = some packet) : packet.Valid c me := by
  rcases h with h | ⟨_, _, rfl⟩
  · exact h.packet hp
  · cases hp

omit [NeZero n] in
theorem Cluster.batchAcks_of_swift {c : Cluster n} (h : c.isSwift = false) : c.batchAcks = false := by
  rw [Cluster.batchAcks, h, Bool.and_false]

namespace DepShard

variable {c : Cluster n} {me : Fin n} {heard : Fin n → Packet n → Prop} {s s' : DepShard n}

theorem valid_ackEvent (id : Uid) {msg : DepMsg n} (hm : msg.isAck = true)
    (hv : Packet.Valid c me ⟨msg, none⟩) : (ackEvent c id msg).Valid c me := by
  unfold ackEvent
  split
  · rename_i hb
    exact ⟨hv, hm, hb⟩
  · rename_i hb
    rw [Bool.not_eq_true] at hb
    refine ⟨hv, fun _ => hb, fun hc => ?_⟩
    have hnot : msg.isCommit = false := by cases msg <;> first | rfl | cases hm
    exact absurd (hnot.symm.trans hc) (by simp)

theorem valid_send {packet : Packet n} {dest : Fin n} (hs : c.isSwift = false)
    (hv : packet.Valid c me) (hp : packet.msg.isOffer = false) (hc : packet.msg.isCommit = false)
    {e : Event n} (he : e ∈ sendEvents me packet dest) : e.Valid c me := by
  unfold sendEvents at he
  split at he
  · cases he
  · rename_i hne
    rw [List.mem_singleton.1 he]
    exact ⟨hv, fun _ => Cluster.batchAcks_of_swift hs, hne, hp,
      fun h => absurd (hc.symm.trans h) (by simp)⟩

theorem valid_voteEvents (src : Fin n) (id : Uid) (deps : DepSet n) (echoes : Bool) :
    ∀ e ∈ voteEvents c me src id deps echoes, e.Valid c me := by
  intro e he
  unfold voteEvents at he
  rcases List.mem_cons.1 he with rfl | he
  · trivial
  · cases hs : c.isSwift with
    | true =>
      rw [hs, if_pos rfl] at he
      split at he
      · rename_i hl
        rw [List.mem_singleton.1 he]
        exact valid_ackEvent id rfl ⟨rfl, fun _ => hl⟩
      · rw [List.mem_singleton.1 he]
        exact valid_ackEvent id rfl rfl
    | false =>
      rw [hs, if_neg (by simp)] at he
      exact valid_send hs (by exact rfl) rfl rfl he

-- The log of a turn only grows, by events a process may log.
def Extends (c : Cluster n) (me : Fin n) (s s' : DepShard n) : Prop :=
  ∃ events, s'.sinks = s.sinks ++ events ∧ ∀ e ∈ events, e.Valid c me

theorem Extends.refl (s : DepShard n) : Extends c me s s :=
  ⟨[], (List.append_nil _).symm, fun _ he => nomatch he⟩

theorem Extends.trans {s'' : DepShard n} (h : Extends c me s s') (h' : Extends c me s' s'') :
    Extends c me s s'' := by
  obtain ⟨events, hs, hv⟩ := h
  obtain ⟨more, hs', hv'⟩ := h'
  exact ⟨events ++ more, by rw [hs', hs, List.append_assoc],
    fun e he => (List.mem_append.1 he).elim (hv e) (hv' e)⟩

theorem Extends.one {e : Event n} (hs : s'.sinks = s.sinks ++ [e]) (he : e.Valid c me) :
    Extends c me s s' :=
  ⟨[e], hs, fun _ he' => List.mem_singleton.1 he' ▸ he⟩

theorem extends_execute (s : DepShard n) (uid : Uid) : Extends c me s (s.execute uid) := by
  unfold execute withInstance
  split <;> exact .one rfl trivial

theorem Move.extends (hm : Move c me heard s s') (h : Sane c me s) : Extends c me s s' := by
  cases hm with
  | note he =>
    refine .one rfl ?_
    rcases he with rfl | ⟨_, rfl⟩ | ⟨_, _, rfl⟩ | ⟨_, _, rfl⟩ <;> trivial
  | announce _ he =>
    refine .one rfl ?_
    rcases he with ⟨hs, rfl⟩ | ⟨hs, dest, rfl, hd, hr⟩
    · exact ⟨rfl, fun h => (by cases h), fun _ => hs⟩
    · exact ⟨rfl, fun h => (by cases h), hd, rfl, fun _ => ⟨hs, hr⟩⟩
  | forward _ _ hne =>
    exact .one rfl ⟨rfl, fun h => (by cases h), hne, rfl, fun h => (by cases h)⟩
  | start commands _ _ _ =>
    rw [openInstance_eq]
    refine ⟨_, rfl, fun e he => ?_⟩
    rcases List.mem_append.1 he with he | he
    · simp only [List.mem_cons, List.not_mem_nil, or_false] at he
      rcases he with rfl | rfl | rfl
      · trivial
      · trivial
      · refine ⟨⟨?_, rfl⟩, fun h => (by cases h), fun h => (by cases h)⟩
        rw [h.nextUid, requesterOf_uidAt]
    · split at he
      · rename_i hl
        rw [Bool.and_eq_true, decide_eq_true_eq] at hl
        rw [List.mem_singleton.1 he]
        exact valid_ackEvent _ rfl ⟨rfl, fun _ => hl.2.symm⟩
      · cases he
  | learn _ _ _ _ _ =>
    rw [learn_eq]
    refine ⟨_, rfl, fun e he => ?_⟩
    rcases List.mem_cons.1 he with rfl | he
    · trivial
    · unfold preAcceptEvents at he
      split at he
      · exact valid_voteEvents _ _ _ _ e he
      · cases he
  | accept _ _ =>
    rw [answerAccept_eq]
    refine ⟨_, rfl, fun e he => ?_⟩
    unfold acceptEvents at he
    split at he
    · cases hs : c.isSwift with
      | true =>
        rw [hs, if_pos rfl] at he
        rw [List.mem_singleton.1 he]
        exact valid_ackEvent _ rfl rfl
      | false =>
        rw [hs, if_neg (by simp)] at he
        exact valid_send hs (by exact rfl) rfl rfl he
    · cases he
  | slowPath hs _ _ _ _ _ =>
    refine .one rfl ⟨⟨rfl, fun h => ?_⟩, fun _ => Cluster.batchAcks_of_swift hs, fun h => (by cases h)⟩
    rw [hs] at h
    cases h
  | commit _ _ _ => exact .one rfl trivial
  | order _ => exact .one rfl trivial
  | execute _ _ _ => exact extends_execute s _
  | serve =>
    refine ⟨_, rfl, fun e he => ?_⟩
    obtain ⟨entry, -, rfl⟩ := List.mem_map.1 he
    trivial
  | ask command =>
    refine ⟨_, askReplicas_sinks s command, fun e he => ?_⟩
    simp only [List.mem_cons, List.not_mem_nil, or_false] at he
    rcases he with rfl | rfl
    · trivial
    · exact ⟨rfl, fun h => (by cases h), fun h => (by cases h)⟩
  | drain => exact .one rfl trivial
  | vote _ _ _ _ _ | ack _ _ _ | leavePath _ _ | hold _ _ _ _ | release _ | sleep _ => exact .refl s

theorem Moves.extends (hm : Moves c me heard s s') (h : Sane c me s) : Extends c me s s' := by
  induction hm with
  | refl => exact .refl s
  | tail hms hm ih => exact ih.trans (hm.extends (Moves.sane hms h))

-- Everything held back has been received and is about a command, but never brings one.
def Holds (heard : Fin n → Packet n → Prop) (entry : Held n) : Prop :=
  (∃ value, heard entry.1 ⟨entry.2, value⟩) ∧ entry.2.id ≠ none ∧ entry.2.isPreAccept = false

theorem Move.deferred (hm : Move c me heard s s') :
    ∀ entry ∈ s'.deferred, entry ∈ s.deferred ∨ Holds heard entry.2 := by
  intro entry he
  cases hm with
  | hold key hh hid hp =>
    rcases List.mem_append.1 he with he | he
    · exact Or.inl he
    · rw [List.mem_singleton.1 he]
      exact Or.inr ⟨⟨_, hh⟩, hid, hp⟩
  | release key => exact Or.inl (List.mem_of_mem_filter he)
  | start commands _ _ _ =>
    rw [openInstance_eq] at he
    exact Or.inl he
  | learn _ _ _ _ _ =>
    rw [learn_eq] at he
    exact Or.inl he
  | accept _ _ =>
    rw [answerAccept_eq] at he
    exact Or.inl he
  | execute _ _ _ =>
    rw [(Keeps.execute s _).deferred] at he
    exact Or.inl he
  | ask command =>
    unfold askReplicas at he
    split at he <;> exact Or.inl he
  | note _ | announce _ _ | forward _ _ _ | vote _ _ _ _ _ | ack _ _ _
  | slowPath _ _ _ _ _ _ | leavePath _ _ | commit _ _ _ | order _ | serve | drain | sleep _ =>
    exact Or.inl he

theorem Moves.deferred (hm : Moves c me heard s s') :
    ∀ entry ∈ s'.deferred, entry ∈ s.deferred ∨ Holds heard entry.2 := by
  induction hm with
  | refl => exact fun entry he => Or.inl he
  | tail _ hm ih =>
    intro entry he
    rcases hm.deferred entry he with he | he
    · exact ih entry he
    · exact Or.inr he

end DepShard

def said (hist : List (Fin n × Event n)) (src : Fin n) (packet : Packet n) : Prop :=
  ∃ e, (src, e) ∈ hist ∧ e.packet? = some packet

def saidTo (hist : List (Fin n × Event n)) (src dest : Fin n) (packet : Packet n) : Prop :=
  ∃ e, (src, e) ∈ hist ∧ e.packetTo dest = some packet

def heardBy (hist : List (Fin n × Event n)) (p src : Fin n) (packet : Packet n) : Prop :=
  (p, Event.received src packet) ∈ hist

omit [NeZero n] in
theorem saidTo.said {hist : List (Fin n × Event n)} {src dest : Fin n} {packet : Packet n}
    (h : saidTo hist src dest packet) : said hist src packet := by
  obtain ⟨e, he, hp⟩ := h
  exact ⟨e, he, Event.packet_of_packetTo hp⟩

omit [NeZero n] in
theorem said_mono {hist more : List (Fin n × Event n)} {src : Fin n} {packet : Packet n}
    (h : said hist src packet) : said (hist ++ more) src packet := by
  obtain ⟨e, he, hp⟩ := h
  exact ⟨e, List.mem_append_left _ he, hp⟩

omit [NeZero n] in
theorem saidTo_mono {hist more : List (Fin n × Event n)} {src dest : Fin n} {packet : Packet n}
    (h : saidTo hist src dest packet) : saidTo (hist ++ more) src dest packet := by
  obtain ⟨e, he, hp⟩ := h
  exact ⟨e, List.mem_append_left _ he, hp⟩

omit [NeZero n] in
theorem heardBy_mono {hist more : List (Fin n × Event n)} {q src : Fin n} {packet : Packet n}
    (h : heardBy hist q src packet) : heardBy (hist ++ more) q src packet :=
  List.mem_append_left _ h

omit [NeZero n] in
theorem holds_mono {hist more : List (Fin n × Event n)} {q : Fin n} {entry : Held n}
    (h : DepShard.Holds (heardBy hist q) entry) :
    DepShard.Holds (heardBy (hist ++ more) q) entry := by
  obtain ⟨⟨value, hv⟩, hrest⟩ := h
  exact ⟨⟨value, heardBy_mono hv⟩, hrest⟩

omit [NeZero n] in
theorem mem_log {hist : List (Fin n × Event n)} {events : List (Event n)} {p q : Fin n}
    {e : Event n} (h : (q, e) ∈ hist ++ events.map (Prod.mk p)) :
    (q, e) ∈ hist ∨ q = p ∧ e ∈ events := by
  rcases List.mem_append.1 h with h | h
  · exact Or.inl h
  · obtain ⟨e', he', heq⟩ := List.mem_map.1 h
    cases heq
    exact Or.inr ⟨rfl, he'⟩

omit [NeZero n] in
theorem mem_other {hist : List (Fin n × Event n)} {p q : Fin n} {e x : Event n} (hq : q ≠ p)
    (h : (p, x) ∈ hist ++ [(q, e)]) : (p, x) ∈ hist := by
  rcases List.mem_append.1 h with h | h
  · exact h
  · rw [List.mem_singleton] at h
    exact absurd (Prod.mk.inj h).1.symm hq

omit [NeZero n] in
theorem said_settle {hist : List (Fin n × Event n)} {events : List (Event n)} {p src : Fin n}
    {packet : Packet n} (h : said (hist ++ events.map (Prod.mk p)) src packet) :
    said hist src packet ∨ src = p ∧ ∃ e ∈ events, e.packet? = some packet := by
  obtain ⟨e, he, hp⟩ := h
  rcases mem_log he with hold | ⟨rfl, hnew⟩
  · exact Or.inl ⟨e, hold, hp⟩
  · exact Or.inr ⟨rfl, e, hnew, hp⟩

namespace World

variable (c : Cluster n)

structure Base (w : World n) : Prop where
  sane : ∀ p, DepShard.Sane c p (w.shard c p)
  clean : ∀ p, (w.shard c p).sinks = []
  acks : ∀ p, (w.sinks p).Acks
  sent : ∀ p, (w.sinks p).All (saidTo w.hist p)
  own : ∀ p, w.link p p = []
  arrived : ∀ p src packet, heardBy w.hist p src packet → src ≠ p ∧ saidTo w.hist src p packet
  valid : ∀ q e, (q, e) ∈ w.hist → e.Valid c q ∨ ∃ src packet, e = .received src packet
  queued : ∀ p, ∀ entry ∈ w.queues p, DepShard.Holds (heardBy w.hist p) entry
  held : ∀ p, ∀ entry ∈ (w.shard c p).deferred, DepShard.Holds (heardBy w.hist p) entry.2

-- How a turn begins: with what the process has, or with a packet that comes in.
inductive Opens (w : World n) (p : Fin n) : DepShard n → Prop where
  | quiet : Opens w p (w.shard c p)
  | arrival {src : Fin n} {packet : Packet n} {s₁ : DepShard n} : src ≠ p →
      saidTo w.hist src p packet → DepShard.Arrives c p src (w.shard c p) packet s₁ → Opens w p s₁

variable {c} {w w' : World n} {p : Fin n}

@[simp] theorem shard_settle_self (full : Bool) (s : DepShard n) (queue : List (Held n)) :
    (w.settle c p full s queue).shard c p = { s with sinks := [] } := by
  simp [settle, shard, Slot.wake]

theorem shard_settle_ne {q : Fin n} (hq : q ≠ p) (full : Bool) (s : DepShard n)
    (queue : List (Held n)) : (w.settle c p full s queue).shard c q = w.shard c q := by
  simp [settle, shard, hq]

theorem sinks_settle_self (full : Bool) (s : DepShard n) (queue : List (Held n)) :
    (w.settle c p full s queue).sinks p =
      s.sinks.foldl (MultiSink.apply c p full) (w.sinks p) := by
  simp [settle]

theorem sinks_settle_ne {q : Fin n} (hq : q ≠ p) (full : Bool) (s : DepShard n)
    (queue : List (Held n)) : (w.settle c p full s queue).sinks q = w.sinks q := by
  simp [settle, hq]

theorem queues_settle_self (full : Bool) (s : DepShard n) (queue : List (Held n)) :
    (w.settle c p full s queue).queues p = queue := by
  simp [settle]

theorem queues_settle_ne {q : Fin n} (hq : q ≠ p) (full : Bool) (s : DepShard n)
    (queue : List (Held n)) : (w.settle c p full s queue).queues q = w.queues q := by
  simp [settle, hq]

theorem hist_settle (full : Bool) (s : DepShard n) (queue : List (Held n)) :
    (w.settle c p full s queue).hist = w.hist ++ s.sinks.map (Prod.mk p) := rfl

theorem links_self_foldl (full : Bool) (events : List (Event n))
    (hv : ∀ e ∈ events, e.Valid c p ∨ e.packet? = none) (m : MultiSink n) :
    (events.foldl (MultiSink.apply c p full) m).links p = m.links p := by
  induction events generalizing m with
  | nil => rfl
  | cons e events ih =>
    rw [List.foldl_cons, ih (fun e he => hv e (List.mem_cons_of_mem _ he))]
    have he := hv e List.mem_cons_self
    cases e with
    | broadcast packet priority => simp [MultiSink.apply, MultiSink.broadcast, MultiSink.push]
    | send packet dest =>
      have hd : dest ≠ p := he.elim (fun h => h.2.2.1) (fun h => by cases h)
      simp only [MultiSink.apply, MultiSink.send]
      split
      · rfl
      · simp [MultiSink.push, Ne.symm hd]
    | queueAck msg requester =>
      simp only [MultiSink.apply]
      split
      · simp [MultiSink.flushAcks, MultiSink.queueAck_links]
      · rw [MultiSink.queueAck_links]
    | submitted | received | created | proposed | dispatchedAccept | blocked | committed | executed
    | ordered | readSubmitted | served | handed | panicked => rfl

structure Opened (c : Cluster n) (w : World n) (p : Fin n) (s₁ : DepShard n) : Prop where
  sane : DepShard.Sane c p s₁
  seen : s₁.seen = (w.shard c p).seen
  nextUid : s₁.nextUid = (w.shard c p).nextUid
  deferred : s₁.deferred = (w.shard c p).deferred
  opened : s₁.sinks.filterMap Event.openedId = []
  events : ∀ e ∈ s₁.sinks, e.Valid c p ∨
    ∃ src packet, e = .received src packet ∧ src ≠ p ∧ saidTo w.hist src p packet

theorem Opens.opened (hw : Base c w) {s₁ : DepShard n} (h : Opens c w p s₁) :
    Opened c w p s₁ := by
  have hs := hw.sane p
  have hsane : ∀ {events : List (Event n)} {reads : ReadTracker n},
      reads.readQuorum = (w.shard c p).reads.readQuorum → reads.leader = (w.shard c p).reads.leader →
      DepShard.Sane c p { w.shard c p with sinks := events, reads := reads } := fun hq hl =>
    hs.same ⟨rfl, rfl, rfl, rfl, fun _ => Iff.rfl⟩ hs.counted hs.parked hq hl
  cases h with
  | quiet => exact ⟨hs, rfl, rfl, rfl, by rw [hw.clean p]; rfl, by simp [hw.clean p]⟩
  | arrival hsrc hsaid ha =>
    cases ha with
    | request hne =>
      refine ⟨hsane rfl rfl, rfl, rfl, rfl, ?_, fun e he => ?_⟩
      · simp only [DepShard.emit, hw.clean p]
        rfl
      · simp only [DepShard.emit, hw.clean p, List.nil_append, List.mem_append,
          List.mem_singleton] at he
        rcases he with rfl | rfl
        · exact Or.inr ⟨_, _, rfl, hsrc, hsaid⟩
        · exact Or.inl ⟨rfl, fun h => (by cases h), hne, rfl, fun h => (by cases h)⟩
    | response | plain =>
      refine ⟨hsane rfl rfl, rfl, rfl, rfl, ?_, fun e he => ?_⟩
      · simp only [DepShard.emit, DepShard.receiveRead, hw.clean p]
        rfl
      · simp only [DepShard.emit, DepShard.receiveRead, hw.clean p, List.nil_append,
          List.mem_singleton] at he
        subst he
        exact Or.inr ⟨_, _, rfl, hsrc, hsaid⟩

theorem Opened.of_moves {s₁ s' : DepShard n} {heard : Fin n → Packet n → Prop}
    (h : Opened c w p s₁) (hm : DepShard.Moves c p heard s₁ s') :
    ∀ e ∈ s'.sinks, e.Valid c p ∨
      ∃ src packet, e = .received src packet ∧ src ≠ p ∧ saidTo w.hist src p packet := by
  obtain ⟨events, hs, hv⟩ := hm.extends h.sane
  intro e he
  rw [hs] at he
  exact (List.mem_append.1 he).elim (h.events e) fun he => Or.inl (hv e he)

theorem Base.settle (hw : Base c w) {full : Bool} {s₁ s' : DepShard n} {queue : List (Held n)}
    (ho : Opened c w p s₁)
    (hm : DepShard.Moves c p (heardBy (w.hist ++ s₁.sinks.map (Prod.mk p)) p) s₁ s')
    (hq : ∀ entry ∈ queue, DepShard.Holds (heardBy (w.hist ++ s₁.sinks.map (Prod.mk p)) p) entry) :
    Base c (w.settle c p full s' queue) := by
  obtain ⟨more, hmore⟩ : ∃ more : List (Event n), w.hist ++ s'.sinks.map (Prod.mk p) =
      (w.hist ++ s₁.sinks.map (Prod.mk p)) ++ more.map (Prod.mk p) := by
    obtain ⟨more, hmore, -⟩ := hm.extends ho.sane
    exact ⟨more, by rw [hmore, List.map_append, List.append_assoc]⟩
  have hs' := hm.sane ho.sane
  have hevents := ho.of_moves hm
  have hevents' : ∀ e ∈ s'.sinks, e.Valid c p ∨ e.packet? = none := by
    intro e he
    rcases hevents e he with he | ⟨src, packet, rfl, -⟩
    · exact Or.inl he
    · exact Or.inr rfl
  refine ⟨fun q => ?_, fun q => ?_, fun q => ?_, fun q => ?_, fun q => ?_, fun q src packet h => ?_,
    fun q e h => ?_, fun q entry h => ?_, fun q entry h => ?_⟩
  · by_cases hqp : q = p
    · subst hqp
      rw [shard_settle_self]
      exact hs'.same ⟨rfl, rfl, rfl, rfl, fun _ => Iff.rfl⟩ hs'.counted hs'.parked rfl rfl
    · rw [shard_settle_ne hqp]
      exact hw.sane q
  · by_cases hqp : q = p
    · subst hqp
      rw [shard_settle_self]
    · rw [shard_settle_ne hqp]
      exact hw.clean q
  · by_cases hqp : q = p
    · subst hqp
      rw [sinks_settle_self]
      exact (hw.acks q).foldl full _
    · rw [sinks_settle_ne hqp]
      exact hw.acks q
  · by_cases hqp : q = p
    · subst hqp
      rw [sinks_settle_self, hist_settle]
      refine ((hw.sent q).imp fun dest packet hp => saidTo_mono hp).foldl full _
        fun e he dest packet hp => ?_
      exact ⟨e, List.mem_append_right _ (List.mem_map.2 ⟨e, he, rfl⟩), hp⟩
    · rw [sinks_settle_ne hqp, hist_settle]
      exact (hw.sent q).imp fun dest packet hp => saidTo_mono hp
  · by_cases hqp : q = p
    · subst hqp
      rw [link, sinks_settle_self, links_self_foldl full _ hevents']
      exact hw.own q
    · rw [link, sinks_settle_ne hqp]
      exact hw.own q
  · rw [hist_settle] at h ⊢
    rcases mem_log h with hold | ⟨rfl, hnew⟩
    · exact ⟨(hw.arrived q src packet hold).1, saidTo_mono (hw.arrived q src packet hold).2⟩
    · rcases hevents _ hnew with hv | ⟨src', packet', heq, hne, hsaid⟩
      · exact hv.elim
      · cases heq
        exact ⟨hne, saidTo_mono hsaid⟩
  · rw [hist_settle] at h
    rcases mem_log h with hold | ⟨rfl, hnew⟩
    · exact hw.valid q e hold
    · exact (hevents e hnew).imp_right fun ⟨src, packet, heq, _⟩ => ⟨src, packet, heq⟩
  · rw [hist_settle]
    by_cases hqp : q = p
    · subst hqp
      rw [queues_settle_self] at h
      rw [hmore]
      exact holds_mono (hq entry h)
    · rw [queues_settle_ne hqp] at h
      exact holds_mono (hw.queued q entry h)
  · rw [hist_settle]
    by_cases hqp : q = p
    · subst hqp
      rw [shard_settle_self] at h
      rcases hm.deferred entry h with h | h
      · rw [ho.deferred] at h
        exact holds_mono (hw.held q entry h)
      · rw [hmore]
        exact holds_mono h
    · rw [shard_settle_ne hqp] at h
      exact holds_mono (hw.held q entry h)

def newId (packet : Packet n) : Option Uid :=
  match packet.msg with
  | .preAccept id _ => some id
  | _ => none

theorem newId_sendsTo {dest : Fin n} (hd : dest ≠ p) {e : Event n}
    (he : e.Valid c p ∨ ∃ src packet, e = .received src packet) :
    (e.sendsTo c p dest).bind newId = e.openedId := by
  cases e with
  | broadcast packet priority =>
    obtain ⟨msg, value⟩ := packet
    cases msg <;> simp [Event.sendsTo, Event.openedId, newId, hd, DepMsg.replicasOnly]
  | send packet d =>
    have hp : packet.msg.isOffer = false := by
      rcases he with h | ⟨_, _, h⟩
      · exact h.2.2.2.1
      · cases h
    have hnew : newId packet = none := by
      unfold newId
      split
      · rename_i hm
        rw [hm] at hp
        cases hp
      · rfl
    simp only [Event.sendsTo, Event.openedId]
    split
    · exact hnew
    · rfl
  | queueAck | submitted | received | created | proposed | dispatchedAccept | blocked | committed
  | executed | ordered | readSubmitted | served | handed | panicked => rfl

theorem newIds_sent {dest : Fin n} (hd : dest ≠ p) {events : List (Event n)}
    (he : ∀ e ∈ events, e.Valid c p ∨ ∃ src packet, e = .received src packet) :
    (events.filterMap (Event.sendsTo c p dest)).filterMap newId =
      events.filterMap Event.openedId := by
  rw [List.filterMap_filterMap]
  refine List.filterMap_congr fun e hm => ?_
  exact newId_sendsTo hd (he e hm)

-- The proposals on a link are the commands of its source that its end has not heard of.
def Ordered (c : Cluster n) (w : World n) (src dest : Fin n) : Prop :=
  (w.shard c dest).seen.marks src ≤ (w.shard c src).seen.marks src ∧
    (w.link src dest).filterMap newId =
      (List.range' ((w.shard c dest).seen.marks src)
        ((w.shard c src).seen.marks src - (w.shard c dest).seen.marks src)).map (uidAt · src)

structure Sound (c : Cluster n) (w : World n) : Prop extends Base c w where
  ordered : ∀ src dest, src ≠ dest → w.Ordered c src dest

theorem newIds_link (hb : Base c w) {dest : Fin n} (hd : dest ≠ p) (full : Bool)
    {s' : DepShard n} (queue : List (Held n))
    (he : ∀ e ∈ s'.sinks, e.Valid c p ∨ ∃ src packet, e = .received src packet) :
    ((w.settle c p full s' queue).link p dest).filterMap newId =
      (w.link p dest).filterMap newId ++ s'.sinks.filterMap Event.openedId := by
  have hf : ∀ msg : DepMsg n, msg.isAck = true → newId ⟨msg, none⟩ = none := by
    intro msg hm
    cases msg <;> first | rfl | cases hm
  rw [link, sinks_settle_self, MultiSink.filterMap_foldl hf full _ (hb.acks p), newIds_sent hd he]
  rfl

theorem range'_snoc (a k : Nat) : List.range' a (k + 1) = List.range' a k ++ [a + k] := by
  rw [List.range'_concat, Nat.one_mul]

theorem ordered_settle (hb : Base c w) (ho : ∀ src dest, src ≠ dest → w.Ordered c src dest)
    {full : Bool} {s₁ s' : DepShard n} {queue : List (Held n)} (h₁ : Opened c w p s₁)
    (he : ∀ e ∈ s'.sinks, e.Valid c p ∨ ∃ src packet, e = .received src packet)
    (hv : DepShard.Views s₁ s' none [] ∨ DepShard.Views s₁ s' (some s₁.nextUid) [s₁.nextUid])
    (src dest : Fin n) (hne : src ≠ dest) : (w.settle c p full s' queue).Ordered c src dest := by
  have hnext : s₁.nextUid = uidAt ((w.shard c p).seen.marks p) p := by
    rw [h₁.nextUid, (hb.sane p).nextUid]
  obtain ⟨hle, hlink⟩ := ho src dest hne
  by_cases hsp : src = p
  · subst hsp
    rw [Ordered, newIds_link hb hne.symm full queue he, hlink, shard_settle_self,
      shard_settle_ne hne.symm]
    rcases hv with hv | hv
    · rw [hv.opened, h₁.opened, hv.seen]
      simp only [List.append_nil, h₁.seen]
      exact ⟨hle, trivial⟩
    · rw [hv.opened, h₁.opened, hv.seen, hnext]
      simp only [h₁.seen, DepSet.insert_marks, requesterOf_uidAt, indexOf_uidAt, if_true]
      refine ⟨by omega, ?_⟩
      rw [Nat.max_eq_right (Nat.le_succ _), Nat.succ_sub hle, range'_snoc, List.map_append,
        Nat.add_sub_cancel' hle]
      rfl
  · have hlink' : (w.settle c p full s' queue).link src dest = w.link src dest := by
      rw [link, sinks_settle_ne hsp]
      rfl
    rw [Ordered, hlink', hlink, shard_settle_ne hsp]
    by_cases hdp : dest = p
    · subst hdp
      rw [shard_settle_self]
      have hmarks : s'.seen.marks src = (w.shard c dest).seen.marks src := by
        rcases hv with hv | hv
        · rw [hv.seen, h₁.seen]
        · rw [hv.seen, hnext]
          simp only [h₁.seen, DepSet.insert_marks, requesterOf_uidAt, if_neg hne]
      simp only [hmarks]
      exact ⟨hle, trivial⟩
    · rw [shard_settle_ne hdp]
      exact ⟨hle, rfl⟩

theorem shard_popLink (src p q : Fin n) : (w.popLink src p).shard c q = w.shard c q := rfl

theorem link_popLink (src p src' dest : Fin n) : (w.popLink src p).link src' dest =
    if src' = src ∧ dest = p then (w.link src dest).tail else w.link src' dest := by
  by_cases hs : src' = src
  · subst hs
    by_cases hd : dest = p
    · simp [popLink, link, MultiSink.pop, hd]
    · simp [popLink, link, MultiSink.pop, hd]
  · simp [popLink, link, hs]

theorem Base.popLink (hb : Base c w) (src p : Fin n) : Base c (w.popLink src p) := by
  refine ⟨hb.sane, hb.clean, fun q => ?_, fun q => ?_, fun q => ?_, hb.arrived, hb.valid, hb.queued,
    hb.held⟩
  · by_cases hq : q = src
    · subst hq
      simp only [World.popLink, Function.update_self]
      exact ⟨(hb.acks q).fast, (hb.acks q).slow⟩
    · simp only [World.popLink, Function.update_of_ne hq]
      exact hb.acks q
  · by_cases hq : q = src
    · subst hq
      simp only [World.popLink, Function.update_self]
      exact (hb.sent q).pop p
    · simp only [World.popLink, Function.update_of_ne hq]
      exact hb.sent q
  · rw [link_popLink]
    split
    · rename_i h
      rw [← h.1, hb.own]
      rfl
    · exact hb.own q

theorem ordered_popLink (ho : ∀ src dest, src ≠ dest → w.Ordered c src dest) {src p : Fin n}
    {packet : Packet n} {rest : List (Packet n)} (hl : w.link src p = packet :: rest)
    (hp : packet.msg.isPreAccept = false) (src' dest : Fin n) (hne : src' ≠ dest) :
    (w.popLink src p).Ordered c src' dest := by
  obtain ⟨hle, hlink⟩ := ho src' dest hne
  refine ⟨hle, ?_⟩
  rw [link_popLink]
  split
  · rename_i h
    obtain ⟨rfl, rfl⟩ := h
    rw [hl] at hlink ⊢
    rw [List.filterMap_cons] at hlink
    have hnew : newId packet = none := by
      unfold newId
      split
      · rename_i hm
        rw [hm] at hp
        cases hp
      · rfl
    rw [hnew] at hlink
    exact hlink
  · exact hlink

-- The proposal at the head of a link is of the next command of its coordinator.
theorem Sound.timely (hw : Sound c w) {src p : Fin n} {packet : Packet n}
    {rest : List (Packet n)} (hl : w.link src p = packet :: rest) :
    DepShard.Timely src (w.shard c p) packet := by
  have hmem : packet ∈ (w.sinks src).links p := by
    rw [link] at hl
    rw [hl]
    exact List.mem_cons_self
  have hne : src ≠ p := by
    rintro rfl
    rw [hw.own] at hl
    cases hl
  obtain ⟨e, he, hpk⟩ := (hw.sent src).links p packet hmem
  have hvalid := Event.valid_packet (hw.valid src e he) (Event.packet_of_packetTo hpk)
  refine ⟨fun id deps hm => ?_, fun hp hf => ?_⟩
  · have hlink := (hw.ordered src p hne).2
    rw [hl, List.filterMap_cons, newId, hm] at hlink
    simp only [Packet.Valid, hm] at hvalid
    refine ⟨?_, hvalid.2⟩
    cases hk : (w.shard c src).seen.marks src - (w.shard c p).seen.marks src with
    | zero =>
      rw [hk] at hlink
      simp at hlink
    | succ k =>
      rw [hk, List.range'_succ, List.map_cons] at hlink
      exact (List.cons.inj hlink).1
  · obtain ⟨msg, value⟩ := packet
    cases msg <;> first | exact hvalid | exact hvalid.1 | exact absurd rfl hf | exact nomatch hp

end World

end KCensus.Deps

import KCensus.Deps.Visibility

namespace KCensus.Deps

variable {n : Nat} [NeZero n]

def DepMsg.ofRead : DepMsg n → Bool
  | .readRequest _ _ | .readResponse _ _ => true
  | _ => false

def Packet.askedId (packet : Packet n) : Option Nat :=
  match packet.msg with
  | .readRequest id _ => some id
  | _ => none

def Packet.answeredId (packet : Packet n) : Option Nat :=
  match packet.msg with
  | .readResponse id _ => some id
  | _ => none

namespace Event

def ofRead : Event n → Bool
  | .broadcast packet _ | .send packet _ => packet.msg.ofRead
  | .queueAck msg _ => msg.ofRead
  | .readSubmitted _ _ | .served _ _ | .received _ _ => true
  | _ => false

def output : Event n → List (Command n)
  | .executed _ commands => commands
  | .served _ command => [command]
  | _ => []

def handover : Event n → List (Command n)
  | .handed commands => commands
  | _ => []

def plainOfRead (e : Event n) : Prop := e.ofRead = false ∧ e.output = [] ∧ e.handover = []

def submittedId : Event n → Option Nat
  | .readSubmitted id _ => some id
  | _ => none

def submits (rid : Nat) (e : Event n) : Bool := e.submittedId = some rid

omit [NeZero n] in
theorem packet_of_goesTo {c : Cluster n} {me dest : Fin n} {e : Event n} {packet : Packet n}
    (h : e.goesTo c me dest = some packet) : e.packet? = some packet := by
  cases e with
  | queueAck msg requester => exact (Option.ite_none_right_eq_some.1 h).2
  | _ => exact @packet_of_sendsTo n c me dest _ packet h

omit [NeZero n] in
theorem ofRead_packet {e : Event n} (he : e.ofRead = false) {packet : Packet n}
    (hp : e.packet? = some packet) : packet.msg.ofRead = false := by
  cases e <;> cases hp <;> exact he

end Event

omit [NeZero n] in
theorem Packet.asked_none {packet : Packet n} (h : packet.msg.ofRead = false) :
    packet.askedId = none ∧ packet.answeredId = none := by
  obtain ⟨msg, value⟩ := packet
  cases msg <;> first | exact ⟨rfl, rfl⟩ | cases h

omit [NeZero n] in
theorem lane_asked {c : Cluster n} {dest : Fin n} : Lane c dest (Packet.askedId (n := n)) :=
  .direct fun msg hm => by cases msg <;> first | rfl | cases hm

omit [NeZero n] in
theorem lane_answered {c : Cluster n} {dest : Fin n} : Lane c dest (Packet.answeredId (n := n)) :=
  .direct fun msg hm => by cases msg <;> first | rfl | cases hm

namespace DepShard

variable {c : Cluster n} {me : Fin n} {heard : Fin n → Packet n → Prop} {s s' : DepShard n}
  {events : List (Event n)}

theorem ofRead_ackEvent (id : Uid) {msg : DepMsg n} (hm : msg.ofRead = false) :
    (ackEvent c id msg).plainOfRead := by
  unfold ackEvent
  split <;> exact ⟨hm, rfl, rfl⟩

-- The commands that become ready and those handed over account for the ready list.
def Hands (s s' : DepShard n) (events : List (Event n)) : Prop :=
  s.ready ++ events.flatMap Event.output = events.flatMap Event.handover ++ s'.ready

theorem Hands.quiet (hr : s'.ready = s.ready) (he : ∀ e ∈ events, e.plainOfRead) : Hands s s' events := by
  rw [Hands, List.flatMap_eq_nil_iff.2 fun e hmem => (he e hmem).2.1,
    List.flatMap_eq_nil_iff.2 fun e hmem => (he e hmem).2.2, hr, List.append_nil, List.nil_append]

theorem Move.reads_or (hm : Move c me heard s s') (he : s'.sinks = s.sinks ++ events) :
    (s'.reads = s.reads ∧ (∀ e ∈ events, e.ofRead = false) ∧ Hands s s' events) ∨
      (s' = s.serveReadyReads ∧
        events = (s.reads.ready s.executed).map fun (id, command) => .served id command) ∨
      ∃ command, s' = s.askReplicas c me command ∧
        events = [.readSubmitted s.reads.nextId command,
          .broadcast ⟨.readRequest s.reads.nextId command.shard, none⟩ none] := by
  have hmany : ∀ {more : List (Event n)}, s'.reads = s.reads → s'.ready = s.ready →
      s'.sinks = s.sinks ++ more → (∀ e ∈ more, e.plainOfRead) →
      s'.reads = s.reads ∧ (∀ e ∈ events, e.ofRead = false) ∧ Hands s s' events := by
    intro more hr hready h hq
    rw [he] at h
    rw [List.append_cancel_left h]
    exact ⟨hr, fun e hmem => (hq e hmem).1, .quiet hready hq⟩
  have hone : ∀ {e : Event n}, s'.reads = s.reads → s'.sinks = s.sinks ++ [e] → e.ofRead = false →
      Hands s s' [e] → s'.reads = s.reads ∧ (∀ e ∈ events, e.ofRead = false) ∧ Hands s s' events := by
    intro e hr h hq hh
    rw [he] at h
    rw [List.append_cancel_left h]
    exact ⟨hr, fun e' he' => List.mem_singleton.1 he' ▸ hq, hh⟩
  have hplain : ∀ {e : Event n}, s'.reads = s.reads → s'.ready = s.ready →
      s'.sinks = s.sinks ++ [e] → e.plainOfRead →
      s'.reads = s.reads ∧ (∀ e ∈ events, e.ofRead = false) ∧ Hands s s' events :=
    fun hr hready h hq => hmany hr hready h fun e' he' => List.mem_singleton.1 he' ▸ hq
  have hnone : s'.reads = s.reads → s'.ready = s.ready → s'.sinks = s.sinks →
      s'.reads = s.reads ∧ (∀ e ∈ events, e.ofRead = false) ∧ Hands s s' events := fun hr hready h =>
    hmany hr hready (h.trans (List.append_nil _).symm) fun e he' => nomatch he'
  cases hm with
  | serve => exact Or.inr (Or.inl ⟨rfl, (List.append_cancel_left he).symm⟩)
  | ask command =>
    exact Or.inr (Or.inr ⟨command, rfl, List.append_cancel_left (he.symm.trans (askReplicas_sinks s command))⟩)
  | start commands _ _ _ =>
    rw [openInstance_eq] at hmany ⊢
    refine Or.inl (hmany rfl rfl rfl fun e hmem => ?_)
    rcases mem_openEvents hmem with rfl | rfl | rfl | ⟨-, -, rfl⟩
    · exact ⟨rfl, rfl, rfl⟩
    · exact ⟨rfl, rfl, rfl⟩
    · exact ⟨rfl, rfl, rfl⟩
    · exact ofRead_ackEvent _ rfl
  | learn _ _ _ _ _ =>
    rw [learn_eq] at hmany ⊢
    refine Or.inl (hmany rfl rfl rfl fun e hmem => ?_)
    rcases List.mem_cons.1 hmem with rfl | hmem
    · exact ⟨rfl, rfl, rfl⟩
    · obtain ⟨-, rfl | ⟨-, -, rfl⟩ | ⟨_, -, ⟨-, -, rfl⟩ | ⟨-, -, rfl⟩⟩⟩ := mem_preAcceptEvents hmem
      · exact ⟨rfl, rfl, rfl⟩
      · exact ofRead_ackEvent _ rfl
      · exact ofRead_ackEvent _ rfl
      · exact ⟨rfl, rfl, rfl⟩
  | accept _ _ =>
    rw [answerAccept_eq] at hmany ⊢
    refine Or.inl (hmany rfl rfl rfl fun e hmem => ?_)
    rcases (mem_acceptEvents hmem).2 with rfl | rfl
    · exact ofRead_ackEvent _ rfl
    · exact ⟨rfl, rfl, rfl⟩
  | note hn =>
    refine Or.inl (hplain rfl rfl rfl ?_)
    rcases hn with rfl | ⟨_, rfl⟩ | ⟨_, _, rfl⟩ | ⟨_, _, rfl⟩ <;> exact ⟨rfl, rfl, rfl⟩
  | announce _ ha =>
    refine Or.inl (hplain rfl rfl rfl ?_)
    rcases ha with ⟨-, rfl⟩ | ⟨-, _, rfl, -⟩ <;> exact ⟨rfl, rfl, rfl⟩
  | execute hi _ _ =>
    rw [DepShard.execute, withInstance_some hi] at hone ⊢
    exact Or.inl (hone rfl rfl rfl (congrArg (s.ready ++ ·) (List.append_nil _)))
  | drain =>
    refine Or.inl (hone rfl rfl rfl ?_)
    simp [Hands, Event.output, Event.handover, drainReady, emit]
  | forward _ _ _ | slowPath _ _ _ _ _ _ | commit _ _ _ | order _ =>
    exact Or.inl (hplain rfl rfl rfl ⟨rfl, rfl, rfl⟩)
  | vote _ _ _ _ _ | ack _ _ _ | leavePath _ _ | hold _ _ _ _ | release _ | sleep _ =>
    exact Or.inl (hnone rfl rfl rfl)

theorem Move.hands (hm : Move c me heard s s') (he : s'.sinks = s.sinks ++ events) :
    Hands s s' events := by
  rcases hm.reads_or he with ⟨-, -, h⟩ | ⟨rfl, rfl⟩ | ⟨command, rfl, rfl⟩
  · exact h
  · unfold Hands
    have hout : ∀ entries : List (Nat × Command n), (entries.map fun (id, command) =>
        Event.served id command).flatMap Event.output = entries.map Prod.snd ∧
        (entries.map fun (id, command) => Event.served id command).flatMap Event.handover = [] := by
      intro entries
      induction entries with
      | nil => exact ⟨rfl, rfl⟩
      | cons entry entries ih =>
        simp only [List.map_cons, List.flatMap_cons, ih.1, ih.2]
        exact ⟨rfl, rfl⟩
    rw [(hout _).1, (hout _).2]
    rfl
  · unfold Hands askReplicas
    split <;> simp [Event.output, Event.handover, receiveRead, emit, broadcast]

end DepShard

section

variable {c : Cluster n} {hist : List (Fin n × Event n)} {p q : Fin n} {events : List (Event n)}

omit [NeZero n] in
theorem filterMap_silent {f : Packet n → Option Nat}
    (hf : ∀ packet, packet.msg.ofRead = false → f packet = none)
    (he : ∀ e ∈ events, e.ofRead = false) :
    (events.filterMap (Event.goesTo c p q)).filterMap f = [] := by
  refine List.filterMap_eq_nil_iff.2 fun packet hpacket => hf packet ?_
  obtain ⟨e, hmem, hgo⟩ := List.mem_filterMap.1 hpacket
  exact Event.ofRead_packet (he e hmem) (Event.packet_of_goesTo hgo)

omit [NeZero n] in
theorem gotFrom_silent (he : ∀ e ∈ events, e.ofRead = false) :
    events.filterMap (Event.receivedFrom q) = [] := by
  refine List.filterMap_eq_nil_iff.2 fun e hmem => ?_
  have := he e hmem
  cases e <;> first | rfl | cases this

omit [NeZero n] in
theorem submitted_silent (he : ∀ e ∈ events, e.ofRead = false) :
    events.filterMap Event.submittedId = [] := by
  refine List.filterMap_eq_nil_iff.2 fun e hmem => ?_
  have := he e hmem
  cases e <;> first | rfl | cases this

end

omit [NeZero n] in
theorem got_received {q : Fin n} (packet : Packet n) (src : Fin n) {rest : List (Event n)}
    (hrest : rest.filterMap (Event.receivedFrom q) = []) :
    List.filterMap (Event.receivedFrom q) (Event.received src packet :: rest) =
      if src = q then [packet] else [] := by
  rw [List.filterMap_cons, hrest, Event.receivedFrom]
  cases hs : decide (src = q) with
  | true =>
    rw [if_pos (of_decide_eq_true hs), if_pos (of_decide_eq_true hs)]
  | false =>
    rw [if_neg (of_decide_eq_false hs), if_neg (of_decide_eq_false hs)]

omit [NeZero n] in
theorem sentTo_grows {c : Cluster n} (hist more : List (Fin n × Event n)) (src dest : Fin n) :
    sentTo c hist src dest <+: sentTo c (hist ++ more) src dest := by
  rw [sentTo, sentTo, logOf, logOf, List.filterMap_append, List.filterMap_append]
  exact List.prefix_append _ _

theorem got_arrives {c : Cluster n} {p q src : Fin n} {packet : Packet n} {s s' : DepShard n}
    {events : List (Event n)} (ha : DepShard.Arrives c p src s packet s')
    (he : s'.sinks = s.sinks ++ events) :
    events.filterMap (Event.receivedFrom q) = if src = q then [packet] else [] := by
  cases ha with
  | request =>
    rw [DepShard.emit, DepShard.emit, List.append_assoc] at he
    rw [← List.append_cancel_left he]
    exact got_received _ src rfl
  | response | plain =>
    rw [← List.append_cancel_left he]
    exact got_received _ src rfl

theorem arrivals_kept {c : Cluster n} {β : Type} {f : Packet n → Option β}
    (hlane : ∀ dest, Lane c dest f) : Kept c fun hist p _ =>
      ∀ q, q ≠ p → (gotFrom hist p q).filterMap f <+: (sentTo c hist q p).filterMap f where
  new := fun _ _ _ => List.nil_prefix
  clear := fun h => h
  other := fun {hist p s r e} hr h q hq => by
    change (gotFrom (hist ++ [e].map (Prod.mk r)) p q).filterMap f <+: _
    rw [gotFrom_other hr]
    exact (h q hq).trans ((sentTo_grows hist _ q p).filterMap f)
  arrive := fun {hist p s src packet s₁ events} hsc _ _ hdue ha he q hq => by
    rw [gotFrom_self, List.filterMap_append, got_arrives ha he, sentTo_other hq.symm]
    cases hs : decide (src = q) with
    | true =>
      cases of_decide_eq_true hs
      have := hdue β f (hlane p)
      rwa [if_pos rfl, List.filterMap_cons, List.filterMap_nil]
    | false =>
      rw [if_neg (of_decide_eq_false hs), List.filterMap_nil, List.append_nil]
      exact hsc.own q hq
  move := fun {hist p s s' events} hsc hm he q hq => by
    obtain ⟨more, hmore, hv⟩ := hm.extends hsc.sane
    rw [List.append_cancel_left (he.symm.trans hmore), gotFrom_self, gotFrom_valid hv, List.append_nil,
      sentTo_other hq.symm]
    exact hsc.own q hq

-- A process asks every other replica once for each of its reads, and answers every question once.
structure Asked (c : Cluster n) (hist : List (Fin n × Event n)) (p : Fin n) (s : DepShard n) :
    Prop where
  submitted : (logOf hist p).filterMap Event.submittedId = List.range s.reads.nextId
  asks : ∀ q, q ≠ p → (sentTo c hist p q).filterMap Packet.askedId =
    if c.isReplica q then List.range s.reads.nextId else []
  answers : ∀ q, q ≠ p → (sentTo c hist p q).filterMap Packet.answeredId =
    (gotFrom hist p q).filterMap Packet.askedId
  request : ∀ rid key value, said hist p ⟨.readRequest rid key, value⟩ →
    ∃ command, (p, Event.readSubmitted rid command) ∈ hist ∧ command.shard = key

namespace Asked

variable {c : Cluster n} {hist : List (Fin n × Event n)} {p q : Fin n} {s s' : DepShard n}
  {events : List (Event n)}

theorem silent (h : Asked c hist p s) (hr : s'.reads = s.reads)
    (he : ∀ e ∈ events, e.ofRead = false) : Asked c (hist ++ events.map (Prod.mk p)) p s' where
  submitted := by
    rw [logOf_self, List.filterMap_append, submitted_silent he, List.append_nil, hr, h.submitted]
  asks := fun q hq => by
    rw [sentTo_self, List.filterMap_append, filterMap_silent (fun _ hp => (Packet.asked_none hp).1) he,
      List.append_nil, hr, h.asks q hq]
  answers := fun q hq => by
    rw [sentTo_self, gotFrom_self, List.filterMap_append,
      filterMap_silent (fun _ hp => (Packet.asked_none hp).2) he, gotFrom_silent he, List.append_nil,
      List.append_nil, h.answers q hq]
  request := fun rid key value hs => by
    rcases said_settle hs with hs | ⟨-, e, hmem, hp⟩
    · obtain ⟨command, hm, hk⟩ := h.request rid key value hs
      exact ⟨command, List.mem_append_left _ hm, hk⟩
    · exact nomatch Event.ofRead_packet (he e hmem) hp

theorem serve (h : Asked c hist p s) {entries : List (Nat × Command n)}
    (hr : s'.reads.nextId = s.reads.nextId)
    (he : events = entries.map fun (id, command) => .served id command) :
    Asked c (hist ++ events.map (Prod.mk p)) p s' := by
  have hnone : ∀ {β : Type} (f : Event n → Option β), (∀ id command, f (.served id command) = none) →
      events.filterMap f = [] := by
    intro β f hf
    refine List.filterMap_eq_nil_iff.2 fun e hmem => ?_
    rw [he] at hmem
    obtain ⟨entry, -, rfl⟩ := List.mem_map.1 hmem
    exact hf _ _
  refine ⟨?_, fun q hq => ?_, fun q hq => ?_, fun rid key value hs => ?_⟩
  · rw [logOf_self, List.filterMap_append, hnone _ fun _ _ => rfl, List.append_nil, hr, h.submitted]
  · rw [sentTo_self, hnone _ fun _ _ => rfl, List.append_nil, hr, h.asks q hq]
  · rw [sentTo_self, gotFrom_self, hnone _ fun _ _ => rfl, hnone _ fun _ _ => rfl, List.append_nil,
      List.append_nil, h.answers q hq]
  · rcases said_settle hs with hs | ⟨-, e, hmem, hp⟩
    · obtain ⟨command, hm, hk⟩ := h.request rid key value hs
      exact ⟨command, List.mem_append_left _ hm, hk⟩
    · rw [he] at hmem
      obtain ⟨entry, -, rfl⟩ := List.mem_map.1 hmem
      cases hp

theorem nextId_askReplicas (s : DepShard n) (command : Command n) :
    (s.askReplicas c p command).reads.nextId = s.reads.nextId + 1 := by
  unfold DepShard.askReplicas
  split <;> rfl

omit [NeZero n] in
theorem goesTo_request (hq : q ≠ p) (rid : Nat) (command : Command n) :
    List.filterMap (Event.goesTo c p q) [.readSubmitted rid command,
      .broadcast ⟨.readRequest rid command.shard, none⟩ none] =
      if c.isReplica q then [⟨.readRequest rid command.shard, none⟩] else [] := by
  have hgo : Event.goesTo c p q (.broadcast ⟨.readRequest rid command.shard, none⟩ none) =
      if c.isReplica q then some ⟨.readRequest rid command.shard, none⟩ else none := by
    simp only [Event.goesTo, Event.sendsTo, DepMsg.replicasOnly, reduceCtorEq, false_or, ne_eq, hq,
      not_false_eq_true, true_and, Bool.true_eq_false]
  rw [List.filterMap_cons_none (by rfl), List.filterMap_cons, List.filterMap_nil, hgo]
  cases c.isReplica q <;> rfl

theorem ask (h : Asked c hist p s) (command : Command n)
    (he : events = [.readSubmitted s.reads.nextId command,
      .broadcast ⟨.readRequest s.reads.nextId command.shard, none⟩ none]) :
    Asked c (hist ++ events.map (Prod.mk p)) p (s.askReplicas c p command) := by
  have hnext := nextId_askReplicas (c := c) (p := p) s command
  refine ⟨?_, fun q hq => ?_, fun q hq => ?_, fun rid key value hs => ?_⟩
  · rw [logOf_self, List.filterMap_append, h.submitted, hnext, List.range_succ, he]
    rfl
  · rw [sentTo_self, List.filterMap_append, h.asks q hq, hnext, he]
    rw [goesTo_request hq]
    cases c.isReplica q with
    | true =>
      rw [if_pos rfl, if_pos rfl, if_pos rfl, List.range_succ]
      rfl
    | false => rfl
  · rw [sentTo_self, gotFrom_self, List.filterMap_append, List.filterMap_append, h.answers q hq, he,
      goesTo_request hq]
    cases c.isReplica q <;> rfl
  · rcases said_settle hs with hs | ⟨-, e, hmem, hp⟩
    · obtain ⟨command', hm, hk⟩ := h.request rid key value hs
      exact ⟨command', List.mem_append_left _ hm, hk⟩
    · rw [he] at hmem
      simp only [List.mem_cons, List.not_mem_nil, or_false] at hmem
      rcases hmem with rfl | rfl
      · cases hp
      · cases hp
        exact ⟨command, Recorded.mem_new _ _ (he ▸ List.mem_cons_self), rfl⟩

omit [NeZero n] in
theorem goesTo_response (packet : Packet n) (rid : Nat) (seen : DepSet n) (src : Fin n) :
    List.filterMap (Event.goesTo c p q)
      [.received src packet, .send ⟨.readResponse rid seen, none⟩ src] =
      if src = q then [⟨.readResponse rid seen, none⟩] else [] := by
  have hgo : Event.goesTo c p q (.send ⟨.readResponse rid seen, none⟩ src) =
      if src = q then some ⟨.readResponse rid seen, none⟩ else none := by
    simp only [Event.goesTo, Event.sendsTo, DepMsg.replicasOnly, true_or, and_true]
  rw [List.filterMap_cons_none (by rfl), List.filterMap_cons, List.filterMap_nil, hgo]
  cases hs : decide (src = q) with
  | true =>
    rw [if_pos (of_decide_eq_true hs), if_pos (of_decide_eq_true hs)]
  | false =>
    rw [if_neg (of_decide_eq_false hs), if_neg (of_decide_eq_false hs)]

theorem arrive (h : Asked c hist p s) {src : Fin n} {packet : Packet n}
    (ha : DepShard.Arrives c p src s packet s') (he : s'.sinks = s.sinks ++ events) :
    Asked c (hist ++ events.map (Prod.mk p)) p s' := by
  have hplain : s'.reads.nextId = s.reads.nextId → events = [.received src packet] →
      packet.askedId = none → Asked c (hist ++ events.map (Prod.mk p)) p s' := by
    rintro hr rfl hnone
    refine ⟨?_, fun q hq => ?_, fun q hq => ?_, fun rid key value hs => ?_⟩
    · rw [logOf_self, List.filterMap_append, h.submitted, hr]
      exact List.append_nil _
    · rw [sentTo_self, List.filterMap_append, h.asks q hq, hr]
      exact List.append_nil _
    · rw [sentTo_self, gotFrom_self, List.filterMap_append, List.filterMap_append, h.answers q hq,
        got_received packet src rfl]
      split
      · rw [List.filterMap_cons_none hnone]
        rfl
      · rfl
    · rcases said_settle hs with hs | ⟨-, e, hmem, hp⟩
      · obtain ⟨command, hm, hk⟩ := h.request rid key value hs
        exact ⟨command, List.mem_append_left _ hm, hk⟩
      · rw [List.mem_singleton.1 hmem] at hp
        cases hp
  cases ha with
  | @request rid key value hsrc =>
    have hevents : events = [.received src ⟨.readRequest rid key, value⟩,
        .send ⟨.readResponse rid (s.depsFor c [key]), none⟩ src] := by
      rw [DepShard.emit, DepShard.emit, List.append_assoc] at he
      exact (List.append_cancel_left he).symm
    subst hevents
    refine ⟨?_, fun q hq => ?_, fun q hq => ?_, fun rid key value hs => ?_⟩
    · rw [logOf_self, List.filterMap_append, h.submitted]
      exact List.append_nil _
    · rw [sentTo_self, List.filterMap_append, h.asks q hq, goesTo_response]
      refine (congrArg _ ?_).trans (List.append_nil _)
      split <;> rfl
    · rw [sentTo_self, gotFrom_self, List.filterMap_append, List.filterMap_append, h.answers q hq,
        goesTo_response, got_received _ src rfl]
      congr 1
      split <;> rfl
    · rcases said_settle hs with hs | ⟨-, e, hmem, hp⟩
      · obtain ⟨command, hm, hk⟩ := h.request rid key value hs
        exact ⟨command, List.mem_append_left _ hm, hk⟩
      · simp only [List.mem_cons, List.not_mem_nil, or_false] at hmem
        rcases hmem with rfl | rfl <;> cases hp
  | response => exact hplain rfl (List.append_cancel_left he).symm rfl
  | plain hrequest hresponse =>
    refine hplain rfl (List.append_cancel_left he).symm ?_
    obtain ⟨msg, value⟩ := packet
    cases msg with
    | readRequest id key => exact absurd rfl (hrequest id key)
    | _ => rfl

theorem once (h : Asked c hist p s) {rid : Nat} {a b : Command n}
    (ha : (p, Event.readSubmitted rid a) ∈ hist) (hb : (p, Event.readSubmitted rid b) ∈ hist) : a = b := by
  have hnodup := h.submitted ▸ List.nodup_range
  have key : ∀ l : List (Event n), (l.filterMap Event.submittedId).Nodup →
      .readSubmitted rid a ∈ l → .readSubmitted rid b ∈ l → a = b := by
    intro l
    induction l with
    | nil => exact fun _ ha => nomatch ha
    | cons e l ih =>
      intro hl ha hb
      have hin : ∀ {command}, Event.readSubmitted rid command ∈ l → rid ∈ l.filterMap Event.submittedId :=
        fun h => List.mem_filterMap.2 ⟨_, h, rfl⟩
      have htail : (l.filterMap Event.submittedId).Nodup := by
        rw [List.filterMap_cons] at hl
        split at hl
        · exact hl
        · exact (List.nodup_cons.1 hl).2
      rcases List.mem_cons.1 ha with rfl | ha' <;> rcases List.mem_cons.1 hb with hb' | hb'
      · cases hb'
        rfl
      · exact absurd (hin hb') (List.nodup_cons.1 hl).1
      · subst hb'
        exact absurd (hin ha') (List.nodup_cons.1 hl).1
      · exact ih htail ha' hb'
  exact key _ hnodup (mem_logOf.2 ha) (mem_logOf.2 hb)

theorem first (h : Asked c hist p s) {rid : Nat} {command : Command n}
    {before after : List (Fin n × Event n)}
    (heq : hist = before ++ (p, .readSubmitted rid command) :: after) (a : Command n) :
    (p, Event.readSubmitted rid a) ∉ before := by
  intro hm
  have hnodup : ((logOf hist p).filterMap Event.submittedId).Nodup := h.submitted ▸ List.nodup_range
  have hin : ∀ {l : List (Fin n × Event n)} {a : Command n}, (p, Event.readSubmitted rid a) ∈ l →
      rid ∈ (logOf l p).filterMap Event.submittedId :=
    fun h => List.mem_filterMap.2 ⟨_, mem_logOf.2 h, rfl⟩
  rw [heq, logOf, List.filterMap_append, List.filterMap_append] at hnodup
  exact List.disjoint_of_nodup_append hnodup (hin hm) (hin List.mem_cons_self)

theorem asked_before (h : Asked c hist p s) {rid : Nat} {command : Command n}
    (hm : (p, Event.readSubmitted rid command) ∈ hist) : rid < s.reads.nextId := by
  have : rid ∈ (logOf hist p).filterMap Event.submittedId :=
    List.mem_filterMap.2 ⟨_, mem_logOf.2 hm, rfl⟩
  rwa [h.submitted, List.mem_range] at this

theorem kept : Kept c (Asked c) where
  new := fun p => ⟨rfl, fun q _ => by cases c.isReplica q <;> rfl, fun q _ => rfl,
    fun _ _ _ ⟨_, hm, _⟩ => nomatch hm⟩
  clear := fun h => ⟨h.submitted, h.asks, h.answers, h.request⟩
  other := fun {hist p s q e} hq h => by
    change Asked c (hist ++ [e].map (Prod.mk q)) p s
    refine ⟨?_, fun r hr => ?_, fun r hr => ?_, fun rid key value hs => ?_⟩
    · rw [logOf_other hq, h.submitted]
    · rw [sentTo_other hq, h.asks r hr]
    · rw [sentTo_other hq, gotFrom_other hq, h.answers r hr]
    · rcases said_settle hs with hs | ⟨rfl, -⟩
      · obtain ⟨command, hm, hk⟩ := h.request rid key value hs
        exact ⟨command, List.mem_append_left _ hm, hk⟩
      · exact absurd rfl hq
  arrive := fun hsc _ _ _ ha he => hsc.own.arrive ha he
  move := fun hsc hm he => by
    rcases hm.reads_or he with ⟨hr, hq, -⟩ | ⟨rfl, hevents⟩ | ⟨command, rfl, hevents⟩
    · exact hsc.own.silent hr hq
    · exact hsc.own.serve rfl hevents
    · exact hsc.own.ask command hevents

end Asked

end KCensus.Deps

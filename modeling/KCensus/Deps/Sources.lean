import KCensus.Deps.Creation

namespace KCensus.Deps

variable {n : Nat} [NeZero n]

def requests (commands : List (Command n)) : List (Fin n × Nat × List UInt8 × Bool) :=
  commands.map Command.request

section

variable (c : Cluster n) (hist : List (Fin n × Event n))

-- What stands behind a set that is accepted or committed for a command.
def Backed (id : Uid) (deps : DepSet n) : Prop :=
  match c.mode with
  | .ePaxos _ =>
      (∃ voters : Finset (Fin n), voters ⊆ c.alive ∧ c.slowQuorum ≤ voters.card ∧
        ∀ q ∈ voters, ∃ d, (q, Event.proposed id d) ∈ hist ∧ ∀ v, d.contains v → deps.contains v) ∧
      ∀ v, deps.contains v → ∃ q d, (q, Event.proposed id d) ∈ hist ∧ d.contains v
  | .swiftPaxos leader _ => (leader, Event.proposed id deps) ∈ hist

def KnownToMost (id : Uid) : Prop :=
  ∃ members : Finset (Fin n), members ⊆ c.alive ∧ c.slowQuorum ≤ members.card ∧
    ∀ q ∈ members, ∃ commands, (q, Event.created id commands) ∈ hist

structure Sourced (id : Uid) (i : Instance n) : Prop where
  coordinator : i.coordinatorPid = requesterOf n id
  leader : i.leader = c.leader (requesterOf n id)
  coordinatorDeps : ∀ d, i.coordinatorDeps = some d → (requesterOf n id, Event.proposed id d) ∈ hist
  votes : ∀ q d, i.preaccepts q = some d → c.isReplica q = true ∧ (q, Event.proposed id d) ∈ hist
  endorsers : ∀ q, q ∈ i.endorsers ↔ ∃ d, i.preaccepts q = some d ∧ i.leaderDeps = some d
  covers : ∀ q d v, i.preaccepts q = some d → d.contains v → i.union.contains v
  covered : ∀ v, i.union.contains v → ∃ q d, i.preaccepts q = some d ∧ d.contains v
  acked : ∀ q ∈ i.acceptAcked, c.isReplica q = true ∧ ∃ commands, (q, Event.created id commands) ∈ hist
  settled : i.isSettled = true → Backed c hist id i.deps

end

section

variable {c : Cluster n} {hist : List (Fin n × Event n)} {id : Uid} {i : Instance n}
  {deps : DepSet n}

theorem Backed.mono (h : Backed c hist id deps) (more : List (Fin n × Event n)) :
    Backed c (hist ++ more) id deps := by
  unfold Backed at h ⊢
  split
  · rename_i hm
    rw [hm] at h
    obtain ⟨⟨voters, hsub, hcard, hv⟩, hc⟩ := h
    refine ⟨⟨voters, hsub, hcard, fun q hq => ?_⟩, fun v hd => ?_⟩
    · obtain ⟨d, hd, hle⟩ := hv q hq
      exact ⟨d, List.mem_append_left _ hd, hle⟩
    · obtain ⟨q, d, hq, hdv⟩ := hc v hd
      exact ⟨q, d, List.mem_append_left _ hq, hdv⟩
  · rename_i hm
    rw [hm] at h
    exact List.mem_append_left _ h

omit [NeZero n] in
theorem KnownToMost.mono (h : KnownToMost c hist id) (more : List (Fin n × Event n)) :
    KnownToMost c (hist ++ more) id := by
  obtain ⟨members, hsub, hcard, hm⟩ := h
  refine ⟨members, hsub, hcard, fun q hq => ?_⟩
  obtain ⟨commands, hc⟩ := hm q hq
  exact ⟨commands, List.mem_append_left _ hc⟩

namespace Sourced

theorem mono (h : Sourced c hist id i) (more : List (Fin n × Event n)) :
    Sourced c (hist ++ more) id i where
  coordinator := h.coordinator
  leader := h.leader
  coordinatorDeps := fun d hd => List.mem_append_left _ (h.coordinatorDeps d hd)
  votes := fun q d hd => ⟨(h.votes q d hd).1, List.mem_append_left _ (h.votes q d hd).2⟩
  endorsers := h.endorsers
  covers := h.covers
  covered := h.covered
  acked := fun q hq => by
    obtain ⟨hr, commands, hc⟩ := h.acked q hq
    exact ⟨hr, commands, List.mem_append_left _ hc⟩
  settled := fun hs => (h.settled hs).mono more

theorem new (commands : List (Command n)) (deps : DepSet n) :
    Sourced c hist id
      (Instance.new (requesterOf n id) (c.leader (requesterOf n id)) commands deps) where
  coordinator := rfl
  leader := rfl
  coordinatorDeps := by simp [Instance.new]
  votes := by simp [Instance.new]
  endorsers := by simp [Instance.new, Instance.leaderDeps]
  covers := by simp [Instance.new]
  covered := by simp [Instance.new]
  acked := by simp [Instance.new]
  settled := by simp [Instance.new, Instance.isSettled]

theorem recordPreaccept (h : Sourced c hist id i) {src : Fin n} (hr : c.isReplica src = true)
    (hd : (src, Event.proposed id deps) ∈ hist) :
    Sourced c hist id (i.recordPreaccept src deps) := by
  unfold Instance.recordPreaccept
  split
  · exact h
  · rename_i hnew
    rw [Instance.hasPreaccept, Bool.not_eq_true, Option.isSome_eq_false_iff, Option.isNone_iff_eq_none] at hnew
    refine ⟨h.coordinator, h.leader, h.coordinatorDeps, fun q d hq => ?_, fun q => ?_,
      fun q d v hq hv => ?_, fun v hv => ?_, h.acked, h.settled⟩
    · simp only at hq
      split at hq
      · rename_i heq
        cases hq
        rw [heq]
        exact ⟨hr, hd⟩
      · exact h.votes q d hq
    · simp only [Instance.leaderDeps]
      by_cases hl : src = i.leader
      · subst hl
        by_cases hq : q = i.leader
        · simp [hq]
        · simp only [if_true, hq, if_false, Finset.mem_union, Finset.mem_insert, false_or,
            Finset.mem_filter, Finset.mem_univ, true_and, Option.some.injEq, h.endorsers,
            Instance.leaderDeps, hnew]
          simp
      · simp only [if_neg hl, if_neg (Ne.symm hl)]
        have hsrc : src ∉ i.endorsers := by simp [h.endorsers, hnew]
        have hold : ∀ q, q ∈ i.endorsers ↔
            ∃ d, i.preaccepts q = some d ∧ i.preaccepts i.leader = some d := h.endorsers
        by_cases he : i.preaccepts i.leader = some deps <;> by_cases hq : q = src
        · simp [he, hq]
        · simp [he, hq, hold]
        · simp only [hq, he, hsrc, if_true, if_false, Option.some.injEq, false_iff, not_exists, not_and]
          rintro d rfl
          exact he
        · simp only [he, hq, if_false]
          exact hold q
    · simp only at hq
      rw [DepSet.contains_unionWith]
      split at hq
      · cases hq
        exact Or.inr hv
      · exact Or.inl (h.covers q d v hq hv)
    · rw [DepSet.contains_unionWith] at hv
      rcases hv with hv | hv
      · obtain ⟨q, d, hq, hdv⟩ := h.covered v hv
        refine ⟨q, d, ?_, hdv⟩
        simp only
        split
        · rename_i heq
          rw [heq, hnew] at hq
          cases hq
        · exact hq
      · exact ⟨src, deps, by simp, hv⟩

theorem setCoordinatorDeps (h : Sourced c hist id i)
    (hd : (requesterOf n id, Event.proposed id deps) ∈ hist) :
    Sourced c hist id (i.setCoordinatorDeps deps) := by
  refine ⟨h.coordinator, h.leader, fun d hc => ?_, h.votes, h.endorsers, h.covers, h.covered,
    h.acked, h.settled⟩
  simp only [Instance.setCoordinatorDeps] at hc
  cases hco : i.coordinatorDeps with
  | none =>
    rw [hco] at hc
    cases hc
    exact hd
  | some d' =>
    rw [hco] at hc
    cases hc
    exact h.coordinatorDeps _ hco

theorem accept (h : Sourced c hist id i) (hb : Backed c hist id deps) :
    Sourced c hist id (i.accept deps) :=
  ⟨h.coordinator, h.leader, h.coordinatorDeps, h.votes, h.endorsers, h.covers, h.covered, h.acked,
    fun _ => hb⟩

theorem commit (h : Sourced c hist id i) (hb : Backed c hist id deps) :
    Sourced c hist id (i.commit deps) :=
  ⟨h.coordinator, h.leader, h.coordinatorDeps, h.votes, h.endorsers, h.covers, h.covered, h.acked,
    fun _ => hb⟩

theorem ackAccept (h : Sourced c hist id i) {q : Fin n} (hr : c.isReplica q = true)
    (hq : ∃ commands, (q, Event.created id commands) ∈ hist) :
    Sourced c hist id (i.ackAccept q) := by
  refine ⟨h.coordinator, h.leader, h.coordinatorDeps, h.votes, h.endorsers, h.covers, h.covered,
    fun q' hq' => ?_, h.settled⟩
  rcases Finset.mem_insert.1 hq' with rfl | hq'
  · exact ⟨hr, hq⟩
  · exact h.acked q' hq'

theorem leftFastPath (h : Sourced c hist id i) (left : Bool) :
    Sourced c hist id { i with leftFastPath := left } :=
  ⟨h.coordinator, h.leader, h.coordinatorDeps, h.votes, h.endorsers, h.covers, h.covered, h.acked,
    h.settled⟩

theorem propose (h : Sourced c hist id i) (hs : i.isSettled = false) (deps : DepSet n) :
    Sourced c hist id { i with deps := deps } :=
  ⟨h.coordinator, h.leader, h.coordinatorDeps, h.votes, h.endorsers, h.covers, h.covered, h.acked,
    fun hset => absurd (hs.symm.trans hset) (by simp)⟩

theorem unanimous (h : Sourced c hist id i) (hall : i.allPreacceptsEndorse = true)
    (hl : i.leaderDeps = some deps) {q : Fin n} (hq : q ∈ i.preacceptors) :
    c.isReplica q = true ∧ (q, Event.proposed id deps) ∈ hist := by
  have hsub : i.endorsers ⊆ i.preacceptors := fun q hq => by
    obtain ⟨d, hd, -⟩ := (h.endorsers q).1 hq
    exact Finset.mem_filter.2 ⟨Finset.mem_univ q, by rw [hd]; rfl⟩
  have heq : i.endorsers = i.preacceptors := by
    refine Finset.eq_of_subset_of_card_le hsub ?_
    rw [Instance.allPreacceptsEndorse, decide_eq_true_eq, Instance.preacceptsCount] at hall
    exact hall.ge
  rw [← heq] at hq
  obtain ⟨d, hd, hld⟩ := (h.endorsers q).1 hq
  rw [hl] at hld
  cases hld
  exact h.votes q deps hd

theorem fillReport (h : Sourced c hist id i) (report : Option CommitReport) :
    Sourced c hist id (DepShard.fillReport report i) := by
  cases report
  · exact h
  · exact ⟨h.coordinator, h.leader, h.coordinatorDeps, h.votes, h.endorsers, h.covers, h.covered,
      h.acked, h.settled⟩

end Sourced

end

-- What a process that sends a packet about a command vouches for.
def Warranted (c : Cluster n) (hist : List (Fin n × Event n)) (p : Fin n) (packet : Packet n) :
    Prop :=
  match packet.msg with
  | .preAcceptOk id acked => c.isReplica p = true ∧ ∃ d, (p, Event.proposed id d) ∈ hist ∧
      (acked = some d ∨ acked = none ∧ (requesterOf n id, Event.proposed id d) ∈ hist)
  | .accept id d => c.isReplica p = true ∧ (∃ commands, (p, Event.created id commands) ∈ hist) ∧
      Backed c hist id d ∧ (c.isSwift = true → (p, Event.proposed id d) ∈ hist)
  | .acceptOk id => c.isReplica p = true ∧ ∃ commands, (p, Event.created id commands) ∈ hist
  | .commit id d => (p, Event.committed id d) ∈ hist
  | _ => True

structure Recorded (c : Cluster n) (hist : List (Fin n × Event n)) (p : Fin n) (s : DepShard n) :
    Prop where
  said : ∀ packet, said hist p packet → Warranted c hist p packet
  committed : ∀ id d, (p, Event.committed id d) ∈ hist → Backed c hist id d ∧ KnownToMost c hist id
  instances : ∀ id i, s.instances.get id = some i → Sourced c hist id i
  commands : ∀ id i, s.instances.get id = some i →
    ∃ commands, (p, Event.created id commands) ∈ hist ∧ requests i.commands = requests commands

namespace Recorded

variable {c : Cluster n} {hist : List (Fin n × Event n)} {p : Fin n} {s s' : DepShard n}
  {events : List (Event n)}

theorem warranted_mono {packet : Packet n} (h : Warranted c hist p packet)
    (more : List (Fin n × Event n)) : Warranted c (hist ++ more) p packet := by
  obtain ⟨msg, value⟩ := packet
  cases msg with
  | preAcceptOk id acked =>
    obtain ⟨hr, d, hd, hor⟩ := h
    exact ⟨hr, d, List.mem_append_left _ hd, hor.imp_right fun h => ⟨h.1, List.mem_append_left _ h.2⟩⟩
  | accept id d =>
    obtain ⟨hr, ⟨commands, hc⟩, hb, hs⟩ := h
    exact ⟨hr, ⟨commands, List.mem_append_left _ hc⟩, hb.mono more,
      fun hsw => List.mem_append_left _ (hs hsw)⟩
  | acceptOk id =>
    obtain ⟨hr, commands, hc⟩ := h
    exact ⟨hr, commands, List.mem_append_left _ hc⟩
  | commit id d => exact List.mem_append_left _ h
  | forward | preAccept | readRequest | readResponse => trivial

theorem packet_ackEvent (id : Uid) (msg : DepMsg n) :
    (ackEvent c id msg).packet? = some ⟨msg, none⟩ := by
  unfold ackEvent
  split <;> rfl

theorem backed_of_swift {id : Uid} {d : DepSet n} {q : Fin n} (hs : c.isSwift = true) :
    Backed c hist id d ↔ (c.leader q, Event.proposed id d) ∈ hist := by
  cases hm : c.mode with
  | ePaxos coordinator =>
    rw [Cluster.isSwift, hm] at hs
    cases hs
  | swiftPaxos leader quorum => simp only [Backed, Cluster.leader, hm]

section

variable (hsc : Scene c (Created c) (Recorded c) hist p s)

include hsc

theorem heard {src : Fin n} {packet : Packet n} (h : heardBy hist p src packet) :
    Warranted c hist src packet := by
  obtain ⟨t, -, ht⟩ := hsc.all src
  exact ht.said packet (hsc.faithful.arrived p src packet h).2.said

theorem heard_offer {src : Fin n} {id : Uid} {deps : DepSet n} {commands : List (Command n)}
    (h : heardBy hist p src ⟨.preAccept id deps, some commands⟩) :
    requesterOf n id = src ∧ (src, Event.created id commands) ∈ hist ∧
      (src, Event.proposed id deps) ∈ hist := by
  obtain ⟨t, ht, -⟩ := hsc.all src
  obtain ⟨-, e, he, hpk⟩ := hsc.faithful.arrived p src _ h
  have hv := hsc.faithful.packet ⟨e, he, Event.packet_of_packetTo hpk⟩
  refine ⟨hv.1, ?_⟩
  cases e <;> simp only [Event.packetTo, Option.some.injEq, reduceCtorEq] at hpk
  case broadcast packet priority =>
    subst hpk
    exact ht.offer id deps commands priority he
  case send packet d =>
    rcases hsc.faithful.valid _ _ he with ⟨-, -, -, hp, -⟩ | ⟨_, _, h⟩
    · rw [Option.some.inj (Option.ite_none_right_eq_some.1 hpk).2] at hp
      cases hp
    · cases h
  case queueAck msg requester => cases hpk

theorem known {q : Fin n} {id : Uid} {d : DepSet n} (h : (q, Event.proposed id d) ∈ hist) :
    ∃ commands, (q, Event.created id commands) ∈ hist := by
  obtain ⟨t, ht, -⟩ := hsc.all q
  exact ht.proposal id d h

theorem home {id : Uid} {i : Instance n} (hi : s.instances.get id = some i)
    (hs : c.isSwift = false) : c.isReplica (requesterOf n id) = true := by
  obtain ⟨commands, hc, -⟩ := hsc.own.commands id i hi
  exact hsc.known.home id commands hc hs

-- The union of a majority's proposals backs itself.
omit hsc in
theorem backed_union {id : Uid} {i : Instance n} (hi : Sourced c hist id i)
    (hs : c.isSwift = false) (hq : c.slowQuorum ≤ i.preacceptsCount) :
    Backed c hist id i.union := by
  unfold Cluster.isSwift at hs
  unfold Backed
  split
  · refine ⟨⟨i.preacceptors, fun q hq => ?_, hq, fun q hq => ?_⟩, fun v hv => ?_⟩
    · obtain ⟨d, hd⟩ := Option.isSome_iff_exists.1 (Finset.mem_filter.1 hq).2
      exact of_decide_eq_true (hi.votes q d hd).1
    · obtain ⟨d, hd⟩ := Option.isSome_iff_exists.1 (Finset.mem_filter.1 hq).2
      exact ⟨d, (hi.votes q d hd).2, fun v hv => hi.covers q d v hd hv⟩
    · obtain ⟨q, d, hd, hv⟩ := hi.covered v hv
      exact ⟨q, d, (hi.votes q d hd).2, hv⟩
  · rename_i hm
    rw [hm] at hs
    cases hs

theorem backed_fast {id : Uid} {i : Instance n} {deps : DepSet n} (hi : Sourced c hist id i)
    (hs : c.isSwift = false) (hall : i.allPreacceptsEndorse = true)
    (hq : c.fastQuorum ≤ i.preacceptsCount) (hl : i.leaderDeps = some deps) :
    Backed c hist id deps ∧ KnownToMost c hist id := by
  have hvote := fun q hq => hi.unanimous hall hl (q := q) hq
  have hslow := Nat.le_trans c.slow_le_fast hq
  have halive : i.preacceptors ⊆ c.alive := fun q hq => of_decide_eq_true (hvote q hq).1
  refine ⟨?_, i.preacceptors, halive, hslow, fun q hq => known hsc (hvote q hq).2⟩
  unfold Cluster.isSwift at hs
  unfold Backed
  split
  · exact ⟨⟨i.preacceptors, halive, hslow, fun q hq => ⟨deps, (hvote q hq).2, fun v hv => hv⟩⟩,
      fun v hv => ⟨i.leader, deps, (hi.votes _ _ hl).2, hv⟩⟩
  · rename_i hm
    rw [hm] at hs
    cases hs

theorem decides {id : Uid} {i : Instance n} {deps : DepSet n}
    (hi : s.instances.get id = some i) (hd : DepShard.Decides c p (heardBy hist p) id i deps) :
    Backed c hist id deps ∧ KnownToMost c hist id := by
  have hsrc := hsc.own.instances id i hi
  have hacks : c.slowQuorum ≤ i.acceptAcked.card → KnownToMost c hist id := fun hq =>
    ⟨i.acceptAcked, fun q hm => of_decide_eq_true (hsrc.acked q hm).1, hq,
      fun q hm => (hsrc.acked q hm).2⟩
  cases hd with
  | fast hs _ _ hall hq hl => exact backed_fast hsc hsrc hs hall hq hl
  | slow hs _ hphase hq =>
    exact ⟨hsrc.settled (by simp [Instance.isSettled, hphase]), hacks hq⟩
  | @told src deps value h =>
    obtain ⟨t, -, ht⟩ := hsc.all src
    exact ht.committed id deps (heard hsc h)
  | swift hs hset hq =>
    refine ⟨hsrc.settled hset, ?_⟩
    rcases hq with hfast | hq
    · unfold Instance.fastEndorsers at hfast
      split at hfast
      · rw [Option.any_some] at hfast
        have hmem : ∀ q ∈ i.acceptAcked ∪ i.endorsers, c.isReplica q = true ∧
            ∃ commands, (q, Event.created id commands) ∈ hist := by
          intro q hq
          rcases Finset.mem_union.1 hq with hq | hq
          · exact hsrc.acked q hq
          · obtain ⟨d, hd, -⟩ := (hsrc.endorsers q).1 hq
            exact ⟨(hsrc.votes q d hd).1, known hsc (hsrc.votes q d hd).2⟩
        exact ⟨i.acceptAcked ∪ i.endorsers, fun q hq => of_decide_eq_true (hmem q hq).1,
          Cluster.slow_le_of_reached hfast, fun q hq => (hmem q hq).2⟩
      · cases hfast
    · exact hacks hq

end

omit [NeZero n] in
theorem mem_new (hist : List (Fin n × Event n)) (p : Fin n) {e : Event n} (he : e ∈ events) :
    (p, e) ∈ hist ++ events.map (Prod.mk p) :=
  List.mem_append_right _ (List.mem_map.2 ⟨e, he, rfl⟩)

theorem packet_ack {id : Uid} {msg : DepMsg n} {e : Event n} (he : e = ackEvent c id msg)
    {packet : Packet n} (hp : e.packet? = some packet) : packet = ⟨msg, none⟩ := by
  subst he
  rw [packet_ackEvent] at hp
  exact (Option.some.inj hp).symm

theorem said_open {id : Uid} {deps : DepSet n} {commands : List (Command n)} {e : Event n}
    (hmem : e ∈ openEvents c p id deps commands) {packet : Packet n}
    (hp : e.packet? = some packet) :
    Warranted c (hist ++ (openEvents c p id deps commands).map (Prod.mk p)) p packet := by
  have hcreated : Event.created id commands ∈ openEvents c p id deps commands :=
    List.mem_append_left _ List.mem_cons_self
  have hproposed : Event.proposed id deps ∈ openEvents c p id deps commands :=
    List.mem_append_left _ (List.mem_cons_of_mem _ List.mem_cons_self)
  rcases DepShard.mem_openEvents hmem with rfl | rfl | rfl | ⟨hs, hl, h⟩
  · cases hp
  · cases hp
  · cases hp
    trivial
  · rw [packet_ack h hp]
    refine ⟨?_, ⟨commands, mem_new _ _ hcreated⟩, ?_, fun _ => mem_new _ _ hproposed⟩
    · rw [hl]
      exact Cluster.isReplica_leader hs
    · rw [backed_of_swift (q := p) hs, ← hl]
      exact mem_new _ _ hproposed

theorem said_answer {src : Fin n} {id : Uid} {deps myDeps : DepSet n}
    {commands : List (Command n)} {i : Instance n} (hr : requesterOf n id = src)
    (hoffer : (src, Event.proposed id deps) ∈ hist) {e : Event n}
    (hmem : e ∈ .created id commands :: preAcceptEvents c p src id deps myDeps i)
    {packet : Packet n} (hp : e.packet? = some packet) :
    Warranted c (hist ++ (.created id commands ::
      preAcceptEvents c p src id deps myDeps i).map (Prod.mk p)) p packet := by
  rcases List.mem_cons.1 hmem with rfl | hmem'
  · cases hp
  have hproposed := mem_new hist p
    (List.mem_cons_of_mem (.created id commands) (DepShard.proposed_of_mem hmem'))
  obtain ⟨hv, h | ⟨hs, hl, h⟩ | ⟨acked, hacked, h⟩⟩ := DepShard.mem_preAcceptEvents hmem'
  · rw [h] at hp
    cases hp
  · rw [packet_ack h hp]
    refine ⟨Cluster.isReplica_of_inFastQuorum hv, ⟨commands, mem_new _ _ List.mem_cons_self⟩, ?_,
      fun _ => hproposed⟩
    rw [backed_of_swift (q := p) hs, hl]
    exact hproposed
  · have hpacket : packet = ⟨.preAcceptOk id acked, none⟩ := by
      rcases h with ⟨-, -, h⟩ | ⟨-, -, h⟩
      · exact packet_ack h hp
      · rw [h] at hp
        exact (Option.some.inj hp).symm
    rw [hpacket]
    refine ⟨Cluster.isReplica_of_inFastQuorum hv, _, hproposed, hacked.imp_right fun h => ⟨h.1, ?_⟩⟩
    rw [h.2, hr]
    exact List.mem_append_left _ hoffer

theorem said_accept {src : Fin n} {id : Uid} {i : Instance n} {commands : List (Command n)}
    (hc : (p, Event.created id commands) ∈ hist) {e : Event n}
    (hmem : e ∈ acceptEvents c p src id i) {packet : Packet n} (hp : e.packet? = some packet) :
    Warranted c (hist ++ (acceptEvents c p src id i).map (Prod.mk p)) p packet := by
  obtain ⟨hr, h⟩ := DepShard.mem_acceptEvents hmem
  have hpacket : packet = ⟨.acceptOk id, none⟩ := by
    rcases h with h | h
    · exact packet_ack h hp
    · rw [h] at hp
      exact (Option.some.inj hp).symm
  rw [hpacket]
  exact ⟨hr, commands, List.mem_append_left _ hc⟩

theorem said_move (hsc : Scene c (Created c) (Recorded c) hist p s)
    (hm : DepShard.Move c p (heardBy hist p) s s') (he : s'.sinks = s.sinks ++ events)
    {e : Event n} (hmem : e ∈ events) {packet : Packet n} (hp : e.packet? = some packet) :
    Warranted c (hist ++ events.map (Prod.mk p)) p packet := by
  have hnone : s'.sinks = s.sinks → False := by
    intro h
    rw [h] at he
    rw [List.self_eq_append_right.1 he] at hmem
    cases hmem
  have hone : ∀ {e' : Event n}, s'.sinks = s.sinks ++ [e'] → e = e' := by
    intro e' h
    rw [he] at h
    rw [List.append_cancel_left h] at hmem
    exact List.mem_singleton.1 hmem
  cases hm with
  | note hn =>
    rcases hn with rfl | ⟨_, rfl⟩ | ⟨_, _, rfl⟩ | ⟨_, _, rfl⟩ <;> cases hone rfl <;> cases hp
  | announce hc ha =>
    have hcommit := List.mem_append_left (events.map (Prod.mk p)) (hsc.logged _ hc)
    rcases ha with ⟨-, rfl⟩ | ⟨-, dest, rfl, -⟩ <;> cases hone rfl <;> cases hp <;> exact hcommit
  | forward _ _ _ =>
    cases hone rfl
    cases hp
    trivial
  | start commands _ _ _ =>
    rw [DepShard.openInstance_eq] at he
    have hev := List.append_cancel_left he
    rw [← hev] at hmem ⊢
    exact said_open hmem hp
  | @learn src id deps commands hh hid hsrc _ _ =>
    obtain ⟨hr, -, hoffer⟩ := heard_offer hsc hh
    rw [DepShard.learn_eq] at he
    have hev := List.append_cancel_left he
    rw [← hev] at hmem ⊢
    exact said_answer hr hoffer hmem hp
  | @accept src id deps i value hh hi =>
    rw [DepShard.answerAccept_eq] at he
    have hev := List.append_cancel_left he
    rw [← hev] at hmem ⊢
    obtain ⟨commands, hc, -⟩ := hsc.own.commands id i hi
    exact said_accept hc hmem hp
  | @slowPath id i hs hi hme hset hq hn =>
    cases hone rfl
    cases hp
    have hsrc := hsc.own.instances id i hi
    obtain ⟨commands, hc, -⟩ := hsc.own.commands id i hi
    have hr := home hsc hi hs
    rw [← hsrc.coordinator, hme] at hr
    refine ⟨hr, ⟨commands, List.mem_append_left _ hc⟩, (backed_union hsrc hs hq).mono _, ?_⟩
    intro hsw
    rw [hs] at hsw
    cases hsw
  | commit _ _ _ =>
    cases hone rfl
    cases hp
  | order _ =>
    cases hone rfl
    cases hp
  | execute hi _ _ =>
    rw [DepShard.execute, DepShard.withInstance_some hi] at hone
    cases hone rfl
    cases hp
  | serve =>
    have hev := List.append_cancel_left he
    rw [← hev] at hmem
    obtain ⟨entry, -, rfl⟩ := List.mem_map.1 hmem
    cases hp
  | ask command =>
    have hev := List.append_cancel_left (he.symm.trans (DepShard.askReplicas_sinks s command))
    rw [hev] at hmem
    simp only [List.mem_cons, List.not_mem_nil, or_false] at hmem
    rcases hmem with rfl | rfl
    · cases hp
    · cases hp
      trivial
  | drain =>
    cases hone rfl
    cases hp
  | vote _ _ _ _ _ | ack _ _ _ | leavePath _ _ | hold _ _ _ _ | release _ | sleep _ =>
    exact (hnone rfl).elim

-- The instances of a shard, with the commands they were created for.
def Good (c : Cluster n) (hist : List (Fin n × Event n)) (p : Fin n) (id : Uid) (i : Instance n) :
    Prop :=
  Sourced c hist id i ∧
    ∃ commands, (p, Event.created id commands) ∈ hist ∧ requests i.commands = requests commands

theorem good (h : Recorded c hist p s) {id : Uid} {i : Instance n}
    (hi : s.instances.get id = some i) : Good c hist p id i :=
  ⟨h.instances id i hi, h.commands id i hi⟩

theorem Good.mono {id : Uid} {i : Instance n} (h : Good c hist p id i)
    (more : List (Fin n × Event n)) : Good c (hist ++ more) p id i := by
  obtain ⟨hs, commands, hc, hr⟩ := h
  exact ⟨hs.mono more, commands, List.mem_append_left _ hc, hr⟩

omit [NeZero n] in
theorem requests_fillReport (report : Option CommitReport) (i : Instance n) :
    requests (DepShard.fillReport report i).commands = requests i.commands := by
  cases report with
  | none => rfl
  | some report =>
    simp only [DepShard.fillReport, requests, List.map_map]
    refine List.map_congr_left fun command _ => ?_
    simp only [Function.comp_apply]
    split <;> rfl

theorem sourced_leaderAccepted {id : Uid} {i : Instance n} {deps : DepSet n}
    (h : Sourced c hist id i) (hs : c.isSwift = true) (hl : c.leader p = p)
    (hd : (p, Event.proposed id deps) ∈ hist)
    (hc : ∃ commands, (p, Event.created id commands) ∈ hist) :
    Sourced c hist id (i.leaderAccepted p deps) := by
  have hr : c.isReplica p = true := by
    rw [← hl]
    exact Cluster.isReplica_leader hs
  refine ((h.recordPreaccept hr hd).accept ?_).ackAccept hr hc
  rw [backed_of_swift (q := p) hs, hl]
  exact hd

theorem sourced_opened {id : Uid} {deps : DepSet n} {commands : List (Command n)}
    (hp : requesterOf n id = p) (hd : (p, Event.proposed id deps) ∈ hist)
    (hc : (p, Event.created id commands) ∈ hist) :
    Sourced c hist id (Instance.opened c p deps commands) := by
  have hnew : Sourced c hist id (Instance.new p (c.leader p) commands deps) := by
    rw [← hp]
    exact .new commands deps
  have hvote : Sourced c hist id ((if c.inFastQuorum p then
      (Instance.new p (c.leader p) commands deps).recordPreaccept p deps
      else Instance.new p (c.leader p) commands deps).setCoordinatorDeps deps) := by
    refine Sourced.setCoordinatorDeps ?_ (hp.symm ▸ hd)
    split
    · rename_i hv
      exact hnew.recordPreaccept (Cluster.isReplica_of_inFastQuorum hv) hd
    · exact hnew
  unfold Instance.opened
  simp only []
  split
  · rename_i hl
    rw [Bool.and_eq_true, decide_eq_true_eq] at hl
    exact sourced_leaderAccepted hvote hl.1 hl.2.symm hd ⟨commands, hc⟩
  · exact hvote

omit [NeZero n] in
theorem commands_leaderAccepted (deps : DepSet n) (i : Instance n) :
    (i.leaderAccepted p deps).commands = i.commands := by
  simp [Instance.leaderAccepted]

omit [NeZero n] in
theorem commands_opened (deps : DepSet n) (commands : List (Command n)) :
    (Instance.opened c p deps commands).commands = commands := by
  unfold Instance.opened
  simp only []
  split <;> simp only [commands_leaderAccepted, Instance.commands_setCoordinatorDeps] <;> split <;>
    simp [Instance.new]

omit [NeZero n] in
theorem commands_preAccepted (src : Fin n) (deps myDeps : DepSet n) (i : Instance n) :
    (i.preAccepted c p src deps myDeps).commands = i.commands := by
  have hp : (i.proposedBy c src deps).commands = i.commands := by
    unfold Instance.proposedBy
    split <;> simp
  unfold Instance.preAccepted Instance.voted
  simp only []
  split
  · exact hp
  · split
    · split <;> simp [commands_leaderAccepted, hp]
    · exact hp

theorem sourced_preAccepted {src : Fin n} {id : Uid} {deps myDeps : DepSet n} {i : Instance n}
    (h : Sourced c hist id i) (hn : i.isSettled = false)
    (hsrc : requesterOf n id = src) (hoffer : (src, Event.proposed id deps) ∈ hist)
    (hvote : c.inFastQuorum p = true → (p, Event.proposed id myDeps) ∈ hist)
    (hc : ∃ commands, (p, Event.created id commands) ∈ hist) :
    Sourced c hist id (i.preAccepted c p src deps myDeps) := by
  have hset := h.setCoordinatorDeps (hsrc.symm ▸ hoffer)
  have hprop : Sourced c hist id (i.proposedBy c src deps) ∧
      (i.proposedBy c src deps).isSettled = false := by
    refine ⟨?_, (Instance.settled_proposedBy c src deps i).trans hn⟩
    unfold Instance.proposedBy
    split
    · rename_i hv
      exact hset.recordPreaccept (Cluster.isReplica_of_inFastQuorum hv) hoffer
    · exact hset
  have hdeps := hprop.1.propose hprop.2 myDeps
  unfold Instance.preAccepted
  simp only []
  split
  · exact hprop.1
  · split
    · rename_i hv
      have hrec := hdeps.recordPreaccept (Cluster.isReplica_of_inFastQuorum hv) (hvote hv)
      unfold Instance.voted
      split
      · rename_i hl
        exact sourced_leaderAccepted hrec hl.1 hl.2 (hvote hv) hc
      · exact hrec
    · exact hdeps

theorem sourced_acceptedFrom {src : Fin n} {id : Uid} {deps : DepSet n} {i : Instance n}
    (h : Sourced c hist id i) (hr : c.isReplica src = true)
    (hsrc : ∃ commands, (src, Event.created id commands) ∈ hist) (hb : Backed c hist id deps)
    (hs : c.isSwift = true → (src, Event.proposed id deps) ∈ hist)
    (hc : ∃ commands, (p, Event.created id commands) ∈ hist) :
    Sourced c hist id (i.acceptedFrom c p src deps) := by
  have hmark : Sourced c hist id (if c.isSwift then i else i.markLeftFastPath) := by
    split
    · exact h
    · exact h.leftFastPath true
  unfold Instance.acceptedFrom
  generalize (if c.isSwift then i else i.markLeftFastPath) = j at hmark ⊢
  simp only []
  split
  · exact hmark
  · have hacc := (hmark.accept hb).ackAccept hr hsrc
    have hvote : Sourced c hist id (if c.isSwift then
        ((j.accept deps).ackAccept src).recordPreaccept src deps
        else (j.accept deps).ackAccept src) := by
      split
      · rename_i hsw
        exact hacc.recordPreaccept hr (hs hsw)
      · exact hacc
    generalize (if c.isSwift then ((j.accept deps).ackAccept src).recordPreaccept src deps
      else (j.accept deps).ackAccept src) = k at hvote ⊢
    split
    · rename_i hme
      exact hvote.ackAccept hme hc
    · exact hvote

omit [NeZero n] in
theorem commands_acceptedFrom (src : Fin n) (deps : DepSet n) (i : Instance n) :
    (i.acceptedFrom c p src deps).commands = i.commands := by
  have hmark : (if c.isSwift then i else i.markLeftFastPath).commands = i.commands := by
    split <;> rfl
  unfold Instance.acceptedFrom
  generalize (if c.isSwift then i else i.markLeftFastPath) = j at hmark ⊢
  simp only []
  split
  · exact hmark
  · split <;> split <;> simp [hmark]

theorem good_put {id : Uid} {i j : Instance n} (hi : s.instances.get id = some i)
    (hold : ∀ v k, s.instances.get v = some k → Good c hist p v k) (hj : Good c hist p id j)
    (v : Uid) (k : Instance n) (hk : (s.put id j).instances.get v = some k) : Good c hist p v k := by
  rw [DepShard.get_put] at hk
  split at hk
  · rename_i hv
    rw [hv, hi] at hk
    cases hk
    exact hv ▸ hj
  · exact hold v k hk

theorem good_insert {t : InstanceTable n} {id : Uid} {j : Instance n}
    (hold : ∀ v k, t.get v = some k → Good c hist p v k) (hj : Good c hist p id j)
    (v : Uid) (k : Instance n) (hk : (t.insert id j).get v = some k) : Good c hist p v k := by
  rw [InstanceTable.get_insert] at hk
  split at hk
  · rename_i hv
    cases hk
    exact hv ▸ hj
  · exact hold v k hk

theorem good_move (hsc : Scene c (Created c) (Recorded c) hist p s)
    (hm : DepShard.Move c p (heardBy hist p) s s') (he : s'.sinks = s.sinks ++ events)
    (v : Uid) (k : Instance n) (hk : s'.instances.get v = some k) :
    Good c (hist ++ events.map (Prod.mk p)) p v k := by
  have hown : ∀ v k, s.instances.get v = some k → Good c hist p v k := fun v k hk =>
    hsc.own.good hk
  have hold : ∀ v k, s.instances.get v = some k → Good c (hist ++ events.map (Prod.mk p)) p v k :=
    fun v k hk => (hown v k hk).mono _
  have hput : ∀ {id : Uid} {i j : Instance n}, s.instances.get id = some i → Sourced c hist id j →
      requests j.commands = requests i.commands → (s.put id j).instances.get v = some k →
      Good c (hist ++ events.map (Prod.mk p)) p v k := by
    intro id i j hi hj hc hk
    obtain ⟨commands, hm, hr⟩ := (hown id i hi).2
    exact good_put hi hold (Good.mono ⟨hj, commands, hm, hc.trans hr⟩ _) v k hk
  cases hm with
  | note _ | announce _ _ | forward _ _ _ | order _ | serve | hold _ _ _ _ | release _ | drain =>
    exact hold v k hk
  | start commands _ _ _ =>
    rw [DepShard.openInstance_eq] at he hk
    have hev := List.append_cancel_left he
    rw [← hev] at hold ⊢
    have hcreated := mem_new hist p
      (List.mem_append_left _ List.mem_cons_self : Event.created s.nextUid commands ∈
        openEvents c p s.nextUid (s.depsFor c (keysOf commands)) commands)
    have hproposed := mem_new hist p
      (List.mem_append_left _ (List.mem_cons_of_mem _ List.mem_cons_self) :
        Event.proposed s.nextUid (s.depsFor c (keysOf commands)) ∈
          openEvents c p s.nextUid (s.depsFor c (keysOf commands)) commands)
    refine good_insert hold ⟨sourced_opened ?_ hproposed hcreated, commands, hcreated, ?_⟩ v k hk
    · rw [hsc.sane.nextUid, requesterOf_uidAt]
    · rw [commands_opened]
  | @learn src id deps commands hh hid hsrc _ _ =>
    obtain ⟨hr, -, hoffer⟩ := heard_offer hsc hh
    rw [DepShard.learn_eq] at he hk
    have hev := List.append_cancel_left he
    rw [← hev] at hold ⊢
    have hcreated := mem_new hist p
      (List.mem_cons_self : Event.created id commands ∈ Event.created id commands ::
        preAcceptEvents c p src id deps
          ((s.noteSeen c id (keysOf commands)).ownDeps c id deps (keysOf commands))
          ((Instance.fresh c id commands).proposedBy c src deps))
    refine good_insert hold ⟨sourced_preAccepted (Sourced.new commands _) rfl hr
      (List.mem_append_left _ hoffer) (fun hv => mem_new _ _ (List.mem_cons_of_mem _ ?_))
      ⟨commands, hcreated⟩, commands, hcreated, ?_⟩ v k hk
    · rw [preAcceptEvents, if_pos ⟨Instance.settled_proposedBy _ _ _ _, hv⟩]
      exact List.mem_cons_self
    · rw [commands_preAccepted]
      rfl
  | @vote src id acked deps i value hh hi ha hc hp =>
    obtain ⟨hr, d, hd, hor⟩ := heard hsc hh
    refine hput hi ((hown id i hi).1.recordPreaccept hr ?_) (by simp) hk
    rcases hor with rfl | ⟨rfl, hreq⟩
    · cases ha
      exact hd
    · have hco := (hown id i hi).1.coordinatorDeps deps ha
      obtain ⟨t, ht, -⟩ := hsc.all (requesterOf n id)
      rw [ht.proposal_once id deps d hco hreq]
      exact hd
  | @accept src id deps i value hh hi =>
    obtain ⟨hr, hsrc, hb, hs⟩ := heard hsc hh
    obtain ⟨commands, hc, -⟩ := (hown id i hi).2
    rw [DepShard.answerAccept_eq] at hk
    exact hput hi (sourced_acceptedFrom (hown id i hi).1 hr hsrc hb hs ⟨commands, hc⟩)
      (by rw [commands_acceptedFrom]) hk
  | @ack src id i value hh hi hc =>
    obtain ⟨hr, hsrc⟩ := heard hsc hh
    exact hput hi ((hown id i hi).1.ackAccept hr hsrc) rfl hk
  | @slowPath id i hs hi hme hset hq hn =>
    have hsrc := (hown id i hi).1
    obtain ⟨commands, hc, -⟩ := (hown id i hi).2
    have hr := home hsc hi hs
    rw [← hsrc.coordinator, hme] at hr
    exact hput hi (((hsrc.leftFastPath true).accept (backed_union hsrc hs hq)).ackAccept hr
      ⟨commands, hc⟩) rfl hk
  | leavePath left hi => exact hput hi ((hown _ _ hi).1.leftFastPath left) rfl hk
  | @commit id i deps hi hc hd =>
    exact hput hi (((hown id i hi).1.commit (decides hsc hi hd).1).fillReport _)
      (requests_fillReport _ _) hk
  | execute hi _ _ =>
    rw [DepShard.execute, DepShard.withInstance_some hi] at hk
    simp only [InstanceTable.get_remove] at hk
    split at hk
    · cases hk
    · exact hold v k hk
  | ask command =>
    unfold DepShard.askReplicas at hk
    split at hk <;> exact hold v k hk
  | sleep hn => simp at hk

theorem other {q : Fin n} {e : Event n} (hq : q ≠ p) (h : Recorded c hist p s) :
    Recorded c (hist ++ [(q, e)]) p s where
  said := fun packet hs => by
    obtain ⟨e', he', hp⟩ := hs
    exact warranted_mono (h.said packet ⟨e', mem_other hq he', hp⟩) _
  committed := fun id d hd =>
    ⟨(h.committed id d (mem_other hq hd)).1.mono _, (h.committed id d (mem_other hq hd)).2.mono _⟩
  instances := fun id i hi => (h.instances id i hi).mono _
  commands := fun id i hi => by
    obtain ⟨commands, hc, hr⟩ := h.commands id i hi
    exact ⟨commands, List.mem_append_left _ hc, hr⟩

theorem arrive {src : Fin n} {packet : Packet n} (h : Recorded c hist p s)
    (ha : DepShard.Arrives c p src s packet s') (he : s'.sinks = s.sinks ++ events) :
    Recorded c (hist ++ events.map (Prod.mk p)) p s' := by
  obtain ⟨sinks, reads, hs⟩ := ha.same
  have hi : s'.instances = s.instances := by rw [hs]
  refine ⟨fun packet' hp => ?_, fun id d hd => ?_, fun id i hg => ?_, fun id i hg => ?_⟩
  · rcases said_settle hp with hp | ⟨-, e, hmem, hpk⟩
    · exact warranted_mono (h.said packet' hp) _
    · rcases ha.logs he hmem with rfl | ⟨_, _, _, _, -, -, rfl⟩
      · cases hpk
      · cases hpk
        trivial
  · rcases mem_log hd with hd | ⟨-, hmem⟩
    · exact ⟨(h.committed id d hd).1.mono _, (h.committed id d hd).2.mono _⟩
    · rcases ha.logs he hmem with heq | ⟨_, _, _, _, -, -, heq⟩ <;> cases heq
  · rw [hi] at hg
    exact (h.instances id i hg).mono _
  · rw [hi] at hg
    obtain ⟨commands, hc, hr⟩ := h.commands id i hg
    exact ⟨commands, List.mem_append_left _ hc, hr⟩

theorem stable : Stable c (Created c) (Recorded c) where
  new := fun p => ⟨fun packet ⟨e, he, _⟩ => (nomatch he), fun id d hd => (nomatch hd),
    by simp [DepShard.new], by simp [DepShard.new]⟩
  clear := fun h => ⟨h.said, h.committed, h.instances, h.commands⟩
  other := fun hq h => h.other hq
  arrive := fun hsc _ _ _ ha he => hsc.own.arrive ha he
  move := fun {hist p s s' events} hsc hm he => by
    refine ⟨fun packet hp => ?_, fun id d hd => ?_, fun id i hi => (good_move hsc hm he id i hi).1,
      fun id i hi => (good_move hsc hm he id i hi).2⟩
    · rcases said_settle hp with hp | ⟨-, e, hmem, hpk⟩
      · exact warranted_mono (hsc.own.said packet hp) _
      · exact said_move hsc hm he hmem hpk
    · rcases mem_log hd with hd | ⟨-, hmem⟩
      · exact ⟨(hsc.own.committed id d hd).1.mono _, (hsc.own.committed id d hd).2.mono _⟩
      · obtain ⟨i, hi, -, hdec, -⟩ := hm.logs he hmem
        exact ⟨(decides hsc hi hdec).1.mono _, (decides hsc hi hdec).2.mono _⟩

theorem kept : Kept c fun hist p s => Created c hist p s ∧ Recorded c hist p s :=
  Created.kept.and stable

end Recorded

end KCensus.Deps

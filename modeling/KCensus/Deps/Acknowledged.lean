import KCensus.Deps.Ripeness

namespace KCensus.Deps

open Relation

variable {n : Nat} [NeZero n]

def Accepted (hist : List (Fin n × Event n)) (q : Fin n) (id : Uid) (deps : DepSet n) : Prop :=
  said hist q ⟨.accept id deps, none⟩ ∨
    said hist q ⟨.acceptOk id, none⟩ ∧ ∃ src, heardBy hist q src ⟨.accept id deps, none⟩

omit [NeZero n] in
theorem said_append {hist more : List (Fin n × Event n)} {src : Fin n} {packet : Packet n} :
    said (hist ++ more) src packet ↔ said hist src packet ∨ said more src packet := by
  constructor
  · rintro ⟨e, he, hp⟩
    exact (List.mem_append.1 he).imp (fun h => ⟨e, h, hp⟩) fun h => ⟨e, h, hp⟩
  · rintro (⟨e, he, hp⟩ | ⟨e, he, hp⟩)
    · exact ⟨e, List.mem_append_left _ he, hp⟩
    · exact ⟨e, List.mem_append_right _ he, hp⟩

omit [NeZero n] in
theorem said_events {events : List (Event n)} {p q : Fin n} {packet : Packet n} :
    said (events.map (Prod.mk p)) q packet ↔ q = p ∧ ∃ e ∈ events, e.packet? = some packet := by
  constructor
  · rintro ⟨e, he, hp⟩
    obtain ⟨e', he', heq⟩ := List.mem_map.1 he
    cases heq
    exact ⟨rfl, e, he', hp⟩
  · rintro ⟨rfl, e, he, hp⟩
    exact ⟨e, List.mem_map.2 ⟨e, he, rfl⟩, hp⟩

omit [NeZero n] in
theorem Accepted.mono {hist : List (Fin n × Event n)} {q : Fin n} {id : Uid} {deps : DepSet n}
    (h : Accepted hist q id deps) (more : List (Fin n × Event n)) :
    Accepted (hist ++ more) q id deps :=
  h.imp (fun h => said_append.2 (Or.inl h)) fun ⟨h, src, hh⟩ =>
    ⟨said_append.2 (Or.inl h), src, heardBy_mono hh⟩

namespace DepShard

variable {c : Cluster n} {me : Fin n} {heard : Fin n → Packet n → Prop} {s s' : DepShard n}
  {events : List (Event n)}

-- What a process that sends an Accept or an answer to one has just done.
def Answers (c : Cluster n) (me : Fin n) (heard : Fin n → Packet n → Prop) (s s' : DepShard n) :
    DepMsg n → Prop
  | .accept id deps => c.isSwift = true ∨
      ∃ i, s.instances.get id = some i ∧ i.coordinatorPid = me ∧ i.isSettled = false ∧
        deps = i.union ∧
        s'.instances.get id = some ((i.markLeftFastPath.accept i.union).ackAccept me)
  | .acceptOk id => ∃ src deps value, heard src ⟨.accept id deps, value⟩
  | _ => True

theorem Move.answers (hm : Move c me heard s s') (he : s'.sinks = s.sinks ++ events)
    {e : Event n} (hmem : e ∈ events) {packet : Packet n} (hp : e.packet? = some packet) :
    Answers c me heard s s' packet.msg := by
  have hnone : s'.sinks = s.sinks → False := by
    intro h
    rw [h] at he
    rw [List.self_eq_append_right.1 he] at hmem
    cases hmem
  have hone : ∀ {e' : Event n}, s'.sinks = s.sinks ++ [e'] → e = e' := by
    intro e' h
    rw [he] at h
    rw [List.append_cancel_left h] at hmem
    exact List.mem_singleton.1 hmem
  have hack : ∀ {id : Uid} {msg : DepMsg n}, e = ackEvent c id msg → packet = ⟨msg, none⟩ := by
    rintro id msg rfl
    rw [Recorded.packet_ackEvent] at hp
    exact (Option.some.inj hp).symm
  cases hm with
  | note hn =>
    rcases hn with rfl | ⟨_, rfl⟩ | ⟨_, _, rfl⟩ | ⟨_, _, rfl⟩ <;> cases hone rfl <;> cases hp
  | announce _ ha =>
    rcases ha with ⟨-, rfl⟩ | ⟨-, dest, rfl, -⟩ <;> cases hone rfl <;> cases hp <;> trivial
  | forward _ _ _ =>
    cases hone rfl
    cases hp
    trivial
  | start commands _ _ _ =>
    rw [openInstance_eq] at he
    rw [← List.append_cancel_left he] at hmem
    rcases mem_openEvents hmem with rfl | rfl | rfl | ⟨hs, -, h⟩
    · cases hp
    · cases hp
    · cases hp
      trivial
    · rw [hack h]
      exact Or.inl hs
  | learn _ _ _ _ _ =>
    rw [learn_eq] at he
    rw [← List.append_cancel_left he] at hmem
    rcases List.mem_cons.1 hmem with rfl | hmem
    · cases hp
    · obtain ⟨-, h | ⟨hs, -, h⟩ | ⟨acked, -, h⟩⟩ := mem_preAcceptEvents hmem
      · rw [h] at hp
        cases hp
      · rw [hack h]
        exact Or.inl hs
      · rcases h with ⟨-, -, h⟩ | ⟨-, -, h⟩
        · rw [hack h]
          trivial
        · rw [h] at hp
          cases hp
          trivial
  | accept hh _ =>
    rw [answerAccept_eq] at he
    rw [← List.append_cancel_left he] at hmem
    rcases (mem_acceptEvents hmem).2 with h | h
    · rw [hack h]
      exact ⟨_, _, _, hh⟩
    · rw [h] at hp
      cases hp
      exact ⟨_, _, _, hh⟩
  | slowPath _ hi hme hset _ _ =>
    cases hone rfl
    cases hp
    exact Or.inr ⟨_, hi, hme, hset, rfl, get_put_self hi _⟩
  | commit _ _ _ | order _ =>
    cases hone rfl
    cases hp
  | execute hi _ _ =>
    rw [DepShard.execute, withInstance_some hi] at hone
    cases hone rfl
    cases hp
  | serve =>
    rw [← List.append_cancel_left he] at hmem
    obtain ⟨entry, -, rfl⟩ := List.mem_map.1 hmem
    cases hp
  | ask command =>
    rw [List.append_cancel_left (he.symm.trans (askReplicas_sinks s command))] at hmem
    simp only [List.mem_cons, List.not_mem_nil, or_false] at hmem
    rcases hmem with rfl | rfl
    · cases hp
    · cases hp
      trivial
  | drain =>
    cases hone rfl
    cases hp
  | vote _ _ _ _ _ | ack _ _ _ | leavePath _ _ | hold _ _ _ _ | release _ | sleep _ =>
    exact (hnone rfl).elim

def Sends (events : List (Event n)) (msg : DepMsg n) : Prop :=
  ∃ e ∈ events, e.packet? = some ⟨msg, none⟩

-- How an acknowledgement comes to be counted for an instance.
inductive Acks (me : Fin n) (heard : Fin n → Packet n → Prop) (events : List (Event n)) (id : Uid) :
    Fin n → Prop where
  | sent {deps : DepSet n} : Sends events (.accept id deps) → Acks me heard events id me
  | answered {src : Fin n} {deps : DepSet n} {value : Option (List (Command n))} :
      heard src ⟨.accept id deps, value⟩ → Sends events (.acceptOk id) → Acks me heard events id me
  | offered {src : Fin n} {deps : DepSet n} {value : Option (List (Command n))} :
      heard src ⟨.accept id deps, value⟩ → Acks me heard events id src
  | told {src : Fin n} {value : Option (List (Command n))} :
      heard src ⟨.acceptOk id, value⟩ → Acks me heard events id src

theorem sends_ackEvent {id : Uid} {msg : DepMsg n} (h : ackEvent c id msg ∈ events) :
    Sends events msg := ⟨_, h, Recorded.packet_ackEvent id msg⟩

omit [NeZero n] in
theorem acked_recordPreaccept (i : Instance n) (src : Fin n) (deps : DepSet n) :
    (i.recordPreaccept src deps).acceptAcked = i.acceptAcked := by
  unfold Instance.recordPreaccept
  split <;> rfl

omit [NeZero n] in
theorem acked_opened {deps : DepSet n} {commands : List (Command n)} {q : Fin n}
    (hq : q ∈ (Instance.opened c me deps commands).acceptAcked) :
    q = me ∧ c.isSwift = true ∧ me = c.leader me := by
  have hvote : ((if c.inFastQuorum me then
      (Instance.new me (c.leader me) commands deps).recordPreaccept me deps
      else Instance.new me (c.leader me) commands deps).setCoordinatorDeps deps).acceptAcked = ∅ := by
    split
    · exact acked_recordPreaccept _ _ _
    · rfl
  unfold Instance.opened at hq
  simp only [] at hq
  split at hq
  · rename_i hl
    rw [Bool.and_eq_true, decide_eq_true_eq] at hl
    simp only [Instance.leaderAccepted, Instance.ackAccept, Instance.accept, acked_recordPreaccept,
      hvote, Finset.mem_insert, Finset.notMem_empty, or_false] at hq
    exact ⟨hq, hl⟩
  · rw [hvote] at hq
    cases hq

omit [NeZero n] in
theorem acked_preAccepted {src : Fin n} {deps myDeps : DepSet n} {i : Instance n} {q : Fin n}
    (hq : q ∈ (i.preAccepted c me src deps myDeps).acceptAcked) :
    q ∈ i.acceptAcked ∨ q = me ∧ c.isSwift = true ∧ c.leader me = me ∧
      (i.proposedBy c src deps).isSettled = false ∧ c.inFastQuorum me = true := by
  have hp : (i.proposedBy c src deps).acceptAcked = i.acceptAcked := by
    unfold Instance.proposedBy
    split
    · exact acked_recordPreaccept _ _ _
    · rfl
  unfold Instance.preAccepted at hq
  generalize i.proposedBy c src deps = j at hp hq ⊢
  simp only [] at hq
  split at hq
  · exact Or.inl (hp ▸ hq)
  · rename_i hset
    split at hq
    · rename_i hv
      unfold Instance.voted at hq
      split at hq
      · rename_i hl
        simp only [Instance.leaderAccepted, Instance.ackAccept, Instance.accept,
          acked_recordPreaccept, Finset.mem_insert] at hq
        rcases hq with rfl | hq
        · exact Or.inr ⟨rfl, hl.1, hl.2, Bool.not_eq_true _ ▸ hset, hv⟩
        · exact Or.inl (hp ▸ hq)
      · rw [acked_recordPreaccept] at hq
        exact Or.inl (hp ▸ hq)
    · exact Or.inl (hp ▸ hq)

omit [NeZero n] in
theorem acked_acceptedFrom {src : Fin n} {deps : DepSet n} {i : Instance n} {q : Fin n}
    (hq : q ∈ (i.acceptedFrom c me src deps).acceptAcked) :
    q ∈ i.acceptAcked ∨ q = src ∨ q = me ∧ i.isSettled = false ∧ c.isReplica me = true := by
  have hmark : (if c.isSwift then i else i.markLeftFastPath).acceptAcked = i.acceptAcked ∧
      (if c.isSwift then i else i.markLeftFastPath).isSettled = i.isSettled := by
    split <;> exact ⟨rfl, rfl⟩
  unfold Instance.acceptedFrom at hq
  generalize (if c.isSwift then i else i.markLeftFastPath) = j at hmark hq
  have hvote : (if c.isSwift then ((j.accept deps).ackAccept src).recordPreaccept src deps
      else (j.accept deps).ackAccept src).acceptAcked = insert src i.acceptAcked := by
    rw [← hmark.1]
    split
    · exact acked_recordPreaccept _ _ _
    · rfl
  simp only [] at hq
  split at hq
  · exact Or.inl (hmark.1 ▸ hq)
  · rename_i hset
    rw [hmark.2, Bool.not_eq_true] at hset
    split at hq
    · rename_i hr
      simp only [Instance.ackAccept, Finset.mem_insert] at hq
      rcases hq with rfl | hq
      · exact Or.inr (Or.inr ⟨rfl, hset, hr⟩)
      · change q ∈ (if c.isSwift then ((j.accept deps).ackAccept src).recordPreaccept src deps
          else (j.accept deps).ackAccept src).acceptAcked at hq
        rw [hvote, Finset.mem_insert] at hq
        exact hq.symm.imp_right Or.inl
    · rw [hvote, Finset.mem_insert] at hq
      exact hq.symm.imp_right Or.inl

theorem accept_mem_openEvents (hs : c.isSwift = true) (hl : me = c.leader me) (id : Uid)
    (deps : DepSet n) (commands : List (Command n)) :
    ackEvent c id (.accept id deps) ∈ openEvents c me id deps commands := by
  rw [openEvents, if_pos (by simp [hs, ← hl])]
  exact List.mem_append_right _ List.mem_cons_self

theorem accept_mem_preAcceptEvents {src : Fin n} {id : Uid} {deps myDeps : DepSet n}
    {i : Instance n} (hs : c.isSwift = true) (hl : c.leader me = me) (hset : i.isSettled = false)
    (hv : c.inFastQuorum me = true) :
    ackEvent c id (.accept id myDeps) ∈ preAcceptEvents c me src id deps myDeps i := by
  rw [preAcceptEvents, if_pos ⟨hset, hv⟩, voteEvents, if_pos hs, if_pos hl]
  exact List.mem_cons_of_mem _ List.mem_cons_self

theorem sends_acceptEvents {src : Fin n} {id : Uid} {i : Instance n} (hset : i.isSettled = false)
    (hr : c.isReplica me = true) (hsrc : src ≠ me) :
    Sends (acceptEvents c me src id i) (.acceptOk id) := by
  rw [acceptEvents, if_pos ⟨hset, hr⟩]
  split
  · exact sends_ackEvent List.mem_cons_self
  · rw [sendEvents, if_neg hsrc]
    exact ⟨_, List.mem_cons_self, rfl⟩

theorem Move.acks (hm : Move c me heard s s') (he : s'.sinks = s.sinks ++ events)
    (hsrc : ∀ packet, ¬ heard me packet) {id : Uid} {i' : Instance n} {q : Fin n}
    (hi : s'.instances.get id = some i') (hq : q ∈ i'.acceptAcked) :
    (∃ i, s.instances.get id = some i ∧ q ∈ i.acceptAcked) ∨ Acks me heard events id q := by
  have hput : ∀ {v : Uid} {j j' : Instance n}, s.instances.get v = some j →
      (s.put v j').instances.get id = some i' →
      (id = v → q ∈ j'.acceptAcked → q ∈ j.acceptAcked ∨ Acks me heard events id q) →
      (∃ i, s.instances.get id = some i ∧ q ∈ i.acceptAcked) ∨ Acks me heard events id q := by
    intro v j j' hj hk hg
    rw [get_put] at hk
    split at hk
    · rename_i hv
      rw [hv, hj] at hk
      cases hk
      exact (hg hv hq).imp_left fun h => ⟨j, hv ▸ hj, h⟩
    · exact Or.inl ⟨i', hk, hq⟩
  have hinsert : ∀ {v : Uid} {j : Instance n}, (s.instances.insert v j).get id = some i' →
      (id = v → q ∈ j.acceptAcked → Acks me heard events id q) →
      (∃ i, s.instances.get id = some i ∧ q ∈ i.acceptAcked) ∨ Acks me heard events id q := by
    intro v j hk hg
    rw [InstanceTable.get_insert] at hk
    split at hk
    · rename_i hv
      cases hk
      exact Or.inr (hg hv hq)
    · exact Or.inl ⟨i', hk, hq⟩
  cases hm with
  | note _ | announce _ _ | forward _ _ _ | order _ | serve | hold _ _ _ _ | release _ | drain =>
    exact Or.inl ⟨i', hi, hq⟩
  | start commands _ _ _ =>
    rw [openInstance_eq] at he hi
    refine hinsert hi fun hid hmem => ?_
    obtain ⟨rfl, hs, hl⟩ := acked_opened hmem
    rw [← List.append_cancel_left he, hid]
    exact .sent (sends_ackEvent (accept_mem_openEvents hs hl _ _ _))
  | @learn src v deps commands _ _ _ _ _ =>
    rw [learn_eq] at he hi
    refine hinsert hi fun hid hmem => ?_
    rcases acked_preAccepted hmem with hmem | ⟨rfl, hs, hl, hset, hv⟩
    · cases hmem
    · rw [← List.append_cancel_left he, hid]
      exact .sent (sends_ackEvent (List.mem_cons_of_mem _
        (accept_mem_preAcceptEvents hs hl hset hv)))
  | vote _ hj _ _ _ =>
    refine hput hj hi fun _ h => Or.inl ?_
    rwa [acked_recordPreaccept] at h
  | @accept src v deps j value hh hj =>
    rw [answerAccept_eq] at he hi
    refine hput hj hi fun hid hmem => ?_
    subst hid
    rcases acked_acceptedFrom hmem with h | rfl | ⟨rfl, hset, hr⟩
    · exact Or.inl h
    · exact Or.inr (.offered hh)
    · have hne : src ≠ q := fun hsq => hsrc _ (hsq ▸ hh)
      have hev := List.append_cancel_left he
      exact Or.inr (.answered hh (hev ▸ sends_acceptEvents hset hr hne))
  | @ack src v j value hh hj _ =>
    refine hput hj hi fun hid hmem => ?_
    rcases Finset.mem_insert.1 hmem with rfl | h
    · exact Or.inr (hid ▸ .told hh)
    · exact Or.inl h
  | @slowPath v j _ hj _ _ _ _ =>
    refine hput hj hi fun hid hmem => ?_
    rcases Finset.mem_insert.1 hmem with rfl | h
    · rw [← List.append_cancel_left he, hid]
      exact Or.inr (.sent ⟨_, List.mem_cons_self, rfl⟩)
    · exact Or.inl h
  | leavePath left hj => exact hput hj hi fun _ h => Or.inl h
  | @commit v j deps hj _ _ =>
    refine hput hj hi fun _ h => Or.inl ?_
    generalize commitReport me v deps j s = report at h
    cases report <;> exact h
  | @execute uid j hj _ _ =>
    rw [DepShard.execute, withInstance_some hj] at hi
    simp only [InstanceTable.get_remove] at hi
    split at hi
    · cases hi
    · exact Or.inl ⟨i', hi, hq⟩
  | ask command =>
    unfold askReplicas at hi
    split at hi <;> exact Or.inl ⟨i', hi, hq⟩
  | sleep _ => simp at hi

omit [NeZero n] in
theorem phase_recordPreaccept (i : Instance n) (src : Fin n) (deps : DepSet n) :
    (i.recordPreaccept src deps).phase = i.phase ∧ (i.recordPreaccept src deps).deps = i.deps := by
  unfold Instance.recordPreaccept
  split <;> exact ⟨rfl, rfl⟩

omit [NeZero n] in
theorem phase_proposedBy (src : Fin n) (deps : DepSet n) (i : Instance n) :
    (i.proposedBy c src deps).phase = i.phase := by
  unfold Instance.proposedBy
  split
  · exact (phase_recordPreaccept _ _ _).1
  · rfl

theorem Move.accepting (hm : Move c me heard s s') (he : s'.sinks = s.sinks ++ events)
    (hs : c.isSwift = false) {id : Uid} {i' : Instance n} (hi : s'.instances.get id = some i')
    (hp : i'.phase = .accepted) :
    (∃ i, s.instances.get id = some i ∧ i.phase = .accepted ∧ i.deps = i'.deps) ∨
      (∃ src deps value, heard src ⟨.accept id deps, value⟩) ∨ Sends events (.accept id i'.deps) := by
  have hput : ∀ {v : Uid} {j j' : Instance n}, s.instances.get v = some j →
      (s.put v j').instances.get id = some i' →
      (j'.phase = .accepted → j.phase = .accepted ∧ j.deps = j'.deps) →
      ∃ i, s.instances.get id = some i ∧ i.phase = .accepted ∧ i.deps = i'.deps := by
    intro v j j' hj hk hg
    rw [get_put] at hk
    split at hk
    · rename_i hv
      rw [hv, hj] at hk
      cases hk
      exact ⟨j, hv ▸ hj, hg hp⟩
    · exact ⟨i', hk, hp, rfl⟩
  have hinsert : ∀ {v : Uid} {j : Instance n}, (s.instances.insert v j).get id = some i' →
      j.phase = .preAccepted → s.instances.get id = some i' := by
    intro v j hk hj
    rw [InstanceTable.get_insert] at hk
    split at hk
    · cases hk
      cases hp.symm.trans hj
    · exact hk
  cases hm with
  | note _ | announce _ _ | forward _ _ _ | order _ | serve | hold _ _ _ _ | release _ | drain =>
    exact Or.inl ⟨i', hi, hp, rfl⟩
  | start commands _ _ _ =>
    rw [openInstance_eq] at hi
    refine Or.inl ⟨i', hinsert hi ?_, hp, rfl⟩
    unfold Instance.opened
    simp only [hs, Bool.false_and, Bool.false_eq_true, if_false]
    split
    · exact (phase_recordPreaccept _ _ _).1
    · rfl
  | @learn src v deps commands _ _ _ _ _ =>
    rw [learn_eq] at hi
    refine Or.inl ⟨i', hinsert hi ?_, hp, rfl⟩
    have hphase := phase_proposedBy (c := c) src deps (Instance.fresh c v commands)
    unfold Instance.preAccepted
    generalize (Instance.fresh c v commands).proposedBy c src deps = j at hphase
    simp only []
    split
    · exact hphase
    · split
      · unfold Instance.voted
        rw [if_neg (by simp [hs])]
        exact (phase_recordPreaccept _ _ _).1.trans hphase
      · exact hphase
  | @vote src v acked deps j value _ hj _ _ _ =>
    refine Or.inl (hput hj hi fun h => ?_)
    have hsame := phase_recordPreaccept j src deps
    exact ⟨hsame.1.symm.trans h, hsame.2.symm⟩
  | @accept src v deps j value hh hj =>
    rw [answerAccept_eq] at hi
    cases hv : decide (id = v) with
    | true =>
      rw [of_decide_eq_true hv]
      exact Or.inr (Or.inl ⟨src, deps, value, hh⟩)
    | false =>
      rw [emitAll, get_put, if_neg (of_decide_eq_false hv)] at hi
      exact Or.inl ⟨i', hi, hp, rfl⟩
  | ack _ hj _ | leavePath _ hj => exact Or.inl (hput hj hi fun h => ⟨h, rfl⟩)
  | @slowPath v j _ hj _ _ _ _ =>
    rw [broadcast, emit, get_put] at hi
    split at hi
    · rename_i hv
      rw [hv, hj] at hi
      cases hi
      refine Or.inr (Or.inr ?_)
      rw [← List.append_cancel_left he, hv]
      exact ⟨_, List.mem_cons_self, rfl⟩
    · exact Or.inl ⟨i', hi, hp, rfl⟩
  | @commit v j deps hj _ _ =>
    refine Or.inl (hput hj hi fun h => ?_)
    generalize commitReport me v deps j s = report at h
    cases report <;> cases h
  | @execute uid j hj _ _ =>
    rw [DepShard.execute, withInstance_some hj] at hi
    simp only [InstanceTable.get_remove] at hi
    split at hi
    · cases hi
    · exact Or.inl ⟨i', hi, hp, rfl⟩
  | ask command =>
    unfold askReplicas at hi
    split at hi <;> exact Or.inl ⟨i', hi, hp, rfl⟩
  | sleep _ => simp at hi

end DepShard

-- Every acknowledgement that was counted is one of an Accept its sender took.
structure Acknowledged (c : Cluster n) (hist : List (Fin n × Event n)) (p : Fin n)
    (s : DepShard n) : Prop where
  acked : ∀ id i q, s.instances.get id = some i → q ∈ i.acceptAcked → ∃ d, Accepted hist q id d
  answered : ∀ id, said hist p ⟨.acceptOk id, none⟩ →
    ∃ src d, heardBy hist p src ⟨.accept id d, none⟩
  home : c.isSwift = false → ∀ id d, said hist p ⟨.accept id d, none⟩ → requesterOf n id = p
  once : c.isSwift = false → ∀ id d d', said hist p ⟨.accept id d, none⟩ →
    said hist p ⟨.accept id d', none⟩ → d = d'
  past : c.isSwift = false → ∀ id d, said hist p ⟨.accept id d, none⟩ →
    s.executed.contains id ∨ ∃ i, s.instances.get id = some i ∧ i.isSettled = true
  settled : c.isSwift = false → ∀ id i, s.instances.get id = some i → requesterOf n id = p →
    i.phase = .accepted → said hist p ⟨.accept id i.deps, none⟩

namespace Acknowledged

open DepShard

variable {c : Cluster n} {hist : List (Fin n × Event n)} {p q : Fin n} {s s' : DepShard n}
  {events : List (Event n)} {id : Uid} {deps deps' : DepSet n}

omit [NeZero n] in
theorem said_new {msg : DepMsg n} (h : Sends events msg) :
    said (hist ++ events.map (Prod.mk p)) p ⟨msg, none⟩ := by
  obtain ⟨e, he, hp⟩ := h
  exact said_append.2 (Or.inr (said_events.2 ⟨rfl, e, he, hp⟩))

omit [NeZero n] in
theorem said_or {packet : Packet n} (h : said (hist ++ events.map (Prod.mk p)) q packet) :
    said hist q packet ∨ q = p ∧ ∃ e ∈ events, e.packet? = some packet :=
  (said_append.1 h).imp_right said_events.1

theorem bare {src : Fin n} {value : Option (List (Command n))} (hf : Faithful c hist)
    (h : heardBy hist p src ⟨.accept id deps, value⟩) :
    heardBy hist p src ⟨.accept id deps, none⟩ := by
  have hv := hf.packet (hf.arrived p src _ h).2.said
  rw [show value = none from hv.1] at h
  exact h

theorem other {e : Event n} (hq : q ≠ p) (h : Acknowledged c hist p s) :
    Acknowledged c (hist ++ [(q, e)]) p s := by
  have hold : ∀ {packet : Packet n}, said (hist ++ [(q, e)]) p packet → said hist p packet := by
    rintro packet ⟨e', he, hp⟩
    exact ⟨e', mem_other hq he, hp⟩
  refine ⟨fun id i r hi hr => ?_, fun id ho => ?_, fun hs id d hd => h.home hs id d (hold hd),
    fun hs id d d' hd hd' => h.once hs id d d' (hold hd) (hold hd'),
    fun hs id d hd => h.past hs id d (hold hd),
    fun hs id i hi hr hp => said_mono (h.settled hs id i hi hr hp)⟩
  · obtain ⟨d, hd⟩ := h.acked id i r hi hr
    exact ⟨d, hd.mono _⟩
  · obtain ⟨src, d, hd⟩ := h.answered id (hold ho)
    exact ⟨src, d, heardBy_mono hd⟩

theorem arrive (h : Acknowledged c hist p s) {src : Fin n} {packet : Packet n} {s₁ : DepShard n}
    (ha : Arrives c p src s packet s₁) (he : s₁.sinks = s.sinks ++ events) :
    Acknowledged c (hist ++ events.map (Prod.mk p)) p s₁ := by
  have hold : ∀ {msg : DepMsg n}, said (hist ++ events.map (Prod.mk p)) p ⟨msg, none⟩ →
      (∀ id seen, msg ≠ .readResponse id seen) → said hist p ⟨msg, none⟩ := by
    intro msg hs hn
    rcases said_or hs with hs | ⟨-, e, hmem, hp⟩
    · exact hs
    · rcases ha.logs he hmem with rfl | ⟨_, _, _, _, -, -, rfl⟩
      · cases hp
      · cases hp
        exact absurd rfl (hn _ _)
  obtain ⟨sinks, reads, hsame⟩ := ha.same
  have hi : s₁.instances = s.instances := by rw [hsame]
  have hx : s₁.executed = s.executed := by rw [hsame]
  refine ⟨fun id i r hg hr => ?_, fun id ho => ?_, fun hs id d hd => h.home hs id d (hold hd (by simp)),
    fun hs id d d' hd hd' => h.once hs id d d' (hold hd (by simp)) (hold hd' (by simp)),
    fun hs id d hd => ?_, fun hs id i hg hr hp => said_mono (h.settled hs id i (hi ▸ hg) hr hp)⟩
  · obtain ⟨d, hd⟩ := h.acked id i r (hi ▸ hg) hr
    exact ⟨d, hd.mono _⟩
  · obtain ⟨src, d, hd⟩ := h.answered id (hold ho (by simp))
    exact ⟨src, d, heardBy_mono hd⟩
  · rw [hx, hi]
    exact h.past hs id d (hold hd (by simp))

theorem accepted_of_acks (hsc : Scene c (Settled c) (Acknowledged c) hist p s)
    (h : Acks p (heardBy hist p) events id q) :
    ∃ d, Accepted (hist ++ events.map (Prod.mk p)) q id d := by
  cases h with
  | @sent deps hs => exact ⟨deps, Or.inl (said_new hs)⟩
  | @answered src deps value hh hs =>
    exact ⟨deps, Or.inr ⟨said_new hs, src, heardBy_mono (bare hsc.faithful hh)⟩⟩
  | @offered src deps value hh =>
    exact ⟨deps, Or.inl (said_mono (hsc.faithful.arrived p q _ (bare hsc.faithful hh)).2.said)⟩
  | @told src value hh =>
    obtain ⟨-, hto⟩ := hsc.faithful.arrived p q _ hh
    have hv := hsc.faithful.packet hto.said
    obtain ⟨t, -, ht⟩ := hsc.all q
    have hsaid : said hist q ⟨.acceptOk id, none⟩ := by
      rw [← show value = none from hv]
      exact hto.said
    obtain ⟨src, d, hd⟩ := ht.answered id hsaid
    exact ⟨d, Accepted.mono (Or.inr ⟨hsaid, src, hd⟩) _⟩

theorem opens (hsc : Scene c (Settled c) (Acknowledged c) hist p s)
    (hm : Move c p (heardBy hist p) s s') (he : s'.sinks = s.sinks ++ events)
    (hs : c.isSwift = false) {e : Event n} (hmem : e ∈ events)
    (hp : e.packet? = some ⟨.accept id deps, none⟩) :
    requesterOf n id = p ∧ (∃ i, s.instances.get id = some i ∧ i.isSettled = false) ∧
      ∃ i', s'.instances.get id = some i' ∧ i'.isSettled = true ∧ i'.deps = deps := by
  rcases hm.answers he hmem hp with hsw | ⟨i, hi, hco, hset, rfl, hi'⟩
  · exact nomatch hs.symm.trans hsw
  · exact ⟨(hsc.known.1.2.instances id i hi).coordinator ▸ hco, ⟨i, hi, hset⟩, _, hi', rfl, rfl⟩

theorem move (hsc : Scene c (Settled c) (Acknowledged c) hist p s)
    (hm : Move c p (heardBy hist p) s s') (he : s'.sinks = s.sinks ++ events) :
    Acknowledged c (hist ++ events.map (Prod.mk p)) p s' := by
  have h := hsc.own
  have hsaid : ∀ {msg : DepMsg n}, said (hist ++ events.map (Prod.mk p)) p ⟨msg, none⟩ →
      said hist p ⟨msg, none⟩ ∨ Sends events msg := fun hs =>
    (said_or hs).imp_right And.right
  have hpast : c.isSwift = false → ∀ {id d}, said hist p ⟨.accept id d, none⟩ →
      ¬ ∃ i, s.instances.get id = some i ∧ i.isSettled = false := by
    rintro hs id d hd ⟨i, hi, hset⟩
    rcases h.past hs id d hd with hx | ⟨j, hj, hjs⟩
    · exact hsc.sane.live id i hi hx
    · cases Option.some.inj (hi.symm.trans hj)
      exact nomatch hset.symm.trans hjs
  refine ⟨fun id i q hi hq => ?_, fun id ho => ?_, fun hs id d hd => ?_, fun hs id d d' hd hd' => ?_,
    fun hs id d hd => ?_, fun hs id i' hi' hr hp => ?_⟩
  · have hself : ∀ packet, ¬ heardBy hist p p packet := fun packet hh =>
      (hsc.faithful.arrived p p packet hh).1 rfl
    rcases hm.acks he hself hi hq with ⟨j, hj, hjq⟩ | hacks
    · obtain ⟨d, hd⟩ := h.acked id j q hj hjq
      exact ⟨d, hd.mono _⟩
    · exact accepted_of_acks hsc hacks
  · rcases hsaid ho with ho | ⟨e, hmem, hp⟩
    · obtain ⟨src, d, hd⟩ := h.answered id ho
      exact ⟨src, d, heardBy_mono hd⟩
    · obtain ⟨src, d, value, hh⟩ := hm.answers he hmem hp
      exact ⟨src, d, heardBy_mono (bare hsc.faithful hh)⟩
  · rcases hsaid hd with hd | ⟨e, hmem, hp⟩
    · exact h.home hs id d hd
    · exact (opens hsc hm he hs hmem hp).1
  · rcases hsaid hd with hd | ⟨e, hmem, hp⟩ <;> rcases hsaid hd' with hd' | ⟨e', hmem', hp'⟩
    · exact h.once hs id d d' hd hd'
    · exact absurd (opens hsc hm he hs hmem' hp').2.1 (hpast hs hd)
    · exact absurd (opens hsc hm he hs hmem hp).2.1 (hpast hs hd')
    · obtain ⟨-, -, i, hi, -, rfl⟩ := opens hsc hm he hs hmem hp
      obtain ⟨-, -, j, hj, -, rfl⟩ := opens hsc hm he hs hmem' hp'
      rw [Option.some.inj (hi.symm.trans hj)]
  · rcases hsaid hd with hd | ⟨e, hmem, hp⟩
    · rcases h.past hs id d hd with hx | ⟨i, hi, hset⟩
      · exact Or.inl (hm.executed_mono hx)
      · rcases hm.grown hi with ⟨i', hi', hg⟩ | ⟨-, rfl⟩
        · exact Or.inr ⟨i', hi', hg.settled hset⟩
        · exact Or.inl ((ran_execute hi).executed id |>.2 (Or.inr List.mem_cons_self))
    · obtain ⟨-, -, i, hi, hset, -⟩ := opens hsc hm he hs hmem hp
      exact Or.inr ⟨i, hi, hset⟩
  · rcases hm.accepting he hs hi' hp with ⟨i, hi, hphase, hdeps⟩ | ⟨src, d, value, hh⟩ | hsends
    · rw [← hdeps]
      exact said_mono (h.settled hs id i hi hr hphase)
    · obtain ⟨hne, hto⟩ := hsc.faithful.arrived p src _ (bare hsc.faithful hh)
      obtain ⟨t, -, ht⟩ := hsc.all src
      exact absurd ((ht.home hs id d hto.said).symm.trans hr) hne
    · exact said_new hsends

theorem stable : Stable c (Settled c) (Acknowledged c) where
  new := fun p => ⟨by simp [DepShard.new], by simp [said], by simp [said], by simp [said],
    by simp [said], by simp [DepShard.new]⟩
  clear := fun h => ⟨h.acked, h.answered, h.home, h.once, h.past, h.settled⟩
  other := fun hq h => h.other hq
  arrive := fun hsc _ _ _ ha he => hsc.own.arrive ha he
  move := move

theorem kept : Kept c fun hist p s => Settled c hist p s ∧ Acknowledged c hist p s :=
  Decided.kept.and stable

end Acknowledged

end KCensus.Deps

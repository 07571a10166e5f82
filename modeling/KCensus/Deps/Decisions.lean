import KCensus.Deps.Sources

namespace KCensus.Deps

variable {n : Nat} [NeZero n]

-- What later moves never take back from an instance.
structure Instance.Grown (i i' : Instance n) : Prop where
  coordinator : i'.coordinatorPid = i.coordinatorPid
  settled : i.isSettled = true → i'.isSettled = true
  committed : i.isCommitted = true → i'.isCommitted = true ∧ i'.deps = i.deps
  votes : ∀ q, i.hasPreaccept q = true → i'.hasPreaccept q = true
  acks : i.acceptAcked ⊆ i'.acceptAcked
  offer : ∀ d, i.coordinatorDeps = some d → i'.coordinatorDeps = some d

namespace Instance.Grown

variable {i i' i'' : Instance n}

omit [NeZero n] in
theorem refl (i : Instance n) : i.Grown i :=
  ⟨rfl, id, fun h => ⟨h, rfl⟩, fun _ => id, subset_rfl, fun _ => id⟩

omit [NeZero n] in
theorem trans (h : i.Grown i') (h' : i'.Grown i'') : i.Grown i'' where
  coordinator := h'.coordinator.trans h.coordinator
  settled := h'.settled ∘ h.settled
  committed := fun hc =>
    ⟨(h'.committed (h.committed hc).1).1, (h'.committed (h.committed hc).1).2.trans (h.committed hc).2⟩
  votes := fun q hq => h'.votes q (h.votes q hq)
  acks := h.acks.trans h'.acks
  offer := fun d hd => h'.offer d (h.offer d hd)

omit [NeZero n] in
theorem recordPreaccept (i : Instance n) (src : Fin n) (deps : DepSet n) :
    i.Grown (i.recordPreaccept src deps) := by
  unfold Instance.recordPreaccept
  split
  · exact refl i
  · refine ⟨rfl, id, fun h => ⟨h, rfl⟩, fun q hq => ?_, subset_rfl, fun _ => id⟩
    simp only [hasPreaccept] at hq ⊢
    split
    · rfl
    · exact hq

omit [NeZero n] in
theorem ackAccept (i : Instance n) (src : Fin n) : i.Grown (i.ackAccept src) :=
  ⟨rfl, id, fun h => ⟨h, rfl⟩, fun _ => id, Finset.subset_insert _ _, fun _ => id⟩

omit [NeZero n] in
theorem leftFastPath (i : Instance n) (left : Bool) : i.Grown { i with leftFastPath := left } :=
  ⟨rfl, id, fun h => ⟨h, rfl⟩, fun _ => id, subset_rfl, fun _ => id⟩

omit [NeZero n] in
theorem accept {i : Instance n} (hs : i.isCommitted = false) (deps : DepSet n) :
    i.Grown (i.accept deps) :=
  ⟨rfl, fun _ => rfl, fun h => absurd (hs.symm.trans h) (by simp), fun _ => id, subset_rfl,
    fun _ => id⟩

omit [NeZero n] in
theorem commit {i : Instance n} (hs : i.isCommitted = false) (deps : DepSet n) :
    i.Grown (i.commit deps) :=
  ⟨rfl, fun _ => rfl, fun h => absurd (hs.symm.trans h) (by simp), fun _ => id, subset_rfl,
    fun _ => id⟩

omit [NeZero n] in
theorem fillReport (report : Option CommitReport) (i : Instance n) :
    i.Grown (DepShard.fillReport report i) := by
  cases report
  · exact refl i
  · exact ⟨rfl, id, fun h => ⟨h, rfl⟩, fun _ => id, subset_rfl, fun _ => id⟩

end Instance.Grown

omit [NeZero n] in
theorem Instance.committed_of_settled_false {i : Instance n} (h : i.isSettled = false) :
    i.isCommitted = false := by
  simp only [Instance.isSettled, decide_eq_false_iff_not, not_not] at h
  simp [Instance.isCommitted, h]

omit [NeZero n] in
theorem Instance.isSettled_of_isCommitted {i : Instance n} (h : i.isCommitted = true) :
    i.isSettled = true := by
  cases hs : i.isSettled with
  | true => rfl
  | false =>
    rw [Instance.committed_of_settled_false hs] at h
    cases h

omit [NeZero n] in
theorem Instance.grown_acceptedFrom (c : Cluster n) (me src : Fin n) (deps : DepSet n)
    (i : Instance n) : i.Grown (i.acceptedFrom c me src deps) := by
  have hmark : i.Grown (if c.isSwift then i else i.markLeftFastPath) := by
    split
    · exact .refl i
    · exact .leftFastPath i true
  unfold Instance.acceptedFrom
  generalize (if c.isSwift then i else i.markLeftFastPath) = j at hmark ⊢
  simp only []
  split
  · exact hmark
  · rename_i hset
    have hc := Instance.committed_of_settled_false (Bool.not_eq_true _ ▸ hset)
    have hacc := (hmark.trans (.accept hc deps)).trans (.ackAccept _ src)
    have hvote : i.Grown (if c.isSwift then
        ((j.accept deps).ackAccept src).recordPreaccept src deps
        else (j.accept deps).ackAccept src) := by
      split
      · exact hacc.trans (.recordPreaccept _ _ _)
      · exact hacc
    generalize (if c.isSwift then ((j.accept deps).ackAccept src).recordPreaccept src deps
      else (j.accept deps).ackAccept src) = k at hvote ⊢
    split
    · exact hvote.trans (.ackAccept _ _)
    · exact hvote

namespace DepShard

variable {c : Cluster n} {me : Fin n} {heard : Fin n → Packet n → Prop} {s s' : DepShard n}

theorem Move.grown (hm : Move c me heard s s') {id : Uid} {i : Instance n}
    (hi : s.instances.get id = some i) :
    (∃ i', s'.instances.get id = some i' ∧ i.Grown i') ∨
      (i.isCommitted = true ∧ s' = s.execute id) := by
  have hkeep : s'.instances = s.instances →
      ∃ i', s'.instances.get id = some i' ∧ i.Grown i' := by
    intro h
    rw [h]
    exact ⟨i, hi, .refl i⟩
  have hput : ∀ {v : Uid} {j j' : Instance n}, s.instances.get v = some j → j.Grown j' →
      ∃ i', (s.put v j').instances.get id = some i' ∧ i.Grown i' := by
    intro v j j' hj hg
    rw [get_put]
    split
    · rename_i hv
      rw [← hv, hi] at hj
      rw [hi]
      cases hj
      exact ⟨j', rfl, hg⟩
    · exact ⟨i, hi, .refl i⟩
  have hinsert : ∀ {v : Uid} {j : Instance n}, s.instances.get v = none →
      ∃ i', (s.instances.insert v j).get id = some i' ∧ i.Grown i' := by
    intro v j hv
    rw [InstanceTable.get_insert]
    split
    · rename_i heq
      rw [← heq, hi] at hv
      cases hv
    · exact ⟨i, hi, .refl i⟩
  cases hm with
  | note _ | announce _ _ | forward _ _ _ | order _ | serve | hold _ _ _ _ | release _ | drain =>
    exact Or.inl (hkeep rfl)
  | start commands _ hn _ =>
    rw [openInstance_eq]
    exact Or.inl (hinsert hn)
  | learn _ _ _ hn _ =>
    rw [learn_eq]
    exact Or.inl (hinsert hn)
  | vote _ hj _ _ _ => exact Or.inl (hput hj (.recordPreaccept _ _ _))
  | accept _ hj =>
    rw [answerAccept_eq]
    exact Or.inl (hput hj (Instance.grown_acceptedFrom _ _ _ _ _))
  | ack _ hj _ => exact Or.inl (hput hj (.ackAccept _ _))
  | @slowPath v j _ hj _ hset _ _ =>
    have hc : j.markLeftFastPath.isCommitted = false := Instance.committed_of_settled_false hset
    have hleft : j.Grown j.markLeftFastPath := .leftFastPath j true
    exact Or.inl (hput hj ((hleft.trans (.accept hc _)).trans (.ackAccept _ _)))
  | leavePath left hj => exact Or.inl (hput hj (.leftFastPath _ left))
  | commit hj hc _ => exact Or.inl (hput hj ((Instance.Grown.commit hc _).trans (.fillReport _ _)))
  | @execute uid j hj hc _ =>
    by_cases huid : id = uid
    · subst huid
      rw [hi] at hj
      cases hj
      exact Or.inr ⟨hc, rfl⟩
    · refine Or.inl ⟨i, ?_, .refl i⟩
      rw [DepShard.execute, withInstance_some hj]
      simp only [InstanceTable.get_remove, if_neg huid]
      exact hi
  | ask command =>
    refine Or.inl (hkeep ?_)
    unfold askReplicas
    split <;> rfl
  | sleep hn =>
    rw [hn id] at hi
    cases hi

theorem Move.born (hm : Move c me heard s s') {id : Uid} {i' : Instance n}
    (hn : s.instances.get id = none) (hi : s'.instances.get id = some i') :
    (∃ commands, s' = s.openInstance c me s.nextUid commands ∧ id = s.nextUid ∧
        i' = Instance.opened c me (s.depsFor c (keysOf commands)) commands) ∨
      ∃ src deps commands, heard src ⟨.preAccept id deps, some commands⟩ ∧
        i' = (Instance.fresh c id commands).preAccepted c me src deps
          ((s.noteSeen c id (keysOf commands)).ownDeps c id deps (keysOf commands)) := by
  have hput : ∀ {v : Uid} {j : Instance n}, ¬ (s.put v j).instances.get id = some i' := by
    intro v j h
    rw [get_put, hn] at h
    split at h <;> cases h
  cases hm with
  | note _ | announce _ _ | forward _ _ _ | order _ | serve | hold _ _ _ _ | release _ | drain =>
    exact nomatch hn.symm.trans hi
  | start commands _ _ _ =>
    refine Or.inl ⟨commands, rfl, ?_⟩
    rw [openInstance_eq, InstanceTable.get_insert] at hi
    split at hi
    · rename_i hid
      exact ⟨hid, (Option.some.inj hi).symm⟩
    · exact nomatch hn.symm.trans hi
  | @learn src v deps commands hh _ _ _ _ =>
    rw [learn_eq, InstanceTable.get_insert] at hi
    split at hi
    · rename_i hid
      subst hid
      exact Or.inr ⟨src, deps, commands, hh, (Option.some.inj hi).symm⟩
    · exact nomatch hn.symm.trans hi
  | vote _ _ _ _ _ | ack _ _ _ | slowPath _ _ _ _ _ _ | leavePath _ _ | commit _ _ _ =>
    exact absurd hi hput
  | accept _ _ =>
    rw [answerAccept_eq] at hi
    exact absurd hi hput
  | execute hj _ _ =>
    rw [DepShard.execute, withInstance_some hj] at hi
    simp only [InstanceTable.get_remove] at hi
    split at hi
    · cases hi
    · exact nomatch hn.symm.trans hi
  | ask command =>
    unfold askReplicas at hi
    split at hi <;> exact nomatch hn.symm.trans hi
  | sleep _ => simp at hi

omit [NeZero n] in
theorem committed_opened (deps : DepSet n) (commands : List (Command n)) :
    (Instance.opened c me deps commands).isCommitted = false := by
  unfold Instance.opened
  simp only []
  split
  · rfl
  · refine Instance.committed_of_settled_false ?_
    split
    · rw [show ∀ i : Instance n, (i.setCoordinatorDeps deps).isSettled = i.isSettled from fun _ => rfl,
        Instance.settled_recordPreaccept]
      rfl
    · rfl

omit [NeZero n] in
theorem committed_preAccepted (src : Fin n) (deps myDeps : DepSet n) {i : Instance n}
    (hs : i.isSettled = false) : (i.preAccepted c me src deps myDeps).isCommitted = false := by
  have hp := (Instance.settled_proposedBy c src deps i).trans hs
  unfold Instance.preAccepted
  generalize i.proposedBy c src deps = j at hp
  simp only [hp, Bool.false_eq_true, if_false]
  split
  · unfold Instance.voted
    split
    · rfl
    · refine Instance.committed_of_settled_false ?_
      rw [Instance.settled_recordPreaccept]
      exact hp
  · exact Instance.committed_of_settled_false hp

omit [NeZero n] in
theorem committed_acceptedFrom (src : Fin n) (deps : DepSet n) (i : Instance n)
    (h : (i.acceptedFrom c me src deps).isCommitted = true) :
    i.isCommitted = true ∧ (i.acceptedFrom c me src deps).deps = i.deps := by
  have hmark : (if c.isSwift then i else i.markLeftFastPath).isCommitted = i.isCommitted ∧
      (if c.isSwift then i else i.markLeftFastPath).deps = i.deps := by
    split <;> exact ⟨rfl, rfl⟩
  unfold Instance.acceptedFrom at h ⊢
  generalize (if c.isSwift then i else i.markLeftFastPath) = j at hmark h ⊢
  simp only [] at h ⊢
  split at h
  · rename_i hset
    rw [if_pos hset]
    exact ⟨hmark.1 ▸ h, hmark.2⟩
  · have hrec : ∀ k : Instance n, (k.recordPreaccept src deps).isCommitted = k.isCommitted := by
      intro k
      unfold Instance.recordPreaccept
      split <;> rfl
    have hk : (if c.isSwift then ((j.accept deps).ackAccept src).recordPreaccept src deps
        else (j.accept deps).ackAccept src).isCommitted = false := by
      split
      · rw [hrec]
        rfl
      · rfl
    generalize (if c.isSwift then ((j.accept deps).ackAccept src).recordPreaccept src deps
      else (j.accept deps).ackAccept src) = k at hk h
    split at h <;> exact absurd (hk.symm.trans h) (by simp)

theorem Move.committed_new (hm : Move c me heard s s') {events : List (Event n)}
    (he : s'.sinks = s.sinks ++ events) {id : Uid} {i' : Instance n}
    (hi : s'.instances.get id = some i') (hc : i'.isCommitted = true) :
    (∃ i, s.instances.get id = some i ∧ i.isCommitted = true ∧ i'.deps = i.deps) ∨
      Event.committed id i'.deps ∈ events := by
  have hput : ∀ {v : Uid} {j j' : Instance n}, s.instances.get v = some j →
      (s.put v j').instances.get id = some i' →
      (j'.isCommitted = true → j.isCommitted = true ∧ j'.deps = j.deps) →
      ∃ i, s.instances.get id = some i ∧ i.isCommitted = true ∧ i'.deps = i.deps := by
    intro v j j' hj hk hg
    rw [get_put] at hk
    split at hk
    · rename_i hv
      rw [hv, hj] at hk
      cases hk
      exact ⟨j, hv ▸ hj, hg hc⟩
    · exact ⟨i', hk, hc, rfl⟩
  have hinsert : ∀ {v : Uid} {j : Instance n}, j.isCommitted = false →
      (s.instances.insert v j).get id = some i' → s.instances.get id = some i' := by
    intro v j hj hk
    rw [InstanceTable.get_insert] at hk
    split at hk
    · cases hk
      rw [hj] at hc
      cases hc
    · exact hk
  cases hm with
  | note _ | announce _ _ | forward _ _ _ | order _ | serve | hold _ _ _ _ | release _ | drain =>
    exact Or.inl ⟨i', hi, hc, rfl⟩
  | start commands _ _ _ =>
    rw [openInstance_eq] at hi
    exact Or.inl ⟨i', hinsert (committed_opened _ _) hi, hc, rfl⟩
  | learn _ _ _ _ _ =>
    rw [learn_eq] at hi
    exact Or.inl ⟨i', hinsert (committed_preAccepted _ _ _ rfl) hi, hc, rfl⟩
  | vote _ hj _ hf _ =>
    refine Or.inl (hput hj hi fun h => ?_)
    unfold Instance.recordPreaccept at h
    split at h <;> exact absurd (hf.symm.trans h) (by simp)
  | accept _ hj =>
    rw [answerAccept_eq] at hi
    exact Or.inl (hput hj hi (committed_acceptedFrom _ _ _))
  | ack _ hj hf => exact Or.inl (hput hj hi fun h => absurd (hf.symm.trans h) (by simp))
  | slowPath _ hj _ _ _ _ => exact Or.inl (hput hj hi fun h => nomatch h)
  | leavePath left hj => exact Or.inl (hput hj hi fun h => ⟨h, rfl⟩)
  | @commit v j deps hj hf _ =>
    simp only [emit, get_put] at hi
    split at hi
    · rename_i hv
      rw [hv, hj] at hi
      cases hi
      refine Or.inr ?_
      rw [← List.append_cancel_left he, hv]
      simp [Instance.commit]
    · exact Or.inl ⟨i', hi, hc, rfl⟩
  | execute hj _ _ =>
    rw [DepShard.execute, withInstance_some hj] at hi
    simp only [InstanceTable.get_remove] at hi
    split at hi
    · cases hi
    · exact Or.inl ⟨i', hi, hc, rfl⟩
  | ask command =>
    unfold askReplicas at hi
    split at hi <;> exact Or.inl ⟨i', hi, hc, rfl⟩
  | sleep _ => simp at hi

end DepShard

-- What a process has decided and run, as its log has it.
structure Decided (c : Cluster n) (hist : List (Fin n × Event n)) (p : Fin n) (s : DepShard n) :
    Prop where
  done : ∀ id i, s.instances.get id = some i → i.isCommitted = true →
    (p, Event.committed id i.deps) ∈ hist
  decided : ∀ id d, (p, Event.committed id d) ∈ hist → s.executed.contains id ∨
    ∃ i, s.instances.get id = some i ∧ i.isCommitted = true
  once : ∀ id d d', (p, Event.committed id d) ∈ hist → (p, Event.committed id d') ∈ hist → d = d'
  executed : ∀ id commands, (p, Event.executed id commands) ∈ hist → s.executed.contains id ∧
    (∃ d, (p, Event.committed id d) ∈ hist) ∧
    ∃ commands', (p, Event.created id commands') ∈ hist ∧ requests commands = requests commands'
  ran : ∀ id, s.executed.contains id → ∃ commands, (p, Event.executed id commands) ∈ hist
  origin : ∀ id d, (p, Event.committed id d) ∈ hist → c.isSwift = false →
    (requesterOf n id, Event.committed id d) ∈ hist

namespace Decided

variable {c : Cluster n} {hist : List (Fin n × Event n)} {p : Fin n} {s s' : DepShard n}
  {events : List (Event n)}

abbrev Known (c : Cluster n) (hist : List (Fin n × Event n)) (p : Fin n) (s : DepShard n) : Prop :=
  Created c hist p s ∧ Recorded c hist p s

theorem other {q : Fin n} {e : Event n} (hq : q ≠ p) (h : Decided c hist p s) :
    Decided c (hist ++ [(q, e)]) p s where
  done := fun id i hi hc => List.mem_append_left _ (h.done id i hi hc)
  decided := fun id d hd => h.decided id d (mem_other hq hd)
  once := fun id d d' hd hd' => h.once id d d' (mem_other hq hd) (mem_other hq hd')
  executed := fun id a ha => by
    obtain ⟨he, ⟨d, hd⟩, b, hb, hr⟩ := h.executed id a (mem_other hq ha)
    exact ⟨he, ⟨d, List.mem_append_left _ hd⟩, b, List.mem_append_left _ hb, hr⟩
  ran := fun id hid => by
    obtain ⟨a, ha⟩ := h.ran id hid
    exact ⟨a, List.mem_append_left _ ha⟩
  origin := fun id d hd hs => List.mem_append_left _ (h.origin id d (mem_other hq hd) hs)

theorem move (hsc : Scene c (Known c) (Decided c) hist p s)
    (hm : DepShard.Move c p (heardBy hist p) s s') (he : s'.sinks = s.sinks ++ events) :
    Decided c (hist ++ events.map (Prod.mk p)) p s' := by
  have h := hsc.own
  have hnew : ∀ {id : Uid} {d : DepSet n}, Event.committed id d ∈ events →
      ∃ i, s.instances.get id = some i ∧ i.isCommitted = false ∧
        DepShard.Decides c p (heardBy hist p) id i d ∧
        (∃ i', s'.instances.get id = some i' ∧ i'.isCommitted = true) ∧
        events = [.committed id d] := by
    intro id d hmem
    obtain ⟨i, hi, hc, hd, rfl⟩ := hm.logs he hmem
    refine ⟨i, hi, hc, hd, ⟨_, DepShard.get_put_self hi _, ?_⟩, (List.append_cancel_left he).symm⟩
    simp [Instance.isCommitted, Instance.commit]
  have hfresh : ∀ {id : Uid} {i : Instance n}, s.instances.get id = some i → i.isCommitted = false →
      ∀ d, (p, Event.committed id d) ∉ hist := by
    intro id i hi hc d hd
    rcases h.decided id d hd with hx | ⟨j, hj, hjc⟩
    · exact hsc.sane.live id i hi hx
    · rw [hi] at hj
      cases hj
      rw [hc] at hjc
      cases hjc
  have hex : ∀ id, s'.executed.contains id ↔ s.executed.contains id ∨
      ∃ commands, Event.executed id commands ∈ events := by
    intro id
    rcases hm.executed_or he with ⟨uid, i, hi, -, -, rfl, rfl⟩ | ⟨hex, hev⟩
    · rw [DepShard.execute, DepShard.withInstance_some hi, Executed.contains_insert]
      refine or_congr_right ⟨fun h => ⟨i.commands, by rw [h]; exact List.mem_cons_self⟩, ?_⟩
      rintro ⟨a, ha⟩
      cases List.mem_singleton.1 ha
      rfl
    · rw [hex]
      refine ⟨Or.inl, fun h => h.resolve_right ?_⟩
      rintro ⟨a, ha⟩
      cases hev _ ha
  refine ⟨fun id i hi hc => ?_, fun id d hd => ?_, fun id d d' hd hd' => ?_, fun id a ha => ?_,
    fun id hid => ?_, fun id d hd hs => ?_⟩
  · rcases hm.committed_new he hi hc with ⟨j, hj, hjc, heq⟩ | hmem
    · rw [heq]
      exact List.mem_append_left _ (h.done id j hj hjc)
    · exact Recorded.mem_new _ _ hmem
  · rcases mem_log hd with hd | ⟨-, hd⟩
    · rcases h.decided id d hd with hx | ⟨i, hi, hc⟩
      · exact Or.inl ((hex id).2 (Or.inl hx))
      · rcases hm.grown hi with ⟨i', hi', hg⟩ | ⟨-, rfl⟩
        · exact Or.inr ⟨i', hi', (hg.committed hc).1⟩
        · rw [DepShard.execute, DepShard.withInstance_some hi, Executed.contains_insert]
          exact Or.inl (Or.inr rfl)
    · obtain ⟨i, hi, hc, -, hi', -⟩ := hnew hd
      exact Or.inr hi'
  · rcases mem_log hd with hd | ⟨-, hd⟩ <;> rcases mem_log hd' with hd' | ⟨-, hd'⟩
    · exact h.once id d d' hd hd'
    · obtain ⟨i, hi, hc, -⟩ := hnew hd'
      exact absurd hd (hfresh hi hc d)
    · obtain ⟨i, hi, hc, -⟩ := hnew hd
      exact absurd hd' (hfresh hi hc d')
    · obtain ⟨-, -, -, -, -, hev⟩ := hnew hd
      rw [hev] at hd'
      cases List.mem_singleton.1 hd'
      rfl
  · rcases mem_log ha with ha | ⟨-, ha⟩
    · obtain ⟨hx, ⟨d, hd⟩, b, hb, hr⟩ := h.executed id a ha
      exact ⟨(hex id).2 (Or.inl hx), ⟨d, List.mem_append_left _ hd⟩, b, List.mem_append_left _ hb, hr⟩
    · obtain ⟨i, hi, hc, rfl⟩ := hm.logs he ha
      obtain ⟨b, hb, hr⟩ := hsc.known.2.commands id i hi
      exact ⟨(hex id).2 (Or.inr ⟨_, ha⟩), ⟨i.deps, List.mem_append_left _ (h.done id i hi hc)⟩, b,
        List.mem_append_left _ hb, hr⟩
  · rcases (hex id).1 hid with hx | ⟨a, ha⟩
    · obtain ⟨a, ha⟩ := h.ran id hx
      exact ⟨a, List.mem_append_left _ ha⟩
    · exact ⟨a, Recorded.mem_new _ _ ha⟩
  · rcases mem_log hd with hd | ⟨-, hd⟩
    · exact List.mem_append_left _ (h.origin id d hd hs)
    · obtain ⟨i, hi, -, hdec, -⟩ := hnew hd
      have hco := (hsc.known.2.instances id i hi).coordinator
      cases hdec with
      | fast _ hme =>
        rw [← hco, hme]
        exact Recorded.mem_new _ _ hd
      | slow _ hme =>
        rw [← hco, hme]
        exact Recorded.mem_new _ _ hd
      | @told src _ value hh =>
        obtain ⟨t, ⟨-, hrec⟩, hdec⟩ := hsc.all src
        have hcommit := hrec.said _ (hsc.faithful.arrived p src _ hh).2.said
        exact List.mem_append_left _ (hdec.origin id d hcommit hs)
      | swift hsw =>
        rw [hs] at hsw
        cases hsw

theorem stable : Stable c (Known c) (Decided c) where
  new := fun p => ⟨by simp [DepShard.new], by simp, by simp, by simp, by simp [DepShard.new],
    by simp⟩
  clear := fun h => ⟨h.done, h.decided, h.once, h.executed, h.ran, h.origin⟩
  other := fun hq h => h.other hq
  arrive := fun {hist p s src packet s₁ events} hsc _ _ _ ha he => by
    have h := hsc.own
    have hquiet : ∀ {e : Event n}, (p, e) ∈ hist ++ events.map (Prod.mk p) →
        (∀ src packet, e ≠ .received src packet) → (∀ packet dest, e ≠ .send packet dest) →
        (p, e) ∈ hist := by
      intro e hmem hr hsd
      rcases mem_log hmem with hmem | ⟨-, hmem⟩
      · exact hmem
      · rcases ha.logs he hmem with rfl | ⟨_, _, _, _, -, -, rfl⟩
        · exact absurd rfl (hr _ _)
        · exact absurd rfl (hsd _ _)
    obtain ⟨sinks, reads, hs⟩ := ha.same
    have hi : s₁.instances = s.instances := by rw [hs]
    have hx : s₁.executed = s.executed := by rw [hs]
    refine ⟨fun id i hg hc => ?_, fun id d hd => ?_, fun id d d' hd hd' => ?_, fun id a ha => ?_,
      fun id hid => ?_, fun id d hd hsw => ?_⟩
    · rw [hi] at hg
      exact List.mem_append_left _ (h.done id i hg hc)
    · rw [hx, hi]
      exact h.decided id d (hquiet hd (by simp) (by simp))
    · exact h.once id d d' (hquiet hd (by simp) (by simp)) (hquiet hd' (by simp) (by simp))
    · obtain ⟨he', ⟨d, hd⟩, b, hb, hr⟩ := h.executed id a (hquiet ha (by simp) (by simp))
      rw [hx]
      exact ⟨he', ⟨d, List.mem_append_left _ hd⟩, b, List.mem_append_left _ hb, hr⟩
    · rw [hx] at hid
      obtain ⟨a, ha⟩ := h.ran id hid
      exact ⟨a, List.mem_append_left _ ha⟩
    · exact List.mem_append_left _ (h.origin id d (hquiet hd (by simp) (by simp)) hsw)
  move := move

theorem kept : Kept c fun hist p s => Known c hist p s ∧ Decided c hist p s :=
  Recorded.kept.and stable

end Decided

abbrev Settled (c : Cluster n) (hist : List (Fin n × Event n)) (p : Fin n) (s : DepShard n) : Prop :=
  Decided.Known c hist p s ∧ Decided c hist p s

namespace World

variable {c : Cluster n} {w : World n}

def Commits (w : World n) (p : Fin n) (id : Uid) (deps : DepSet n) : Prop :=
  (p, Event.committed id deps) ∈ w.hist

theorem Reachable.settled (h : Reachable c w) (p : Fin n) : Settled c w.hist p (w.shard c p) :=
  h.kept Decided.kept p

def writeOf (requester : Fin n) (key : Nat) : Command n := ⟨requester, key, [], false, 0, none⟩

end World

end KCensus.Deps

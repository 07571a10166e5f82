import KCensus.Deps.Waiting

namespace KCensus.Deps

open Relation

variable {n : Nat} [NeZero n]

def Offered (_ : List (Fin n × Event n)) (_ : Fin n) (s : DepShard n) : Prop :=
  ∀ id i, s.instances.get id = some i → i.coordinatorDeps ≠ none

namespace Offered

variable {c : Cluster n} {hist : List (Fin n × Event n)} {p : Fin n} {s s' : DepShard n}

omit [NeZero n] in
theorem setCoordinatorDeps (i : Instance n) (deps : DepSet n) :
    (i.setCoordinatorDeps deps).coordinatorDeps ≠ none := by
  unfold Instance.setCoordinatorDeps
  simp only []
  cases i.coordinatorDeps <;> simp

omit [NeZero n] in
theorem leaderAccepted (me : Fin n) (deps : DepSet n) (i : Instance n) :
    (i.leaderAccepted me deps).coordinatorDeps = i.coordinatorDeps :=
  Instance.coordinatorDeps_recordPreaccept i me deps

omit [NeZero n] in
theorem opened (me : Fin n) (deps : DepSet n) (commands : List (Command n)) :
    (Instance.opened c me deps commands).coordinatorDeps ≠ none := by
  unfold Instance.opened
  simp only []
  split
  · rw [leaderAccepted]
    exact setCoordinatorDeps _ _
  · exact setCoordinatorDeps _ _

omit [NeZero n] in
theorem preAccepted (me src : Fin n) (deps myDeps : DepSet n) (i : Instance n) :
    (i.preAccepted c me src deps myDeps).coordinatorDeps ≠ none := by
  have hp : (i.proposedBy c src deps).coordinatorDeps ≠ none := by
    unfold Instance.proposedBy
    split
    · rw [Instance.coordinatorDeps_recordPreaccept]
      exact setCoordinatorDeps _ _
    · exact setCoordinatorDeps _ _
  unfold Instance.preAccepted
  generalize i.proposedBy c src deps = j at hp ⊢
  simp only []
  split
  · exact hp
  · split
    · unfold Instance.voted
      split
      · rw [leaderAccepted, Instance.coordinatorDeps_recordPreaccept]
        exact hp
      · rw [Instance.coordinatorDeps_recordPreaccept]
        exact hp
    · exact hp

theorem move (h : Offered hist p s) {heard : Fin n → Packet n → Prop}
    (hm : DepShard.Move c p heard s s') : Offered hist p s' := by
  intro id i' hi'
  cases hi : s.instances.get id with
  | none =>
    rcases hm.born hi hi' with ⟨commands, -, -, rfl⟩ | ⟨src, deps, commands, -, rfl⟩
    · exact opened _ _ _
    · exact preAccepted _ _ _ _ _
  | some i =>
    rcases hm.grown hi with ⟨j, hj, hg⟩ | ⟨-, rfl⟩
    · rw [hi'] at hj
      cases hj
      obtain ⟨d, hd⟩ := Option.ne_none_iff_exists'.1 (h id i hi)
      rw [hg.offer d hd]
      exact fun h => nomatch h
    · rw [DepShard.execute, DepShard.withInstance_some hi] at hi'
      simp only [InstanceTable.get_remove, if_true] at hi'
      cases hi'

theorem kept : Kept c Offered where
  new := fun p id i h => by simp [DepShard.new] at h
  clear := fun h => h
  other := fun _ h => h
  arrive := fun hsc _ _ _ ha _ => by
    obtain ⟨sinks, reads, rfl⟩ := ha.same
    exact hsc.own
  move := fun hsc hm _ => hsc.own.move hm

end Offered

namespace World

variable {c : Cluster n} {w w' : World n} {p : Fin n}

theorem Reachable.created_of_heard (h : Reachable c w) {src : Fin n} {packet : Packet n} {id : Uid}
    (hh : heardBy w.hist p src packet) (hid : packet.msg.id = some id)
    (hp : packet.msg.isPreAccept = false) :
    ∃ commands, (requesterOf n id, Event.created id commands) ∈ w.hist := by
  obtain ⟨⟨hcr, hrec⟩, -⟩ := h.settled src
  have hw := hrec.said packet (h.sound.arrived p src packet hh).2.said
  have hhome : (∃ commands, (src, Event.created id commands) ∈ w.hist) →
      ∃ commands, (requesterOf n id, Event.created id commands) ∈ w.hist :=
    fun ⟨commands, hc⟩ => ⟨commands, hcr.source id commands hc⟩
  obtain ⟨msg, value⟩ := packet
  cases msg <;> cases hid
  case preAccept => cases hp
  case preAcceptOk acked =>
    obtain ⟨-, d, hd, -⟩ := hw
    exact hhome (hcr.proposal id d hd)
  case accept d => exact hhome hw.2.1
  case acceptOk => exact hhome hw.2
  case commit d =>
    obtain ⟨members, -, hcard, hm⟩ := (hrec.committed id d hw).2
    obtain ⟨q, hq⟩ := Finset.card_pos.1 (Nat.lt_of_lt_of_le (Nat.succ_pos _)
      ((Nat.add_comm _ _ ▸ hcard : c.nbReplicas / 2 + 1 ≤ members.card)))
    obtain ⟨commands, hc⟩ := hm q hq
    exact ⟨commands, (h.settled q).1.1.source id commands hc⟩

theorem Reachable.unborn (h : Reachable c w) (p : Fin n) (commands : List (Command n)) :
    (requesterOf n (w.shard c p).nextUid, Event.created (w.shard c p).nextUid commands) ∉ w.hist := by
  intro hc
  have hr : requesterOf n (w.shard c p).nextUid = p := by
    rw [(h.sound.sane p).nextUid, requesterOf_uidAt]
  rw [hr] at hc
  exact (h.sound.sane p).next_unseen (((h.settled p).1.1.seen _).2 ⟨commands, hc⟩)

theorem Reachable.unawaited (h : Reachable c w)
    (hw : DepShard.Waits c p (heardBy w.hist p) (w.shard c p) (w.queues p)) :
    ∀ entry ∈ (w.shard c p).deferred, entry.1 ≠ (w.shard c p).nextUid := by
  rintro ⟨key, src, msg⟩ he rfl
  obtain ⟨⟨value, hh⟩, hid, hp⟩ := h.sound.held p _ he
  obtain ⟨commands, hc⟩ : ∃ commands, (requesterOf n (w.shard c p).nextUid,
      Event.created (w.shard c p).nextUid commands) ∈ w.hist := by
    have hheld := hw.keyed _ _ he
    generalize (w.shard c p).nextUid = key at hheld ⊢
    cases hheld with
    | payload hkey _ => exact h.created_of_heard hh hkey hp
    | @dependency id deps hsw _ _ _ hdep _ =>
      obtain ⟨hsrc, hsaid⟩ := h.sound.arrived p src _ hh
      cases hm : c.mode with
      | ePaxos coordinator =>
        rw [Cluster.isSwift, hm] at hsw
        cases hsw
      | swiftPaxos leader quorum =>
        have hled := h.led hm
        have hl := (h.sound.toBase.faithful.packet hsaid.said).2 hsw
        rw [Cluster.leader_of_mode hm] at hl
        have hprop := ((h.settled src).1.2.said _ hsaid.said).2.2.2 hsw
        rw [← hl] at hprop
        obtain ⟨k, hk⟩ := List.mem_iff_getElem?.1 (hled.proposal id deps hprop)
        obtain ⟨commands, hc⟩ := ((h.settled leader).1.1.seen key).1
          ((hled.seen key).2 (List.mem_of_mem_take (hled.below k id deps hk key hdep)))
        exact ⟨commands, (h.settled leader).1.1.source key commands hc⟩
  exact h.unborn p commands hc

theorem Reachable.offered (h : Reachable c w) {id : Uid} {i : Instance n}
    (hi : (w.shard c p).instances.get id = some i) : i.coordinatorDeps ≠ none :=
  h.kept Offered.kept p id i hi

abbrev Waits (c : Cluster n) (w : World n) (p : Fin n) : Prop :=
  DepShard.Waits c p (heardBy w.hist p) (w.shard c p) (w.queues p)

theorem heard_quiet {s' : DepShard n} (hb : Base c w) {heard : Fin n → Packet n → Prop}
    (hm : DepShard.Moves c p heard (w.shard c p) s') {src : Fin n} {packet : Packet n}
    (hh : heardBy (w.hist ++ s'.sinks.map (Prod.mk p)) p src packet) : heardBy w.hist p src packet := by
  obtain ⟨events, hevents, hv⟩ := hm.extends (hb.sane p)
  rw [hb.clean p, List.nil_append] at hevents
  rcases mem_log hh with hh | ⟨-, hh⟩
  · exact hh
  · rw [hevents] at hh
    exact (hv _ hh).elim

theorem heard_arrival {s₁ s' : DepShard n} (ho : Opened c w p s₁) {heard : Fin n → Packet n → Prop}
    (hb : Base c w) {src : Fin n} {packet : Packet n}
    (ha : DepShard.Arrives c p src (w.shard c p) packet s₁) (hm : DepShard.Moves c p heard s₁ s')
    {src' : Fin n} {packet' : Packet n}
    (hh : heardBy (w.hist ++ s'.sinks.map (Prod.mk p)) p src' packet') :
    heardBy w.hist p src' packet' ∨ (src', packet') = (src, packet) := by
  obtain ⟨events, hevents, hv⟩ := hm.extends ho.sane
  obtain ⟨more, hmore, hvalid⟩ := sinks_arrives (hb.clean p) ha
  refine (mem_log hh).imp_right fun ⟨_, hnew⟩ => ?_
  rw [hevents, hmore] at hnew
  rcases List.mem_append.1 hnew with hnew | hnew
  · rcases List.mem_cons.1 hnew with heq | hnew
    · cases heq
      rfl
    · exact (hvalid _ hnew).elim
  · exact (hv _ hnew).elim

theorem waits_settle {full : Bool} {s' : DepShard n} {queue : List (Held n)}
    (hw : ∀ q, w.Waits c q) {heard : Fin n → Packet n → Prop}
    (h : DepShard.Waits c p heard s' queue)
    (hh : ∀ src packet, heardBy (w.hist ++ s'.sinks.map (Prod.mk p)) p src packet →
      heard src packet) (q : Fin n) : (w.settle c p full s' queue).Waits c q := by
  by_cases hq : q = p
  · subst hq
    rw [Waits, shard_settle_self, queues_settle_self, hist_settle]
    have hclean : DepShard.Waits c q heard { s' with sinks := [] } queue := h.quiet rfl rfl rfl rfl
    exact hclean.hear fun src packet hp => Or.inl (hh src packet hp)
  · rw [Waits, shard_settle_ne hq, queues_settle_ne hq, hist_settle]
    refine (hw q).hear fun src packet hp => Or.inl ?_
    exact (mem_log hp).elim (fun h => h) fun h => absurd h.1 hq

theorem noop_executed {msg : DepMsg n} (h : (w.slots p).isNoop msg = true) {id : Uid}
    (hid : msg.id = some id) : (w.shard c p).executed.contains id := by
  unfold shard
  cases hs : w.slots p with
  | awake s =>
    rw [hs] at h
    cases h
  | asleep state =>
    rw [hs] at h
    simp only [Slot.isNoop, hid, Option.any_some, decide_eq_true_eq] at h
    exact Or.inl h

section

variable (hr : Reachable c w) (ih : ∀ q, w.Waits c q)

include hr ih

theorem waits_submit {q : Fin n} {commands : List (Command n)} {full : Bool}
    (hs : w.step c (.submit q commands full) = some w') (p : Fin n) : w'.Waits c p := by
  have hsound := hr.sound
  obtain ⟨⟨hqueue, -⟩, hs⟩ := Option.ite_none_right_eq_some.1 hs
  cases hs
  have hw := ih q
  rw [Waits, hqueue] at hw
  have hemit : DepShard.Waits c q (heardBy w.hist q) ((w.shard c q).emit (.submitted commands)) [] :=
    hw.quiet rfl rfl rfl rfl
  have hsane := (hsound.sane q).same ((DepShard.SameTables.refl _).emitAll [.submitted commands])
    (hsound.sane q).counted (hsound.sane q).parked rfl rfl
  exact waits_settle ih (hemit.submit hsane (hr.unawaited (ih q)) commands)
    (fun _ _ => heard_quiet hsound.toBase (hsound.submit commands full).2.moves) p

theorem waits_submitRead {q : Fin n} {command : Command n}
    (hs : w.step c (.submitRead q command) = some w') (p : Fin n) : w'.Waits c p := by
  have hsound := hr.sound
  obtain ⟨⟨hqueue, hread⟩, hs⟩ := Option.ite_none_right_eq_some.1 hs
  cases hs
  have hw := ih q
  rw [Waits, hqueue] at hw
  have hk : DepShard.Keeps (w.shard c q) ((w.shard c q).submitRead c q command) :=
    DepShard.Keeps.submitRead command _
  have hsame : ((w.shard c q).submitRead c q command).instances = (w.shard c q).instances ∧
      ((w.shard c q).submitRead c q command).executed = (w.shard c q).executed := by
    unfold DepShard.submitRead DepShard.askReplicas
    split <;> exact ⟨rfl, rfl⟩
  exact waits_settle ih (hw.quiet hk.seen hk.deferred hsame.1 hsame.2)
    (fun _ _ => heard_quiet hsound.toBase (hsound.submitRead hread false).2.moves) p

-- A message that is not delivered to a sleeping shard is about commands it has executed.
theorem waits_receive {src q : Fin n} {full : Bool}
    (hs : w.step c (.receive src q full) = some w') (p : Fin n) : w'.Waits c p := by
  have hsound := hr.sound
  simp only [World.step] at hs
  split at hs
  · rename_i packet rest hqueue hl
    have hw := ih q
    rw [Waits, hqueue] at hw
    obtain ⟨hsrc, hsaid⟩ := hsound.arriving hl
    split at hs
    · rename_i hnoop
      cases hs
      by_cases hp : p = q
      · subst hp
        refine (ih p).hear fun src' packet' hh =>
          (List.mem_append.1 hh).imp_right fun hh => Or.inr (Or.inl ?_)
        cases List.mem_singleton.1 hh
        exact fun id hid => Or.inl (noop_executed hnoop hid)
      · exact (ih p).hear fun src' packet' hh => Or.inl (mem_other (Ne.symm hp) hh)
    · cases hs
      have hsane := (hsound.sane q).same ((DepShard.SameTables.refl _).emitAll
        [.received src packet]) (hsound.sane q).counted (hsound.sane q).parked rfl rfl
      have htimely : DepShard.Timely src ((w.shard c q).emit (.received src packet)) packet :=
        ⟨(hsound.timely hl).fresh, (hsound.timely hl).bare⟩
      have hemit : DepShard.Waits c q (heardBy w.hist q)
          ((w.shard c q).emit (.received src packet)) [] := hw.quiet rfl rfl rfl rfl
      obtain ⟨s₁, ha, hmoves⟩ := DepShard.handle_arrives hsrc (hsound.timely hl) hsane
      have ho : Opened c w q s₁ := Opens.opened hsound.toBase (.arrival hsrc hsaid ha)
      refine waits_settle (w := w.popLink src q) ih (hemit.handle hsane hsrc htimely
        (fun id i => hr.offered) (hr.unawaited (ih q))) (fun src' packet' hh => ?_) p
      exact heard_arrival ho hsound.toBase ha (hmoves (fun _ _ => True) trivial) hh
  · cases hs

theorem waits_deliver {q : Fin n} {full : Bool}
    (hs : w.step c (.deliver q full) = some w') (p : Fin n) : w'.Waits c p := by
  have hsound := hr.sound
  simp only [World.step] at hs
  split at hs
  · cases hs
  · cases hs
    have hq : ∀ entry ∈ w.queues q, entry.2.id ≠ none ∧ entry.2.isPreAccept = false :=
      fun entry he => (hsound.queued q entry he).2
    exact waits_settle ih ((ih q).deliver (hsound.sane q) hq fun id i => hr.offered)
      (fun _ _ => heard_quiet hsound.toBase (hsound.deliver full).2.moves) p

theorem waits_drain {q : Fin n} (hs : w.step c (.drain q) = some w') (p : Fin n) :
    w'.Waits c p := by
  have hsound := hr.sound
  obtain ⟨hqueue, hs⟩ := Option.ite_none_right_eq_some.1 hs
  cases hs
  have hw := ih q
  rw [Waits, hqueue] at hw
  have hdrain : DepShard.Waits c q (heardBy w.hist q)
      ((w.shard c q).emit (.handed (w.shard c q).ready)).drainReady [] := hw.quiet rfl rfl rfl rfl
  exact waits_settle ih hdrain
    (fun _ _ => heard_quiet hsound.toBase (hsound.drain false).2.moves) p

theorem waits_sleep {q : Fin n} (hs : w.step c (.sleep q) = some w') (p : Fin n) :
    w'.Waits c p := by
  have hsound := hr.sound
  obtain ⟨⟨-, hcan⟩, hs⟩ := Option.ite_none_right_eq_some.1 hs
  cases hs
  have hfree := ((DepShard.canSleep_iff (hsound.sane q)).1 hcan).2.1
  rw [Waits, shard_asleep hsound.toBase hcan p]
  split
  · rename_i hp
    subst hp
    refine (ih p).same rfl rfl (fun v => Or.inl ⟨by simp [hfree], Iff.rfl⟩) fun src msg ha id hid => ?_
    refine (ha id hid).imp_right ?_
    rintro ⟨i, hi, -⟩
    rw [hfree] at hi
    cases hi
  · exact ih p

end

theorem Reachable.waits (h : Reachable c w) (p : Fin n) : w.Waits c p := by
  induction h generalizing p with
  | init =>
    refine ⟨fun entry he => (by cases he), fun key entry he => ?_, fun src packet hh => (by cases hh)⟩
    have hnew : (World.init : World n).shard c p = DepShard.new c p := rfl
    rw [hnew] at he
    cases he
  | @step w w' l hr hs ih =>
    cases l with
    | submit q commands full => exact waits_submit hr ih hs p
    | submitRead q command => exact waits_submitRead hr ih hs p
    | receive src q full => exact waits_receive hr ih hs p
    | deliver q full => exact waits_deliver hr ih hs p
    | drain q => exact waits_drain hr ih hs p
    | sleep q => exact waits_sleep hr ih hs p
    | flush q | owe q requesters =>
      cases hs
      exact ih p

end World

end KCensus.Deps

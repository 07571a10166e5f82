import KCensus.Deps.Backlog

namespace KCensus.Deps

open Relation

variable {n : Nat} [NeZero n]

def acceptOf (packet : Packet n) : Option (Uid × DepSet n) :=
  match packet.msg with
  | .accept id deps => some (id, deps)
  | _ => none

section

variable {c : Cluster n} {hist : List (Fin n × Event n)} {leader p : Fin n}

omit [NeZero n] in
theorem lane_accepts (hr : c.isReplica p = true) : Lane c p (acceptOf (n := n)) := by
  refine .acks hr (fun packet hp => ?_) fun id => rfl
  obtain ⟨msg, value⟩ := packet
  cases msg <;> first | rfl | cases hp

theorem acceptOf_goesTo (hr : c.isReplica p = true) (hne : p ≠ leader) {e : Event n}
    (he : e.Valid c leader ∨ ∃ src packet, e = .received src packet) :
    (e.goesTo c leader p).bind acceptOf = e.acceptance := by
  cases e with
  | broadcast packet priority =>
    obtain ⟨msg, value⟩ := packet
    cases msg <;> simp [Event.goesTo, Event.sendsTo, Event.acceptance, acceptOf, hne, hr,
      DepMsg.replicasOnly]
  | queueAck msg requester =>
    cases msg <;> simp [Event.goesTo, Event.acceptance, acceptOf, hne, hr]
  | send packet d =>
    have hp : packet.msg.isOffer = false := by
      rcases he with h | ⟨_, _, h⟩
      · exact h.2.2.2.1
      · cases h
    have hnew : acceptOf packet = none := by
      obtain ⟨msg, value⟩ := packet
      cases msg <;> first | rfl | cases hp
    simp only [Event.goesTo, Event.sendsTo, Event.acceptance]
    split
    · exact hnew
    · rfl
  | submitted | received | created | proposed | dispatchedAccept | blocked | committed | executed
  | ordered | readSubmitted | served | handed | panicked => rfl

theorem accepts_sent (hf : Faithful c hist) (hr : c.isReplica p = true) (hne : p ≠ leader) :
    (sentTo c hist leader p).filterMap acceptOf = acceptances hist leader := by
  unfold sentTo acceptances
  rw [List.filterMap_filterMap]
  refine List.filterMap_congr fun e he => ?_
  exact acceptOf_goesTo hr hne (hf.valid leader e (mem_logOf.1 he))

end

namespace DepShard

variable {c : Cluster n} {me : Fin n} {s s' : DepShard n} {queue : List (Held n)}

omit [NeZero n] in
theorem acceptIds_nodup {held held' : List (Held n)} (h : held'.Subperm held)
    (hn : (acceptIds held).Nodup) : (acceptIds held').Nodup := by
  have hle := Multiset.filterMap_le_filterMap
    (fun entry : Held n => match entry.2 with
      | .accept id _ => some id
      | _ => none) (Multiset.coe_le.2 h)
  exact Multiset.coe_nodup.1 (Multiset.nodup_of_le hle (Multiset.coe_nodup.2 hn))

omit [NeZero n] in
theorem acceptIds_mono {held held' : List (Held n)} (h : held' ⊆ held) :
    acceptIds held' ⊆ acceptIds held := fun id hid => by
  obtain ⟨src, deps, hm⟩ := (mem_acceptIds _ _).1 hid
  exact (mem_acceptIds _ _).2 ⟨src, deps, h hm⟩

-- The messages about known commands that a process has not got to the end of.
def inHand (s : DepShard n) (queue : List (Held n)) : List (Held n) :=
  queue ++ s.deferred.map Prod.snd

theorem inHand_release (key : Uid) (rest : List (Held n)) (s : DepShard n) :
    ((s.release key).inHand (rest ++ s.heldFor key)).Subperm (s.inHand rest) := by
  unfold inHand
  rw [List.append_assoc]
  refine (List.Perm.append_left rest ?_).subperm
  have hperm := (List.filter_append_perm (fun entry => decide (entry.1 = key)) s.deferred).map Prod.snd
  rw [List.map_append] at hperm
  have hsame : (s.deferred.filter fun entry => !decide (entry.1 = key)) =
      s.deferred.filter fun entry => decide (entry.1 ≠ key) :=
    List.filter_congr fun entry _ => by simp
  rwa [hsame] at hperm

-- The shortcut that `blockedBy` takes is right about the deferred table.
structure Parked (s : DepShard n) (queue : List (Held n)) : Prop where
  nodup : (acceptIds (s.inHand queue)).Nodup
  parked : ∀ id ∈ acceptIds (s.deferred.map Prod.snd), id ∈ s.parkedAccepts

namespace Parked

theorem same (h : Parked s queue) (hd : s'.deferred = s.deferred)
    (hp : s'.parkedAccepts = s.parkedAccepts) : Parked s' queue := by
  refine ⟨?_, ?_⟩
  · rw [inHand, hd]
    exact h.nodup
  · rw [hd, hp]
    exact h.parked

theorem drop {src : Fin n} {msg : DepMsg n} (h : Parked s ((src, msg) :: queue)) : Parked s queue :=
  ⟨acceptIds_nodup (List.sublist_cons_self _ _).subperm h.nodup, h.parked⟩

theorem defer {src : Fin n} {msg : DepMsg n} (h : Parked s ((src, msg) :: queue)) (key : Uid) :
    Parked (s.defer key src msg) queue := by
  refine ⟨acceptIds_nodup ?_ h.nodup, fun id hid => ?_⟩
  · unfold inHand DepShard.defer
    rw [List.map_append, ← List.append_assoc]
    exact (List.perm_append_singleton _ _).subperm
  · obtain ⟨src', deps, hm⟩ := (mem_acceptIds _ _).1 hid
    simp only [DepShard.defer, List.map_append, List.mem_append, List.map_cons, List.map_nil,
      List.mem_singleton] at hm ⊢
    rcases hm with hm | hm
    · have hold := h.parked id ((mem_acceptIds _ _).2 ⟨src', deps, hm⟩)
      cases msg <;> first | exact hold | exact Finset.mem_insert_of_mem hold
    · cases hm
      exact Finset.mem_insert_self _ _

theorem release (h : Parked s queue) (key : Uid) :
    Parked (s.release key) (queue ++ s.heldFor key) := by
  have hsub := inHand_release key queue s
  have hnodup := acceptIds_nodup hsub h.nodup
  refine ⟨hnodup, fun id hid => ?_⟩
  have hold : id ∈ s.parkedAccepts := by
    refine h.parked id (acceptIds_mono ?_ hid)
    exact List.map_subset _ fun entry => List.mem_of_mem_filter
  refine Finset.mem_sdiff.2 ⟨hold, fun hheld => ?_⟩
  -- An Accept that was released is not held under another key as well.
  rw [inHand, acceptIds, List.filterMap_append, List.filterMap_append, List.nodup_append] at hnodup
  exact hnodup.2.2 id (List.mem_append_right _ (List.mem_toFinset.1 hheld)) id hid rfl

theorem deliver (h : Parked s queue) (hp : ∀ entry ∈ queue, entry.2.isPreAccept = false) :
    Parked (s.deliverTurn c me queue).1 (s.deliverTurn c me queue).2 := by
  cases queue with
  | nil => exact h
  | cons entry rest =>
    obtain ⟨src, msg⟩ := entry
    simp only [deliverTurn]
    cases hid : msg.id with
    | none => exact h.drop.same rfl rfl
    | some id =>
      simp only []
      split
      · exact h.drop
      · cases hb : s.blockedBy c me msg with
        | some dep =>
          have hlog : Parked (s.emit (.blocked id dep (dep ∈ s.parkedAccepts))) ((src, msg) :: rest) :=
            h.same rfl rfl
          exact hlog.defer dep
        | none =>
          have hfix := fixed_dispatch c me src (hp _ List.mem_cons_self) hid s
          exact (h.drop.same hfix.deferred hfix.parked).release id

theorem submit (h : Parked s []) (commands : List (Command n)) :
    Parked (s.submit c me commands) [] := by
  have hopen : ∀ id, Parked ((s.openInstance c me id commands).tryCommit c me id) [] := fun id => by
    have hfix := (works_tryCommit c me id (s.openInstance c me id commands)).fixed
    rw [openInstance_eq] at hfix ⊢
    exact h.same hfix.deferred hfix.parked
  unfold DepShard.submit
  split
  · split
    · rename_i hne
      rw [send, if_neg hne]
      exact h.same rfl rfl
    · exact hopen _
  · exact hopen _

theorem handleAbout {src : Fin n} {packet : Packet n} (id : Uid)
    (hp : packet.msg.isPreAccept = false) (hv : packet.value = none)
    (h : Parked s [(src, packet.msg)]) :
    Parked (s.handleAbout c me id src packet).1 (s.handleAbout c me id src packet).2 := by
  rw [DepShard.handleAbout, hv]
  split
  · exact h.drop
  · split
    · exact h.deliver fun entry he => List.mem_singleton.1 he ▸ hp
    · exact h.defer id

theorem handle (hsane : Sane c me s) {src : Fin n} {packet : Packet n} (hsrc : src ≠ me)
    (ht : Timely src s packet)
    (h : Parked s []) (hnew : packet.msg.isAck = true → Parked s [(src, packet.msg)]) :
    Parked (s.handle c me src packet).1 (s.handle c me src packet).2 := by
  obtain ⟨msg, value⟩ := packet
  cases msg with
  | forward =>
    cases value with
    | none => exact h.same rfl rfl
    | some commands => exact h.submit commands
  | readRequest id key =>
    simp only [DepShard.handle, send, if_neg hsrc]
    exact h.same rfl rfl
  | readResponse id seen => exact h.same rfl rfl
  | preAccept id deps =>
    obtain ⟨hid, hv⟩ := ht.fresh id deps rfl
    obtain ⟨commands, rfl⟩ := Option.isSome_iff_exists.1 hv
    have hunseen : ¬ s.seen.contains id := by simp [hid]
    rw [handle_preAccept (hsane.free hunseen) (hsane.unexecuted hunseen)]
    have hfix := (works_tryCommit c me id ((s.createInstance c id
      commands).answerPreAccept c me src id deps (Instance.fresh c id commands))).fixed
    rw [learn_eq] at hfix ⊢
    have hsame := h.same hfix.deferred hfix.parked
    exact hsame.release id
  | preAcceptOk id deps =>
    exact handleAbout id rfl (ht.bare rfl (by simp)) (hnew rfl)
  | accept id deps =>
    exact handleAbout id rfl (ht.bare rfl (by simp)) (hnew rfl)
  | acceptOk id =>
    exact handleAbout id rfl (ht.bare rfl (by simp)) (hnew rfl)
  | commit id deps =>
    have hc : Parked s [(src, .commit id deps)] := ⟨h.nodup, h.parked⟩
    exact handleAbout id rfl (ht.bare rfl (by simp)) hc

end Parked

end DepShard

namespace World

variable {c : Cluster n} {leader : Fin n} {quorum : Option (Finset (Fin n))} {w w' : World n}
  {p : Fin n}

def gotAccepts (hist : List (Fin n × Event n)) (leader p : Fin n) : List Uid :=
  ((gotFrom hist p leader).filterMap acceptOf).map Prod.fst

theorem Base.accept_src (hb : Base c w) (hm : c.mode = .swiftPaxos leader quorum) {src : Fin n}
    {id : Uid} {deps : DepSet n} {value : Option (List (Command n))}
    (hs : saidTo w.hist src p ⟨.accept id deps, value⟩) : src = leader := by
  have hl := (hb.faithful.packet hs.said).2 (Cluster.swift_of_mode hm)
  rw [Cluster.leader_of_mode hm] at hl
  exact hl.symm

theorem Base.gotAccepts (hb : Base c w) (hm : c.mode = .swiftPaxos leader quorum) {id : Uid}
    (hid : id ∈ DepShard.acceptIds ((w.shard c p).inHand (w.queues p))) :
    id ∈ gotAccepts w.hist leader p := by
  obtain ⟨src, deps, hmem⟩ := (DepShard.mem_acceptIds _ _).1 hid
  have hholds : DepShard.Holds (heardBy w.hist p) (src, .accept id deps) := by
    rcases List.mem_append.1 hmem with hq | hd
    · exact hb.queued p _ hq
    · obtain ⟨entry, he, heq⟩ := List.mem_map.1 hd
      exact heq ▸ hb.held p entry he
  obtain ⟨⟨value, hh⟩, -⟩ := hholds
  obtain ⟨-, hsaid⟩ := hb.arrived p src _ hh
  have hsrc := hb.accept_src hm hsaid
  subst hsrc
  refine List.mem_map.2 ⟨(id, deps), List.mem_filterMap.2 ⟨⟨.accept id deps, value⟩, ?_, rfl⟩, rfl⟩
  exact List.mem_filterMap.2 ⟨_, mem_logOf.2 hh, if_pos rfl⟩

section

variable (hm : c.mode = .swiftPaxos leader quorum) (hr : c.isReplica p = true) (hne : p ≠ leader)

include hm hr hne

omit quorum hm in
theorem Reachable.gotAccepts_first (h : Reachable c w) :
    World.gotAccepts w.hist leader p <+: accepted w.hist leader := by
  have hfifo := h.fifo (lane_accepts hr) hne.symm
  rw [Fifo, accepts_sent h.sound.toBase.faithful hr hne] at hfifo
  rw [accepted, hfifo, List.map_append]
  exact List.prefix_append _ _

theorem Reachable.accept_new (h : Reachable c w) {src : Fin n} {id : Uid} {deps : DepSet n}
    {value : Option (List (Command n))} {rest : List (Packet n)}
    (hl : w.link src p = ⟨.accept id deps, value⟩ :: rest) : id ∉ World.gotAccepts w.hist leader p := by
  obtain ⟨hsrc, hsaid⟩ := h.sound.arriving hl
  have hleader := h.sound.toBase.accept_src hm hsaid
  subst hleader
  have hdue := h.due hsrc hl _ _ (lane_accepts hr)
  rw [accepts_sent h.sound.toBase.faithful hr hne] at hdue
  have hnodup : ((((gotFrom w.hist p src).filterMap acceptOf) ++ [(id, deps)]).map Prod.fst).Nodup :=
    ((hdue.map Prod.fst).sublist).nodup (h.led hm).nodup
  rw [List.map_append, List.nodup_append] at hnodup
  exact fun hid => hnodup.2.2 id hid id List.mem_cons_self rfl

end

abbrev Parked (c : Cluster n) (w : World n) (p : Fin n) : Prop :=
  DepShard.Parked (w.shard c p) (w.queues p)

theorem parked_settle {q : Fin n} {full : Bool} {s' : DepShard n} {queue : List (Held n)}
    (hw : w.Parked c p) (h : q = p → DepShard.Parked s' queue) :
    (w.settle c q full s' queue).Parked c p := by
  by_cases hq : p = q
  · subst hq
    rw [Parked, shard_settle_self, queues_settle_self]
    exact (h rfl).same rfl rfl
  · rw [Parked, shard_settle_ne hq, queues_settle_ne hq]
    exact hw

theorem Reachable.parked (hm : c.mode = .swiftPaxos leader quorum) (hr : c.isReplica p = true)
    (hne : p ≠ leader) (h : Reachable c w) : w.Parked c p := by
  induction h with
  | init => exact ⟨List.nodup_nil, fun id hid => nomatch hid⟩
  | @step w w' l hreach hs ih =>
    have hsound := hreach.sound
    cases l with
    | submit q commands full =>
      obtain ⟨⟨hqueue, -⟩, hs⟩ := Option.ite_none_right_eq_some.1 hs
      cases hs
      refine parked_settle ih fun hq => ?_
      subst hq
      rw [Parked, hqueue] at ih
      have hemit : DepShard.Parked ((w.shard c q).emit (.submitted commands)) [] := ih.same rfl rfl
      exact hemit.submit commands
    | submitRead q command =>
      obtain ⟨⟨hqueue, -⟩, hs⟩ := Option.ite_none_right_eq_some.1 hs
      cases hs
      refine parked_settle ih fun hq => ?_
      subst hq
      rw [Parked, hqueue] at ih
      have hk : DepShard.Keeps (w.shard c q) ((w.shard c q).submitRead c q command) :=
        DepShard.Keeps.submitRead command _
      exact ih.same hk.deferred hk.parked
    | receive src q full =>
      simp only [World.step] at hs
      split at hs
      · rename_i packet rest hqueue hl
        obtain ⟨hsrc, hsaid⟩ := hsound.arriving hl
        split at hs
        · cases hs
          exact ih
        · cases hs
          refine parked_settle (w := w.popLink src q) ih fun hq => ?_
          subst hq
          have hsane := (hsound.sane q).same ((DepShard.SameTables.refl _).emitAll
            [.received src packet]) (hsound.sane q).counted (hsound.sane q).parked rfl rfl
          have htimely : DepShard.Timely src ((w.shard c q).emit (.received src packet)) packet :=
            ⟨(hsound.timely hl).fresh, (hsound.timely hl).bare⟩
          have hgot : ∀ id ∈ DepShard.acceptIds ((w.shard c q).deferred.map Prod.snd),
              id ∈ World.gotAccepts w.hist leader q := fun id hid =>
            hsound.toBase.gotAccepts hm (DepShard.acceptIds_mono (List.subset_append_right _ _) hid)
          rw [Parked, hqueue] at ih
          have hemit : DepShard.Parked ((w.shard c q).emit (.received src packet)) [] :=
            ih.same rfl rfl
          refine hemit.handle hsane hsrc htimely fun hack => ⟨?_, hemit.parked⟩
          obtain ⟨msg, value⟩ := packet
          cases msg with
          | accept id deps =>
            refine List.nodup_cons.2 ⟨fun hid => ?_, ih.nodup⟩
            exact hreach.accept_new hm hr hne hl (hgot id hid)
          | preAcceptOk | acceptOk => exact ih.nodup
          | forward | preAccept | commit | readRequest | readResponse => cases hack
      · cases hs
    | deliver q full =>
      simp only [World.step] at hs
      split at hs
      · cases hs
      · cases hs
        refine parked_settle ih fun hq => ?_
        subst hq
        exact ih.deliver fun entry he => (hsound.queued q entry he).2.2
    | flush q | owe q requesters =>
      cases hs
      exact ih
    | drain q =>
      obtain ⟨hqueue, hs⟩ := Option.ite_none_right_eq_some.1 hs
      cases hs
      refine parked_settle ih fun hq => ?_
      subst hq
      rw [Parked, hqueue] at ih
      exact ih.same rfl rfl
    | sleep q =>
      obtain ⟨⟨-, hcan⟩, hs⟩ := Option.ite_none_right_eq_some.1 hs
      cases hs
      rw [Parked, shard_asleep hsound.toBase hcan p]
      split
      · rename_i hq
        subst hq
        exact ih.same rfl rfl
      · exact ih

end World

end KCensus.Deps

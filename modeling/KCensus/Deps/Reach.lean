import KCensus.Deps.Sound

namespace KCensus.Deps

open Relation

variable {n : Nat} [NeZero n]

namespace DepShard

variable {c : Cluster n} {me : Fin n} {heard : Fin n → Packet n → Prop} {s s' : DepShard n}

theorem Keeps.receiveRead (id : Nat) (src : Fin n) (seen : DepSet n) (s : DepShard n) :
    Keeps s (s.receiveRead id src seen) := ⟨rfl, rfl, rfl, rfl, rfl, rfl⟩

theorem views_handle {src : Fin n} {packet : Packet n} (ht : Timely src s packet)
    (hp : packet.msg.isPreAccept = false) :
    Views s (s.handle c me src packet).1 none [] ∨
      Views s (s.handle c me src packet).1 (some s.nextUid) [s.nextUid] := by
  have habout : packet.msg ≠ .forward → ∀ id,
      Views s (s.handleAbout c me id src packet).1 none [] := by
    intro hf id
    rw [handleAbout, ht.bare hp hf]
    split
    · exact (Keeps.refl s).views
    · split
      · refine views_deliverTurn s fun entry he => ?_
        rw [List.mem_singleton.1 he]
        exact hp
      · exact Views.append rfl (List.append_nil s.sinks).symm rfl
  obtain ⟨msg, value⟩ := packet
  cases msg with
  | forward =>
    cases value with
    | none => exact Or.inl (Keeps.emit s rfl).views
    | some commands => exact views_submit s commands
  | preAccept id deps => cases hp
  | readRequest id key => exact Or.inl (Keeps.send _ _ s).views
  | readResponse id seen =>
    exact Or.inl ((Keeps.receiveRead id src seen s).trans (Keeps.serveReadyReads _)).views
  | preAcceptOk id deps => exact Or.inl (habout (by simp) id)
  | accept id deps => exact Or.inl (habout (by simp) id)
  | acceptOk id => exact Or.inl (habout (by simp) id)
  | commit id deps => exact Or.inl (habout (by simp) id)

theorem views_handle_preAccept {src : Fin n} {id : Uid} {deps : DepSet n}
    {commands : List (Command n)} (hn : s.instances.get id = none)
    (he : ¬ s.executed.contains id) :
    Views s (s.handle c me src ⟨.preAccept id deps, some commands⟩).1 (some id) [] := by
  rw [handle_preAccept hn he]
  have hv : Views s (((s.createInstance c id commands).answerPreAccept c me src id deps
      (Instance.fresh c id commands)).tryCommit c me id) (some id) [] :=
    (views_learn s src id deps commands).keeps (Keeps.tryCommit id _)
  exact ⟨hv.seen, hv.opened⟩

theorem Keeps.views_trans {s'' : DepShard n} {added : Option Uid} {opened : List Uid}
    (hk : Keeps s s') (h : Views s' s'' added opened) : Views s s'' added opened :=
  ⟨by rw [h.seen, hk.seen], by rw [h.opened, hk.opened]⟩

theorem Keeps.submitRead (command : Command n) (s : DepShard n) :
    Keeps s (s.submitRead c me command) := by
  have hquiet : ∀ e ∈ [Event.readSubmitted s.reads.nextId command,
      .broadcast ⟨.readRequest s.reads.nextId command.shard, none⟩ none],
      e.openedId = none := by
    intro e he
    simp only [List.mem_cons, List.not_mem_nil, or_false] at he
    rcases he with rfl | rfl <;> rfl
  have hk := Keeps.emitAll s hquiet
  have hsinks : (s.askReplicas c me command).sinks = _ := askReplicas_sinks s command
  suffices hask : Keeps s (s.askReplicas c me command) from hask.trans (Keeps.serveReadyReads _)
  refine ⟨?_, ?_, ?_, ?_, ?_, hsinks ▸ hk.opened⟩ <;>
  · unfold askReplicas
    split <;> rfl

theorem mem_deliverTurn {queue : List (Held n)}
    (hq : ∀ entry ∈ queue, entry.2.isPreAccept = false) {entry : Held n}
    (h : entry ∈ (s.deliverTurn c me queue).2) :
    entry ∈ queue ∨ ∃ key, (key, entry) ∈ s.deferred := by
  unfold deliverTurn at h
  split at h
  · cases h
  · rename_i src msg rest
    split at h
    · exact Or.inl (List.mem_cons_of_mem _ h)
    · rename_i id _
      split at h
      · exact Or.inl (List.mem_cons_of_mem _ h)
      · split at h
        · exact Or.inl (List.mem_cons_of_mem _ h)
        · rcases List.mem_append.1 h with h | h
          · exact Or.inl (List.mem_cons_of_mem _ h)
          · rw [mem_heldFor, (Keeps.dispatch src (hq _ List.mem_cons_self) s).deferred] at h
            exact Or.inr ⟨id, h⟩

theorem mem_handle {src : Fin n} {packet : Packet n} (ht : Timely src s packet)
    (hs : Sane c me s) {entry : Held n} (h : entry ∈ (s.handle c me src packet).2) :
    (entry = (src, packet.msg) ∧ packet.msg.id ≠ none ∧ packet.msg.isPreAccept = false) ∨
      ∃ key, (key, entry) ∈ s.deferred := by
  have habout : packet.msg.isPreAccept = false → packet.msg ≠ .forward → packet.msg.id ≠ none →
      ∀ id, entry ∈ (s.handleAbout c me id src packet).2 →
        (entry = (src, packet.msg) ∧ packet.msg.id ≠ none ∧ packet.msg.isPreAccept = false) ∨
          ∃ key, (key, entry) ∈ s.deferred := by
    intro hp hf hid id h
    rw [handleAbout, ht.bare hp hf] at h
    split at h
    · cases h
    · split at h
      · rcases mem_deliverTurn (fun e he => by rw [List.mem_singleton.1 he]; exact hp) h with h | h
        · exact Or.inl ⟨List.mem_singleton.1 h, hid, hp⟩
        · exact Or.inr h
      · cases h
  obtain ⟨msg, value⟩ := packet
  cases msg with
  | forward =>
    cases value with
    | none => cases h
    | some commands => cases h
  | preAccept id deps =>
    obtain ⟨hid, hv⟩ := ht.fresh id deps rfl
    obtain ⟨commands, rfl⟩ := Option.isSome_iff_exists.1 hv
    have hunseen : ¬ s.seen.contains id := by simp [hid]
    rw [handle_preAccept (hs.free hunseen) (hs.unexecuted hunseen)] at h
    rw [mem_heldFor, (Keeps.tryCommit id _).deferred, learn_eq] at h
    exact Or.inr ⟨id, h⟩
  | readRequest | readResponse => cases h
  | preAcceptOk id deps => exact habout rfl (by simp) (by simp [DepMsg.id]) id h
  | accept id deps => exact habout rfl (by simp) (by simp [DepMsg.id]) id h
  | acceptOk id => exact habout rfl (by simp) (by simp [DepMsg.id]) id h
  | commit id deps => exact habout rfl (by simp) (by simp [DepMsg.id]) id h

theorem canSleep_iff (h : Sane c me s) : s.canSleep c = true ↔
    c.perKeyDeps = false ∧ (∀ id, s.instances.get id = none) ∧ s.deferred = [] ∧
      s.reads.reads = [] ∧ s.ready = [] := by
  simp [canSleep, ReadTracker.isEmpty, h.counted.isEmpty_iff, and_assoc]

theorem wakeUp_fallAsleep (h : Sane c me s) (hc : s.sinks = []) (hs : s.canSleep c = true) :
    wakeUp c me s.fallAsleep = { s with instances := InstanceTable.new n } := by
  obtain ⟨hper, hfree, hdef, hreads, hready⟩ := (canSleep_iff h).1 hs
  have hknown : ∀ id, s.seen.contains id ↔ s.executed.contains id := fun id => by
    rw [h.known, hfree]
    simp
  have hahead : s.executed.ahead = ∅ := by
    refine Executed.ahead_eq_empty h.wf fun u v hr hi hv => (hknown u).1 ?_
    have hv' := (hknown v).2 hv
    rw [DepSet.contains_iff] at hv' ⊢
    rw [hr]
    omega
  have hseen : s.executed.watermark = s.seen := by
    refine DepSet.ext_contains fun id => ?_
    rw [hknown, Executed.contains, hahead]
    simp
  have hparked : s.parkedAccepts = ∅ := by
    refine Finset.eq_empty_of_forall_notMem fun id hid => ?_
    have := h.parked id hid
    rw [hdef] at this
    simp [acceptIds] at this
  have hconf : s.conflicts = fun _ => none := by
    funext key
    cases hk : s.conflicts key with
    | none => rfl
    | some seen =>
      have := (h.conflicts key seen hk).1
      rw [hper] at this
      cases this
  have hq := h.quorum
  have hl := h.leader
  obtain ⟨sinks, nextUid, seen, ⟨watermark, ahead⟩, instances, deferred, parked,
    ⟨nextId, quorum, leader, reads⟩, ready, conflicts⟩ := s
  simp only at hc hdef hreads hready hahead hseen hparked hconf hq hl
  subst hc hdef hreads hready hahead hseen hparked hconf hq hl
  rfl

end DepShard

namespace World

variable {c : Cluster n} {w w' : World n} {p : Fin n}

-- What a turn of `p` does to the links.
inductive Flow (c : Cluster n) (w w' : World n) (p : Fin n) (events : List (Event n)) : Prop where
  | turn (full : Bool) : (∀ e ∈ events, e.Valid c p) →
      w'.sinks = Function.update w.sinks p (events.foldl (MultiSink.apply c p full) (w.sinks p)) →
      Flow c w w' p events
  | arrival {src : Fin n} {packet : Packet n} {rest : List (Packet n)} (full : Bool)
      (more : List (Event n)) : src ≠ p → w.link src p = packet :: rest →
      events = .received src packet :: more → (∀ e ∈ more, e.Valid c p) →
      w'.sinks = Function.update (w.popLink src p).sinks p
        (more.foldl (MultiSink.apply c p full) (w.sinks p)) → Flow c w w' p events
  | flush : events = [] →
      w'.sinks = Function.update w.sinks p ((w.sinks p).flushAcks c p) → Flow c w w' p events
  | owe (requesters : Finset (Fin n)) : events = [] →
      w'.sinks = Function.update w.sinks p ((w.sinks p).owe requesters) → Flow c w w' p events

structure Turn (c : Cluster n) (w w' : World n) (p : Fin n) (s₁ s' : DepShard n) : Prop where
  opens : Opens c w p s₁
  moves : DepShard.Moves c p (heardBy (w.hist ++ s₁.sinks.map (Prod.mk p)) p) s₁ s'
  shard_self : w'.shard c p = { s' with sinks := [] }
  shard_ne : ∀ q, q ≠ p → w'.shard c q = w.shard c q
  hist : w'.hist = w.hist ++ s'.sinks.map (Prod.mk p)
  flow : Flow c w w' p s'.sinks

theorem turn_settle (hw : Base c w) {s' : DepShard n}
    (hm : DepShard.Moves c p (heardBy (w.hist ++ (w.shard c p).sinks.map (Prod.mk p)) p)
      (w.shard c p) s')
    (full : Bool) (queue : List (Held n)) :
    Turn c w (w.settle c p full s' queue) p (w.shard c p) s' := by
  refine ⟨.quiet, hm, shard_settle_self full s' queue, fun _ hq => shard_settle_ne hq full s' queue,
    hist_settle full s' queue, .turn full (fun e he => ?_) rfl⟩
  obtain ⟨events, hevents, hv⟩ := hm.extends (hw.sane p)
  rw [hevents, hw.clean p, List.nil_append] at he
  exact hv e he

theorem sinks_arrives {src : Fin n} {packet : Packet n} {s s₁ : DepShard n} (hs : s.sinks = [])
    (ha : DepShard.Arrives c p src s packet s₁) :
    ∃ more, s₁.sinks = .received src packet :: more ∧ ∀ e ∈ more, e.Valid c p := by
  cases ha with
  | @request id key value hne =>
    refine ⟨[.send ⟨.readResponse id (s.depsFor c [key]), none⟩ src], ?_, fun e he => ?_⟩
    · simp only [DepShard.emit, hs, List.nil_append, List.singleton_append]
    rw [List.mem_singleton.1 he]
    exact ⟨rfl, fun h => (by cases h), hne, rfl, fun h => (by cases h)⟩
  | response | plain =>
    exact ⟨[], by simp only [DepShard.emit, DepShard.receiveRead, hs, List.nil_append],
      fun e he => (by cases he)⟩

theorem turn_receive (hw : Base c w) {src : Fin n} {packet : Packet n} {rest : List (Packet n)}
    {s₁ s' : DepShard n} (hsrc : src ≠ p) (hl : w.link src p = packet :: rest)
    (hsaid : saidTo w.hist src p packet) (ha : DepShard.Arrives c p src (w.shard c p) packet s₁)
    (hm : DepShard.Moves c p (heardBy (w.hist ++ s₁.sinks.map (Prod.mk p)) p) s₁ s')
    (full : Bool) (queue : List (Held n)) :
    Turn c w ((w.popLink src p).settle c p full s' queue) p s₁ s' := by
  have ho : Opens c w p s₁ := .arrival hsrc hsaid ha
  obtain ⟨more, hmore, hvalid⟩ := sinks_arrives (hw.clean p) ha
  obtain ⟨events, hevents, hv⟩ := hm.extends (ho.opened hw).sane
  have hself : (w.popLink src p).sinks p = w.sinks p := Function.update_of_ne hsrc.symm _ _
  refine ⟨ho, hm, shard_settle_self full s' queue, fun _ hq => shard_settle_ne hq full s' queue,
    hist_settle full s' queue, .arrival full (more ++ events) hsrc hl ?_ (fun e he => ?_) ?_⟩
  · rw [hevents, hmore, List.cons_append]
  · exact (List.mem_append.1 he).elim (hvalid e) (hv e)
  · rw [World.settle, hevents, hmore, List.cons_append, List.foldl_cons, hself]
    rfl

theorem ordered_learn (hb : Base c w) (ho : ∀ src dest, src ≠ dest → w.Ordered c src dest)
    {src : Fin n} {packet : Packet n} {rest : List (Packet n)} {id : Uid} {deps : DepSet n}
    (hsrc : src ≠ p) (hl : w.link src p = packet :: rest) (hp : packet.msg = .preAccept id deps)
    (hid : id = uidAt ((w.shard c p).seen.marks src) src) {full : Bool} {s' : DepShard n}
    {queue : List (Held n)}
    (he : ∀ e ∈ s'.sinks, e.Valid c p ∨ ∃ src packet, e = .received src packet)
    (hv : DepShard.Views ((w.shard c p).emit (.received src packet)) s' (some id) [])
    (src' dest : Fin n) (hne : src' ≠ dest) :
    ((w.popLink src p).settle c p full s' queue).Ordered c src' dest := by
  have hopened : s'.sinks.filterMap Event.openedId = [] := by
    rw [hv.opened, DepShard.emit, hb.clean p]
    rfl
  have hseen : s'.seen = (w.shard c p).seen.insert id := hv.seen
  obtain ⟨hle, hlink⟩ := ho src' dest hne
  by_cases hsp : src' = p
  · subst hsp
    rw [Ordered, newIds_link (hb.popLink src src') hne.symm full queue he, hopened,
      shard_settle_self, shard_settle_ne hne.symm, shard_popLink, link_popLink,
      if_neg (fun h => hsrc h.1.symm), hlink, List.append_nil]
    simp only [hseen, hid, DepSet.insert_marks, requesterOf_uidAt, if_neg (Ne.symm hsrc)]
    exact ⟨hle, trivial⟩
  · have hlink' : ((w.popLink src p).settle c p full s' queue).link src' dest =
        (w.popLink src p).link src' dest := by
      rw [link, sinks_settle_ne hsp]
      rfl
    rw [Ordered, hlink', shard_settle_ne hsp, shard_popLink, link_popLink]
    by_cases hdp : dest = p
    · subst hdp
      rw [shard_settle_self]
      by_cases hss : src' = src
      · subst hss
        rw [hl, List.filterMap_cons, newId, hp] at hlink
        rw [if_pos ⟨rfl, rfl⟩, hl, List.tail_cons]
        simp only [hseen, hid, DepSet.insert_marks, requesterOf_uidAt, indexOf_uidAt, if_true]
        cases hk : (w.shard c src').seen.marks src' - (w.shard c dest).seen.marks src' with
        | zero =>
          rw [hk] at hlink
          simp at hlink
        | succ k =>
          rw [hk, List.range'_succ, List.map_cons] at hlink
          rw [(List.cons.inj hlink).2]
          refine ⟨by omega, ?_⟩
          rw [Nat.max_eq_right (Nat.le_succ _), show (w.shard c src').seen.marks src' -
            ((w.shard c dest).seen.marks src' + 1) = k by omega]
      · rw [if_neg fun h => hss h.1, hlink]
        simp only [hseen, hid, DepSet.insert_marks, requesterOf_uidAt, if_neg hss]
        exact ⟨hle, trivial⟩
    · rw [shard_settle_ne hdp, if_neg fun h => hdp h.2, shard_popLink]
      exact ⟨hle, hlink⟩

theorem Sound.init : Sound c (World.init : World n) where
  sane := fun p => by
    have h : (World.init : World n).shard c p = DepShard.new c p := rfl
    rw [h]
    exact DepShard.Sane.new
  clean := fun p => rfl
  acks := fun p => MultiSink.acks_new
  sent := fun p => ⟨fun dest packet h => (nomatch h), fun dest packet h => (nomatch h)⟩
  own := fun p => rfl
  arrived := fun p src packet h => (nomatch h)
  valid := fun q e h => (nomatch h)
  queued := fun p entry h => by cases h
  held := fun p entry h => by cases h
  ordered := fun src dest h => ⟨Nat.le_refl _, rfl⟩

theorem Sound.settle (hw : Sound c w) {full : Bool} {s₁ s' : DepShard n} {queue : List (Held n)}
    (ho : Opens c w p s₁)
    (hm : DepShard.Moves c p (heardBy (w.hist ++ s₁.sinks.map (Prod.mk p)) p) s₁ s')
    (hv : DepShard.Views s₁ s' none [] ∨ DepShard.Views s₁ s' (some s₁.nextUid) [s₁.nextUid])
    (hq : ∀ entry ∈ queue, DepShard.Holds (heardBy (w.hist ++ s₁.sinks.map (Prod.mk p)) p) entry) :
    Sound c (w.settle c p full s' queue) where
  toBase := hw.toBase.settle (ho.opened hw.toBase) hm hq
  ordered := by
    have h₁ := ho.opened hw.toBase
    refine ordered_settle hw.toBase hw.ordered h₁ (fun e he => ?_) hv
    exact (h₁.of_moves hm e he).imp_right fun ⟨src, packet, heq, _⟩ => ⟨src, packet, heq⟩

theorem Sound.popLink (hw : Sound c w) {src p : Fin n} {packet : Packet n}
    {rest : List (Packet n)} (hl : w.link src p = packet :: rest)
    (hp : packet.msg.isPreAccept = false) : Sound c (w.popLink src p) where
  toBase := hw.toBase.popLink src p
  ordered := ordered_popLink hw.ordered hl hp

theorem Base.note (hb : Base c w) {src : Fin n} {packet : Packet n} (hsrc : src ≠ p)
    (hsaid : saidTo w.hist src p packet) : Base c (w.note p (.received src packet)) where
  sane := hb.sane
  clean := hb.clean
  acks := hb.acks
  sent := fun q => (hb.sent q).imp fun dest packet hp => saidTo_mono hp
  own := hb.own
  arrived := fun q src' packet' h => by
    rcases List.mem_append.1 h with hold | hnew
    · exact ⟨(hb.arrived q src' packet' hold).1, saidTo_mono (hb.arrived q src' packet' hold).2⟩
    · cases List.mem_singleton.1 hnew
      exact ⟨hsrc, saidTo_mono hsaid⟩
  valid := fun q e h => by
    rcases List.mem_append.1 h with h | h
    · exact hb.valid q e h
    · cases List.mem_singleton.1 h
      exact Or.inr ⟨src, packet, rfl⟩
  queued := fun q entry h => holds_mono (hb.queued q entry h)
  held := fun q entry h => holds_mono (hb.held q entry h)

theorem shard_asleep (hb : Base c w) (hs : (w.shard c p).canSleep c = true) (q : Fin n) :
    ({ w with slots := Function.update w.slots p (.asleep (w.shard c p).fallAsleep) } :
      World n).shard c q =
      if q = p then { w.shard c p with instances := InstanceTable.new n } else w.shard c q := by
  by_cases hq : q = p
  · subst hq
    simp only [shard, Function.update_self, if_true]
    exact DepShard.wakeUp_fallAsleep (hb.sane q) (hb.clean q) hs
  · simp [shard, hq]

theorem Sound.sleep (hw : Sound c w) (hs : (w.shard c p).canSleep c = true) :
    Sound c { w with slots := Function.update w.slots p (.asleep (w.shard c p).fallAsleep) } := by
  have hshard := shard_asleep hw.toBase hs
  have hfree := ((DepShard.canSleep_iff (hw.sane p)).1 hs).2.1
  have hsame : ∀ q, ∃ instances, ({ w with
      slots := Function.update w.slots p (.asleep (w.shard c p).fallAsleep) } : World n).shard c q =
      { w.shard c q with instances := instances } := by
    intro q
    rw [hshard q]
    split
    · rename_i hq
      rw [hq]
      exact ⟨_, rfl⟩
    · exact ⟨_, rfl⟩
  refine ⟨⟨fun q => ?_, fun q => ?_, hw.acks, hw.sent, hw.own, hw.arrived, hw.valid, hw.queued,
    fun q => ?_⟩, fun src dest hne => ?_⟩
  · rw [hshard q]
    split
    · rename_i hq
      subst hq
      exact (hw.sane q).same ⟨rfl, rfl, rfl, rfl, fun id => by simp [hfree id]⟩
        InstanceTable.counted_new (hw.sane q).parked rfl rfl
    · exact hw.sane q
  · obtain ⟨instances, h⟩ := hsame q
    rw [h]
    exact hw.clean q
  · obtain ⟨instances, h⟩ := hsame q
    rw [h]
    exact hw.held q
  · obtain ⟨_, h⟩ := hsame src
    obtain ⟨_, h'⟩ := hsame dest
    rw [Ordered, h, h']
    exact hw.ordered src dest hne

theorem Sound.owe (hw : Sound c w) (p : Fin n) (requesters : Finset (Fin n)) :
    Sound c { w with sinks := Function.update w.sinks p ((w.sinks p).owe requesters) } := by
  have hsame : ∀ q, ∃ recipients, Function.update w.sinks p ((w.sinks p).owe requesters) q =
      { w.sinks q with ackRecipients := recipients } := by
    intro q
    by_cases hq : q = p
    · rw [hq, Function.update_self]
      exact ⟨_, rfl⟩
    · rw [Function.update_of_ne hq]
      exact ⟨_, rfl⟩
  have hlink : ∀ src dest,
      ({ w with sinks := Function.update w.sinks p ((w.sinks p).owe requesters) } :
        World n).link src dest = w.link src dest := by
    intro src dest
    obtain ⟨recipients, h⟩ := hsame src
    simp only [link, h]
  refine ⟨⟨hw.sane, hw.clean, fun q => ?_, fun q => ?_, fun q => ?_, hw.arrived, hw.valid, hw.queued,
    hw.held⟩, fun src dest hne => ?_⟩
  · obtain ⟨recipients, h⟩ := hsame q
    simp only [h]
    exact ⟨(hw.acks q).fast, (hw.acks q).slow⟩
  · obtain ⟨recipients, h⟩ := hsame q
    simp only [h]
    exact ⟨(hw.sent q).links, (hw.sent q).bundle⟩
  · rw [hlink]
    exact hw.own q
  · rw [Ordered, hlink]
    exact hw.ordered src dest hne

theorem Sound.flush (hw : Sound c w) (p : Fin n) :
    Sound c { w with sinks := Function.update w.sinks p ((w.sinks p).flushAcks c p) } := by
  have hlink : ∀ src dest, ∃ acks : List (Packet n), acks.filterMap newId = [] ∧
      (src = dest → acks = []) ∧
      ({ w with sinks := Function.update w.sinks p ((w.sinks p).flushAcks c p) } :
        World n).link src dest = w.link src dest ++ acks := by
    intro src dest
    by_cases hq : src = p
    · subst hq
      simp only [link, Function.update_self, MultiSink.flushAcks]
      split
      · rename_i hd
        refine ⟨_, List.filterMap_eq_nil_iff.2 fun packet hp => ?_, fun h => absurd h.symm hd.1, rfl⟩
        obtain ⟨hack, -⟩ := (hw.acks src).bundle hp
        obtain ⟨msg, value⟩ := packet
        cases msg <;> first | rfl | cases hack
      · exact ⟨[], rfl, fun _ => rfl, (List.append_nil _).symm⟩
    · simp only [link, Function.update_of_ne hq]
      exact ⟨[], rfl, fun _ => rfl, (List.append_nil _).symm⟩
  refine ⟨⟨hw.sane, hw.clean, fun q => ?_, fun q => ?_, fun q => ?_, hw.arrived, hw.valid, hw.queued,
    hw.held⟩, fun src dest hne => ⟨(hw.ordered src dest hne).1, ?_⟩⟩
  · by_cases hq : q = p
    · subst hq
      simp only [Function.update_self]
      exact MultiSink.acks_flushAcks _
    · simp only [Function.update_of_ne hq]
      exact hw.acks q
  · by_cases hq : q = p
    · subst hq
      simp only [Function.update_self]
      exact (hw.sent q).flushAcks
    · simp only [Function.update_of_ne hq]
      exact hw.sent q
  · obtain ⟨acks, -, hown, h⟩ := hlink q q
    rw [h, hown rfl, hw.own q]
    rfl
  · obtain ⟨acks, hnew, -, h⟩ := hlink src dest
    rw [h, List.filterMap_append, hnew, List.append_nil]
    exact (hw.ordered src dest hne).2

theorem Sound.submit (hw : Sound c w) (commands : List (Command n)) (full : Bool) :
    let s' := ((w.shard c p).emit (.submitted commands)).submit c p commands
    Sound c (w.settle c p full s' []) ∧ Turn c w (w.settle c p full s' []) p (w.shard c p) s' := by
  intro s'
  have hs := hw.sane p
  have hm : DepShard.Moves c p (heardBy (w.hist ++ (w.shard c p).sinks.map (Prod.mk p)) p)
      (w.shard c p) s' := .head (.note (Or.inr (Or.inl ⟨commands, rfl⟩)))
    (DepShard.submit_moves commands hs.counted hs.next_free hs.next_unexecuted
      (Or.inl (List.mem_append_right _ (List.mem_singleton_self _))))
  have hk := DepShard.Keeps.emit (e := .submitted commands) (w.shard c p) rfl
  have hv : DepShard.Views ((w.shard c p).emit (.submitted commands)) s' none [] ∨
      DepShard.Views ((w.shard c p).emit (.submitted commands)) s' (some (w.shard c p).nextUid)
        [(w.shard c p).nextUid] := DepShard.views_submit _ commands
  exact ⟨hw.settle .quiet hm (hv.imp hk.views_trans hk.views_trans) (by simp),
    turn_settle hw.toBase hm full []⟩

theorem Sound.submitRead (hw : Sound c w) {command : Command n} (hr : command.readOnly = true)
    (full : Bool) :
    let s' := (w.shard c p).submitRead c p command
    Sound c (w.settle c p full s' []) ∧ Turn c w (w.settle c p full s' []) p (w.shard c p) s' := by
  intro s'
  have hm : DepShard.Moves c p (heardBy (w.hist ++ (w.shard c p).sinks.map (Prod.mk p)) p)
      (w.shard c p) s' := .head (.ask command hr) (.single .serve)
  exact ⟨hw.settle .quiet hm (Or.inl (DepShard.Keeps.submitRead command _).views) (by simp),
    turn_settle hw.toBase hm full []⟩

theorem Sound.drain (hw : Sound c w) (full : Bool) :
    let s' := ((w.shard c p).emit (.handed (w.shard c p).ready)).drainReady
    Sound c (w.settle c p full s' []) ∧ Turn c w (w.settle c p full s' []) p (w.shard c p) s' := by
  intro s'
  have hm : DepShard.Moves c p (heardBy (w.hist ++ (w.shard c p).sinks.map (Prod.mk p)) p)
      (w.shard c p) s' := .single .drain
  have hv : DepShard.Views (w.shard c p) s' none [] := .append rfl rfl rfl
  exact ⟨hw.settle .quiet hm (Or.inl hv) (by simp), turn_settle hw.toBase hm full []⟩

theorem Sound.deliver (hw : Sound c w) (full : Bool) :
    let t := (w.shard c p).deliverTurn c p (w.queues p)
    Sound c (w.settle c p full t.1 t.2) ∧
      Turn c w (w.settle c p full t.1 t.2) p (w.shard c p) t.1 := by
  intro t
  have hq : ∀ entry ∈ w.queues p, entry.2.isPreAccept = false := fun entry he =>
    (hw.queued p entry he).2.2
  have hm : DepShard.Moves c p (heardBy (w.hist ++ (w.shard c p).sinks.map (Prod.mk p)) p)
      (w.shard c p) t.1 := by
    refine DepShard.deliverTurn_moves (hw.sane p).counted fun entry he => ?_
    obtain ⟨⟨value, hv⟩, -, hp⟩ := hw.queued p entry he
    exact ⟨hp, value, heardBy_mono hv⟩
  refine ⟨hw.settle .quiet hm (Or.inl (DepShard.views_deliverTurn _ hq)) fun entry he => ?_,
    turn_settle hw.toBase hm full t.2⟩
  rcases DepShard.mem_deliverTurn hq he with he | ⟨key, he⟩
  · exact holds_mono (hw.queued p entry he)
  · exact holds_mono (hw.held p (key, entry) he)

theorem Sound.arriving (hw : Sound c w) {src p : Fin n} {packet : Packet n}
    {rest : List (Packet n)} (hl : w.link src p = packet :: rest) :
    src ≠ p ∧ saidTo w.hist src p packet := by
  have hmem : packet ∈ (w.sinks src).links p := by
    rw [link] at hl
    rw [hl]
    exact List.mem_cons_self
  refine ⟨?_, (hw.sent src).links p packet hmem⟩
  rintro rfl
  rw [hw.own] at hl
  cases hl

theorem noop_id {slot : Slot n} {msg : DepMsg n} (h : slot.isNoop msg = true) :
    msg.id ≠ none := by
  cases slot with
  | awake shard => cases h
  | asleep state =>
    intro hid
    rw [Slot.isNoop, hid] at h
    cases h

theorem Sound.noop_isPreAccept (hw : Sound c w) {src p : Fin n} {packet : Packet n}
    {rest : List (Packet n)} (hl : w.link src p = packet :: rest)
    (hnoop : (w.slots p).isNoop packet.msg = true) : packet.msg.isPreAccept = false := by
  obtain ⟨msg, value⟩ := packet
  cases msg <;> try rfl
  rename_i id deps
  have hid := ((hw.timely hl).fresh id deps rfl).1
  cases hslot : w.slots p with
  | awake shard =>
    rw [hslot] at hnoop
    cases hnoop
  | asleep state =>
    have hseen : (w.shard c p).seen = state.watermark := by
      rw [shard, hslot]
      rfl
    rw [hslot] at hnoop
    simp only [Slot.isNoop, DepMsg.id, Option.any_some, decide_eq_true_eq, ← hseen, hid] at hnoop
    simp at hnoop

theorem Opens.popLink {src q p : Fin n} {s₁ : DepShard n} (h : Opens c w p s₁) :
    Opens c (w.popLink src q) p s₁ := by
  cases h with
  | quiet => exact .quiet
  | arrival hsrc hsaid ha => exact .arrival hsrc hsaid ha

theorem views_arrives {src : Fin n} {packet : Packet n} {s s₁ s' : DepShard n}
    (ha : DepShard.Arrives c p src s packet s₁)
    (hv : DepShard.Views (s.emit (.received src packet)) s' none [] ∨
      DepShard.Views (s.emit (.received src packet)) s' (some s.nextUid) [s.nextUid]) :
    DepShard.Views s₁ s' none [] ∨ DepShard.Views s₁ s' (some s₁.nextUid) [s₁.nextUid] := by
  cases ha with
  | request =>
    refine hv.imp (fun h => ⟨h.seen, ?_⟩) fun h => ⟨h.seen, ?_⟩ <;>
    · rw [h.opened]
      simp [DepShard.emit, Event.openedId, List.filterMap_cons]
  | response | plain => exact hv.imp (fun h => ⟨h.seen, h.opened⟩) fun h => ⟨h.seen, h.opened⟩

theorem Sound.receive (hw : Sound c w) {src p : Fin n} {packet : Packet n}
    {rest : List (Packet n)} (hl : w.link src p = packet :: rest) (full : Bool) :
    let t := ((w.shard c p).emit (.received src packet)).handle c p src packet
    Sound c ((w.popLink src p).settle c p full t.1 t.2) ∧
      ∃ s₁, Turn c w ((w.popLink src p).settle c p full t.1 t.2) p s₁ t.1 := by
  intro t
  obtain ⟨hsrc, hsaid⟩ := hw.arriving hl
  have htimely : DepShard.Timely src ((w.shard c p).emit (.received src packet)) packet :=
    ⟨(hw.timely hl).fresh, (hw.timely hl).bare⟩
  have hsane : DepShard.Sane c p ((w.shard c p).emit (.received src packet)) :=
    (hw.sane p).same ((DepShard.SameTables.refl _).emitAll [_]) (hw.sane p).counted
      (hw.sane p).parked rfl rfl
  obtain ⟨s₁, ha, hmoves⟩ := DepShard.handle_arrives hsrc (hw.timely hl) hsane
  have hheard : heardBy (w.hist ++ s₁.sinks.map (Prod.mk p)) p src packet := by
    refine List.mem_append_right _ (List.mem_map.2 ⟨_, ?_, rfl⟩)
    cases ha <;> simp [DepShard.emit, DepShard.receiveRead]
  have hm := hmoves _ hheard
  have ho : Opens c w p s₁ := .arrival hsrc hsaid ha
  have hq : ∀ entry ∈ t.2, DepShard.Holds (heardBy (w.hist ++ s₁.sinks.map (Prod.mk p)) p) entry := by
    intro entry he
    rcases DepShard.mem_handle htimely hsane he with ⟨rfl, hid, hp⟩ | ⟨key, he⟩
    · exact ⟨⟨packet.value, hheard⟩, hid, hp⟩
    · exact holds_mono (hw.held p (key, entry) he)
  refine ⟨?_, s₁, turn_receive hw.toBase hsrc hl hsaid ha hm full t.2⟩
  cases hp : packet.msg.isPreAccept with
  | false =>
    exact (hw.popLink hl hp).settle ho.popLink hm (views_arrives ha (DepShard.views_handle htimely hp)) hq
  | true =>
    obtain ⟨msg, value⟩ := packet
    cases msg <;> try cases hp
    rename_i id deps
    obtain ⟨hid, hv⟩ := (hw.timely hl).fresh id deps rfl
    obtain ⟨commands, rfl⟩ := Option.isSome_iff_exists.1 hv
    have hunseen : ¬ (w.shard c p).seen.contains id := by simp [hid]
    refine ⟨(hw.toBase.popLink src p).settle (ho.popLink.opened (hw.toBase.popLink src p)) hm hq, ?_⟩
    refine ordered_learn hw.toBase hw.ordered hsrc hl rfl hid (fun e he => ?_)
      (DepShard.views_handle_preAccept ((hw.sane p).free hunseen) ((hw.sane p).unexecuted hunseen))
    refine ((ho.opened hw.toBase).of_moves hm e he).imp_right ?_
    rintro ⟨src, packet, heq, -⟩
    exact ⟨src, packet, heq⟩

theorem Sound.step (hw : Sound c w) {l : Label n} (hs : w.step c l = some w') :
    Sound c w' ∧ ∃ p s₁ s', Turn c w w' p s₁ s' := by
  have still : ∀ q, w.shard c q = { w.shard c q with sinks := [] } := fun q => by
    rw [← hw.clean q]
  cases l with
  | submit p commands full =>
    obtain ⟨-, hs⟩ := Option.ite_none_right_eq_some.1 hs
    cases hs
    exact ⟨(hw.submit commands full).1, p, _, _, (hw.submit commands full).2⟩
  | submitRead p command =>
    obtain ⟨⟨-, hr⟩, hs⟩ := Option.ite_none_right_eq_some.1 hs
    cases hs
    exact ⟨(hw.submitRead hr false).1, p, _, _, (hw.submitRead hr false).2⟩
  | receive src p full =>
    simp only [World.step] at hs
    split at hs
    · rename_i packet rest hqueue hl
      split at hs
      · rename_i hnoop
        cases hs
        obtain ⟨hsrc, hsaid⟩ := hw.arriving hl
        have hp : packet.msg.isPreAccept = false := hw.noop_isPreAccept hl hnoop
        refine ⟨⟨(hw.popLink hl hp).toBase.note hsrc hsaid, (hw.popLink hl hp).ordered⟩, p, _, _,
          .arrival hsrc hsaid (.plain ?_ ?_), .refl, ?_, fun _ _ => rfl, ?_, ?_⟩
        · intro id key hm
          rw [hm] at hnoop
          exact noop_id hnoop rfl
        · intro id seen hm
          rw [hm] at hnoop
          exact noop_id hnoop rfl
        · exact still p
        · simp only [DepShard.emit, hw.clean p]
          rfl
        · refine .arrival false [] hsrc hl ?_ (fun e he => (by cases he)) ?_
          · simp only [DepShard.emit, hw.clean p, List.nil_append]
          · rw [World.popLink, List.foldl_nil]
            exact (Function.update_eq_self_iff.2 (Function.update_of_ne hsrc.symm _ _).symm).symm
      · cases hs
        obtain ⟨hsound, s₁, hturn⟩ := hw.receive hl full
        exact ⟨hsound, p, s₁, _, hturn⟩
    · cases hs
  | deliver p full =>
    simp only [World.step] at hs
    split at hs
    · cases hs
    · cases hs
      exact ⟨(hw.deliver full).1, p, _, _, (hw.deliver full).2⟩
  | flush p =>
    cases hs
    refine ⟨hw.flush p, p, _, _, .quiet, .refl, still p, fun _ _ => rfl, ?_, .flush (hw.clean p) rfl⟩
    rw [hw.clean p]
    exact (List.append_nil _).symm
  | owe p requesters =>
    cases hs
    refine ⟨hw.owe p requesters, p, _, _, .quiet, .refl, still p, fun _ _ => rfl, ?_,
      .owe requesters (hw.clean p) rfl⟩
    rw [hw.clean p]
    exact (List.append_nil _).symm
  | drain p =>
    obtain ⟨-, hs⟩ := Option.ite_none_right_eq_some.1 hs
    cases hs
    exact ⟨(hw.drain false).1, p, _, _, (hw.drain false).2⟩
  | sleep p =>
    obtain ⟨⟨-, hcan⟩, hs⟩ := Option.ite_none_right_eq_some.1 hs
    cases hs
    have hshard := shard_asleep hw.toBase hcan
    refine ⟨hw.sleep hcan, p, _, _, .quiet,
      .single (.sleep ((DepShard.canSleep_iff (hw.sane p)).1 hcan).2.1), ?_, fun q hq => ?_, ?_,
      .turn false (fun e he => ?_) ?_⟩
    · rw [hshard p, if_pos rfl, ← hw.clean p]
    · rw [hshard q, if_neg hq]
    · rw [hw.clean p]
      exact (List.append_nil _).symm
    · rw [hw.clean p] at he
      cases he
    · rw [hw.clean p, List.foldl_nil, Function.update_eq_self]

theorem Reachable.sound (h : Reachable c w) : Sound c w := by
  induction h with
  | init => exact Sound.init
  | step _ hs ih => exact (ih.step hs).1

end World

end KCensus.Deps

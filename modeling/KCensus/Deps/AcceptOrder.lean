import KCensus.Deps.Parking

namespace KCensus.Deps

open Lib Relation

variable {n : Nat} [NeZero n]

namespace DepShard

variable {c : Cluster n} {me : Fin n} {s s' : DepShard n}

namespace Passes

theorem submit (commands : List (Command n)) (s : DepShard n) : Passes s (s.submit c me commands) := by
  have hopen : ∀ id, Passes s ((s.openInstance c me id commands).tryCommit c me id) := fun id => by
    have hwork := (works_tryCommit c me id (s.openInstance c me id commands)).passes
    refine Passes.trans ?_ hwork
    rw [openInstance_eq]
    refine emitAll s fun e he => ?_
    rcases mem_openEvents he with rfl | rfl | rfl | ⟨-, -, rfl⟩
    · rfl
    · rfl
    · rfl
    · exact passes_ackEvent _ _
  unfold DepShard.submit
  split
  · split
    · rename_i hne
      rw [send, if_neg hne]
      exact emit s rfl
    · exact hopen _
  · exact hopen _

theorem submitRead (command : Command n) (s : DepShard n) :
    Passes s (s.submitRead c me command) := by
  refine Passes.trans (fun e he => ?_) (serveReadyReads _)
  rw [askReplicas_sinks] at he
  refine (List.mem_append.1 he).imp_right fun he => ?_
  simp only [List.mem_cons, List.not_mem_nil, or_false] at he
  rcases he with rfl | rfl <;> rfl

theorem learn (src : Fin n) (id : Uid) (deps : DepSet n) (commands : List (Command n))
    (s : DepShard n) : Passes s (((s.createInstance c id commands).answerPreAccept c me src id deps
      (Instance.fresh c id commands)).tryCommit c me id) := by
  refine Passes.trans ?_ (works_tryCommit c me id _).passes
  rw [learn_eq]
  refine emitAll s fun e he => ?_
  rcases List.mem_cons.1 he with rfl | he
  · rfl
  · obtain ⟨-, rfl | ⟨-, -, rfl⟩ | ⟨acked, -, ⟨-, -, rfl⟩ | ⟨-, -, rfl⟩⟩⟩ := mem_preAcceptEvents he
    · rfl
    · exact passes_ackEvent _ _
    · exact passes_ackEvent _ _
    · rfl

theorem dispatch (c : Cluster n) (me src : Fin n) {msg : DepMsg n} {id : Uid}
    (hp : msg.isPreAccept = false) (hid : msg.id = some id)
    (hset : ∀ deps, msg = .accept id deps → s.depsAreSettled id deps = true) :
    Passes s (s.dispatch c me src msg) := by
  refine Passes.trans ?_ (works_dispatch c me src hp hid s).passes
  cases msg <;> cases hid
  case accept deps => exact emit s (hset deps rfl)
  all_goals exact refl s

theorem deliver {src : Fin n} {msg : DepMsg n} {rest : List (Held n)}
    (hp : msg.isPreAccept = false)
    (hset : ∀ id deps, msg = .accept id deps → ¬ s.executed.contains id →
      (s.blockedBy c me msg = none → s.depsAreSettled id deps = true) ∧
        ∀ dep, s.blockedBy c me msg = some dep → dep ∈ s.parkedAccepts) :
    Passes s (s.deliverTurn c me ((src, msg) :: rest)).1 := by
  simp only [deliverTurn]
  cases hid : msg.id with
  | none => exact emit s rfl
  | some id =>
    simp only []
    split
    · exact refl s
    · rename_i hx
      cases hb : s.blockedBy c me msg with
      | some dep =>
        obtain ⟨-, -, v, deps, rfl, -⟩ := blockedBy_some hb
        cases hid
        have hparked := (hset id deps rfl hx).2 dep hb
        exact emit s (decide_eq_true hparked)
      | none =>
        refine dispatch c me src hp hid fun deps hmsg => ?_
        exact (hset id deps hmsg hx).1 hb

theorem handleAbout {src : Fin n} {packet : Packet n} (id : Uid)
    (hp : packet.msg.isPreAccept = false) (hv : packet.value = none)
    (hset : ∀ id deps, packet.msg = .accept id deps → ¬ s.executed.contains id →
      (s.blockedBy c me packet.msg = none → s.depsAreSettled id deps = true) ∧
        ∀ dep, s.blockedBy c me packet.msg = some dep → dep ∈ s.parkedAccepts) :
    Passes s (s.handleAbout c me id src packet).1 := by
  rw [DepShard.handleAbout, hv]
  split
  · exact refl s
  · split
    · exact deliver hp hset
    · exact refl s

theorem handle (hsane : Sane c me s) {src : Fin n} {packet : Packet n} (hsrc : src ≠ me)
    (ht : Timely src s packet)
    (hset : ∀ id deps, packet.msg = .accept id deps → ¬ s.executed.contains id →
      (s.blockedBy c me packet.msg = none → s.depsAreSettled id deps = true) ∧
        ∀ dep, s.blockedBy c me packet.msg = some dep → dep ∈ s.parkedAccepts) :
    Passes s (s.handle c me src packet).1 := by
  obtain ⟨msg, value⟩ := packet
  cases msg with
  | forward =>
    cases value with
    | none => exact emit s rfl
    | some commands => exact submit commands s
  | readRequest id key =>
    simp only [DepShard.handle, send, if_neg hsrc]
    exact emit s rfl
  | readResponse id seen =>
    have hread : Passes s (s.receiveRead id src seen) := refl s
    exact hread.trans (serveReadyReads _)
  | preAccept id deps =>
    obtain ⟨hid, hv⟩ := ht.fresh id deps rfl
    obtain ⟨commands, rfl⟩ := Option.isSome_iff_exists.1 hv
    have hunseen : ¬ s.seen.contains id := by simp [hid]
    rw [handle_preAccept (hsane.free hunseen) (hsane.unexecuted hunseen)]
    exact learn src id deps commands s
  | preAcceptOk id deps => exact handleAbout id rfl (ht.bare rfl (by simp)) hset
  | accept id deps => exact handleAbout id rfl (ht.bare rfl (by simp)) hset
  | acceptOk id => exact handleAbout id rfl (ht.bare rfl (by simp)) hset
  | commit id deps => exact handleAbout id rfl (ht.bare rfl (by simp)) hset

end Passes

theorem dispatch_logs (hs : s.instances.Counted) (src : Fin n) (id : Uid) (deps : DepSet n) :
    Event.dispatchedAccept id deps (s.depsAreSettled id deps) ∈
      (s.dispatch c me src (.accept id deps)).sinks := by
  have hlog : Event.dispatchedAccept id deps (s.depsAreSettled id deps) ∈
      (s.emit (.dispatchedAccept id deps (s.depsAreSettled id deps))).sinks :=
    List.mem_append_right _ List.mem_cons_self
  simp only [dispatch, onAccept]
  cases hi : s.instances.get id with
  | none =>
    rw [withInstance_none (by exact hi)]
    exact List.mem_append_left _ hlog
  | some i =>
    rw [withInstance_some (by exact hi), answerAccept_eq]
    have hmoves : ∀ t : DepShard n, t.instances.Counted →
        Moves c me (fun _ _ => True) t (t.tryCommit c me id) := fun t ht => tryCommit_moves id ht
    have hc : (s.put id (i.acceptedFrom c me src deps)).instances.Counted := counted_put hs id _
    refine (hmoves _ ?_).sinks_grow.subset (List.mem_append_left _ hlog)
    exact hc

theorem blockedBy_accept (hsw : c.isSwift = true) (hr : c.isReplica me = true) (id : Uid)
    (deps : DepSet n) : s.blockedBy c me (.accept id deps) =
      if s.parkedAccepts = ∅ then none else s.firstUnsettled id deps := by
  unfold blockedBy
  by_cases hp : s.parkedAccepts = ∅
  · simp [hp]
  · simp [hp, hsw, hr]

theorem asserts (hsw : c.isSwift = true) (hr : c.isReplica me = true) {id : Uid} {deps : DepSet n}
    (h : ∀ dep, s.firstUnsettled id deps = some dep → dep ∈ s.parkedAccepts) :
    (s.blockedBy c me (.accept id deps) = none → s.depsAreSettled id deps = true) ∧
      ∀ dep, s.blockedBy c me (.accept id deps) = some dep → dep ∈ s.parkedAccepts := by
  rw [blockedBy_accept hsw hr]
  split
  · rename_i hp
    refine ⟨fun _ => firstUnsettled_none.1 (Option.eq_none_iff_forall_not_mem.2 fun dep hdep => ?_),
      fun dep hdep => nomatch hdep⟩
    have := h dep hdep
    rw [hp] at this
    cases this
  · exact ⟨firstUnsettled_none.1, h⟩

-- By FIFO the Accept of every dependency has come in before; one that has not settled waits.
theorem firstUnsettled_parked {leader : Fin n} {hist : List (Fin n × Event n)} {t : DepShard n}
    (hled : Led c hist leader t) {id : Uid} {deps : DepSet n} {rest : List (Held n)} {got : List Uid}
    (hk : (id, deps) ∈ acceptances hist leader) (hgot : got <+: accepted hist leader) (hid : id ∈ got)
    (htaken : ∀ v ∈ got, v ≠ id → ∃ src d, s.Applied src (.accept v d) ∨
      (src, .accept v d) ∈ rest ∨ ∃ key, (key, (src, .accept v d)) ∈ s.deferred)
    (hparked : ∀ v ∈ acceptIds (s.deferred.map Prod.snd), v ∈ s.parkedAccepts) {dep : Uid}
    (hf : s.firstUnsettled id deps = some dep) (hrest : dep ∉ acceptIds rest) :
    dep ∈ s.parkedAccepts := by
  obtain ⟨hdep, hne, hset⟩ := firstUnsettled_some hf
  have hcame : dep ∈ got := by
    obtain ⟨k, hk⟩ := List.mem_iff_getElem?.1 hk
    obtain ⟨hlt, hkid⟩ := List.getElem?_eq_some_iff.1 (Follows.ids_getElem hk)
    have hkgot : k < got.length := (getElem_mem_initial hled.nodup hgot hlt).1 (hkid ▸ hid)
    obtain ⟨j, hj, hjdep⟩ := List.mem_take_iff_getElem.1 (hled.below k id deps hk dep hdep)
    rw [← hjdep]
    exact (getElem_mem_initial hled.nodup hgot (by omega)).2 (by omega)
  obtain ⟨src, d, happ | hq | ⟨key, hd⟩⟩ := htaken dep hcame hne
  · refine absurd ?_ hset
    rcases happ dep rfl with hx | ⟨i, hi, ht⟩
    · exact Or.inl hx
    · refine Or.inr ((settledAt_iff _ _).2 ⟨i, hi, ht.elim Instance.isSettled_of_isCommitted ?_⟩)
      exact fun h => h
  · exact absurd ((mem_acceptIds _ _).2 ⟨src, d, hq⟩) hrest
  · exact hparked dep ((mem_acceptIds _ _).2 ⟨src, d, List.mem_map.2 ⟨_, hd, rfl⟩⟩)

end DepShard

namespace World

variable {c : Cluster n} {leader p : Fin n} {quorum : Option (Finset (Fin n))} {w w' : World n}

omit [NeZero n] in
theorem mem_gotAccepts {hist : List (Fin n × Event n)} {v : Uid} :
    v ∈ gotAccepts hist leader p ↔
      ∃ d value, heardBy hist p leader ⟨.accept v d, value⟩ := by
  constructor
  · intro h
    obtain ⟨⟨id, d⟩, hm, rfl⟩ := List.mem_map.1 h
    obtain ⟨⟨msg, value⟩, hp, hacc⟩ := List.mem_filterMap.1 hm
    cases msg <;> cases hacc
    obtain ⟨e, he, hrec⟩ := List.mem_filterMap.1 hp
    cases e <;> try cases hrec
    rename_i src packet
    obtain ⟨rfl, heq⟩ := Option.ite_none_right_eq_some.1 hrec
    exact ⟨d, value, Option.some.inj heq ▸ mem_logOf.1 he⟩
  · rintro ⟨d, value, hh⟩
    refine List.mem_map.2 ⟨(v, d), List.mem_filterMap.2 ⟨⟨.accept v d, value⟩, ?_, rfl⟩, rfl⟩
    exact List.mem_filterMap.2 ⟨_, mem_logOf.2 hh, if_pos rfl⟩

theorem Reachable.acceptance (hm : c.mode = .swiftPaxos leader quorum) (h : Reachable c w)
    {src : Fin n} {id : Uid} {deps : DepSet n} {value : Option (List (Command n))}
    (hs : saidTo w.hist src p ⟨.accept id deps, value⟩) :
    src = leader ∧ (id, deps) ∈ acceptances w.hist leader := by
  have hsrc := h.sound.toBase.accept_src hm hs
  refine ⟨hsrc, (h.led hm).proposal id deps ?_⟩
  have hprop := ((h.settled src).1.2.said _ hs.said).2.2.2 (Cluster.swift_of_mode hm)
  exact hsrc ▸ hprop

-- The two debug assertions on the leader's order hold at every voter but the leader.
def InOrder (c : Cluster n) (leader : Fin n) (w : World n) : Prop :=
  ∀ p, c.isReplica p = true → p ≠ leader →
    (∀ id deps settled, (p, Event.dispatchedAccept id deps settled) ∈ w.hist → settled = true) ∧
      ∀ id dep parked, (p, Event.blocked id dep parked) ∈ w.hist → parked = true

-- `deliver` does not get to an Accept before the Accept, further back in its queue, of the first
-- dependency that has not settled.
def clear (c : Cluster n) (w : World n) : Label n → Bool
  | .deliver p _ =>
      match w.queues p with
      | (_, .accept id deps) :: rest =>
          !c.isReplica p || decide ((w.shard c p).executed.contains id) ||
            ((w.shard c p).firstUnsettled id deps).all (· ∉ DepShard.acceptIds rest)
      | _ => true
  | _ => true

theorem clear_deliver {src : Fin n} {id : Uid} {deps : DepSet n} {rest : List (Held n)}
    (hq : w.queues p = (src, .accept id deps) :: rest) {full : Bool} :
    w.clear c (.deliver p full) = true ↔ (c.isReplica p = true →
      ¬ (w.shard c p).executed.contains id → ∀ dep, (w.shard c p).firstUnsettled id deps = some dep →
        dep ∉ DepShard.acceptIds rest) := by
  simp only [clear, hq]
  cases hf : (w.shard c p).firstUnsettled id deps <;> cases hr : c.isReplica p <;>
    by_cases hx : (w.shard c p).executed.contains id <;> simp [hx]

theorem inOrder_iff : w.InOrder c leader ↔
    ∀ p, c.isReplica p = true → p ≠ leader → ∀ e, (p, e) ∈ w.hist → e.passes = true := by
  constructor
  · intro h p hr hne e he
    cases e with
    | dispatchedAccept id deps settled => exact (h p hr hne).1 id deps settled he
    | blocked id dep parked => exact (h p hr hne).2 id dep parked he
    | broadcast | send | queueAck | submitted | received | created | proposed | committed | executed
    | ordered | readSubmitted | served | handed | panicked => rfl
  · intro h p hr hne
    exact ⟨fun id deps settled he => h p hr hne _ he, fun id dep parked he => h p hr hne _ he⟩

theorem passes_settle {q : Fin n} {full : Bool} {s' : DepShard n} {queue : List (Held n)}
    (hb : Base c w) (hp : p = q → DepShard.Passes (w.shard c q) s') {e : Event n}
    (he : (p, e) ∈ (w.settle c q full s' queue).hist) : (p, e) ∈ w.hist ∨ e.passes = true := by
  rw [hist_settle] at he
  refine (mem_log he).imp_right fun ⟨hq, hnew⟩ => ?_
  refine (hp hq e hnew).resolve_left fun hold => ?_
  rw [hb.clean q] at hold
  cases hold

section

variable (hm : c.mode = .swiftPaxos leader quorum) (hr : c.isReplica p = true) (hne : p ≠ leader)

include hm hr hne

theorem Reachable.passes_deliver (h : Reachable c w) {src : Fin n} {msg : DepMsg n}
    {rest : List (Held n)} (hq : w.queues p = (src, msg) :: rest)
    (hclear : ∀ id deps, msg = .accept id deps → ¬ (w.shard c p).executed.contains id →
      ∀ dep, (w.shard c p).firstUnsettled id deps = some dep → dep ∉ DepShard.acceptIds rest) :
    DepShard.Passes (w.shard c p) ((w.shard c p).deliverTurn c p ((src, msg) :: rest)).1 := by
  have hsound := h.sound
  have hhead : (src, msg) ∈ w.queues p := hq ▸ List.mem_cons_self
  obtain ⟨⟨value, hh⟩, -, hpre⟩ := hsound.queued p _ hhead
  refine DepShard.Passes.deliver hpre fun id deps hmsg hx => ?_
  subst hmsg
  obtain ⟨rfl, hk⟩ := h.acceptance hm (hsound.arrived p src _ hh).2
  refine DepShard.asserts (Cluster.swift_of_mode hm) hr fun dep hdep => ?_
  have hparked := h.parked hm hr hne
  refine DepShard.firstUnsettled_parked (h.led hm) hk (h.gotAccepts_first hr hne)
    (mem_gotAccepts.2 ⟨deps, value, hh⟩) (fun v hv hvid => ?_) hparked.parked hdep
    (hclear id deps rfl hx dep hdep)
  obtain ⟨d, value', hv⟩ := mem_gotAccepts.1 hv
  refine ⟨src, d, ((h.waits p).taken src _ hv rfl).imp_right (Or.imp_left fun hmem => ?_)⟩
  rw [hq] at hmem
  refine (List.mem_cons.1 hmem).resolve_left fun heq => ?_
  cases heq
  exact hvid rfl

theorem Reachable.passes_receive (h : Reachable c w) {src : Fin n} {packet : Packet n}
    {more : List (Packet n)} (hqueue : w.queues p = []) (hl : w.link src p = packet :: more) :
    DepShard.Passes (w.shard c p)
      (((w.shard c p).emit (.received src packet)).handle c p src packet).1 := by
  have hsound := h.sound
  obtain ⟨hsrc, hsaid⟩ := hsound.arriving hl
  have hsane := (hsound.sane p).same ((DepShard.SameTables.refl _).emitAll [.received src packet])
    (hsound.sane p).counted (hsound.sane p).parked rfl rfl
  have htimely : DepShard.Timely src ((w.shard c p).emit (.received src packet)) packet :=
    ⟨(hsound.timely hl).fresh, (hsound.timely hl).bare⟩
  refine (DepShard.Passes.emit _ rfl).trans (DepShard.Passes.handle hsane hsrc htimely
    fun id deps hmsg hx => ?_)
  obtain ⟨msg, value⟩ := packet
  subst hmsg
  obtain ⟨rfl, hk⟩ := h.acceptance hm hsaid
  refine DepShard.asserts (Cluster.swift_of_mode hm) hr fun dep hdep => ?_
  have hdue := h.due hsrc hl _ _ (lane_accepts hr)
  rw [accepts_sent hsound.toBase.faithful hr hne] at hdue
  have hprefix : gotAccepts w.hist src p ++ [id] <+: accepted w.hist src := by
    have := hdue.map Prod.fst
    rwa [List.map_append] at this
  have hnone : dep ∉ DepShard.acceptIds ([] : List (Held n)) := fun hmem => nomatch hmem
  refine DepShard.firstUnsettled_parked (h.led hm) hk hprefix
    (List.mem_append_right _ List.mem_cons_self) (fun v hv hvid => ?_) (h.parked hm hr hne).parked
    hdep hnone
  obtain ⟨d, value', hv⟩ := mem_gotAccepts.1
    ((List.mem_append.1 hv).resolve_right fun hmem => hvid (List.mem_singleton.1 hmem))
  refine ⟨src, d, ((h.waits p).taken src _ hv rfl).imp_right (Or.imp_left fun hmem => ?_)⟩
  rw [hqueue] at hmem
  cases hmem

end

theorem Reachable.step_passes (hm : c.mode = .swiftPaxos leader quorum)
    (hr : c.isReplica p = true) (hne : p ≠ leader) (h : Reachable c w) {l : Label n}
    (hl : w.clear c l = true) (hs : w.step c l = some w') {e : Event n} (he : (p, e) ∈ w'.hist) :
    (p, e) ∈ w.hist ∨ e.passes = true := by
  have hb := h.sound.toBase
  cases l with
  | submit q commands full =>
    obtain ⟨-, hs⟩ := Option.ite_none_right_eq_some.1 hs
    cases hs
    exact passes_settle hb (fun _ => (DepShard.Passes.emit _ rfl).trans (.submit commands _)) he
  | submitRead q command =>
    obtain ⟨-, hs⟩ := Option.ite_none_right_eq_some.1 hs
    cases hs
    exact passes_settle hb (fun _ => .submitRead command _) he
  | receive src q full =>
    simp only [World.step] at hs
    split at hs
    · rename_i packet rest hqueue hlink
      split at hs
      · cases hs
        refine (List.mem_append.1 he).imp_right fun hnew => ?_
        cases List.mem_singleton.1 hnew
        rfl
      · cases hs
        refine passes_settle (w := w.popLink src q) (hb.popLink src q) (fun hq => ?_) he
        subst hq
        exact h.passes_receive hm hr hne hqueue hlink
    · cases hs
  | deliver q full =>
    simp only [World.step] at hs
    split at hs
    · cases hs
    · rename_i hqueue
      cases hs
      refine passes_settle hb (fun hq => ?_) he
      subst hq
      obtain ⟨⟨src, msg⟩, rest, hq⟩ := List.exists_cons_of_ne_nil hqueue
      rw [hq]
      refine h.passes_deliver hm hr hne hq fun id deps hmsg => ?_
      subst hmsg
      exact (clear_deliver hq).1 hl hr
  | flush q | owe q requesters =>
    cases hs
    exact Or.inl he
  | drain q =>
    obtain ⟨-, hs⟩ := Option.ite_none_right_eq_some.1 hs
    cases hs
    have hdrain : DepShard.Passes (w.shard c q)
        ((w.shard c q).emit (.handed (w.shard c q).ready)).drainReady := .emit _ rfl
    exact passes_settle hb (fun _ => hdrain) he
  | sleep q =>
    obtain ⟨-, hs⟩ := Option.ite_none_right_eq_some.1 hs
    cases hs
    exact Or.inl he

theorem Reachable.step_fails (hm : c.mode = .swiftPaxos leader quorum) (h : Reachable c w)
    {l : Label n} (hl : ¬ w.clear c l = true) (hs : w.step c l = some w') : ¬ w'.InOrder c leader := by
  cases l with
  | submit | submitRead | receive | flush | owe | drain | sleep => exact absurd rfl hl
  | deliver p full =>
    obtain ⟨src, id, deps, rest, hq⟩ : ∃ src id deps rest,
        w.queues p = (src, DepMsg.accept id deps) :: rest := by
      by_contra hno
      simp only [not_exists] at hno
      refine hl ?_
      simp only [clear]
    rw [clear_deliver hq] at hl
    simp only [not_forall, not_not] at hl
    obtain ⟨hr, hx, dep, hdep, hrest⟩ := hl
    have hsound := h.sound
    obtain ⟨⟨value, hh⟩, -⟩ := hsound.queued p (src, .accept id deps) (hq ▸ List.mem_cons_self)
    obtain ⟨hsrc, hsaid⟩ := hsound.arrived p src _ hh
    have hleader := h.sound.toBase.accept_src hm hsaid
    have hne : p ≠ leader := fun heq => hsrc (hleader.trans heq.symm)
    simp only [World.step, hq, Option.some.injEq] at hs
    subst hs
    intro hin
    obtain ⟨hset, hblock⟩ := hin p hr hne
    rw [hist_settle] at hset hblock
    have hnew : ∀ {e : Event n},
        e ∈ ((w.shard c p).deliverTurn c p ((src, .accept id deps) :: rest)).1.sinks →
        (p, e) ∈ w.hist ++ ((w.shard c p).deliverTurn c p
          ((src, .accept id deps) :: rest)).1.sinks.map (Prod.mk p) := fun he =>
      List.mem_append_right _ (List.mem_map.2 ⟨_, he, rfl⟩)
    have hblocked := DepShard.blockedBy_accept (s := w.shard c p) (Cluster.swift_of_mode hm) hr id deps
    split at hblocked
    · have hfalse : (w.shard c p).depsAreSettled id deps = false := by
        rw [← Bool.not_eq_true, ← DepShard.firstUnsettled_none, hdep]
        exact fun h => by cases h
      refine absurd (hset id deps false (hnew ?_)) (by simp)
      simp only [DepShard.deliverTurn, DepMsg.id, if_neg hx, hblocked]
      exact hfalse ▸ DepShard.dispatch_logs (hsound.sane p).counted src id deps
    · rw [hdep] at hblocked
      have hparked : dep ∉ (w.shard c p).parkedAccepts := fun hpk => by
        have hnodup := (h.parked hm hr hne).nodup
        rw [DepShard.inHand, hq, DepShard.acceptIds, List.filterMap_append,
          List.nodup_append] at hnodup
        refine hnodup.2.2 dep ?_ dep ((hsound.sane p).parked dep hpk) rfl
        exact List.mem_cons_of_mem _ hrest
      refine absurd (hblock id dep false (hnew ?_)) (by simp)
      simp only [DepShard.deliverTurn, DepMsg.id, if_neg hx, hblocked]
      refine List.mem_append_right _ (List.mem_singleton.2 ?_)
      rw [decide_eq_false hparked]

inductive Run (c : Cluster n) : List (World n × Label n) → World n → Prop where
  | init : Run c [] init
  | step {steps : List (World n × Label n)} {w w' : World n} {l : Label n} :
      Run c steps w → w.step c l = some w' → Run c (steps ++ [(w, l)]) w'

theorem Run.reachable {steps : List (World n × Label n)} (h : Run c steps w) : Reachable c w := by
  induction h with
  | init => exact .init
  | step _ hs ih => exact ih.step hs

def steps (c : Cluster n) : List (Label n) → World n → List (World n × Label n)
  | [], _ => []
  | l :: labels, w =>
      match w.step c l with
      | some w' => (w, l) :: steps c labels w'
      | none => steps c labels w

theorem Run.run {before : List (World n × Label n)} (h : Run c before w) (labels : List (Label n)) :
    Run c (before ++ World.steps c labels w) (w.run c labels) := by
  induction labels generalizing before w with
  | nil => exact (List.append_nil before).symm ▸ h
  | cons l labels ih =>
    rw [World.run, List.foldl_cons, World.steps]
    cases hs : w.step c l with
    | none => exact ih h
    | some w' =>
      have := ih (h.step hs)
      rwa [List.append_assoc] at this

theorem accepts_in_order_iff (hm : c.mode = .swiftPaxos leader quorum)
    {steps : List (World n × Label n)} (h : Run c steps w) :
    w.InOrder c leader ↔ ∀ step ∈ steps, step.1.clear c step.2 = true := by
  induction h with
  | init => exact ⟨fun _ step hstep => (nomatch hstep), fun _ p _ _ =>
      ⟨fun _ _ _ he => (nomatch he), fun _ _ _ he => nomatch he⟩⟩
  | @step steps w w' l hr hs ih =>
    rw [List.forall_mem_append, List.forall_mem_singleton, ← ih]
    constructor
    · intro h
      refine ⟨?_, ?_⟩
      · obtain ⟨-, q, s₁, s', ht⟩ := hr.reachable.sound.step hs
        rw [inOrder_iff] at h ⊢
        exact fun p hp hne e he => h p hp hne e (ht.hist ▸ List.mem_append_left _ he)
      · by_contra hl
        exact hr.reachable.step_fails hm hl hs h
    · rintro ⟨h, hl⟩
      rw [inOrder_iff] at h ⊢
      exact fun p hp hne e he =>
        (hr.reachable.step_passes hm hp hne hl hs he).elim (h p hp hne e) fun h => h

-- How `on_accept` found the dependencies of a command at `p`, each time it was called.
def verdicts (p : Fin n) (id : Uid) (w : World n) : List Bool :=
  w.hist.filterMap fun entry =>
    match entry with
    | (q, .dispatchedAccept v _ settled) => if q = p ∧ v = id then some settled else none
    | _ => none

theorem mem_of_verdicts {id : Uid} {settled : Bool} (h : settled ∈ w.verdicts p id) :
    ∃ deps, (p, Event.dispatchedAccept id deps settled) ∈ w.hist := by
  obtain ⟨⟨q, e⟩, hm, he⟩ := List.mem_filterMap.1 h
  cases e <;> simp only [reduceCtorEq, Option.ite_none_right_eq_some, Option.some.injEq] at he
  obtain ⟨⟨rfl, rfl⟩, rfl⟩ := he
  exact ⟨_, hm⟩

def ledFour : Cluster 4 where
  alive := Finset.univ
  nbReplicas := 4
  mode := .swiftPaxos 0 none
  acks := false
  crossShard := false
  alive_le := by simp
  mode_valid := by simp [DepMode.Valid]

-- The leader's three Accepts come in ahead of the first two commands, which then let them through.
def parkedRun : List (Label 4) :=
  [.submit 2 [writeOf 2 0] false, .submit 3 [writeOf 3 0] false, .receive 2 0 false,
    .receive 3 0 false, .submit 0 [writeOf 0 0] false, .receive 0 1 false, .receive 0 1 false,
    .receive 0 1 false, .receive 0 1 false, .receive 2 1 false, .deliver 1 false, .deliver 1 false,
    .receive 3 1 false, .deliver 1 false, .deliver 1 false]

theorem parked_in_order :
    (1, Event.dispatchedAccept (uidAt 0 (0 : Fin 4))
        (((DepSet.new 4).insert (uidAt 0 (2 : Fin 4))).insert (uidAt 0 (3 : Fin 4))) true) ∈
      (World.init.run ledFour parkedRun).hist ∧
    (World.init.run ledFour parkedRun).InOrder ledFour 0 :=
  ⟨by decide +kernel, (accepts_in_order_iff rfl (Run.init.run parkedRun)).2 (by decide +kernel)⟩

-- The leader's third Accept waits for the commands of the first two, and is let through ahead of
-- the first.
def overtaking : World 4 :=
  World.init.run ledFour
    [.submit 2 [writeOf 2 0] false, .submit 3 [writeOf 3 0] false, .receive 2 0 false,
      .receive 3 0 false, .submit 0 [writeOf 0 0] false, .receive 0 1 false, .receive 0 1 false,
      .receive 0 1 false, .receive 0 1 false, .receive 3 1 false, .deliver 1 false,
      .receive 2 1 false, .deliver 1 false, .deliver 1 false]

theorem overtaking_out_of_order :
    Reachable ledFour overtaking ∧ overtaking.verdicts 1 (uidAt 0 (0 : Fin 4)) = [false] ∧
      ¬ overtaking.InOrder ledFour 0 := by
  have hlog : overtaking.verdicts 1 (uidAt 0 (0 : Fin 4)) = [false] := by decide +kernel
  refine ⟨Reachable.init.run _, hlog, fun h => ?_⟩
  obtain ⟨deps, hm⟩ := mem_of_verdicts (hlog ▸ List.mem_cons_self)
  cases (h 1 (by decide) (by decide)).1 _ _ _ hm

end World

end KCensus.Deps

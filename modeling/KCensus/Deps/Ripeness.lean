import KCensus.Deps.Backlog

namespace KCensus.Deps

open Relation

variable {n : Nat} [NeZero n]

-- The answers an instance has gathered are enough for its process to move on.
inductive Instance.Ripe (c : Cluster n) (me : Fin n) (i : Instance n) : Prop where
  | fast : c.isSwift = false → i.coordinatorPid = me → i.isSettled = false →
      i.allPreacceptsEndorse = true → c.fastQuorum ≤ i.preacceptsCount → Ripe c me i
  | slow : c.isSwift = false → i.coordinatorPid = me → i.isSettled = false →
      c.slowQuorum ≤ i.preacceptsCount →
      (i.allPreacceptsEndorse = false ∨ c.reachable < c.fastQuorum) → Ripe c me i
  | accepted : c.isSwift = false → i.coordinatorPid = me → i.phase = .accepted →
      c.slowQuorum ≤ i.acceptAcked.card → Ripe c me i
  | swift : c.isSwift = true → i.phase = .accepted →
      (i.fastEndorsers.any c.swiftFastQuorumReached = true ∨ c.slowQuorum ≤ i.acceptAcked.card) →
      Ripe c me i

namespace Instance

variable {c : Cluster n} {me : Fin n} {i : Instance n}

omit [NeZero n] in
theorem settled_of_accepted (h : i.phase = .accepted) : i.isSettled = true := by
  simp [isSettled, h]

omit [NeZero n] in
theorem not_ripe_of_committed (h : i.isCommitted = true) : ¬ i.Ripe c me := by
  rw [isCommitted, decide_eq_true_eq] at h
  rintro (⟨-, -, hs, -⟩ | ⟨-, -, hs, -⟩ | ⟨-, -, hs, -⟩ | ⟨-, hs, -⟩)
  · simp [isSettled, h] at hs
  · simp [isSettled, h] at hs
  · cases h.symm.trans hs
  · cases h.symm.trans hs

-- Only a leader's proposal can be endorsed.
def Endorsed (i : Instance n) : Prop := i.endorsers.Nonempty → i.leaderDeps.isSome = true

namespace Endorsed

omit [NeZero n] in
theorem new (coordinatorPid leader : Fin n) (commands : List (Command n)) (deps : DepSet n) :
    (Instance.new coordinatorPid leader commands deps).Endorsed := fun h => nomatch h.choose_spec

omit [NeZero n] in
theorem recordPreaccept (h : i.Endorsed) (src : Fin n) (deps : DepSet n) :
    (i.recordPreaccept src deps).Endorsed := by
  unfold Instance.recordPreaccept
  split
  · exact h
  · intro hn
    simp only [leaderDeps]
    split
    · rfl
    · rename_i hl
      simp only [if_neg (Ne.symm hl)] at hn
      split at hn
      · rename_i hd
        exact Option.isSome_iff_exists.2 ⟨deps, hd⟩
      · exact h hn

omit [NeZero n] in
theorem opened (deps : DepSet n) (commands : List (Command n)) :
    (Instance.opened c me deps commands).Endorsed := by
  have hvote : ((if c.inFastQuorum me then
      (Instance.new me (c.leader me) commands deps).recordPreaccept me deps
      else Instance.new me (c.leader me) commands deps).setCoordinatorDeps deps).Endorsed := by
    split
    · exact (new me (c.leader me) commands deps).recordPreaccept me deps
    · exact new me (c.leader me) commands deps
  unfold Instance.opened
  simp only []
  split
  · exact hvote.recordPreaccept me deps
  · exact hvote

omit [NeZero n] in
theorem voted (h : i.Endorsed) (deps : DepSet n) : (i.voted c me deps).Endorsed := by
  unfold Instance.voted
  split
  · exact (h.recordPreaccept me deps).recordPreaccept me deps
  · exact h.recordPreaccept me deps

omit [NeZero n] in
theorem preAccepted (h : i.Endorsed) (src : Fin n) (deps myDeps : DepSet n) :
    (i.preAccepted c me src deps myDeps).Endorsed := by
  have hp : (i.proposedBy c src deps).Endorsed := by
    unfold Instance.proposedBy
    split
    · exact Endorsed.recordPreaccept (i := i.setCoordinatorDeps deps) h src deps
    · exact h
  unfold Instance.preAccepted
  generalize i.proposedBy c src deps = j at hp ⊢
  simp only []
  split
  · exact hp
  · split
    · exact Endorsed.voted (i := { j with deps := myDeps }) hp myDeps
    · exact hp

omit [NeZero n] in
theorem acceptedFrom (h : i.Endorsed) (src : Fin n) (deps : DepSet n) :
    (i.acceptedFrom c me src deps).Endorsed := by
  have hmark : (if c.isSwift then i else i.markLeftFastPath).Endorsed := by
    split <;> exact h
  unfold Instance.acceptedFrom
  generalize (if c.isSwift then i else i.markLeftFastPath) = j at hmark ⊢
  have hvote : (if c.isSwift then ((j.accept deps).ackAccept src).recordPreaccept src deps
      else (j.accept deps).ackAccept src).Endorsed := by
    split
    · exact Endorsed.recordPreaccept (i := (j.accept deps).ackAccept src) hmark src deps
    · exact hmark
  simp only []
  split
  · exact hmark
  · split
    · exact hvote
    · exact hvote

omit [NeZero n] in
theorem leaderDeps (h : i.Endorsed) (he : i.allPreacceptsEndorse = true)
    (hq : c.fastQuorum ≤ i.preacceptsCount) : i.leaderDeps ≠ none := by
  rw [allPreacceptsEndorse, decide_eq_true_eq] at he
  have hslow : 0 < c.slowQuorum := by
    unfold Cluster.slowQuorum
    omega
  have hpos : 0 < i.endorsers.card := by
    rw [he]
    exact Nat.lt_of_lt_of_le hslow (Nat.le_trans c.slow_le_fast hq)
  exact Option.isSome_iff_ne_none.1 (h (Finset.card_pos.1 hpos))

end Endorsed

end Instance

namespace DepShard

variable {c : Cluster n} {me : Fin n} {s s' : DepShard n} {id : Uid}

def Endorsed (s : DepShard n) : Prop := ∀ id i, s.instances.get id = some i → i.Endorsed

def Unripe (c : Cluster n) (me : Fin n) (s : DepShard n) (id : Uid) : Prop :=
  ∀ i, s.instances.get id = some i → ¬ i.Ripe c me

theorem Spared.unripe (hs : Spared s s' id) (h : s.Unripe c me id) : s'.Unripe c me id := by
  intro i hi
  rcases hs with ⟨heq, -⟩ | ⟨-, hnone, -⟩
  · exact h i (heq ▸ hi)
  · exact nomatch hnone.symm.trans hi

theorem committed_onCommit (deps : DepSet n) {j : Instance n}
    (hj : (s.onCommit me id deps).instances.get id = some j) : j.isCommitted = true := by
  cases hi : s.instances.get id with
  | none =>
    rw [onCommit, withInstance_none hi] at hj
    cases hi.symm.trans hj
  | some i =>
    rw [onCommit, withInstance_some hi] at hj
    split at hj
    · rename_i hc
      rw [hi] at hj
      exact Option.some.inj hj ▸ hc
    · have hput := get_put_self hi (fillReport (commitReport me id deps i s) (i.commit deps))
      have hspared : Spared ((s.put id (fillReport (commitReport me id deps i s) (i.commit
        deps))).emit (.committed id deps)) _ id := Spared.executeReady _
      rcases hspared with ⟨heq, -⟩ | ⟨-, hnone, -⟩
      · rw [hj] at heq
        have hij := Option.some.inj (heq.trans hput)
        rw [hij]
        simp [Instance.isCommitted, Instance.commit]
      · cases hnone.symm.trans hj

theorem unripe_onCommit (deps : DepSet n) : (s.onCommit me id deps).Unripe c me id := fun _ hj =>
  Instance.not_ripe_of_committed (committed_onCommit deps hj)

theorem unripe_epaxosTryCommitAccepted (hs : c.isSwift = false)
    (hset : ∀ i, s.instances.get id = some i → i.isSettled = true) :
    (s.epaxosTryCommitAccepted c me id).Unripe c me id := by
  cases hi : s.instances.get id with
  | none =>
    rw [epaxosTryCommitAccepted, withInstance_none hi]
    exact fun j hj => nomatch hi.symm.trans hj
  | some i =>
    rw [epaxosTryCommitAccepted, withInstance_some hi]
    split
    · rename_i hn
      intro j hj hripe
      cases Option.some.inj (hi.symm.trans hj)
      have hsettled := hset i hi
      cases hripe with
      | fast _ _ h _ _ => exact nomatch hsettled.symm.trans h
      | slow _ _ h _ _ => exact nomatch hsettled.symm.trans h
      | accepted _ hme hp hq => exact hn.elim (· hme) fun hn => hn.elim (· hp) (Nat.not_lt.2 hq)
      | swift h _ _ => exact nomatch hs.symm.trans h
    · exact unripe_onCommit i.deps

theorem unripe_epaxosTryCommit (hs : c.isSwift = false)
    (he : ∀ i, s.instances.get id = some i → i.Endorsed) :
    (s.epaxosTryCommit c me id).Unripe c me id := by
  cases hi : s.instances.get id with
  | none =>
    rw [epaxosTryCommit, withInstance_none hi]
    exact fun j hj => nomatch hi.symm.trans hj
  | some i =>
    rw [epaxosTryCommit, withInstance_some hi]
    have hsame : ∀ j, s.instances.get id = some j → j = i := fun j hj =>
      (Option.some.inj (hi.symm.trans hj)).symm
    split
    · rename_i hme
      intro j hj hripe
      cases hsame j hj
      cases hripe with
      | fast _ h _ _ _ => exact hme h
      | slow _ h _ _ _ => exact hme h
      | accepted _ h _ _ => exact hme h
      | swift h _ _ => exact nomatch hs.symm.trans h
    · split
      · rename_i hset
        exact unripe_epaxosTryCommitAccepted hs fun j hj => hsame j hj ▸ hset
      · rename_i hset
        split
        · rename_i hfast
          rw [Bool.and_eq_true, decide_eq_true_eq] at hfast
          obtain ⟨deps, hd⟩ := Option.ne_none_iff_exists'.1 ((he i hi).leaderDeps hfast.1 hfast.2)
          rw [hd]
          exact unripe_onCommit deps
        · rename_i hfast
          rw [Bool.and_eq_true, decide_eq_true_eq] at hfast
          split
          · refine unripe_epaxosTryCommitAccepted hs fun j hj => ?_
            rw [broadcast, emit, get_put_self hi] at hj
            exact Option.some.inj hj ▸ rfl
          · rename_i hslow
            intro j hj hripe
            cases hsame j hj
            cases hripe with
            | fast _ _ _ ha hq => exact hfast ⟨ha, hq⟩
            | slow _ _ _ hq hor => exact hslow ⟨hq, hor⟩
            | accepted _ _ hp _ => exact hset (Instance.settled_of_accepted hp)
            | swift h _ _ => exact nomatch hs.symm.trans h

theorem instances_announce (deps : DepSet n) (proposer : Fin n) (s : DepShard n) :
    (s.announce c me id deps proposer).instances = s.instances := by
  unfold announce
  generalize c.nonReplicas.filter (· ≠ proposer) = dests
  induction dests generalizing s with
  | nil => rfl
  | cons dest dests ih =>
    rw [List.foldl_cons, ih, send]
    split <;> rfl

theorem unripe_swiftTryCommit (hs : c.isSwift = true) : (s.swiftTryCommit c me id).Unripe c me id := by
  unfold swiftTryCommit
  cases hi : s.instances.get id with
  | none => exact fun j hj => by cases hi.symm.trans hj
  | some i =>
    have hsame : ∀ j, s.instances.get id = some j → j = i := fun j hj =>
      (Option.some.inj (hi.symm.trans hj)).symm
    simp only []
    split
    · rename_i hc
      exact fun j hj => Instance.not_ripe_of_committed (hsame j hj ▸ hc)
    · cases hset : i.isSettled with
      | false =>
        simp only [Instance.acceptedDeps, hset]
        intro j hj hripe
        cases hsame j hj
        cases hripe with
        | fast h _ _ _ _ | slow h _ _ _ _ | accepted h _ _ _ => cases hs.symm.trans h
        | swift _ hp _ => cases hset.symm.trans (Instance.settled_of_accepted hp)
      | true =>
        simp only [Instance.acceptedDeps, hset, if_true]
        split
        · split
          · intro j hj
            rw [instances_announce] at hj
            exact unripe_onCommit _ j hj
          · exact unripe_onCommit _
        · rename_i hq
          rw [Bool.or_eq_true, decide_eq_true_eq] at hq
          intro j hj hripe
          cases hsame j hj
          cases hripe with
          | fast h _ _ _ _ | slow h _ _ _ _ | accepted h _ _ _ => cases hs.symm.trans h
          | swift _ _ h => exact hq h

theorem unripe_tryCommit (he : ∀ i, s.instances.get id = some i → i.Endorsed) :
    (s.tryCommit c me id).Unripe c me id := by
  unfold tryCommit
  cases hs : c.isSwift with
  | false => exact unripe_epaxosTryCommit hs he
  | true => exact unripe_swiftTryCommit hs

theorem Move.endorsed {heard : Fin n → Packet n → Prop} (hm : Move c me heard s s')
    (h : s.Endorsed) : s'.Endorsed := by
  have hput : ∀ {v : Uid} {i i' : Instance n}, s.instances.get v = some i → i'.Endorsed →
      (s.put v i').Endorsed := by
    intro v i i' hi he w j hj
    rw [get_put] at hj
    split at hj
    · rename_i hw
      rw [hw, hi] at hj
      cases hj
      exact he
    · exact h w j hj
  have hinsert : ∀ {v : Uid} {i : Instance n}, i.Endorsed →
      ∀ w j, (s.instances.insert v i).get w = some j → j.Endorsed := by
    intro v i he w j hj
    rw [InstanceTable.get_insert] at hj
    split at hj
    · cases hj
      exact he
    · exact h w j hj
  cases hm with
  | note _ | announce _ _ | forward _ _ _ | order _ | serve | hold _ _ _ _ | release _ | drain =>
    exact h
  | start commands _ _ _ =>
    rw [openInstance_eq]
    exact hinsert (.opened _ _)
  | learn _ _ _ _ _ =>
    rw [learn_eq]
    exact hinsert ((Instance.Endorsed.new _ _ _ _).preAccepted _ _ _)
  | vote _ hi _ _ _ => exact hput hi ((h _ _ hi).recordPreaccept _ _)
  | accept _ hi =>
    rw [answerAccept_eq]
    exact hput hi ((h _ _ hi).acceptedFrom _ _)
  | ack _ hi _ | leavePath _ hi | slowPath _ hi _ _ _ _ =>
    have hold := h _ _ hi
    exact hput hi hold
  | @commit v i deps hi _ _ =>
    have hold := h v i hi
    refine hput hi ?_
    generalize commitReport me v deps i s = report
    cases report <;> exact hold
  | @execute uid i hi _ _ =>
    rw [DepShard.execute, withInstance_some hi]
    intro v j hj
    simp only [InstanceTable.get_remove] at hj
    split at hj
    · cases hj
    · exact h v j hj
  | ask command =>
    unfold askReplicas
    split <;> exact h
  | sleep _ => exact fun v j hj => by simp at hj

theorem Moves.endorsed {heard : Fin n → Packet n → Prop} (hm : Moves c me heard s s')
    (h : s.Endorsed) : s'.Endorsed := by
  induction hm with
  | refl => exact h
  | tail _ hm ih => exact hm.endorsed ih

-- Between two turns nothing is left to decide.
structure Settles (c : Cluster n) (me : Fin n) (s : DepShard n) : Prop where
  endorsed : s.Endorsed
  unripe : ∀ id, s.Unripe c me id

namespace Settles

theorem of_tryCommit (he : s.Endorsed) (hc : s.instances.Counted)
    (h : ∀ v, v ≠ id → s.Unripe c me v) : (s.tryCommit c me id).Settles c me where
  endorsed := by
    have hmoves : Moves c me (fun _ _ => True) s (s.tryCommit c me id) := tryCommit_moves id hc
    exact hmoves.endorsed he
  unripe := fun v => by
    cases hv : decide (v = id) with
    | true =>
      rw [of_decide_eq_true hv]
      exact unripe_tryCommit (he id)
    | false =>
      have hne := of_decide_eq_false hv
      exact ((works_tryCommit c me id s).spared hne).unripe (h v hne)

theorem same (h : s.Settles c me) (hi : s'.instances = s.instances) : s'.Settles c me :=
  ⟨fun id i hg => h.endorsed id i (hi ▸ hg), fun id i hg => h.unripe id i (hi ▸ hg)⟩

theorem onCommit (h : s.Settles c me) (hc : s.instances.Counted) (deps : DepSet n) :
    (s.onCommit me id deps).Settles c me where
  endorsed := by
    have hmoves : Moves c me (fun src packet => src = me ∧ packet = ⟨.commit id deps, none⟩) s
        (s.onCommit me id deps) := onCommit_moves hc fun i _ _ => .told ⟨rfl, rfl⟩
    exact hmoves.endorsed h.endorsed
  unripe := fun v => by
    cases hv : decide (v = id) with
    | true =>
      rw [of_decide_eq_true hv]
      exact unripe_onCommit deps
    | false => exact ((works_onCommit deps s).spared (of_decide_eq_false hv)).unripe (h.unripe v)

theorem change {i i' : Instance n} (h : s.Settles c me) (hc : s.instances.Counted)
    (hi : s.instances.get id = some i) (he : i'.Endorsed) (events : List (Event n)) :
    (((s.put id i').emitAll events).tryCommit c me id).Settles c me := by
  refine of_tryCommit (fun v j hj => ?_) (counted_put hc id i') fun v hv j hj => ?_
  · rw [emitAll, get_put] at hj
    split at hj
    · rename_i hv
      rw [hv, hi] at hj
      cases hj
      exact he
    · exact h.endorsed v j hj
  · rw [emitAll, get_put, if_neg hv] at hj
    exact h.unripe v j hj

theorem create {i : Instance n} {t : DepShard n} (h : s.Settles c me) (hc : t.instances.Counted)
    (ht : t.instances = s.instances.insert id i) (he : i.Endorsed) :
    (t.tryCommit c me id).Settles c me := by
  refine of_tryCommit (fun v j hj => ?_) hc fun v hv j hj => ?_
  · rw [ht, InstanceTable.get_insert] at hj
    split at hj
    · cases hj
      exact he
    · exact h.endorsed v j hj
  · rw [ht, InstanceTable.get_insert, if_neg hv] at hj
    exact h.unripe v j hj

theorem withInstance (h : s.Settles c me) {f : Instance n → DepShard n}
    (hf : ∀ i, s.instances.get id = some i → (f i).Settles c me) :
    (s.withInstance id f).Settles c me := by
  cases hi : s.instances.get id with
  | none =>
    rw [withInstance_none hi]
    exact h.same rfl
  | some i =>
    rw [withInstance_some hi]
    exact hf i hi

theorem dispatch (h : s.Settles c me) (hc : s.instances.Counted) {src : Fin n} {msg : DepMsg n}
    (hp : msg.isPreAccept = false) (hid : msg.id = some id) :
    (s.dispatch c me src msg).Settles c me := by
  cases msg <;> cases hid
  case preAccept => cases hp
  case preAcceptOk acked =>
    refine h.withInstance fun i hi => ?_
    cases acked.or i.coordinatorDeps with
    | none => exact h.same rfl
    | some deps =>
      simp only []
      split
      · exact h
      · have hrun := h.change hc hi ((h.endorsed id i hi).recordPreaccept src deps) []
        rw [emitAll, List.append_nil] at hrun
        exact hrun
  case accept deps =>
    have hnoted : (s.emit (.dispatchedAccept id deps (s.depsAreSettled id deps))).Settles c me :=
      h.same rfl
    refine hnoted.withInstance fun i hi => ?_
    rw [answerAccept_eq]
    exact hnoted.change hc hi ((h.endorsed id i hi).acceptedFrom src deps) _
  case acceptOk =>
    refine h.withInstance fun i hi => ?_
    split
    · exact h
    · have hack : (i.ackAccept src).Endorsed := h.endorsed id i hi
      have hrun := h.change hc hi hack []
      rw [emitAll, List.append_nil] at hrun
      exact hrun
  case commit deps => exact h.onCommit hc deps

theorem deliverTurn (h : s.Settles c me) (hc : s.instances.Counted) {queue : List (Held n)}
    (hq : ∀ entry ∈ queue, entry.2.isPreAccept = false) :
    (s.deliverTurn c me queue).1.Settles c me := by
  cases queue with
  | nil => exact h
  | cons entry rest =>
    obtain ⟨src, msg⟩ := entry
    unfold DepShard.deliverTurn
    simp only []
    cases hid : msg.id with
    | none => exact h.same rfl
    | some id =>
      simp only []
      split
      · exact h
      · cases s.blockedBy c me msg with
        | some dep => exact h.same rfl
        | none => exact (h.dispatch hc (hq _ List.mem_cons_self) hid).same rfl

theorem submit (h : s.Settles c me) (hsane : Sane c me s) (commands : List (Command n)) :
    (s.submit c me commands).Settles c me := by
  have hopen : ((s.openInstance c me s.nextUid commands).tryCommit c me s.nextUid).Settles c me := by
    refine h.create (i := Instance.opened c me (s.depsFor c (keysOf commands)) commands) ?_ ?_
      (.opened _ _)
    · rw [openInstance_eq]
      exact hsane.counted.insert _ hsane.next_free
    · rw [openInstance_eq]
  unfold DepShard.submit
  split
  · split
    · rw [send]
      split
      · exact h
      · exact h.same rfl
    · exact hopen
  · exact hopen

theorem handle (h : s.Settles c me) (hsane : Sane c me s) {src : Fin n} {packet : Packet n}
    (ht : Timely src s packet) : (s.handle c me src packet).1.Settles c me := by
  have habout : packet.msg.isPreAccept = false → packet.msg ≠ .forward → ∀ id,
      (s.handleAbout c me id src packet).1.Settles c me := by
    intro hp hf id
    rw [handleAbout, ht.bare hp hf]
    split
    · exact h
    · split
      · exact h.deliverTurn hsane.counted fun entry he => List.mem_singleton.1 he ▸ hp
      · exact h.same rfl
  obtain ⟨msg, value⟩ := packet
  cases msg with
  | forward =>
    cases value with
    | none => exact h.same rfl
    | some commands => exact h.submit hsane commands
  | preAccept id deps =>
    obtain ⟨hid, hv⟩ := ht.fresh id deps rfl
    obtain ⟨commands, rfl⟩ := Option.isSome_iff_exists.1 hv
    have hunseen : ¬ s.seen.contains id := by simp [hid]
    have hn := hsane.free hunseen
    rw [handle_preAccept hn (hsane.unexecuted hunseen)]
    refine Settles.same (s := DepShard.tryCommit c me id _) ?_ rfl
    have hend : ((Instance.fresh c id commands).preAccepted c me src deps
        ((s.noteSeen c id (keysOf commands)).ownDeps c id deps (keysOf commands))).Endorsed :=
      (Instance.Endorsed.new _ _ _ _).preAccepted _ _ _
    rw [learn_eq]
    exact h.create (hsane.counted.insert _ hn) rfl hend
  | readRequest id key =>
    simp only [DepShard.handle, send]
    split
    · exact h
    · exact h.same rfl
  | readResponse id seen => exact h.same rfl
  | preAcceptOk id deps => exact habout rfl (by simp) id
  | accept id deps => exact habout rfl (by simp) id
  | acceptOk id => exact habout rfl (by simp) id
  | commit id deps => exact habout rfl (by simp) id

end Settles

end DepShard

namespace World

variable {c : Cluster n} {w w' : World n} {p : Fin n}

theorem settles_settle {full : Bool} {s' : DepShard n} {queue : List (Held n)}
    (hw : ∀ q, (w.shard c q).Settles c q) (h : s'.Settles c p) (q : Fin n) :
    ((w.settle c p full s' queue).shard c q).Settles c q := by
  cases hq : decide (q = p) with
  | true =>
    cases of_decide_eq_true hq
    rw [shard_settle_self]
    exact h.same rfl
  | false =>
    rw [shard_settle_ne (of_decide_eq_false hq)]
    exact hw q

theorem Reachable.settles (h : Reachable c w) (p : Fin n) : (w.shard c p).Settles c p := by
  induction h generalizing p with
  | init =>
    have hnew : (World.init : World n).shard c p = DepShard.new c p := rfl
    rw [hnew]
    exact ⟨fun id i hi => by simp [DepShard.new] at hi, fun id i hi => by simp [DepShard.new] at hi⟩
  | @step w w' l hr hs ih =>
    have hsound := hr.sound
    cases l with
    | submit q commands full =>
      obtain ⟨-, hs⟩ := Option.ite_none_right_eq_some.1 hs
      cases hs
      have hsane := (hsound.sane q).same ((DepShard.SameTables.refl _).emitAll [.submitted commands])
        (hsound.sane q).counted (hsound.sane q).parked rfl rfl
      have hemit : ((w.shard c q).emit (.submitted commands)).Settles c q := (ih q).same rfl
      exact settles_settle ih (hemit.submit hsane commands) p
    | submitRead q command =>
      obtain ⟨-, hs⟩ := Option.ite_none_right_eq_some.1 hs
      cases hs
      refine settles_settle ih ((ih q).same ?_) p
      unfold DepShard.submitRead DepShard.askReplicas
      split <;> rfl
    | receive src q full =>
      simp only [World.step] at hs
      split at hs
      · rename_i packet rest hqueue hl
        split at hs
        · cases hs
          exact ih p
        · cases hs
          have hsane := (hsound.sane q).same ((DepShard.SameTables.refl _).emitAll
            [.received src packet]) (hsound.sane q).counted (hsound.sane q).parked rfl rfl
          have htimely : DepShard.Timely src ((w.shard c q).emit (.received src packet)) packet :=
            ⟨(hsound.timely hl).fresh, (hsound.timely hl).bare⟩
          have hemit : ((w.shard c q).emit (.received src packet)).Settles c q := (ih q).same rfl
          exact settles_settle (w := w.popLink src q) ih (hemit.handle hsane htimely) p
      · cases hs
    | deliver q full =>
      simp only [World.step] at hs
      split at hs
      · cases hs
      · cases hs
        exact settles_settle ih ((ih q).deliverTurn (hsound.sane q).counted fun entry he =>
          (hsound.queued q entry he).2.2) p
    | flush q | owe q requesters =>
      cases hs
      exact ih p
    | drain q =>
      obtain ⟨-, hs⟩ := Option.ite_none_right_eq_some.1 hs
      cases hs
      have hdrain : ((w.shard c q).emit (.handed (w.shard c q).ready)).drainReady.Settles c q :=
        (ih q).same rfl
      exact settles_settle ih hdrain p
    | sleep q =>
      obtain ⟨⟨-, hcan⟩, hs⟩ := Option.ite_none_right_eq_some.1 hs
      cases hs
      rw [shard_asleep hsound.toBase hcan p]
      split
      · exact ⟨fun id i hi => by simp at hi, fun id i hi => by simp at hi⟩
      · exact ih p

end World

end KCensus.Deps

import KCensus.Deps.Turns
import KCensus.Deps.World

namespace KCensus.Deps

open Relation

variable {n : Nat} [NeZero n]

namespace DepShard

variable (c : Cluster n) (me : Fin n)

-- The four ways a commit can come about.
inductive Decides (heard : Fin n → Packet n → Prop) (id : Uid) (i : Instance n) :
    DepSet n → Prop where
  | fast {deps : DepSet n} : c.isSwift = false → i.coordinatorPid = me → i.isSettled = false →
      i.allPreacceptsEndorse = true → c.fastQuorum ≤ i.preacceptsCount →
      i.leaderDeps = some deps → Decides heard id i deps
  | slow : c.isSwift = false → i.coordinatorPid = me → i.phase = .accepted →
      c.slowQuorum ≤ i.acceptAcked.card → Decides heard id i i.deps
  | told {src : Fin n} {deps : DepSet n} {value : Option (List (Command n))} :
      heard src ⟨.commit id deps, value⟩ → Decides heard id i deps
  | swift : c.isSwift = true → i.isSettled = true →
      (i.fastEndorsers.any c.swiftFastQuorumReached = true ∨ c.slowQuorum ≤ i.acceptAcked.card) →
      Decides heard id i i.deps

-- Where the commands of a new instance come from.
def Requested (heard : Fin n → Packet n → Prop) (s : DepShard n) (commands : List (Command n)) :
    Prop :=
  Event.submitted commands ∈ s.sinks ∨ ∃ src, heard src ⟨.forward, some commands⟩

-- The elementary changes every handler is made of; `heard` are the messages received.
inductive Move (heard : Fin n → Packet n → Prop) : DepShard n → DepShard n → Prop where
  | note {s : DepShard n} {e : Event n} :
      (e = .panicked ∨ (∃ commands, e = .submitted commands) ∨
        (∃ id deps, e = .dispatchedAccept id deps (s.depsAreSettled id deps)) ∨
        (∃ id dep, e = .blocked id dep (dep ∈ s.parkedAccepts))) →
      Move heard s (s.emit e)
  | announce {s : DepShard n} {id : Uid} {deps : DepSet n} {e : Event n} :
      Event.committed id deps ∈ s.sinks →
      (c.isSwift = false ∧ e = .broadcast ⟨.commit id deps, none⟩ none ∨
        c.isSwift = true ∧ ∃ dest, e = .send ⟨.commit id deps, none⟩ dest ∧ dest ≠ me ∧
          c.isReplica dest = false) →
      Move heard s (s.emit e)
  | forward {s : DepShard n} {coordinator : Fin n → Fin n} (commands : List (Command n)) :
      c.mode = .ePaxos coordinator → coordinator me ≠ me → Requested heard s commands →
      Move heard s (s.emit (.send ⟨.forward, some commands⟩ (coordinator me)))
  | start {s : DepShard n} (commands : List (Command n)) :
      (∀ coordinator, c.mode = .ePaxos coordinator → coordinator me = me) →
      s.instances.get s.nextUid = none → ¬ s.executed.contains s.nextUid →
      Requested heard s commands → Move heard s (s.openInstance c me s.nextUid commands)
  | learn {s : DepShard n} {src : Fin n} {id : Uid} {deps : DepSet n}
      {commands : List (Command n)} :
      heard src ⟨.preAccept id deps, some commands⟩ → id = uidAt (s.seen.marks src) src →
      src ≠ me → s.instances.get id = none → ¬ s.executed.contains id →
      Move heard s ((s.createInstance c id commands).answerPreAccept c me src id deps
        (Instance.fresh c id commands))
  | vote {s : DepShard n} {src : Fin n} {id : Uid} {acked : Option (DepSet n)} {deps : DepSet n}
      {i : Instance n} {value : Option (List (Command n))} :
      heard src ⟨.preAcceptOk id acked, value⟩ → s.instances.get id = some i →
      acked.or i.coordinatorDeps = some deps → i.isCommitted = false →
      i.hasPreaccept src = false → Move heard s (s.put id (i.recordPreaccept src deps))
  | accept {s : DepShard n} {src : Fin n} {id : Uid} {deps : DepSet n} {i : Instance n}
      {value : Option (List (Command n))} :
      heard src ⟨.accept id deps, value⟩ → s.instances.get id = some i →
      Move heard s (s.answerAccept c me src id deps i)
  | ack {s : DepShard n} {src : Fin n} {id : Uid} {i : Instance n}
      {value : Option (List (Command n))} :
      heard src ⟨.acceptOk id, value⟩ → s.instances.get id = some i → i.isCommitted = false →
      Move heard s (s.put id (i.ackAccept src))
  | slowPath {s : DepShard n} {id : Uid} {i : Instance n} :
      c.isSwift = false → s.instances.get id = some i → i.coordinatorPid = me →
      i.isSettled = false → c.slowQuorum ≤ i.preacceptsCount →
      (i.allPreacceptsEndorse = false ∨ c.reachable < c.fastQuorum) →
      Move heard s ((s.put id ((i.markLeftFastPath.accept i.union).ackAccept me)).broadcast
        ⟨.accept id i.union, none⟩)
  | leavePath {s : DepShard n} {id : Uid} {i : Instance n} (left : Bool) :
      s.instances.get id = some i → Move heard s (s.put id { i with leftFastPath := left })
  | commit {s : DepShard n} {id : Uid} {i : Instance n} {deps : DepSet n} :
      s.instances.get id = some i → i.isCommitted = false → Decides c me heard id i deps →
      Move heard s ((s.put id (fillReport (commitReport me id deps i s) (i.commit deps))).emit
        (.committed id deps))
  | order {s : DepShard n} : nextExecutable s.instances s.executed = none →
      Move heard s (s.emit (.ordered (executableOrder s.instances s.executed)))
  | execute {s : DepShard n} {uid : Uid} {i : Instance n} : s.instances.get uid = some i →
      i.isCommitted = true →
      (nextExecutable s.instances s.executed = some uid ∨
        ∃ order, Event.ordered order ∈ s.sinks ∧ uid ∈ order) →
      Move heard s (s.execute uid)
  | serve {s : DepShard n} : Move heard s s.serveReadyReads
  | ask {s : DepShard n} (command : Command n) : command.readOnly = true →
      Move heard s (s.askReplicas c me command)
  | hold {s : DepShard n} {src : Fin n} {msg : DepMsg n} {value : Option (List (Command n))}
      (key : Uid) : heard src ⟨msg, value⟩ → msg.id ≠ none → msg.isPreAccept = false →
      Move heard s (s.defer key src msg)
  | release {s : DepShard n} (key : Uid) : Move heard s (s.release key)
  | drain {s : DepShard n} : Move heard s ((s.emit (.handed s.ready)).drainReady)
  | sleep {s : DepShard n} : (∀ id, s.instances.get id = none) →
      Move heard s { s with instances := InstanceTable.new n }

-- What receiving a packet does at once; only the messages of reads do more than get logged.
inductive Arrives (src : Fin n) (s : DepShard n) : Packet n → DepShard n → Prop where
  | request {id key : Nat} {value : Option (List (Command n))} : src ≠ me →
      Arrives src s ⟨.readRequest id key, value⟩
        ((s.emit (.received src ⟨.readRequest id key, value⟩)).emit
          (.send ⟨.readResponse id (s.depsFor c [key]), none⟩ src))
  | response {id : Nat} {seen : DepSet n} {value : Option (List (Command n))} :
      Arrives src s ⟨.readResponse id seen, value⟩
        ((s.emit (.received src ⟨.readResponse id seen, value⟩)).receiveRead id src seen)
  | plain {packet : Packet n} : (∀ id key, packet.msg ≠ .readRequest id key) →
      (∀ id seen, packet.msg ≠ .readResponse id seen) →
      Arrives src s packet (s.emit (.received src packet))

abbrev Moves (heard : Fin n → Packet n → Prop) : DepShard n → DepShard n → Prop :=
  ReflTransGen (Move c me heard)

variable {c me} {heard : Fin n → Packet n → Prop} {s s' : DepShard n}

omit [NeZero n] in
theorem Decides.mono {heard' : Fin n → Packet n → Prop}
    (hh : ∀ src packet, heard src packet → heard' src packet) {id : Uid} {i : Instance n}
    {deps : DepSet n} (h : Decides c me heard id i deps) : Decides c me heard' id i deps := by
  cases h with
  | fast hs hc hp he hq hl => exact .fast hs hc hp he hq hl
  | slow hs hc hp hq => exact .slow hs hc hp hq
  | told h => exact .told (hh _ _ h)
  | swift hs hset hq => exact .swift hs hset hq

theorem Requested.mono {heard' : Fin n → Packet n → Prop}
    (hh : ∀ src packet, heard src packet → heard' src packet) {commands : List (Command n)}
    (h : Requested heard s commands) : Requested heard' s commands :=
  h.imp_right fun ⟨src, hs⟩ => ⟨src, hh _ _ hs⟩

theorem Move.mono {heard' : Fin n → Packet n → Prop}
    (hh : ∀ src packet, heard src packet → heard' src packet) (hm : Move c me heard s s') :
    Move c me heard' s s' := by
  cases hm with
  | note he => exact .note he
  | announce hc he => exact .announce hc he
  | forward commands hm hne ho => exact .forward commands hm hne (ho.mono hh)
  | start commands hm hn he ho => exact .start commands hm hn he (ho.mono hh)
  | learn h hid hsrc hn he => exact .learn (hh _ _ h) hid hsrc hn he
  | vote h hi ha hc hp => exact .vote (hh _ _ h) hi ha hc hp
  | accept h hi => exact .accept (hh _ _ h) hi
  | ack h hi hc => exact .ack (hh _ _ h) hi hc
  | slowPath hs hi hc hset hq hn => exact .slowPath hs hi hc hset hq hn
  | leavePath left hi => exact .leavePath left hi
  | commit hi hc hd => exact .commit hi hc (hd.mono hh)
  | order hn => exact .order hn
  | execute hi hc hw => exact .execute hi hc hw
  | serve => exact .serve
  | ask command hr => exact .ask command hr
  | hold key h hid hp => exact .hold key (hh _ _ h) hid hp
  | release key => exact .release key
  | drain => exact .drain
  | sleep hn => exact .sleep hn

theorem counted_put (h : s.instances.Counted) (id : Uid) (i : Instance n) :
    (s.put id i).instances.Counted := h.modify id _

theorem counted_execute (h : s.instances.Counted) (uid : Uid) :
    (s.execute uid).instances.Counted := by
  unfold execute withInstance
  split
  · exact h.remove uid
  · exact h

theorem len_execute (h : s.instances.Counted) {uid : Uid} {i : Instance n}
    (hi : s.instances.get uid = some i) : (s.execute uid).instances.len + 1 = s.instances.len := by
  rw [execute, withInstance_some hi]
  exact h.len_remove hi

theorem runExecutable_moves (fuel : Nat) :
    Moves c me heard s (runExecutable fuel s) := by
  induction fuel generalizing s with
  | zero => exact .refl
  | succ fuel ih =>
    simp only [runExecutable]
    cases hn : nextExecutable s.instances s.executed with
    | none => exact .refl
    | some uid =>
      obtain ⟨i, hi, hc⟩ := (committedAt_iff _ _).1 (nextExecutable_spec hn).1
      exact .head (.execute hi hc (Or.inl hn)) ih

theorem runExecutable_none (fuel : Nat) (h : s.instances.Counted) (hf : s.instances.len ≤ fuel) :
    nextExecutable (runExecutable fuel s).instances (runExecutable fuel s).executed = none := by
  induction fuel generalizing s with
  | zero =>
    simp only [runExecutable]
    cases hn : nextExecutable s.instances s.executed with
    | none => rfl
    | some uid =>
      obtain ⟨i, hi, -⟩ := (committedAt_iff _ _).1 (nextExecutable_spec hn).1
      have := len_execute h hi
      omega
  | succ fuel ih =>
    simp only [runExecutable]
    cases hn : nextExecutable s.instances s.executed with
    | none => exact hn
    | some uid =>
      obtain ⟨i, hi, -⟩ := (committedAt_iff _ _).1 (nextExecutable_spec hn).1
      have := len_execute h hi
      exact ih (counted_execute h uid) (by omega)

theorem foldl_moves {order : List Uid} (rest : List Uid) (hnd : rest.Nodup)
    (hsub : ∀ uid ∈ rest, uid ∈ order) (hlog : Event.ordered order ∈ s.sinks)
    (hget : ∀ uid ∈ rest, s.instances.committedAt uid = true) :
    Moves c me heard s (rest.foldl execute s) := by
  induction rest generalizing s with
  | nil => exact .refl
  | cons uid rest ih =>
    obtain ⟨hu, hnd⟩ := List.nodup_cons.1 hnd
    obtain ⟨i, hi, hc⟩ := (committedAt_iff _ _).1 (hget uid List.mem_cons_self)
    have hrun := ran_execute hi
    refine .head (.execute hi hc (Or.inr ⟨order, hlog, hsub uid List.mem_cons_self⟩))
      (ih hnd (fun v hv => hsub v (List.mem_cons_of_mem _ hv)) ?_ fun v hv => ?_)
    · rw [execute, withInstance_some hi]
      exact List.mem_append_left _ hlog
    · have hv' := hget v (List.mem_cons_of_mem _ hv)
      rw [committedAt_iff] at hv' ⊢
      rw [hrun.get, if_neg]
      · exact hv'
      · rw [List.mem_singleton]
        rintro rfl
        exact hu hv

theorem executeCycles_moves (hn : nextExecutable s.instances s.executed = none) :
    Moves c me heard s s.executeCycles := by
  unfold executeCycles
  split
  · have hspec := (executableOrder_spec s.instances s.executed).1
    exact .head (.order hn) (foldl_moves _ hspec.nodup (fun _ hu => hu)
      (List.mem_append_right _ List.mem_cons_self) hspec.avail_of_mem)
  · exact .refl

theorem executeReady_moves (h : s.instances.Counted) : Moves c me heard s s.executeReady :=
  ((runExecutable_moves _).trans (executeCycles_moves (runExecutable_none _ h (Nat.le_refl _)))).tail
    .serve

theorem Move.counted (hm : Move c me heard s s') (h : s.instances.Counted) :
    s'.instances.Counted := by
  cases hm with
  | note _ | announce _ _ | forward _ _ _ | order _ | serve | hold _ _ _ _
  | release _ | drain => exact h
  | start commands _ hn _ =>
    rw [openInstance_eq]
    exact h.insert _ hn
  | learn _ _ _ hn _ =>
    rw [learn_eq]
    exact h.insert _ hn
  | accept _ _ =>
    rw [answerAccept_eq]
    exact counted_put h _ _
  | vote _ _ _ _ _ | ack _ _ _ | slowPath _ _ _ _ _ _ | leavePath _ _ | commit _ _ _ =>
    exact counted_put h _ _
  | execute _ _ _ => exact counted_execute h _
  | ask command =>
    unfold askReplicas
    split <;> exact h
  | sleep _ => exact InstanceTable.counted_new

theorem sinks_execute (s : DepShard n) (uid : Uid) : s.sinks <+: (s.execute uid).sinks := by
  unfold execute withInstance
  split <;> exact List.prefix_append _ _

theorem askReplicas_sinks (s : DepShard n) (command : Command n) :
    (s.askReplicas c me command).sinks = s.sinks ++ [.readSubmitted s.reads.nextId command,
      .broadcast ⟨.readRequest s.reads.nextId command.shard, none⟩ none] := by
  unfold askReplicas
  split <;> simp [receiveRead, broadcast, emit]

theorem Move.sinks_grow (hm : Move c me heard s s') : s.sinks <+: s'.sinks := by
  cases hm with
  | note _ | announce _ _ | forward _ _ _ | order _ | serve | slowPath _ _ _ _ _ _
  | commit _ _ _ | drain => exact List.prefix_append _ _
  | hold _ _ _ _ | release _ | vote _ _ _ _ _ | ack _ _ _ | leavePath _ _ | sleep _ =>
    exact List.prefix_rfl
  | start commands _ _ _ =>
    rw [openInstance_eq]
    exact List.prefix_append _ _
  | learn _ _ _ _ _ =>
    rw [learn_eq]
    exact List.prefix_append _ _
  | accept _ _ =>
    rw [answerAccept_eq]
    exact List.prefix_append _ _
  | execute _ _ _ => exact sinks_execute _ _
  | ask command =>
    rw [askReplicas_sinks]
    exact List.prefix_append _ _

theorem Moves.sinks_grow (hm : Moves c me heard s s') : s.sinks <+: s'.sinks := by
  induction hm with
  | refl => exact List.prefix_rfl
  | tail _ hm ih => exact ih.trans hm.sinks_grow

theorem panicked_moves (s : DepShard n) : Moves c me heard s (s.emit .panicked) :=
  .single (.note (Or.inl rfl))

theorem onCommit_moves {id : Uid} {deps : DepSet n} (h : s.instances.Counted)
    (hd : ∀ i, s.instances.get id = some i → i.isCommitted = false → Decides c me heard id i deps) :
    Moves c me heard s (s.onCommit me id deps) := by
  unfold onCommit
  cases hi : s.instances.get id with
  | none =>
    rw [withInstance_none hi]
    exact panicked_moves s
  | some i =>
    rw [withInstance_some hi]
    cases hc : i.isCommitted with
    | true => exact .refl
    | false =>
      exact .head (.commit hi hc (hd i hi hc)) (executeReady_moves (counted_put h _ _))

theorem committed_mem_sinks (c : Cluster n) {id : Uid} {deps : DepSet n} {i : Instance n}
    (h : s.instances.Counted) (hi : s.instances.get id = some i) (hc : i.isCommitted = false) :
    Event.committed id deps ∈ (s.onCommit me id deps).sinks := by
  unfold onCommit
  rw [withInstance_some hi, hc]
  simp only [Bool.false_eq_true, if_false]
  have hm : Moves c me (fun _ _ => True) ((s.put id (fillReport (commitReport me id deps i s)
      (i.commit deps))).emit (.committed id deps)) _ := executeReady_moves (counted_put h id _)
  exact hm.sinks_grow.subset (List.mem_append_right _ List.mem_cons_self)

theorem commitAndBroadcast_moves {id : Uid} {deps : DepSet n} {i : Instance n}
    (hs : c.isSwift = false) (h : s.instances.Counted) (hi : s.instances.get id = some i) (hc : i.isCommitted = false)
    (hd : Decides c me heard id i deps) :
    Moves c me heard s (s.commitAndBroadcast me id deps) := by
  refine (onCommit_moves h fun j hj _ => ?_).tail
    (.announce (committed_mem_sinks c h hi hc) (Or.inl ⟨hs, rfl⟩))
  rw [hi] at hj
  exact Option.some.inj hj ▸ hd

theorem epaxosTryCommitAccepted_moves (id : Uid) (h : s.instances.Counted)
    (hs : c.isSwift = false) : Moves c me heard s (s.epaxosTryCommitAccepted c me id) := by
  unfold epaxosTryCommitAccepted
  cases hi : s.instances.get id with
  | none =>
    rw [withInstance_none hi]
    exact panicked_moves s
  | some i =>
    rw [withInstance_some hi]
    split
    · exact .refl
    · rename_i hn
      rw [not_or, not_or, not_not, not_not, Nat.not_lt] at hn
      obtain ⟨hme, hphase, hq⟩ := hn
      refine .head (.leavePath true hi) (commitAndBroadcast_moves (i := i.markLeftFastPath) hs
        (counted_put h _ _) (get_put_self hi _) ?_ (.slow hs hme hphase hq))
      simp [Instance.isCommitted, Instance.markLeftFastPath, hphase]

theorem epaxosTryCommit_moves (id : Uid) (h : s.instances.Counted) (hs : c.isSwift = false) :
    Moves c me heard s (s.epaxosTryCommit c me id) := by
  unfold epaxosTryCommit
  cases hi : s.instances.get id with
  | none =>
    rw [withInstance_none hi]
    exact panicked_moves s
  | some i =>
    rw [withInstance_some hi]
    split
    · exact .refl
    · rename_i hme
      rw [not_not] at hme
      split
      · exact epaxosTryCommitAccepted_moves id h hs
      · rename_i hset
        rw [Bool.not_eq_true] at hset
        have hc : i.isCommitted = false := by
          simp only [Instance.isSettled, decide_eq_false_iff_not, not_not] at hset
          simp [Instance.isCommitted, hset]
        split
        · rename_i hfast
          rw [Bool.and_eq_true, decide_eq_true_eq] at hfast
          cases hl : i.leaderDeps with
          | none => exact panicked_moves s
          | some deps =>
            exact commitAndBroadcast_moves hs h hi hc (.fast hs hme hset hfast.1 hfast.2 hl)
        · split
          · rename_i hslow
            exact .head (.slowPath hs hi hme hset hslow.1 hslow.2)
              (epaxosTryCommitAccepted_moves id (counted_put h _ _) hs)
          · exact .refl

theorem announce_moves (hs : c.isSwift = true) (id : Uid) (deps : DepSet n) (proposer : Fin n)
    (hm : Event.committed id deps ∈ s.sinks) :
    Moves c me heard s (s.announce c me id deps proposer) := by
  unfold announce
  have hdests : ∀ dest ∈ c.nonReplicas.filter (· ≠ proposer), c.isReplica dest = false := by
    intro dest hd
    simpa [Cluster.nonReplicas, Cluster.isReplica] using (List.mem_filter.1 hd).1
  generalize c.nonReplicas.filter (· ≠ proposer) = dests at hdests
  induction dests generalizing s with
  | nil => exact .refl
  | cons dest dests ih =>
    have hrest := fun d hd => hdests d (List.mem_cons_of_mem _ hd)
    simp only [List.foldl_cons, send]
    split
    · exact ih hm hrest
    · rename_i hne
      exact .head (.announce hm (Or.inr ⟨hs, dest, rfl, hne, hdests dest List.mem_cons_self⟩))
        (ih (List.mem_append_left _ hm) hrest)

theorem swiftTryCommit_moves (id : Uid) (h : s.instances.Counted) (hs : c.isSwift = true) :
    Moves c me heard s (s.swiftTryCommit c me id) := by
  unfold swiftTryCommit
  cases hi : s.instances.get id with
  | none => exact .refl
  | some i =>
    simp only []
    split
    · exact .refl
    · rename_i hc
      rw [Bool.not_eq_true] at hc
      cases hset : i.isSettled with
      | false =>
        simp only [Instance.acceptedDeps, hset]
        exact .refl
      | true =>
        simp only [Instance.acceptedDeps, hset, if_true]
        split
        · rename_i hq
          rw [Bool.or_eq_true, decide_eq_true_eq] at hq
          have hget := get_put_self hi (i.setFastPath (i.fastEndorsers.any c.swiftFastQuorumReached))
          have hmoves : Moves c me heard s
              ((s.put id (i.setFastPath (i.fastEndorsers.any c.swiftFastQuorumReached))).onCommit me id
                i.deps) := by
            refine .head (.leavePath _ hi) (onCommit_moves (counted_put h _ _) fun j hj _ => ?_)
            have hj' := hget.symm.trans hj
            rw [← Option.some.inj hj']
            exact .swift hs hset hq
          split
          · exact hmoves.trans (announce_moves hs id i.deps _
              (committed_mem_sinks c (counted_put h _ _) hget hc))
          · exact hmoves
        · exact .refl

theorem tryCommit_moves (id : Uid) (h : s.instances.Counted) :
    Moves c me heard s (s.tryCommit c me id) := by
  unfold tryCommit
  cases hs : c.isSwift with
  | false => exact epaxosTryCommit_moves id h hs
  | true => exact swiftTryCommit_moves id h hs

theorem submit_moves (commands : List (Command n)) (h : s.instances.Counted)
    (hn : s.instances.get s.nextUid = none) (he : ¬ s.executed.contains s.nextUid)
    (ho : Requested heard s commands) : Moves c me heard s (s.submit c me commands) := by
  unfold submit
  cases hm : c.mode with
  | ePaxos coordinator =>
    simp only []
    split
    · rename_i hne
      simp only [send, if_neg hne]
      exact .single (.forward commands hm hne ho)
    · rename_i heq
      have hmove : Move c me heard s _ := .start commands (fun _ hc => by
        rw [hm] at hc
        cases hc
        exact not_not.1 heq) hn he ho
      exact .head hmove (tryCommit_moves _ (hmove.counted h))
  | swiftPaxos leader quorum =>
    have hmove : Move c me heard s _ :=
      .start commands (fun _ hc => by rw [hm] at hc; cases hc) hn he ho
    exact .head hmove (tryCommit_moves _ (hmove.counted h))

theorem onPreAccept_create {src : Fin n} {id : Uid} {deps : DepSet n}
    {commands : List (Command n)} : (s.createInstance c id commands).onPreAccept c me src id deps =
      ((s.createInstance c id commands).answerPreAccept c me src id deps
        (Instance.fresh c id commands)).tryCommit c me id := by
  have hget : (s.createInstance c id commands).instances.get id =
      some (Instance.fresh c id commands) := by
    simp only [createInstance, emit, InstanceTable.get_insert, if_true]
    rfl
  rw [onPreAccept, withInstance_some hget]

theorem onPreAcceptOk_moves {src : Fin n} {id : Uid} {acked : Option (DepSet n)}
    {value : Option (List (Command n))} (h : s.instances.Counted)
    (hh : heard src ⟨.preAcceptOk id acked, value⟩) :
    Moves c me heard s (s.onPreAcceptOk c me src id acked) := by
  unfold onPreAcceptOk
  cases hi : s.instances.get id with
  | none =>
    rw [withInstance_none hi]
    exact panicked_moves s
  | some i =>
    rw [withInstance_some hi]
    cases ha : acked.or i.coordinatorDeps with
    | none => exact panicked_moves s
    | some deps =>
      simp only []
      split
      · exact .refl
      · rename_i hn
        rw [Bool.or_eq_true, not_or, Bool.not_eq_true, Bool.not_eq_true] at hn
        exact .head (.vote hh hi ha hn.1 hn.2) (tryCommit_moves id (counted_put h _ _))

theorem onAccept_moves {src : Fin n} {id : Uid} {deps : DepSet n}
    {value : Option (List (Command n))} (h : s.instances.Counted)
    (hh : heard src ⟨.accept id deps, value⟩) :
    Moves c me heard s (s.onAccept c me src id deps) := by
  unfold onAccept
  refine .head (.note (Or.inr (Or.inr (Or.inl ⟨id, deps, rfl⟩)))) ?_
  cases hi : s.instances.get id with
  | none =>
    rw [withInstance_none (by exact hi)]
    exact panicked_moves _
  | some i =>
    rw [withInstance_some (by exact hi)]
    have hmove : Move c me heard (s.emit (.dispatchedAccept id deps (s.depsAreSettled id deps))) _ :=
      .accept hh (by exact hi)
    exact .head hmove (tryCommit_moves id (hmove.counted h))

theorem onAcceptOk_moves {src : Fin n} {id : Uid} {value : Option (List (Command n))}
    (h : s.instances.Counted) (hh : heard src ⟨.acceptOk id, value⟩) :
    Moves c me heard s (s.onAcceptOk c me src id) := by
  unfold onAcceptOk
  cases hi : s.instances.get id with
  | none =>
    rw [withInstance_none hi]
    exact panicked_moves s
  | some i =>
    rw [withInstance_some hi]
    split
    · exact .refl
    · rename_i hn
      rw [not_or, Bool.not_eq_true] at hn
      exact .head (.ack hh hi hn.1) (tryCommit_moves id (counted_put h _ _))

theorem dispatch_moves {src : Fin n} {msg : DepMsg n} {value : Option (List (Command n))}
    (h : s.instances.Counted) (hh : heard src ⟨msg, value⟩) (hp : msg.isPreAccept = false) :
    Moves c me heard s (s.dispatch c me src msg) := by
  cases msg with
  | forward | readRequest | readResponse => exact panicked_moves s
  | preAccept id deps => cases hp
  | preAcceptOk id deps => exact onPreAcceptOk_moves h hh
  | accept id deps => exact onAccept_moves h hh
  | acceptOk id => exact onAcceptOk_moves h hh
  | commit id deps => exact onCommit_moves h fun i _ _ => .told hh

theorem deliverTurn_moves {queue : List (Held n)} (h : s.instances.Counted)
    (hh : ∀ entry ∈ queue, entry.2.isPreAccept = false ∧ ∃ value, heard entry.1 ⟨entry.2, value⟩) :
    Moves c me heard s (s.deliverTurn c me queue).1 := by
  unfold deliverTurn
  cases queue with
  | nil => exact .refl
  | cons entry rest =>
    obtain ⟨src, msg⟩ := entry
    obtain ⟨hp, value, hv⟩ := hh _ List.mem_cons_self
    simp only []
    cases hid : msg.id with
    | none => exact panicked_moves s
    | some id =>
      simp only []
      split
      · exact .refl
      · cases hb : s.blockedBy c me msg with
        | some dep =>
          exact .head (.note (Or.inr (Or.inr (Or.inr ⟨id, dep, rfl⟩))))
            (.single (.hold dep hv (by simp [hid]) hp))
        | none => exact (dispatch_moves h hv hp).tail (.release id)

variable (c me) in
structure Sane (s : DepShard n) : Prop where
  counted : s.instances.Counted
  nextUid : s.nextUid = uidAt (s.seen.marks me) me
  known : ∀ id, s.seen.contains id ↔ s.executed.contains id ∨ s.instances.get id ≠ none
  live : ∀ id i, s.instances.get id = some i → ¬ s.executed.contains id
  wf : s.executed.Wf
  parked : ∀ id ∈ s.parkedAccepts, id ∈ acceptIds (s.deferred.map Prod.snd)
  quorum : s.reads.readQuorum = c.slowQuorum
  leader : s.reads.leader = c.readLeader
  conflicts : ∀ key seen, s.conflicts key = some seen →
    c.perKeyDeps = true ∧ ∀ r, seen.marks r ≤ s.seen.marks r

namespace Sane

theorem free (h : Sane c me s) {id : Uid} (hn : ¬ s.seen.contains id) :
    s.instances.get id = none := by
  by_contra hg
  exact hn ((h.known id).2 (Or.inr hg))

theorem unexecuted (h : Sane c me s) {id : Uid} (hn : ¬ s.seen.contains id) :
    ¬ s.executed.contains id := fun he => hn ((h.known id).2 (Or.inl he))

theorem next_unseen (h : Sane c me s) : ¬ s.seen.contains s.nextUid := by
  rw [h.nextUid]
  simp

theorem next_free (h : Sane c me s) : s.instances.get s.nextUid = none := h.free h.next_unseen

theorem next_unexecuted (h : Sane c me s) : ¬ s.executed.contains s.nextUid :=
  h.unexecuted h.next_unseen

theorem new : Sane c me (DepShard.new c me) where
  counted := InstanceTable.counted_new
  nextUid := rfl
  known := by simp [DepShard.new]
  live := by simp [DepShard.new]
  wf := Executed.wf_new
  parked := by simp [DepShard.new]
  quorum := rfl
  leader := rfl
  conflicts := by simp [DepShard.new]

end Sane

-- What the links promise about a packet at the moment it is received.
structure Timely (src : Fin n) (s : DepShard n) (packet : Packet n) : Prop where
  fresh : ∀ id deps, packet.msg = .preAccept id deps →
    id = uidAt (s.seen.marks src) src ∧ packet.value.isSome
  bare : packet.msg.isPreAccept = false → packet.msg ≠ .forward → packet.value = none

theorem handle_preAccept {src : Fin n} {id : Uid} {deps : DepSet n} {commands : List (Command n)}
    (hn : s.instances.get id = none) (he : ¬ s.executed.contains id) :
    s.handle c me src ⟨.preAccept id deps, some commands⟩ =
      let s' := ((s.createInstance c id commands).answerPreAccept c me src id deps
        (Instance.fresh c id commands)).tryCommit c me id
      (s'.release id, s'.heldFor id) := by
  have hc : s.instances.containsKey id = false := by simp [InstanceTable.containsKey, hn]
  have he' : ¬ (s.createInstance c id commands).executed.contains id := he
  have hb : (s.createInstance c id commands).blockedBy c me (.preAccept id deps) = none := by
    unfold blockedBy
    split <;> rfl
  simp only [handle, handleAbout, DepMsg.id, if_neg he, hc, Bool.false_eq_true, if_false, deliverTurn,
    if_neg he', hb, dispatch, onPreAccept_create, List.nil_append]

theorem handle_arrives {src : Fin n} {packet : Packet n} (hsrc : src ≠ me)
    (ht : Timely src s packet) (hs : Sane c me (s.emit (.received src packet))) :
    ∃ s₁, Arrives c me src s packet s₁ ∧ ∀ heard : Fin n → Packet n → Prop, heard src packet →
      Moves c me heard s₁ ((s.emit (.received src packet)).handle c me src packet).1 := by
  have h := hs.counted
  have hplain : packet.msg.isPreAccept = false → packet.msg ≠ .forward →
      ∀ id, packet.msg.id = some id → ∀ heard : Fin n → Packet n → Prop, heard src packet →
        Moves c me heard (s.emit (.received src packet))
          ((s.emit (.received src packet)).handleAbout c me id src packet).1 := by
    intro hp hf id hid heard hh
    rw [handleAbout, ht.bare hp hf]
    split
    · exact .refl
    · split
      · refine deliverTurn_moves h fun entry hentry => ?_
        rw [List.mem_singleton.1 hentry]
        exact ⟨hp, packet.value, hh⟩
      · exact .single (.hold id hh (by simp [hid]) hp)
  obtain ⟨msg, value⟩ := packet
  cases msg with
  | forward =>
    refine ⟨_, .plain (by simp) (by simp), fun heard hh => ?_⟩
    cases value with
    | none => exact panicked_moves _
    | some commands =>
      exact submit_moves commands h hs.next_free hs.next_unexecuted (Or.inr ⟨src, hh⟩)
  | preAccept id deps =>
    refine ⟨_, .plain (by simp) (by simp), fun heard hh => ?_⟩
    obtain ⟨hid, hv⟩ := ht.fresh id deps rfl
    obtain ⟨commands, rfl⟩ := Option.isSome_iff_exists.1 hv
    have hunseen : ¬ (s.emit (.received src ⟨.preAccept id deps, some commands⟩)).seen.contains id := by
      simp [hid, emit]
    have hn := hs.free hunseen
    have he := hs.unexecuted hunseen
    rw [handle_preAccept hn he]
    have hmove : Move c me heard (s.emit (.received src ⟨.preAccept id deps, some commands⟩)) _ :=
      .learn hh hid hsrc hn he
    exact (ReflTransGen.head hmove (tryCommit_moves id (hmove.counted h))).tail (.release id)
  | readRequest id key =>
    refine ⟨_, .request hsrc, fun heard hh => ?_⟩
    simp only [handle, send, if_neg hsrc]
    exact .refl
  | readResponse id seen => exact ⟨_, .response, fun heard hh => .single .serve⟩
  | preAcceptOk id deps => exact ⟨_, .plain (by simp) (by simp), hplain rfl (by simp) id rfl⟩
  | accept id deps => exact ⟨_, .plain (by simp) (by simp), hplain rfl (by simp) id rfl⟩
  | acceptOk id => exact ⟨_, .plain (by simp) (by simp), hplain rfl (by simp) id rfl⟩
  | commit id deps => exact ⟨_, .plain (by simp) (by simp), hplain rfl (by simp) id rfl⟩

end DepShard

end KCensus.Deps

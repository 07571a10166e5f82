import KCensus.Deps.Slices
import KCensus.Deps.Turns

namespace KCensus.Deps

variable {n : Nat} [NeZero n]

def acksOf (events : List (Event n)) : List (Event n) := events.filter Event.isQueueAck

namespace DepShard

variable {c : Cluster n} {me : Fin n} {s s' s'' : DepShard n} {id : Uid}

def Mute (s s' : DepShard n) : Prop := acksOf s'.sinks = acksOf s.sinks

namespace Mute

theorem refl (s : DepShard n) : Mute s s := rfl

theorem trans (h : Mute s s') (h' : Mute s' s'') : Mute s s'' := Eq.trans h' h

theorem emitAll (s : DepShard n) {events : List (Event n)}
    (h : ∀ e ∈ events, e.isQueueAck = false) : Mute s (s.emitAll events) := by
  have hnone : events.filter Event.isQueueAck = [] :=
    List.filter_eq_nil_iff.2 fun e he => by simp [h e he]
  rw [Mute, DepShard.emitAll, acksOf, List.filter_append, hnone, List.append_nil]
  rfl

theorem emit (s : DepShard n) {e : Event n} (he : e.isQueueAck = false) : Mute s (s.emit e) :=
  emitAll s fun _ hmem => List.mem_singleton.1 hmem ▸ he

theorem put (s : DepShard n) (id : Uid) (i : Instance n) : Mute s (s.put id i) := rfl

theorem withInstance {f : Instance n → DepShard n}
    (h : ∀ i, s.instances.get id = some i → Mute s (f i)) : Mute s (s.withInstance id f) := by
  cases hi : s.instances.get id with
  | none =>
    rw [withInstance_none hi]
    exact emit s rfl
  | some i =>
    rw [withInstance_some hi]
    exact h i hi

theorem execute (s : DepShard n) (uid : Uid) : Mute s (s.execute uid) :=
  withInstance fun i _ => emit s (e := .executed uid i.commands) rfl

theorem foldl_execute (order : List Uid) (s : DepShard n) :
    Mute s (order.foldl DepShard.execute s) := by
  induction order generalizing s with
  | nil => exact refl s
  | cons uid order ih => exact (execute s uid).trans (ih _)

theorem runExecutable (fuel : Nat) (s : DepShard n) : Mute s (runExecutable fuel s) := by
  induction fuel generalizing s with
  | zero => exact refl s
  | succ fuel ih =>
    rw [DepShard.runExecutable]
    split
    · exact (execute s _).trans (ih _)
    · exact refl s

theorem executeCycles (s : DepShard n) : Mute s s.executeCycles := by
  rw [DepShard.executeCycles]
  split
  · exact (emit s rfl).trans (foldl_execute _ _)
  · exact refl s

theorem serveReadyReads (s : DepShard n) : Mute s s.serveReadyReads := by
  have hserved : Mute s (s.emitAll ((s.reads.ready s.executed).map fun entry =>
      .served entry.1 entry.2)) := by
    refine emitAll s fun e he => ?_
    obtain ⟨entry, -, rfl⟩ := List.mem_map.1 he
    rfl
  exact hserved

theorem executeReady (s : DepShard n) : Mute s s.executeReady :=
  ((runExecutable _ s).trans (executeCycles _)).trans (serveReadyReads _)

theorem onCommit (me : Fin n) (id : Uid) (deps : DepSet n) (s : DepShard n) :
    Mute s (s.onCommit me id deps) := by
  refine withInstance fun i _ => ?_
  split
  · exact refl s
  · exact ((put s _ _).trans (emit _ rfl)).trans (executeReady _)

theorem commitAndBroadcast (me : Fin n) (id : Uid) (deps : DepSet n) (s : DepShard n) :
    Mute s (s.commitAndBroadcast me id deps) := (onCommit me id deps s).trans (emit _ rfl)

theorem epaxosTryCommitAccepted (s : DepShard n) :
    Mute s (s.epaxosTryCommitAccepted c me id) := by
  refine withInstance fun i _ => ?_
  split
  · exact refl s
  · exact (put s _ _).trans (commitAndBroadcast _ _ _ _)

theorem epaxosTryCommit (s : DepShard n) : Mute s (s.epaxosTryCommit c me id) := by
  refine withInstance fun i _ => ?_
  split
  · exact refl s
  · split
    · exact epaxosTryCommitAccepted s
    · split
      · split
        · exact commitAndBroadcast _ _ _ _
        · exact emit s rfl
      · split
        · exact ((put s _ _).trans (emit _ rfl)).trans (epaxosTryCommitAccepted _)
        · exact refl s

theorem send (packet : Packet n) (dest : Fin n) (s : DepShard n) :
    Mute s (s.send me packet dest) := by
  rw [DepShard.send]
  split
  · exact refl s
  · exact emit s rfl

theorem announce (deps : DepSet n) (proposer : Fin n) (s : DepShard n) :
    Mute s (s.announce c me id deps proposer) := by
  rw [DepShard.announce]
  generalize c.nonReplicas.filter (· ≠ proposer) = dests
  induction dests generalizing s with
  | nil => exact refl s
  | cons dest dests ih => exact (send _ dest s).trans (ih _)

theorem swiftTryCommit (s : DepShard n) : Mute s (s.swiftTryCommit c me id) := by
  rw [DepShard.swiftTryCommit]
  split
  · exact refl s
  · split
    · exact refl s
    · split
      · exact refl s
      · dsimp only
        split
        · split
          · exact ((put s _ _).trans (onCommit _ _ _ _)).trans (announce _ _ _)
          · exact (put s _ _).trans (onCommit _ _ _ _)
        · exact refl s

theorem tryCommit (c : Cluster n) (me : Fin n) (id : Uid) (s : DepShard n) :
    Mute s (s.tryCommit c me id) := by
  rw [DepShard.tryCommit]
  split
  · exact swiftTryCommit s
  · exact epaxosTryCommit s

end Mute

def FewAcks (events : List (Event n)) : Prop :=
  acksOf events = [] ∨ ∃ msg requester, msg.isAck = true ∧ acksOf events = [.queueAck msg requester]

def Few (s s' : DepShard n) : Prop :=
  acksOf s'.sinks = acksOf s.sinks ∨ ∃ msg requester, msg.isAck = true ∧
    acksOf s'.sinks = acksOf s.sinks ++ [.queueAck msg requester]

theorem Mute.few (h : Mute s s') : Few s s' := Or.inl h

theorem Few.after (h : Few s s') (hm : Mute s' s'') : Few s s'' := by
  rcases h with h | ⟨msg, requester, hack, h⟩
  · exact Or.inl (Eq.trans hm h)
  · exact Or.inr ⟨msg, requester, hack, Eq.trans hm h⟩

theorem Few.before (hm : Mute s s') (h : Few s' s'') : Few s s'' := by
  rcases h with h | ⟨msg, requester, hack, h⟩
  · exact Or.inl (Eq.trans h hm)
  · exact Or.inr ⟨msg, requester, hack, by rw [h, hm]⟩

theorem few_withInstance {f : Instance n → DepShard n}
    (h : ∀ i, s.instances.get id = some i → Few s (f i)) : Few s (s.withInstance id f) := by
  cases hi : s.instances.get id with
  | none =>
    rw [withInstance_none hi]
    exact (Mute.emit s rfl).few
  | some i =>
    rw [withInstance_some hi]
    exact h i hi

theorem few_emitAll {events : List (Event n)} (hs : s'.sinks = s.sinks ++ events)
    (h : FewAcks events) : Few s s' := by
  have happ : acksOf s'.sinks = acksOf s.sinks ++ acksOf events := by
    rw [hs, acksOf, List.filter_append]
    rfl
  rcases h with h | ⟨msg, requester, hack, h⟩
  · exact Or.inl (by rw [happ, h, List.append_nil])
  · exact Or.inr ⟨msg, requester, hack, by rw [happ, h]⟩

omit [NeZero n] in
theorem FewAcks.cons {e : Event n} {events : List (Event n)} (h : FewAcks events)
    (he : e.isQueueAck = false) : FewAcks (e :: events) := by
  have hsame : acksOf (e :: events) = acksOf events := List.filter_cons_of_neg (by simp [he])
  rw [FewAcks, hsame]
  exact h

theorem fewAcks_ackEvent (id : Uid) {msg : DepMsg n} (hm : msg.isAck = true) :
    FewAcks [ackEvent c id msg] := by
  rw [ackEvent]
  split
  · exact Or.inr ⟨msg, requesterOf n id, hm, rfl⟩
  · exact Or.inl rfl

omit [NeZero n] in
theorem fewAcks_sendEvents (packet : Packet n) (dest : Fin n) :
    FewAcks (sendEvents me packet dest) := by
  rw [sendEvents]
  split <;> exact Or.inl rfl

theorem fewAcks_preAcceptEvents (src : Fin n) (id : Uid) (deps myDeps : DepSet n) (i : Instance n) :
    FewAcks (preAcceptEvents c me src id deps myDeps i) := by
  rw [preAcceptEvents]
  split
  · refine FewAcks.cons ?_ rfl
    split
    · split
      · exact fewAcks_ackEvent id rfl
      · exact fewAcks_ackEvent id rfl
    · exact fewAcks_sendEvents _ _
  · exact Or.inl rfl

theorem fewAcks_acceptEvents (src : Fin n) (id : Uid) (i : Instance n) :
    FewAcks (acceptEvents c me src id i) := by
  rw [acceptEvents]
  split
  · split
    · exact fewAcks_ackEvent id rfl
    · exact fewAcks_sendEvents _ _
  · exact Or.inl rfl

theorem fewAcks_openEvents (id : Uid) (deps : DepSet n) (commands : List (Command n)) :
    FewAcks (openEvents c me id deps commands) := by
  rw [openEvents]
  refine FewAcks.cons (FewAcks.cons (FewAcks.cons ?_ rfl) rfl) rfl
  split
  · exact fewAcks_ackEvent id rfl
  · exact Or.inl rfl

theorem few_submit (s : DepShard n) (commands : List (Command n)) :
    Few s (s.submit c me commands) := by
  have hopen : Few s ((s.openInstance c me s.nextUid commands).tryCommit c me s.nextUid) := by
    refine Few.after ?_ (Mute.tryCommit c me _ _)
    rw [openInstance_eq]
    exact few_emitAll rfl (fewAcks_openEvents _ _ _)
  rw [submit]
  split
  · split
    · exact (Mute.send _ _ s).few
    · exact hopen
  · exact hopen

theorem mute_submitRead (c : Cluster n) (me : Fin n) (s : DepShard n) (command : Command n) :
    Mute s (s.submitRead c me command) := by
  refine Mute.trans ?_ (Mute.serveReadyReads _)
  rw [Mute, askReplicas]
  split
  · simp [acksOf, receiveRead, broadcast, emit, Event.isQueueAck]
  · simp [acksOf, broadcast, emit, Event.isQueueAck]

theorem few_dispatch (s : DepShard n) (src : Fin n) (msg : DepMsg n) :
    Few s (s.dispatch c me src msg) := by
  cases msg with
  | forward => exact (Mute.emit s rfl).few
  | readRequest => exact (Mute.emit s rfl).few
  | readResponse => exact (Mute.emit s rfl).few
  | preAccept id deps =>
    refine few_withInstance fun i hi => Few.after ?_ (Mute.tryCommit c me _ _)
    rw [answerPreAccept_eq hi]
    exact few_emitAll rfl (fewAcks_preAcceptEvents _ _ _ _ _)
  | preAcceptOk id acked =>
    refine (Mute.withInstance fun i _ => ?_).few
    split
    · exact Mute.emit s rfl
    · split
      · exact Mute.refl s
      · exact (Mute.put s _ _).trans (Mute.tryCommit c me _ _)
  | accept id deps =>
    refine Few.before (Mute.emit s (e := .dispatchedAccept id deps (s.depsAreSettled id deps)) rfl)
      (few_withInstance fun i _ => Few.after ?_ (Mute.tryCommit c me _ _))
    rw [answerAccept_eq]
    exact few_emitAll rfl (fewAcks_acceptEvents _ _ _)
  | acceptOk id =>
    refine (Mute.withInstance fun i _ => ?_).few
    split
    · exact Mute.refl s
    · exact (Mute.put s _ _).trans (Mute.tryCommit c me _ _)
  | commit id deps => exact (Mute.onCommit me id deps s).few

theorem few_deliverTurn (s : DepShard n) (queue : List (Held n)) :
    Few s (s.deliverTurn c me queue).1 := by
  rw [deliverTurn.eq_def]
  split
  · exact (Mute.refl s).few
  · split
    · exact (Mute.emit s rfl).few
    · split
      · exact (Mute.refl s).few
      · split
        · exact (Mute.emit s rfl).few
        · exact few_dispatch s _ _

theorem few_handleAbout (s : DepShard n) (id : Uid) (src : Fin n) (packet : Packet n) :
    Few s (s.handleAbout c me id src packet).1 := by
  rw [handleAbout]
  split
  · exact (Mute.refl s).few
  · split
    · exact few_deliverTurn s _
    · split
      · exact (Mute.refl s).few
      · rename_i commands _
        exact Few.before (Mute.emit s (e := .created id commands) rfl) (few_deliverTurn _ _)

theorem few_handle (s : DepShard n) (src : Fin n) (packet : Packet n) :
    Few s (s.handle c me src packet).1 := by
  obtain ⟨msg, value⟩ := packet
  cases msg with
  | readRequest id key => exact (Mute.send _ _ s).few
  | readResponse id seen =>
    exact (Mute.trans (Mute.refl s) (Mute.serveReadyReads (s.receiveRead id src seen))).few
  | forward =>
    cases value with
    | none => exact (Mute.emit s rfl).few
    | some commands => exact few_submit s commands
  | preAccept id deps => exact few_handleAbout s id src _
  | preAcceptOk id deps => exact few_handleAbout s id src _
  | accept id deps => exact few_handleAbout s id src _
  | acceptOk id => exact few_handleAbout s id src _
  | commit id deps => exact few_handleAbout s id src _

theorem Few.slice (h : Few s s') (hs : acksOf s.sinks = []) (c : Cluster n) (me : Fin n) (k : Nat)
    (m : ProcessSink n) : ∃ full,
    (s'.sinks.foldl (ProcessSink.apply c me k) m).slice k =
      s'.sinks.foldl (MultiSink.apply c me full) (m.slice k) := by
  have hquiet : ∀ {events : List (Event n)}, acksOf events = [] →
      ∀ e ∈ events, e.isQueueAck = false := by
    intro events he e hmem
    have := List.filter_eq_nil_iff.1 he e hmem
    simpa using this
  rcases h with h | ⟨msg, requester, hack, h⟩
  · exact ⟨false, ProcessSink.slice_foldl_self _ (hquiet (h.trans hs)) false m⟩
  · rw [hs, List.nil_append, acksOf, List.filter_eq_cons_iff] at h
    obtain ⟨before, after, heq, hb, -, ha⟩ := h
    rw [heq]
    exact ProcessSink.slice_foldl_one before after hack requester
      (fun e he => by simpa using hb e he) (hquiet ha) m

end DepShard

end KCensus.Deps

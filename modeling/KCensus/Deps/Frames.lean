import KCensus.Deps.Turns

namespace KCensus.Deps

variable {n : Nat} [NeZero n]

namespace DepShard

variable {c : Cluster n} {me : Fin n} {s s' s'' : DepShard n}

theorem ackEvent_quiet (id : Uid) {msg : DepMsg n} (hm : msg.isPreAccept = false) :
    (ackEvent c id msg).openedId = none := by
  unfold ackEvent
  split
  · rfl
  · cases msg <;> first | rfl | cases hm

omit [NeZero n] in
theorem sendEvents_quiet {packet : Packet n} {dest : Fin n} :
    ∀ e ∈ sendEvents me packet dest, e.openedId = none := by
  intro e he
  unfold sendEvents at he
  split at he
  · cases he
  · rw [List.mem_singleton.1 he]
    exact rfl

theorem preAcceptEvents_quiet {src : Fin n} {id : Uid} {deps myDeps : DepSet n}
    {i : Instance n} : ∀ e ∈ preAcceptEvents c me src id deps myDeps i,
      e.openedId = none := by
  intro e he
  unfold preAcceptEvents voteEvents at he
  split at he
  · rcases List.mem_cons.1 he with rfl | he
    · exact rfl
    · split at he
      · split at he <;> rw [List.mem_singleton.1 he] <;> exact ackEvent_quiet id rfl
      · exact sendEvents_quiet e he
  · cases he

theorem acceptEvents_quiet {src : Fin n} {id : Uid} {i : Instance n} :
    ∀ e ∈ acceptEvents c me src id i, e.openedId = none := by
  intro e he
  unfold acceptEvents at he
  split at he
  · split at he
    · rw [List.mem_singleton.1 he]
      exact ackEvent_quiet id rfl
    · exact sendEvents_quiet e he
  · cases he

-- What deciding and executing never touch, and what they never log.
structure Keeps (s s' : DepShard n) : Prop where
  nextUid : s'.nextUid = s.nextUid
  seen : s'.seen = s.seen
  conflicts : s'.conflicts = s.conflicts
  deferred : s'.deferred = s.deferred
  parked : s'.parkedAccepts = s.parkedAccepts
  opened : s'.sinks.filterMap Event.openedId = s.sinks.filterMap Event.openedId

namespace Keeps

theorem refl (s : DepShard n) : Keeps s s := ⟨rfl, rfl, rfl, rfl, rfl, rfl⟩

theorem trans (h : Keeps s s') (h' : Keeps s' s'') : Keeps s s'' :=
  ⟨h'.nextUid.trans h.nextUid, h'.seen.trans h.seen, h'.conflicts.trans h.conflicts,
    h'.deferred.trans h.deferred, h'.parked.trans h.parked, h'.opened.trans h.opened⟩

theorem emitAll (s : DepShard n) {events : List (Event n)}
    (h : ∀ e ∈ events, e.openedId = none) : Keeps s (s.emitAll events) := by
  refine ⟨rfl, rfl, rfl, rfl, rfl, ?_⟩
  rw [DepShard.emitAll, List.filterMap_append, List.filterMap_eq_nil_iff.2 h, List.append_nil]

theorem emit (s : DepShard n) {e : Event n} (ho : e.openedId = none) : Keeps s (s.emit e) :=
  emitAll s fun _ he => List.mem_singleton.1 he ▸ ho

theorem put (s : DepShard n) (id : Uid) (i : Instance n) : Keeps s (s.put id i) :=
  ⟨rfl, rfl, rfl, rfl, rfl, rfl⟩

theorem withInstance (id : Uid) {f : Instance n → DepShard n}
    (h : ∀ i, s.instances.get id = some i → Keeps s (f i)) : Keeps s (s.withInstance id f) := by
  cases hi : s.instances.get id with
  | none =>
    rw [withInstance_none hi]
    exact emit s rfl
  | some i =>
    rw [withInstance_some hi]
    exact h i hi

theorem execute (s : DepShard n) (uid : Uid) : Keeps s (s.execute uid) := by
  refine withInstance uid fun i _ => ?_
  refine ⟨rfl, rfl, rfl, rfl, rfl, ?_⟩
  simp [Event.openedId]

theorem foldl_execute (order : List Uid) (s : DepShard n) :
    Keeps s (order.foldl DepShard.execute s) := by
  induction order generalizing s with
  | nil => exact refl s
  | cons uid order ih => exact (execute s uid).trans (ih _)

theorem runExecutable (fuel : Nat) (s : DepShard n) : Keeps s (runExecutable fuel s) := by
  induction fuel generalizing s with
  | zero => exact refl s
  | succ fuel ih =>
    simp only [DepShard.runExecutable]
    split
    · exact (execute s _).trans (ih _)
    · exact refl s

theorem executeCycles (s : DepShard n) : Keeps s s.executeCycles := by
  unfold DepShard.executeCycles
  split
  · exact (emit s rfl).trans (foldl_execute _ _)
  · exact refl s

theorem serveReadyReads (s : DepShard n) : Keeps s s.serveReadyReads := by
  have h : Keeps s (s.emitAll ((s.reads.ready s.executed).map fun entry =>
      .served entry.1 entry.2)) := by
    refine emitAll s fun e he => ?_
    obtain ⟨entry, -, rfl⟩ := List.mem_map.1 he
    exact rfl
  exact ⟨rfl, rfl, rfl, rfl, rfl, h.opened⟩

theorem executeReady (s : DepShard n) : Keeps s s.executeReady :=
  ((runExecutable _ s).trans (executeCycles _)).trans (serveReadyReads _)

theorem onCommit (me : Fin n) (id : Uid) (deps : DepSet n) (s : DepShard n) :
    Keeps s (s.onCommit me id deps) := by
  refine withInstance id fun i _ => ?_
  split
  · exact refl s
  · exact ((put s _ _).trans (emit _ rfl)).trans (executeReady _)

theorem commitAndBroadcast (me : Fin n) (id : Uid) (deps : DepSet n) (s : DepShard n) :
    Keeps s (s.commitAndBroadcast me id deps) := (onCommit me id deps s).trans (emit _ rfl)

theorem epaxosTryCommitAccepted (id : Uid) (s : DepShard n) :
    Keeps s (s.epaxosTryCommitAccepted c me id) := by
  refine withInstance id fun i _ => ?_
  split
  · exact refl s
  · exact (put s _ _).trans (commitAndBroadcast _ _ _ _)

theorem epaxosTryCommit (id : Uid) (s : DepShard n) : Keeps s (s.epaxosTryCommit c me id) := by
  refine withInstance id fun i _ => ?_
  split
  · exact refl s
  · split
    · exact epaxosTryCommitAccepted id s
    · split
      · split
        · exact commitAndBroadcast _ _ _ _
        · exact emit s rfl
      · split
        · exact ((put s _ _).trans (emit _ rfl)).trans (epaxosTryCommitAccepted id _)
        · exact refl s

theorem send (packet : Packet n) (dest : Fin n) (s : DepShard n) :
    Keeps s (s.send me packet dest) := by
  unfold DepShard.send
  split
  · exact refl s
  · exact emit s rfl

theorem announce (id : Uid) (deps : DepSet n) (proposer : Fin n) (s : DepShard n) :
    Keeps s (s.announce c me id deps proposer) := by
  unfold DepShard.announce
  generalize c.nonReplicas.filter (· ≠ proposer) = dests
  induction dests generalizing s with
  | nil => exact refl s
  | cons dest dests ih =>
    exact (send _ dest s).trans (ih _)

theorem swiftTryCommit (id : Uid) (s : DepShard n) : Keeps s (s.swiftTryCommit c me id) := by
  unfold DepShard.swiftTryCommit
  split
  · exact refl s
  · split
    · exact refl s
    · split
      · exact refl s
      · simp only []
        split
        · split
          · exact ((put s _ _).trans (onCommit _ _ _ _)).trans (announce _ _ _ _)
          · exact (put s _ _).trans (onCommit _ _ _ _)
        · exact refl s

theorem tryCommit (id : Uid) (s : DepShard n) : Keeps s (s.tryCommit c me id) := by
  unfold DepShard.tryCommit
  split
  · exact swiftTryCommit id s
  · exact epaxosTryCommit id s

theorem answerAccept (src : Fin n) (id : Uid) (deps : DepSet n) (i : Instance n)
    (s : DepShard n) : Keeps s (s.answerAccept c me src id deps i) := by
  rw [answerAccept_eq]
  exact (put s _ _).trans (emitAll _ acceptEvents_quiet)

theorem dispatch (src : Fin n) {msg : DepMsg n} (hm : msg.isPreAccept = false)
    (s : DepShard n) : Keeps s (s.dispatch c me src msg) := by
  cases msg with
  | forward | readRequest | readResponse => exact emit s rfl
  | preAccept id deps => cases hm
  | preAcceptOk id deps =>
    refine withInstance id fun i _ => ?_
    split
    · exact emit s rfl
    · split
      · exact refl s
      · exact (put s _ _).trans (tryCommit id _)
  | accept id deps =>
    refine (emit s rfl).trans (withInstance id fun i _ => ?_)
    exact (answerAccept src id deps i _).trans (tryCommit id _)
  | acceptOk id =>
    refine withInstance id fun i _ => ?_
    split
    · exact refl s
    · exact (put s _ _).trans (tryCommit id _)
  | commit id deps => exact onCommit me id deps s

end Keeps

-- The commands a turn adds to the view, if any, and those it sends out.
structure Views (s s' : DepShard n) (added : Option Uid) (opened : List Uid) : Prop where
  seen : s'.seen = (match added with
    | some id => s.seen.insert id
    | none => s.seen)
  opened : s'.sinks.filterMap Event.openedId = s.sinks.filterMap Event.openedId ++ opened

theorem Keeps.views (h : Keeps s s') : Views s s' none [] :=
  ⟨h.seen, by rw [h.opened, List.append_nil]⟩

theorem Views.keeps {added : Option Uid} {opened : List Uid} (h : Views s s' added opened)
    (hk : Keeps s' s'') : Views s s'' added opened :=
  ⟨hk.seen.trans h.seen, hk.opened.trans h.opened⟩

theorem Views.append {added : Option Uid} {events : List (Event n)} {opened : List Uid}
    (hseen : s'.seen = (match added with
      | some id => s.seen.insert id
      | none => s.seen)) (hsinks : s'.sinks = s.sinks ++ events)
    (ho : events.filterMap Event.openedId = opened) : Views s s' added opened :=
  ⟨hseen, by rw [hsinks, List.filterMap_append, ho]⟩

theorem views_openInstance (s : DepShard n) (id : Uid) (commands : List (Command n)) :
    Views s (s.openInstance c me id commands) (some id) [id] := by
  rw [openInstance_eq]
  have hquiet := ackEvent_quiet (c := c) id
    (show (DepMsg.accept id (s.depsFor c (keysOf commands))).isPreAccept = false from rfl)
  refine Views.append rfl rfl ?_
  rw [openEvents, List.filterMap_append]
  refine (congrArg _ (List.filterMap_eq_nil_iff.2 fun e he => ?_)).trans (List.append_nil _)
  split at he
  · rw [List.mem_singleton.1 he]
    exact hquiet
  · cases he

theorem views_learn (s : DepShard n) (src : Fin n) (id : Uid) (deps : DepSet n)
    (commands : List (Command n)) :
    Views s ((s.createInstance c id commands).answerPreAccept c me src id deps
      (Instance.fresh c id commands)) (some id) [] := by
  rw [learn_eq]
  refine Views.append rfl rfl ?_
  rw [List.filterMap_cons, show Event.openedId (.created id commands) = none from rfl]
  exact List.filterMap_eq_nil_iff.2 preAcceptEvents_quiet

theorem views_submit (s : DepShard n) (commands : List (Command n)) :
    Views s (s.submit c me commands) none [] ∨
      Views s (s.submit c me commands) (some s.nextUid) [s.nextUid] := by
  unfold submit
  split
  · split
    · exact Or.inl (Keeps.send _ _ s).views
    · exact Or.inr ((views_openInstance s _ commands).keeps (Keeps.tryCommit _ _))
  · exact Or.inr ((views_openInstance s _ commands).keeps (Keeps.tryCommit _ _))

theorem views_deliverTurn (s : DepShard n) {queue : List (Held n)}
    (hq : ∀ entry ∈ queue, entry.2.isPreAccept = false) :
    Views s (s.deliverTurn c me queue).1 none [] := by
  unfold deliverTurn
  split
  · exact (Keeps.refl s).views
  · rename_i src msg rest
    have hp := hq _ List.mem_cons_self
    split
    · exact (Keeps.emit s rfl).views
    · split
      · exact (Keeps.refl s).views
      · split
        · exact Views.append rfl rfl rfl
        · have hk : Keeps s (s.dispatch c me src msg) := Keeps.dispatch src hp s
          exact ⟨hk.seen, by rw [List.append_nil]; exact hk.opened⟩

end DepShard

end KCensus.Deps

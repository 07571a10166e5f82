import KCensus.Deps.Decisions

namespace KCensus.Deps

open Lib Relation

variable {n : Nat} [NeZero n]

-- Whether the assertion holds that a line of the log stands for.
def Event.passes : Event n → Bool
  | .dispatchedAccept _ _ settled => settled
  | .blocked _ _ parked => parked
  | _ => true

namespace DepShard

-- What a handler of one command does to the shard, with the execution a commit sets off.
inductive Work (me : Fin n) (id : Uid) : DepShard n → DepShard n → Prop where
  | emit {s : DepShard n} {events : List (Event n)} : (∀ e ∈ events, e.passes = true) →
      Work me id s (s.emitAll events)
  | put {s : DepShard n} {i i' : Instance n} : s.instances.get id = some i →
      (i'.isCommitted = true → i.isCommitted = true ∧ i'.deps = i.deps) →
      Work me id s (s.put id i')
  | commit {s : DepShard n} {i : Instance n} (deps : DepSet n) : s.instances.get id = some i →
      i.isCommitted = false →
      Work me id s ((s.put id (fillReport (commitReport me id deps i s) (i.commit deps))).emit
        (.committed id deps)).executeReady

abbrev Works (me : Fin n) (id : Uid) : DepShard n → DepShard n → Prop := ReflTransGen (Work me id)

variable {c : Cluster n} {me : Fin n} {id : Uid} {s s' s'' : DepShard n}

theorem Work.one (s : DepShard n) {e : Event n} (he : e.passes = true) : Work me id s (s.emit e) :=
  .emit fun _ hmem => List.mem_singleton.1 hmem ▸ he

theorem works_withInstance {f : Instance n → DepShard n}
    (h : ∀ i, s.instances.get id = some i → Works me id s (f i)) :
    Works me id s (s.withInstance id f) := by
  cases hi : s.instances.get id with
  | none =>
    rw [withInstance_none hi]
    exact .single (.one _ rfl)
  | some i =>
    rw [withInstance_some hi]
    exact h i hi

theorem works_onCommit (deps : DepSet n) (s : DepShard n) :
    Works me id s (s.onCommit me id deps) := by
  refine works_withInstance fun i hi => ?_
  cases hc : i.isCommitted with
  | true => exact .refl
  | false => exact .single (.commit deps hi hc)

theorem works_commitAndBroadcast (deps : DepSet n) (s : DepShard n) :
    Works me id s (s.commitAndBroadcast me id deps) := (works_onCommit deps s).tail (.one _ rfl)

theorem works_leavePath (me : Fin n) {i : Instance n} (hi : s.instances.get id = some i) (left : Bool) :
    Work me id s (s.put id { i with leftFastPath := left }) := .put hi fun h => ⟨h, rfl⟩

theorem works_epaxosTryCommitAccepted (s : DepShard n) :
    Works me id s (s.epaxosTryCommitAccepted c me id) := by
  refine works_withInstance fun i hi => ?_
  split
  · exact .refl
  · exact .head (works_leavePath me hi true) (works_commitAndBroadcast _ _)

theorem works_epaxosTryCommit (s : DepShard n) : Works me id s (s.epaxosTryCommit c me id) := by
  refine works_withInstance fun i hi => ?_
  split
  · exact .refl
  · split
    · exact works_epaxosTryCommitAccepted s
    · split
      · split
        · exact works_commitAndBroadcast _ _
        · exact .single (.one _ rfl)
      · split
        · have hnot : ((i.markLeftFastPath.accept i.union).ackAccept me).isCommitted = false := rfl
          exact .head (.put hi fun h => absurd (hnot.symm.trans h) (by simp))
            (.head (.one _ rfl) (works_epaxosTryCommitAccepted _))
        · exact .refl

theorem works_announce (deps : DepSet n) (proposer : Fin n) (s : DepShard n) :
    Works me id s (s.announce c me id deps proposer) := by
  unfold announce
  generalize c.nonReplicas.filter (· ≠ proposer) = dests
  induction dests generalizing s with
  | nil => exact .refl
  | cons dest dests ih =>
    simp only [List.foldl_cons, send]
    split
    · exact ih s
    · exact .head (.one _ rfl) (ih _)

theorem works_swiftTryCommit (s : DepShard n) : Works me id s (s.swiftTryCommit c me id) := by
  unfold swiftTryCommit
  cases hi : s.instances.get id with
  | none => exact .refl
  | some i =>
    simp only []
    split
    · exact .refl
    · split
      · exact .refl
      · split
        · have hleave := works_leavePath me hi (!i.fastEndorsers.any c.swiftFastQuorumReached)
          split
          · exact (ReflTransGen.head hleave (works_onCommit _ _)).trans (works_announce _ _ _)
          · exact .head hleave (works_onCommit _ _)
        · exact .refl

theorem works_tryCommit (c : Cluster n) (me : Fin n) (id : Uid) (s : DepShard n) :
    Works me id s (s.tryCommit c me id) := by
  unfold tryCommit
  split
  · exact works_swiftTryCommit s
  · exact works_epaxosTryCommit s

def noted (msg : DepMsg n) (s : DepShard n) : DepShard n :=
  match msg with
  | .accept id deps => s.emit (.dispatchedAccept id deps (s.depsAreSettled id deps))
  | _ => s

theorem passes_ackEvent (id : Uid) (msg : DepMsg n) : (ackEvent c id msg).passes = true := by
  unfold ackEvent
  split <;> rfl

theorem works_dispatch (c : Cluster n) (me src : Fin n) {msg : DepMsg n} (hp : msg.isPreAccept = false)
    (hid : msg.id = some id) (s : DepShard n) :
    Works me id (s.noted msg) (s.dispatch c me src msg) := by
  cases msg <;> cases hid
  case preAccept => cases hp
  case preAcceptOk acked =>
    refine works_withInstance fun i hi => ?_
    split
    · exact .single (.one _ rfl)
    · rename_i deps _
      split
      · exact .refl
      · refine .head (.put hi fun h => ?_) (works_tryCommit c me _ _)
        have hsame : (i.recordPreaccept src deps).isCommitted = i.isCommitted ∧
            (i.recordPreaccept src deps).deps = i.deps := by
          unfold Instance.recordPreaccept
          split <;> exact ⟨rfl, rfl⟩
        exact ⟨hsame.1 ▸ h, hsame.2⟩
  case accept deps =>
    refine works_withInstance fun i hi => ?_
    rw [answerAccept_eq]
    refine .head (.put hi (committed_acceptedFrom src deps i))
      (.head (.emit fun e he => ?_) (works_tryCommit c me _ _))
    rcases (mem_acceptEvents he).2 with rfl | rfl
    · exact passes_ackEvent _ _
    · rfl
  case acceptOk =>
    refine works_withInstance fun i hi => ?_
    split
    · exact .refl
    · have hack : Work me id s (s.put id (i.ackAccept src)) := .put hi fun h => ⟨h, rfl⟩
      exact .head hack (works_tryCommit c me _ _)
  case commit deps => exact works_onCommit deps s

-- A command is left alone, or it is run because it was committed.
def Spared (s s' : DepShard n) (v : Uid) : Prop :=
  s'.instances.get v = s.instances.get v ∧ (s'.executed.contains v ↔ s.executed.contains v) ∨
    s.instances.committedAt v = true ∧ s'.instances.get v = none ∧ s'.executed.contains v

namespace Spared

variable {v : Uid}

theorem refl (s : DepShard n) (v : Uid) : Spared s s v := Or.inl ⟨rfl, Iff.rfl⟩

theorem trans (h : Spared s s' v) (h' : Spared s' s'' v) : Spared s s'' v := by
  rcases h with ⟨hi, he⟩ | ⟨hc, hi, he⟩
  · rcases h' with ⟨hi', he'⟩ | ⟨hc', hi', he'⟩
    · exact Or.inl ⟨hi'.trans hi, he'.trans he⟩
    · rw [InstanceTable.committedAt, hi] at hc'
      exact Or.inr ⟨hc', hi', he'⟩
  · rcases h' with ⟨hi', he'⟩ | ⟨hc', hi', he'⟩
    · exact Or.inr ⟨hc, hi'.trans hi, he'.2 he⟩
    · rw [InstanceTable.committedAt, hi] at hc'
      cases hc'

theorem put (hv : v ≠ id) (i : Instance n) (s : DepShard n) : Spared s (s.put id i) v :=
  Or.inl ⟨by rw [get_put, if_neg hv], Iff.rfl⟩

theorem ran {order : List Uid} (hr : Ran s order s')
    (hc : ∀ u ∈ order, s.instances.committedAt u = true) : Spared s s' v := by
  rw [Spared, hr.get, hr.executed]
  by_cases hv : v ∈ order
  · exact Or.inr ⟨hc v hv, if_pos hv, Or.inr hv⟩
  · exact Or.inl ⟨if_neg hv, by simp [hv]⟩

theorem runExecutable (fuel : Nat) (s : DepShard n) : Spared s (runExecutable fuel s) v := by
  induction fuel generalizing s with
  | zero => exact refl s v
  | succ fuel ih =>
    simp only [DepShard.runExecutable]
    cases hn : nextExecutable s.instances s.executed with
    | none => exact refl s v
    | some uid =>
      have hc := (nextExecutable_spec hn).1
      obtain ⟨i, hi, -⟩ := (committedAt_iff _ _).1 hc
      exact (ran (ran_execute hi) fun u hu => List.mem_singleton.1 hu ▸ hc).trans (ih _)

theorem executeCycles (s : DepShard n) : Spared s s.executeCycles v := by
  unfold DepShard.executeCycles
  split
  · have hspec := (executableOrder_spec s.instances s.executed).1
    have hrun := ran_foldl (executableOrder s.instances s.executed)
      (s.emit (.ordered (executableOrder s.instances s.executed))) hspec.nodup fun uid hu => by
        obtain ⟨i, hi, -⟩ := (committedAt_iff _ _).1 (hspec.avail_of_mem uid hu)
        exact fun h => nomatch hi.symm.trans h
    have hlog : Spared s (s.emit (.ordered (executableOrder s.instances s.executed))) v :=
      Or.inl ⟨rfl, Iff.rfl⟩
    exact hlog.trans (ran hrun hspec.avail_of_mem)
  · exact refl s v

theorem executeReady (s : DepShard n) : Spared s s.executeReady v :=
  (runExecutable _ s).trans (executeCycles _)

end Spared

theorem Work.spared (h : Work me id s s') {v : Uid} (hv : v ≠ id) : Spared s s' v := by
  cases h with
  | emit events => exact .refl s v
  | put _ _ => exact .put hv _ s
  | @commit i deps hi hc =>
    have hput := Spared.put hv (fillReport (commitReport me id deps i s) (i.commit deps)) s
    have hlog : Spared s ((s.put id (fillReport (commitReport me id deps i s) (i.commit deps))).emit
        (.committed id deps)) v := hput
    exact hlog.trans (.executeReady _)

theorem Works.spared (h : Works me id s s') {v : Uid} (hv : v ≠ id) : Spared s s' v := by
  induction h with
  | refl => exact .refl s v
  | tail _ hw ih => exact ih.trans (hw.spared hv)

-- What no handler of a known command touches.
structure Fixed (s s' : DepShard n) : Prop where
  nextUid : s'.nextUid = s.nextUid
  seen : s'.seen = s.seen
  conflicts : s'.conflicts = s.conflicts
  deferred : s'.deferred = s.deferred
  parked : s'.parkedAccepts = s.parkedAccepts

theorem Keeps.fixed (h : Keeps s s') : Fixed s s' :=
  ⟨h.nextUid, h.seen, h.conflicts, h.deferred, h.parked⟩

theorem Work.fixed (h : Work me id s s') : Fixed s s' := by
  cases h with
  | emit _ | put _ _ => exact ⟨rfl, rfl, rfl, rfl, rfl⟩
  | commit deps hi hc =>
    exact (((Keeps.put s _ _).trans (Keeps.emit _ rfl)).trans (Keeps.executeReady _)).fixed

theorem Works.fixed (h : Works me id s s') : Fixed s s' := by
  induction h with
  | refl => exact ⟨rfl, rfl, rfl, rfl, rfl⟩
  | tail _ hw ih =>
    have h' := hw.fixed
    exact ⟨h'.nextUid.trans ih.nextUid, h'.seen.trans ih.seen, h'.conflicts.trans ih.conflicts,
      h'.deferred.trans ih.deferred, h'.parked.trans ih.parked⟩

def Passes (s s' : DepShard n) : Prop := ∀ e ∈ s'.sinks, e ∈ s.sinks ∨ e.passes = true

namespace Passes

theorem refl (s : DepShard n) : Passes s s := fun _ he => Or.inl he

theorem trans (h : Passes s s') (h' : Passes s' s'') : Passes s s'' := fun e he =>
  (h' e he).elim (h e) Or.inr

theorem emitAll (s : DepShard n) {events : List (Event n)} (h : ∀ e ∈ events, e.passes = true) :
    Passes s (s.emitAll events) := fun e he => (List.mem_append.1 he).imp_right (h e)

theorem emit (s : DepShard n) {e : Event n} (he : e.passes = true) : Passes s (s.emit e) :=
  emitAll s fun _ hmem => List.mem_singleton.1 hmem ▸ he

theorem execute (s : DepShard n) (uid : Uid) : Passes s (s.execute uid) := by
  unfold DepShard.execute withInstance
  split
  · exact emit s rfl
  · exact emit s rfl

theorem foldl_execute (order : List Uid) (s : DepShard n) :
    Passes s (order.foldl DepShard.execute s) := by
  induction order generalizing s with
  | nil => exact refl s
  | cons uid order ih => exact (execute s uid).trans (ih _)

theorem runExecutable (fuel : Nat) (s : DepShard n) : Passes s (runExecutable fuel s) := by
  induction fuel generalizing s with
  | zero => exact refl s
  | succ fuel ih =>
    simp only [DepShard.runExecutable]
    split
    · exact (execute s _).trans (ih _)
    · exact refl s

theorem serveReadyReads (s : DepShard n) : Passes s s.serveReadyReads := by
  refine emitAll s fun e he => ?_
  obtain ⟨entry, -, rfl⟩ := List.mem_map.1 he
  rfl

theorem executeCycles (s : DepShard n) : Passes s s.executeCycles := by
  unfold DepShard.executeCycles
  split
  · exact (emit s rfl).trans (foldl_execute _ _)
  · exact refl s

theorem executeReady (s : DepShard n) : Passes s s.executeReady :=
  ((runExecutable _ s).trans (executeCycles _)).trans (serveReadyReads _)

end Passes

theorem Work.passes (h : Work me id s s') : Passes s s' := by
  cases h with
  | emit h => exact .emitAll s h
  | put _ _ => exact .refl s
  | @commit i deps hi hc =>
    have hlog := Passes.emit (s.put id (fillReport (commitReport me id deps i s) (i.commit deps)))
      (show (Event.committed id deps).passes = true from rfl)
    have hput : Passes s (s.put id (fillReport (commitReport me id deps i s) (i.commit deps))) :=
      .refl s
    exact (hput.trans hlog).trans (.executeReady _)

theorem Works.passes (h : Works me id s s') : Passes s s' := by
  induction h with
  | refl => exact .refl s
  | tail _ hw ih => exact ih.trans hw.passes

theorem fixed_dispatch (c : Cluster n) (me src : Fin n) {msg : DepMsg n} (hp : msg.isPreAccept = false)
    (hid : msg.id = some id) (s : DepShard n) : Fixed s (s.dispatch c me src msg) := by
  have h := (works_dispatch c me src hp hid s).fixed
  cases msg <;> exact ⟨h.nextUid, h.seen, h.conflicts, h.deferred, h.parked⟩

theorem spared_dispatch (c : Cluster n) (me src : Fin n) {msg : DepMsg n} (hp : msg.isPreAccept = false)
    (hid : msg.id = some id) (s : DepShard n) {v : Uid} (hv : v ≠ id) :
    Spared s (s.dispatch c me src msg) v := by
  have h := (works_dispatch c me src hp hid s).spared hv
  cases msg <;> exact h

end DepShard

end KCensus.Deps

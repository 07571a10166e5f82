import KCensus.Deps.Candidates
import KCensus.Deps.Turns
import Mathlib.Data.List.Sigma

namespace KCensus.Deps

open Lib

variable {n : Nat} [NeZero n]

namespace InstanceTable

-- Two tables of the same instances, wherever their logs start and however long they are.
structure Alike (t t' : InstanceTable n) : Prop where
  get : ∀ uid, t'.get uid = t.get uid
  len : t'.len = t.len

theorem Alike.refl (t : InstanceTable n) : Alike t t := ⟨fun _ => rfl, rfl⟩

theorem len_modify (t : InstanceTable n) (uid : Uid) (f : Instance n → Instance n) :
    (t.modify uid f).len = t.len := by
  unfold modify
  split <;> rfl

theorem len_remove (t : InstanceTable n) (uid : Uid) :
    (t.remove uid).len = if (t.get uid).isSome then t.len - 1 else t.len := by
  cases hp : t.position uid with
  | none =>
    have hg : t.get uid = none := by simp only [InstanceTable.get, hp]
    simp [remove, hp, hg]
  | some place =>
    simp only [remove, hp]
    split <;> rfl

variable {t t' : InstanceTable n}

theorem Alike.containsKey (h : Alike t t') (uid : Uid) : t'.containsKey uid = t.containsKey uid := by
  rw [InstanceTable.containsKey, h.get]
  rfl

theorem Alike.committedAt (h : Alike t t') : t'.committedAt = t.committedAt := by
  funext uid
  rw [InstanceTable.committedAt, h.get]
  rfl

theorem Alike.settledAt (h : Alike t t') : t'.settledAt = t.settledAt := by
  funext uid
  rw [InstanceTable.settledAt, h.get]
  rfl

theorem Alike.modify (h : Alike t t') (uid : Uid) (f : Instance n → Instance n) :
    Alike (t.modify uid f) (t'.modify uid f) := by
  refine ⟨fun v => ?_, ?_⟩
  · rw [get_modify, get_modify, h.get]
  · rw [len_modify, len_modify, h.len]

theorem Alike.insert (h : Alike t t') (uid : Uid) (i : Instance n) :
    Alike (t.insert uid i) (t'.insert uid i) := by
  refine ⟨fun v => ?_, ?_⟩
  · rw [get_insert, get_insert, h.get]
  · exact congrArg (· + 1) h.len

theorem Alike.remove (h : Alike t t') (uid : Uid) : Alike (t.remove uid) (t'.remove uid) := by
  refine ⟨fun v => ?_, ?_⟩
  · rw [get_remove, get_remove, h.get]
  · rw [len_remove, len_remove, h.get, h.len]

theorem iter_uids_nodup (t : InstanceTable n) : (t.iter.map Prod.fst).Nodup := by
  rw [iter, List.map_flatMap, List.nodup_flatMap]
  have huid : ∀ r uid, uid ∈ ((t.logs r).zipIdx.filterMap fun entry =>
      entry.1.map fun i => (uidAt (indexOf n (t.front r) + entry.2) r, i)).map Prod.fst →
      requesterOf n uid = r := by
    intro r uid hu
    obtain ⟨⟨v, i⟩, hm, rfl⟩ := List.mem_map.1 hu
    obtain ⟨⟨slot, index⟩, -, hs⟩ := List.mem_filterMap.1 hm
    obtain ⟨j, -, hj⟩ := Option.map_eq_some_iff.1 hs
    cases hj
    exact requesterOf_uidAt _ _
  refine ⟨fun r _ => ?_, (List.nodup_finRange n).imp fun hab => ?_⟩
  · rw [List.map_filterMap, List.Nodup, List.pairwise_filterMap]
    refine (List.pairwise_map.1 (List.nodup_zipIdx_map_snd (t.logs r))).imp ?_
    rintro ⟨slot, index⟩ ⟨slot', index'⟩ hne uid hu v hv
    simp only [Option.map_map, Option.map_eq_some_iff, Function.comp_apply] at hu hv
    obtain ⟨i, -, rfl⟩ := hu
    obtain ⟨j, -, rfl⟩ := hv
    intro heq
    have := (uidAt_inj.1 heq).1
    omega
  · refine List.disjoint_left.2 fun uid hu hu' => hab ?_
    exact (huid _ uid hu).symm.trans (huid _ uid hu')

end InstanceTable

open InstanceTable

variable {t t' : InstanceTable n}

theorem InstanceTable.Alike.candidatesFrom (h : t.Alike t') (e : Executed n) (fuel : Nat) (uid : Uid) :
    candidatesFrom t' e fuel uid = candidatesFrom t e fuel uid := by
  induction fuel generalizing uid with
  | zero => rfl
  | succ fuel ih =>
    simp only [Deps.candidatesFrom, h.committedAt, ih]

theorem InstanceTable.Alike.candidates (h : t.Alike t') (e : Executed n) : candidates t' e = candidates t e := by
  unfold Deps.candidates
  congr 1
  funext r
  have hr : requesterOf n (e.nextUnexecuted r) = r := requesterOf_uidAt _ _
  rw [← candidatesFrom_enough e hr (t.logs r).length, h.candidatesFrom,
    ← candidatesFrom_enough (t := t) e hr (t'.logs r).length]
  congr 1
  omega

theorem InstanceTable.Alike.depsAt (h : t.Alike t') : depsAt t' = depsAt t := by
  funext uid
  rw [Deps.depsAt, h.get]
  rfl

theorem InstanceTable.Alike.nextExecutable (h : t.Alike t') (e : Executed n) :
    nextExecutable t' e = nextExecutable t e := by
  rw [Deps.nextExecutable, h.candidates, h.depsAt]
  rfl

theorem InstanceTable.Alike.cyclePossible (h : t.Alike t') (e : Executed n) :
    cyclePossible t' e = cyclePossible t e := by
  simp only [Deps.cyclePossible, h.candidates, h.depsAt, h.committedAt]

theorem roots_sorted (t : InstanceTable n) : (roots t).Pairwise (· ≤ ·) ∧ (roots t).Nodup := by
  refine ⟨List.pairwise_insertionSort _ _, ?_⟩
  rw [roots, (List.perm_insertionSort _ _).nodup_iff]
  exact (iter_uids_nodup t).sublist (List.filter_sublist.map Prod.fst)

theorem InstanceTable.Alike.roots (h : t.Alike t') : roots t' = roots t := by
  refine List.Perm.eq_of_pairwise (fun _ _ _ _ => le_antisymm) (roots_sorted t').1 (roots_sorted t).1
    ((List.perm_ext_iff_of_nodup (roots_sorted t').2 (roots_sorted t).2).2 fun uid => ?_)
  rw [mem_roots, mem_roots, h.committedAt]

theorem InstanceTable.Alike.executableOrder (h : t.Alike t') (e : Executed n) :
    executableOrder t' e = executableOrder t e := by
  have hp : pendingDeps t' e = pendingDeps t e := by
    funext uid
    rw [pendingDeps, h.depsAt]
    rfl
  rw [Deps.executableOrder, h.committedAt, hp, h.roots]
  rfl

namespace DepShard

-- Two shards that differ in how their tables are laid out, if at all.
def Alike (s s' : DepShard n) : Prop :=
  ∃ instances, s.instances.Alike instances ∧ s' = { s with instances := instances }

variable {c : Cluster n} {me : Fin n} {s s' : DepShard n} {id : Uid}

namespace Alike

theorem refl (s : DepShard n) : Alike s s := ⟨s.instances, .refl _, rfl⟩

theorem get (h : Alike s s') (id : Uid) : s'.instances.get id = s.instances.get id := by
  obtain ⟨t, ht, rfl⟩ := h
  exact ht.get id

theorem executed (h : Alike s s') : s'.executed = s.executed := by
  obtain ⟨t, -, rfl⟩ := h
  rfl

theorem nextUid (h : Alike s s') : s'.nextUid = s.nextUid := by
  obtain ⟨t, -, rfl⟩ := h
  rfl

theorem sinks (h : Alike s s') : s'.sinks = s.sinks := by
  obtain ⟨t, -, rfl⟩ := h
  rfl

theorem ready (h : Alike s s') : s'.ready = s.ready := by
  obtain ⟨t, -, rfl⟩ := h
  rfl

theorem depsFor (h : Alike s s') (keys : List Nat) : s'.depsFor c keys = s.depsFor c keys := by
  obtain ⟨t, -, rfl⟩ := h
  rfl

theorem emit (h : Alike s s') (e : Event n) : Alike (s.emit e) (s'.emit e) := by
  obtain ⟨t, ht, rfl⟩ := h
  exact ⟨t, ht, rfl⟩

theorem emitAll (h : Alike s s') (events : List (Event n)) :
    Alike (s.emitAll events) (s'.emitAll events) := by
  obtain ⟨t, ht, rfl⟩ := h
  exact ⟨t, ht, rfl⟩

theorem send (h : Alike s s') (packet : Packet n) (dest : Fin n) :
    Alike (s.send me packet dest) (s'.send me packet dest) := by
  unfold DepShard.send
  split
  · exact h
  · exact h.emit _

theorem put (h : Alike s s') (id : Uid) (i : Instance n) : Alike (s.put id i) (s'.put id i) := by
  obtain ⟨t, ht, rfl⟩ := h
  exact ⟨_, ht.modify id _, rfl⟩

theorem withInstance (h : Alike s s') (id : Uid) {f g : Instance n → DepShard n}
    (hfg : ∀ i, s.instances.get id = some i → Alike (f i) (g i)) :
    Alike (s.withInstance id f) (s'.withInstance id g) := by
  unfold DepShard.withInstance
  rw [h.get]
  cases hi : s.instances.get id with
  | none => exact h.emit _
  | some i => exact hfg i hi

theorem noteSeen (h : Alike s s') (id : Uid) (keys : List Nat) :
    Alike (s.noteSeen c id keys) (s'.noteSeen c id keys) := by
  obtain ⟨t, ht, rfl⟩ := h
  exact ⟨t, ht, rfl⟩

theorem serveReadyReads (h : Alike s s') : Alike s.serveReadyReads s'.serveReadyReads := by
  obtain ⟨t, ht, rfl⟩ := h
  exact ⟨t, ht, rfl⟩

theorem execute (h : Alike s s') (uid : Uid) : Alike (s.execute uid) (s'.execute uid) := by
  refine h.withInstance uid fun i _ => ?_
  obtain ⟨t, ht, rfl⟩ := h
  exact ⟨_, ht.remove uid, rfl⟩

theorem foldl_execute (h : Alike s s') (order : List Uid) :
    Alike (order.foldl DepShard.execute s) (order.foldl DepShard.execute s') := by
  induction order generalizing s s' with
  | nil => exact h
  | cons uid order ih => exact ih (h.execute uid)

theorem runExecutable (h : Alike s s') (fuel : Nat) :
    Alike (runExecutable fuel s) (runExecutable fuel s') := by
  induction fuel generalizing s s' with
  | zero => exact h
  | succ fuel ih =>
    have hnext : nextExecutable s'.instances s'.executed = nextExecutable s.instances s.executed := by
      obtain ⟨t, ht, rfl⟩ := h
      exact ht.nextExecutable _
    simp only [DepShard.runExecutable, hnext]
    cases nextExecutable s.instances s.executed with
    | none => exact h
    | some uid => exact ih (h.execute uid)

theorem executeCycles (h : Alike s s') : Alike s.executeCycles s'.executeCycles := by
  have hpossible : cyclePossible s'.instances s'.executed = cyclePossible s.instances s.executed := by
    obtain ⟨t, ht, rfl⟩ := h
    exact ht.cyclePossible _
  have horder : executableOrder s'.instances s'.executed =
      executableOrder s.instances s.executed := by
    obtain ⟨t, ht, rfl⟩ := h
    exact ht.executableOrder _
  unfold DepShard.executeCycles
  rw [hpossible, horder]
  split
  · exact (h.emit _).foldl_execute _
  · exact h

theorem executeReady (h : Alike s s') : Alike s.executeReady s'.executeReady := by
  have hlen : s'.instances.len = s.instances.len := by
    obtain ⟨t, ht, rfl⟩ := h
    exact ht.len
  rw [DepShard.executeReady, DepShard.executeReady, hlen]
  exact ((h.runExecutable _).executeCycles).serveReadyReads

theorem onCommit (h : Alike s s') (id : Uid) (deps : DepSet n) :
    Alike (s.onCommit me id deps) (s'.onCommit me id deps) := by
  refine h.withInstance id fun i _ => ?_
  have hreport : commitReport me id deps i s' = commitReport me id deps i s := by
    rw [commitReport, h.executed]
    rfl
  rw [hreport]
  split
  · exact h
  · exact ((h.put _ _).emit _).executeReady

theorem commitAndBroadcast (h : Alike s s') (id : Uid) (deps : DepSet n) :
    Alike (s.commitAndBroadcast me id deps) (s'.commitAndBroadcast me id deps) :=
  (h.onCommit id deps).emit _

theorem epaxosTryCommitAccepted (h : Alike s s') (id : Uid) :
    Alike (s.epaxosTryCommitAccepted c me id) (s'.epaxosTryCommitAccepted c me id) := by
  refine h.withInstance id fun i _ => ?_
  split
  · exact h
  · exact (h.put _ _).commitAndBroadcast id _

theorem epaxosTryCommit (h : Alike s s') (id : Uid) :
    Alike (s.epaxosTryCommit c me id) (s'.epaxosTryCommit c me id) := by
  refine h.withInstance id fun i _ => ?_
  split
  · exact h
  · split
    · exact h.epaxosTryCommitAccepted id
    · split
      · split
        · exact h.commitAndBroadcast id _
        · exact h.emit _
      · split
        · exact ((h.put _ _).emit _).epaxosTryCommitAccepted id
        · exact h

theorem announce (h : Alike s s') (id : Uid) (deps : DepSet n) (proposer : Fin n) :
    Alike (s.announce c me id deps proposer) (s'.announce c me id deps proposer) := by
  unfold DepShard.announce
  generalize c.nonReplicas.filter (· ≠ proposer) = dests
  induction dests generalizing s s' with
  | nil => exact h
  | cons dest dests ih => exact ih (h.send _ dest)

theorem swiftTryCommit (h : Alike s s') (id : Uid) :
    Alike (s.swiftTryCommit c me id) (s'.swiftTryCommit c me id) := by
  unfold DepShard.swiftTryCommit
  rw [h.get]
  cases s.instances.get id with
  | none => exact h
  | some i =>
    simp only []
    split
    · exact h
    · split
      · exact h
      · split
        · split
          · exact ((h.put _ _).onCommit _ _).announce _ _ _
          · exact (h.put _ _).onCommit _ _
        · exact h

theorem tryCommit (h : Alike s s') (id : Uid) :
    Alike (s.tryCommit c me id) (s'.tryCommit c me id) := by
  unfold DepShard.tryCommit
  split
  · exact h.swiftTryCommit id
  · exact h.epaxosTryCommit id

theorem swiftLeaderAccept (h : Alike s s') (id : Uid) (deps : DepSet n) :
    Alike (s.swiftLeaderAccept c me id deps) (s'.swiftLeaderAccept c me id deps) := by
  refine h.withInstance id fun i _ => ?_
  simp only []
  split
  · exact (h.put _ _).emit _
  · exact (h.put _ _).emit _

theorem openInstance (h : Alike s s') (id : Uid) (commands : List (Command n)) :
    Alike (s.openInstance c me id commands) (s'.openInstance c me id commands) := by
  unfold DepShard.openInstance
  rw [h.depsFor]
  generalize s.depsFor c (keysOf commands) = deps
  have hnoted := h.noteSeen (c := c) id (keysOf commands)
  generalize s.noteSeen c id (keysOf commands) = s at hnoted ⊢
  generalize s'.noteSeen c id (keysOf commands) = s' at hnoted ⊢
  have hopen : ∀ i, Alike
      { s with nextUid := s.nextUid.add n, instances := s.instances.insert id i }
      { s' with nextUid := s'.nextUid.add n, instances := s'.instances.insert id i } := by
    intro i
    obtain ⟨t, ht, rfl⟩ := hnoted
    exact ⟨_, ht.insert id i, rfl⟩
  simp only []
  split
  · exact ((((hopen _).emit _).emit _).emit _).swiftLeaderAccept id deps
  · exact (((hopen _).emit _).emit _).emit _

theorem submit (h : Alike s s') (commands : List (Command n)) :
    Alike (s.submit c me commands) (s'.submit c me commands) := by
  unfold DepShard.submit
  rw [h.nextUid]
  split
  · split
    · exact h.send _ _
    · exact (h.openInstance _ _).tryCommit _
  · exact (h.openInstance _ _).tryCommit _

theorem receiveRead (h : Alike s s') (id : Nat) (src : Fin n) (seen : DepSet n) :
    Alike (s.receiveRead id src seen) (s'.receiveRead id src seen) := by
  obtain ⟨t, ht, rfl⟩ := h
  exact ⟨t, ht, rfl⟩

theorem submitRead (h : Alike s s') (command : Command n) :
    Alike (s.submitRead c me command) (s'.submitRead c me command) := by
  refine serveReadyReads ?_
  obtain ⟨t, ht, rfl⟩ := h
  unfold DepShard.askReplicas
  simp only []
  split
  · exact ⟨t, ht, rfl⟩
  · exact ⟨t, ht, rfl⟩

theorem createInstance (h : Alike s s') (id : Uid) (commands : List (Command n)) :
    Alike (s.createInstance c id commands) (s'.createInstance c id commands) := by
  obtain ⟨t, ht, rfl⟩ := h
  exact ⟨_, ht.insert id _, rfl⟩

theorem castVote (h : Alike s s') (src : Fin n) (id : Uid) (myDeps : DepSet n) (echoes : Bool) :
    Alike (s.castVote c me src id myDeps echoes) (s'.castVote c me src id myDeps echoes) := by
  unfold DepShard.castVote
  simp only []
  split
  · exact (h.emit _).send _ _
  · split
    · exact (h.emit _).swiftLeaderAccept _ _
    · split
      · exact (h.emit _).emit _
      · exact (h.emit _).emit _

theorem answerPreAccept (h : Alike s s') (src : Fin n) (id : Uid) (deps : DepSet n)
    (i : Instance n) :
    Alike (s.answerPreAccept c me src id deps i) (s'.answerPreAccept c me src id deps i) := by
  have hown : s'.ownDeps c id deps (keysOf i.commands) = s.ownDeps c id deps (keysOf i.commands) := by
    rw [ownDeps, ownDeps, h.depsFor]
  unfold DepShard.answerPreAccept
  rw [hown]
  generalize s.ownDeps c id deps (keysOf i.commands) = myDeps
  have hanswer : ∀ i : Instance n, Alike
      (if i.isSettled then s.put id i
        else if c.inFastQuorum me then
          (s.put id (({ i with deps := myDeps } : Instance n).recordPreaccept me myDeps)).castVote c me
            src id myDeps (myDeps = deps)
        else s.put id { i with deps := myDeps })
      (if i.isSettled then s'.put id i
        else if c.inFastQuorum me then
          (s'.put id (({ i with deps := myDeps } : Instance n).recordPreaccept me myDeps)).castVote c me
            src id myDeps (myDeps = deps)
        else s'.put id { i with deps := myDeps }) := by
    intro i
    split
    · exact h.put _ _
    · split
      · exact (h.put _ _).castVote _ _ _ _
      · exact h.put _ _
  exact hanswer _

theorem onPreAccept (h : Alike s s') (src : Fin n) (id : Uid) (deps : DepSet n) :
    Alike (s.onPreAccept c me src id deps) (s'.onPreAccept c me src id deps) :=
  h.withInstance id fun i _ => (h.answerPreAccept src id deps i).tryCommit id

theorem onPreAcceptOk (h : Alike s s') (src : Fin n) (id : Uid) (deps : Option (DepSet n)) :
    Alike (s.onPreAcceptOk c me src id deps) (s'.onPreAcceptOk c me src id deps) := by
  refine h.withInstance id fun i _ => ?_
  split
  · exact h.emit _
  · split
    · exact h
    · exact (h.put _ _).tryCommit id

theorem answerAccept (h : Alike s s') (src : Fin n) (id : Uid) (deps : DepSet n) (i : Instance n) :
    Alike (s.answerAccept c me src id deps i) (s'.answerAccept c me src id deps i) := by
  rw [answerAccept_eq, answerAccept_eq]
  exact (h.put _ _).emitAll _

theorem onAccept (h : Alike s s') (src : Fin n) (id : Uid) (deps : DepSet n) :
    Alike (s.onAccept c me src id deps) (s'.onAccept c me src id deps) := by
  have hsettled : s'.depsAreSettled id deps = s.depsAreSettled id deps := by
    obtain ⟨t, ht, rfl⟩ := h
    simp only [depsAreSettled, ht.settledAt]
  unfold DepShard.onAccept
  rw [hsettled]
  simp only []
  exact (h.emit _).withInstance id fun i _ => ((h.emit _).answerAccept src id deps i).tryCommit id

theorem onAcceptOk (h : Alike s s') (src : Fin n) (id : Uid) :
    Alike (s.onAcceptOk c me src id) (s'.onAcceptOk c me src id) := by
  refine h.withInstance id fun i _ => ?_
  split
  · exact h
  · exact (h.put _ _).tryCommit id

theorem dispatch (h : Alike s s') (src : Fin n) (msg : DepMsg n) :
    Alike (s.dispatch c me src msg) (s'.dispatch c me src msg) := by
  cases msg with
  | forward => exact h.emit _
  | readRequest => exact h.emit _
  | readResponse => exact h.emit _
  | preAccept id deps => exact h.onPreAccept src id deps
  | preAcceptOk id deps => exact h.onPreAcceptOk src id deps
  | accept id deps => exact h.onAccept src id deps
  | acceptOk id => exact h.onAcceptOk src id
  | commit id deps => exact h.onCommit id deps

theorem defer (h : Alike s s') (key : Uid) (src : Fin n) (msg : DepMsg n) :
    Alike (s.defer key src msg) (s'.defer key src msg) := by
  obtain ⟨t, ht, rfl⟩ := h
  exact ⟨t, ht, rfl⟩

theorem heldFor (h : Alike s s') (key : Uid) : s'.heldFor key = s.heldFor key := by
  obtain ⟨t, ht, rfl⟩ := h
  rfl

theorem release (h : Alike s s') (key : Uid) : Alike (s.release key) (s'.release key) := by
  obtain ⟨t, ht, rfl⟩ := h
  exact ⟨t, ht, rfl⟩

theorem blockedBy (h : Alike s s') (msg : DepMsg n) : s'.blockedBy c me msg = s.blockedBy c me msg := by
  obtain ⟨t, ht, rfl⟩ := h
  simp only [DepShard.blockedBy, firstUnsettled, ht.settledAt]

theorem deliverTurn (h : Alike s s') (queue : List (Held n)) :
    Alike (s.deliverTurn c me queue).1 (s'.deliverTurn c me queue).1 ∧
      (s'.deliverTurn c me queue).2 = (s.deliverTurn c me queue).2 := by
  cases queue with
  | nil => exact ⟨h, rfl⟩
  | cons entry rest =>
    obtain ⟨src, msg⟩ := entry
    simp only [DepShard.deliverTurn]
    cases msg.id with
    | none => exact ⟨h.emit _, rfl⟩
    | some id =>
      have hparked : s'.parkedAccepts = s.parkedAccepts := by
        obtain ⟨t, -, rfl⟩ := h
        rfl
      simp only [h.executed, h.blockedBy, hparked]
      split
      · exact ⟨h, rfl⟩
      · cases s.blockedBy c me msg with
        | some dep => exact ⟨(h.emit _).defer _ _ _, rfl⟩
        | none =>
          have hd : Alike (s.dispatch c me src msg) (s'.dispatch c me src msg) := h.dispatch src msg
          exact ⟨hd.release id, by rw [hd.heldFor]⟩

theorem handleAbout (h : Alike s s') (id : Uid) (src : Fin n) (packet : Packet n) :
    Alike (s.handleAbout c me id src packet).1 (s'.handleAbout c me id src packet).1 ∧
      (s'.handleAbout c me id src packet).2 = (s.handleAbout c me id src packet).2 := by
  have hkey : s'.instances.containsKey id = s.instances.containsKey id := by
    obtain ⟨t, ht, rfl⟩ := h
    exact ht.containsKey id
  simp only [DepShard.handleAbout, h.executed, hkey]
  split
  · exact ⟨h, rfl⟩
  · split
    · exact h.deliverTurn _
    · cases packet.value with
      | none => exact ⟨h.defer _ _ _, rfl⟩
      | some commands => exact (h.createInstance id commands).deliverTurn _

theorem handle (h : Alike s s') (src : Fin n) (packet : Packet n) :
    Alike (s.handle c me src packet).1 (s'.handle c me src packet).1 ∧
      (s'.handle c me src packet).2 = (s.handle c me src packet).2 := by
  obtain ⟨msg, value⟩ := packet
  cases msg with
  | readRequest id key =>
    have hdeps := h.depsFor (c := c) [key]
    refine ⟨?_, rfl⟩
    simp only [DepShard.handle, hdeps]
    exact h.send _ _
  | readResponse id seen => exact ⟨(h.receiveRead id src seen).serveReadyReads, rfl⟩
  | forward =>
    cases value with
    | none => exact ⟨h.emit _, rfl⟩
    | some commands => exact ⟨h.submit commands, rfl⟩
  | preAccept id deps => exact h.handleAbout id src _
  | preAcceptOk id deps => exact h.handleAbout id src _
  | accept id deps => exact h.handleAbout id src _
  | acceptOk id => exact h.handleAbout id src _
  | commit id deps => exact h.handleAbout id src _

theorem drainReady (h : Alike s s') : Alike s.drainReady s'.drainReady := by
  obtain ⟨t, ht, rfl⟩ := h
  exact ⟨t, ht, rfl⟩

end Alike

end DepShard

end KCensus.Deps

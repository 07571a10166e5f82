import KCensus.Deps.Handlers
import KCensus.Lib.Precedence

namespace KCensus.Deps

open Lib

variable {n : Nat} [NeZero n]

namespace DepShard

theorem withInstance_some {s : DepShard n} {id : Uid} {i : Instance n}
    (h : s.instances.get id = some i) (f : Instance n → DepShard n) :
    s.withInstance id f = f i := by
  simp only [withInstance, h]

theorem withInstance_none {s : DepShard n} {id : Uid} (h : s.instances.get id = none)
    (f : Instance n → DepShard n) : s.withInstance id f = s.emit .panicked := by
  simp only [withInstance, h]

@[simp] theorem get_put (s : DepShard n) (id v : Uid) (i : Instance n) :
    (s.put id i).instances.get v =
      if v = id then (s.instances.get v).map fun _ => i else s.instances.get v :=
  InstanceTable.get_modify _ _ _ _

-- What executing `order` changes as far as the execution order is concerned.
structure Ran (s : DepShard n) (order : List Uid) (s' : DepShard n) : Prop where
  executed : ∀ v, s'.executed.contains v ↔ s.executed.contains v ∨ v ∈ order
  get : ∀ v, s'.instances.get v = if v ∈ order then none else s.instances.get v
  ids : executedIds s'.sinks = executedIds s.sinks ++ order
  nextUid : s'.nextUid = s.nextUid
  seen : s'.seen = s.seen
  conflicts : s'.conflicts = s.conflicts
  deferred : s'.deferred = s.deferred
  parked : s'.parkedAccepts = s.parkedAccepts
  reads : s'.reads = s.reads

theorem ran_execute {s : DepShard n} {uid : Uid} {i : Instance n}
    (h : s.instances.get uid = some i) : Ran s [uid] (s.execute uid) := by
  rw [execute, withInstance_some h]
  refine ⟨fun v => ?_, fun v => ?_, ?_, rfl, rfl, rfl, rfl, rfl, rfl⟩
  · simp [Executed.contains_insert]
  · simp [InstanceTable.get_remove]
  · simp [executedIds, Event.executedId]

theorem Ran.refl (s : DepShard n) : Ran s [] s :=
  ⟨by simp, by simp, by simp, rfl, rfl, rfl, rfl, rfl, rfl⟩

theorem Ran.append {s s' s'' : DepShard n} {o o' : List Uid} (h : Ran s o s')
    (h' : Ran s' o' s'') : Ran s (o ++ o') s'' := by
  refine ⟨fun v => ?_, fun v => ?_, ?_, h'.nextUid.trans h.nextUid, h'.seen.trans h.seen,
    h'.conflicts.trans h.conflicts, h'.deferred.trans h.deferred, h'.parked.trans h.parked,
    h'.reads.trans h.reads⟩
  · rw [h'.executed, h.executed, List.mem_append, or_assoc]
  · rw [h'.get, h.get]
    by_cases hv : v ∈ o' <;> simp [hv]
  · rw [h'.ids, h.ids, List.append_assoc]

theorem ran_foldl (order : List Uid) (s : DepShard n) (hnd : order.Nodup)
    (h : ∀ uid ∈ order, s.instances.get uid ≠ none) : Ran s order (order.foldl execute s) := by
  induction order generalizing s with
  | nil => exact Ran.refl s
  | cons uid order ih =>
    obtain ⟨hu, hnd⟩ := List.nodup_cons.1 hnd
    obtain ⟨i, hi⟩ := Option.ne_none_iff_exists'.1 (h uid List.mem_cons_self)
    have hrun := ran_execute hi
    refine hrun.append (ih (s.execute uid) hnd fun v hv => ?_)
    rw [hrun.get, if_neg]
    · exact h v (List.mem_cons_of_mem _ hv)
    · rw [List.mem_singleton]
      rintro rfl
      exact hu hv

-- `past` is what the shard executed before its sinks were last emptied.
structure Executing (deps : Uid → DepSet n) (past : List Uid) (s : DepShard n) : Prop where
  consistent : Consistent (fun a b => (deps a).contains b) (· ≤ ·) (past ++ executedIds s.sinks)
  executed : ∀ uid, s.executed.contains uid ↔ uid ∈ past ++ executedIds s.sinks
  deps_eq : ∀ uid i, s.instances.get uid = some i → i.isCommitted = true → i.deps = deps uid
  fresh : ∀ uid i, s.instances.get uid = some i → ¬ s.executed.contains uid

namespace Executing

variable {deps : Uid → DepSet n} {past : List Uid} {s s' : DepShard n}

theorem depsAt_eq (h : Executing deps past s) {uid : Uid}
    (hc : s.instances.committedAt uid = true) : depsAt s.instances uid = deps uid := by
  obtain ⟨i, hi, hic⟩ := (committedAt_iff _ _).1 hc
  rw [depsAt, hi]
  exact h.deps_eq uid i hi hic

theorem run (h : Executing deps past s) {order : List Uid}
    (ho : Tarjan.Emitted s.instances.committedAt (pendingDeps s.instances s.executed) (· ≤ ·) order)
    (hr : Ran s order s') : Executing deps past s' := by
  have hlive : ∀ uid ∈ order, ¬ s.executed.contains uid := by
    intro uid hu
    obtain ⟨i, hi, -⟩ := (committedAt_iff _ _).1 (ho.avail_of_mem uid hu)
    exact h.fresh uid i hi
  refine ⟨?_, fun uid => ?_, fun uid i hi hc => ?_, fun uid i hi he => ?_⟩
  · rw [hr.ids, ← List.append_assoc]
    refine h.consistent.append_emitted ho ?_ ?_ ?_
    · exact fun uid hu hm => hlive uid hu ((h.executed uid).2 hm)
    · intro uid hu v hv
      rw [mem_pendingDeps, h.depsAt_eq (ho.avail_of_mem uid hu)] at hv
      exact hv.1
    · intro uid hu v hv
      by_cases hvu : v = uid
      · exact Or.inl hvu
      · by_cases hve : s.executed.contains v
        · exact Or.inr (Or.inl ((h.executed v).1 hve))
        · refine Or.inr (Or.inr ?_)
          rw [mem_pendingDeps, h.depsAt_eq (ho.avail_of_mem uid hu)]
          exact ⟨hv, hve, hvu⟩
  · rw [hr.executed, h.executed, hr.ids, ← List.append_assoc, List.mem_append (t := order)]
  · rw [hr.get] at hi
    split at hi
    · cases hi
    · exact h.deps_eq uid i hi hc
  · rw [hr.get] at hi
    split at hi
    · cases hi
    · rename_i hm
      rw [hr.executed] at he
      exact he.elim (h.fresh uid i hi) hm

theorem runExecutable (h : Executing deps past s) (fuel : Nat) :
    Executing deps past (runExecutable fuel s) := by
  induction fuel generalizing s with
  | zero => exact h
  | succ fuel ih =>
    simp only [DepShard.runExecutable]
    cases hn : nextExecutable s.instances s.executed with
    | none => exact h
    | some uid =>
      obtain ⟨hc, hd⟩ := nextExecutable_spec hn
      obtain ⟨i, hi, -⟩ := (committedAt_iff _ _).1 hc
      have hsingle : Tarjan.Emitted s.instances.committedAt (pendingDeps s.instances s.executed)
          (· ≤ ·) ([] ++ [uid]) := by
        refine Tarjan.Emitted.nil.block ?_ ?_ ?_ ?_ ?_ ?_
        · intro u hu v hv
          rw [List.mem_singleton.1 hu, mem_pendingDeps] at hv
          rcases hd v hv.1 with hvu | hve
          · exact absurd hvu hv.2.2
          · exact absurd hve hv.2.1
        · intro u hu v hv
          rw [List.mem_singleton.1 hu, List.mem_singleton.1 hv]
          exact Tarjan.Reach.refl uid
        · exact List.pairwise_singleton _ _
        · exact List.nodup_singleton uid
        · simp
        · intro u hu
          rw [List.mem_singleton.1 hu]
          exact hc
      exact ih (h.run hsingle (ran_execute hi))

theorem same (h : Executing deps past s) (he : s'.executed = s.executed)
    (hi : s'.instances = s.instances) (hs : executedIds s'.sinks = executedIds s.sinks) :
    Executing deps past s' := by
  refine ⟨?_, ?_, ?_, ?_⟩
  · rw [hs]
    exact h.consistent
  · rw [he, hs]
    exact h.executed
  · rw [hi]
    exact h.deps_eq
  · rw [he, hi]
    exact h.fresh

theorem executeCycles (h : Executing deps past s) : Executing deps past s.executeCycles := by
  unfold DepShard.executeCycles
  split
  · have hspec := (executableOrder_spec s.instances s.executed).1
    refine Executing.run (s := s.emit (.ordered (executableOrder s.instances s.executed)))
      (h.same rfl rfl (by simp [emit, executedIds, Event.executedId])) hspec
      (ran_foldl _ _ hspec.nodup fun uid hu hn => ?_)
    have := hspec.avail_of_mem uid hu
    rw [committedAt_iff] at this
    obtain ⟨i, hi, -⟩ := this
    exact nomatch hn.symm.trans hi
  · exact h

omit [NeZero n] in
theorem executedIds_served (ready : List (Nat × Command n)) :
    executedIds (ready.map fun entry => Event.served entry.1 entry.2) = [] := by
  induction ready with
  | nil => rfl
  | cons entry ready ih => exact ih

theorem serveReadyReads (h : Executing deps past s) : Executing deps past s.serveReadyReads := by
  refine h.same rfl rfl ?_
  have := executedIds_served (s.reads.ready s.executed)
  simp only [DepShard.serveReadyReads, executedIds, List.filterMap_append] at this ⊢
  rw [this, List.append_nil]

theorem executeReady (h : Executing deps past s) : Executing deps past s.executeReady :=
  ((h.runExecutable _).executeCycles).serveReadyReads

end Executing

omit [NeZero n] in
@[simp] theorem fillReport_deps (report : Option CommitReport) (i : Instance n) :
    (fillReport report i).deps = i.deps := by
  cases report <;> rfl

omit [NeZero n] in
@[simp] theorem fillReport_phase (report : Option CommitReport) (i : Instance n) :
    (fillReport report i).phase = i.phase := by
  cases report <;> rfl

-- What the rest of the code does between two executions.
structure Unaffected (s s' : DepShard n) : Prop where
  executed : s'.executed = s.executed
  ids : executedIds s'.sinks = executedIds s.sinks
  instances : ∀ uid i', s'.instances.get uid = some i' →
    (∃ i, s.instances.get uid = some i ∧
      (i'.isCommitted = true → i.isCommitted = true ∧ i'.deps = i.deps)) ∨
    (i'.isCommitted = false ∧ ¬ s.executed.contains uid)

-- A shard that hears of the commits `deps` in some order of its own.
inductive Learner (c : Cluster n) (me : Fin n) (deps : Uid → DepSet n) : DepShard n → Prop where
  | start : Learner c me deps (DepShard.new c me)
  | create {s : DepShard n} (id : Uid) (commands : List (Command n)) : Learner c me deps s →
      ¬ s.executed.contains id → s.instances.containsKey id = false →
      Learner c me deps (s.createInstance c id commands)
  | commit {s : DepShard n} (id : Uid) : Learner c me deps s →
      Learner c me deps (s.onCommit me id (deps id))
  | execute {s : DepShard n} : Learner c me deps s → Learner c me deps s.executeReady
  | other {s s' : DepShard n} : Learner c me deps s → Unaffected s s' → Learner c me deps s'

namespace Executing

variable {deps : Uid → DepSet n} {past : List Uid} {s s' : DepShard n}

theorem unaffected (h : Executing deps past s) (hu : Unaffected s s') :
    Executing deps past s' := by
  refine ⟨?_, ?_, fun uid i' hi' hc => ?_, fun uid i' hi' he => ?_⟩
  · rw [hu.ids]
    exact h.consistent
  · rw [hu.executed, hu.ids]
    exact h.executed
  · rcases hu.instances uid i' hi' with ⟨i, hi, hcom⟩ | ⟨hf, -⟩
    · rw [(hcom hc).2]
      exact h.deps_eq uid i hi (hcom hc).1
    · rw [hf] at hc
      cases hc
  · rw [hu.executed] at he
    rcases hu.instances uid i' hi' with ⟨i, hi, -⟩ | ⟨-, hn⟩
    · exact h.fresh uid i hi he
    · exact hn he

theorem createInstance (h : Executing deps past s) (c : Cluster n) {id : Uid}
    (commands : List (Command n)) (hn : ¬ s.executed.contains id) :
    Executing deps past (s.createInstance c id commands) := by
  refine h.unaffected ⟨rfl, ?_, fun uid i' hi' => ?_⟩
  · simp [DepShard.createInstance, emit, noteSeen, executedIds, Event.executedId]
  · simp only [DepShard.createInstance, emit, noteSeen, InstanceTable.get_insert] at hi'
    split at hi'
    · rename_i hu
      rw [← Option.some.inj hi', hu]
      exact Or.inr ⟨rfl, hn⟩
    · exact Or.inl ⟨i', hi', fun hc => ⟨hc, rfl⟩⟩

theorem onCommit (h : Executing deps past s) (me : Fin n) (id : Uid) :
    Executing deps past (s.onCommit me id (deps id)) := by
  unfold DepShard.onCommit
  cases hi : s.instances.get id with
  | none =>
    rw [withInstance_none hi]
    exact h.same rfl rfl (by simp [emit, executedIds, Event.executedId])
  | some i =>
    rw [withInstance_some hi]
    split
    · exact h
    · have hids : executedIds ((s.put id (fillReport (commitReport me id (deps id) i s)
          (i.commit (deps id)))).emit (.committed id (deps id))).sinks = executedIds s.sinks := by
        simp [emit, put, executedIds, Event.executedId]
      refine Executing.executeReady ⟨?_, ?_, fun uid j hj hc => ?_, fun uid j hj => ?_⟩
      · rw [hids]
        exact h.consistent
      · rw [hids]
        exact h.executed
      · simp only [emit, get_put] at hj
        split at hj
        · rename_i hu
          subst hu
          rw [hi] at hj
          rw [← Option.some.inj hj]
          simp [Instance.commit]
        · exact h.deps_eq uid j hj hc
      · simp only [emit, get_put] at hj
        split at hj
        · rename_i hu
          subst hu
          exact h.fresh uid i hi
        · exact h.fresh uid j hj

end Executing

theorem Learner.executing {c : Cluster n} {me : Fin n} {deps : Uid → DepSet n} {s : DepShard n}
    (h : Learner c me deps s) : Executing deps [] s := by
  induction h with
  | start => exact ⟨Consistent.nil, by simp [DepShard.new, executedIds], by simp [DepShard.new],
      by simp [DepShard.new]⟩
  | create id commands _ hn _ ih => exact ih.createInstance c commands hn
  | commit id _ ih => exact ih.onCommit me id
  | execute _ ih => exact ih.executeReady
  | other _ hu ih => exact ih.unaffected hu

theorem executed_in_one_order {c c' : Cluster n} {me me' : Fin n} {deps : Uid → DepSet n}
    (conflict : Uid → Uid → Prop)
    (hrelated : ∀ a b, a ≠ b → conflict a b → (deps a).contains b ∨ (deps b).contains a)
    {s t : DepShard n} (hs : Learner c me deps s) (ht : Learner c' me' deps t) {a b : Uid}
    (hab : a ≠ b) (hconflict : conflict a b)
    (has : a ∈ executedIds s.sinks) (hbs : b ∈ executedIds s.sinks)
    (hat : a ∈ executedIds t.sinks) (hbt : b ∈ executedIds t.sinks) :
    [a, b].Sublist (executedIds s.sinks) ↔ [a, b].Sublist (executedIds t.sinks) :=
  hs.executing.consistent.agree ht.executing.consistent hab (hrelated a b hab hconflict) has hbs
    hat hbt

def pair : Cluster 2 where
  alive := Finset.univ
  nbReplicas := 2
  mode := .ePaxos id
  acks := false
  crossShard := false
  alive_le := by simp
  mode_valid := by simp [DepMode.Valid]

def left : Uid := uidAt 0 (0 : Fin 2)

def right : Uid := uidAt 0 (1 : Fin 2)

-- Two commands that name each other.
def mutualDeps (id : Uid) : DepSet 2 :=
  if id = left then (DepSet.new 2).insert right else (DepSet.new 2).insert left

def learnBoth (a b : Uid) : DepShard 2 :=
  ((((DepShard.new pair 0).createInstance pair a []).createInstance pair b []).onCommit 0 a
    (mutualDeps a)).onCommit 0 b (mutualDeps b)

theorem learner_learnBoth {a b : Uid} (hab : a ≠ b) : Learner pair 0 mutualDeps (learnBoth a b) := by
  refine .commit b (.commit a (.create b [] (.create a [] .start ?_ ?_) ?_ ?_))
  · simp [DepShard.new]
  · simp [DepShard.new, InstanceTable.containsKey]
  · simp [DepShard.new, createInstance, noteSeen, emit]
  · simp [DepShard.new, createInstance, noteSeen, emit, InstanceTable.containsKey,
      InstanceTable.get_insert, hab.symm]

theorem executed_in_one_order_cycle :
    [left, right].Sublist (executedIds (learnBoth left right).sinks) ↔
      [left, right].Sublist (executedIds (learnBoth right left).sinks) :=
  executed_in_one_order (fun a b => a = left ∧ b = right)
    (by rintro a b - ⟨rfl, rfl⟩; decide +kernel) (learner_learnBoth (by decide +kernel))
    (learner_learnBoth (by decide +kernel)) (by decide +kernel) ⟨rfl, rfl⟩ (by decide +kernel)
    (by decide +kernel) (by decide +kernel) (by decide +kernel)

end DepShard

end KCensus.Deps

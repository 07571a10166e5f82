import KCensus.Deps.Candidates
import KCensus.Deps.ClosedSets
import KCensus.Deps.Moves

namespace KCensus.Deps

open Lib

variable {n : Nat} [NeZero n]

-- Every committed set names the earlier commands of its replica that have not run.
def NamesEarlier (t : InstanceTable n) (e : Executed n) : Prop :=
  ∀ uid, t.committedAt uid = true → ∀ v, requesterOf n v = requesterOf n uid →
    indexOf n v < indexOf n uid → (depsAt t uid).contains v ∨ e.contains v

theorem depsAt_of_get {t t' : InstanceTable n} {uid : Uid} (h : t'.get uid = t.get uid) :
    depsAt t' uid = depsAt t uid := by
  rw [depsAt, h]
  rfl

theorem committedAt_of_get {t t' : InstanceTable n} {uid : Uid} (h : t'.get uid = t.get uid) :
    t'.committedAt uid = t.committedAt uid := by
  rw [InstanceTable.committedAt, h]
  rfl

structure Without (t : InstanceTable n) (e : Executed n) (ids : List Uid) (t' : InstanceTable n)
    (e' : Executed n) : Prop where
  get : ∀ uid, t'.get uid = if uid ∈ ids then none else t.get uid
  executed : ∀ uid, e'.contains uid ↔ e.contains uid ∨ uid ∈ ids

namespace Without

variable {t t' : InstanceTable n} {e e' : Executed n} {ids : List Uid}

theorem get_of_not_mem (h : Without t e ids t' e') {uid : Uid} (hu : uid ∉ ids) :
    t'.get uid = t.get uid := by
  rw [h.get, if_neg hu]

theorem committedAt_iff (h : Without t e ids t' e') (uid : Uid) :
    t'.committedAt uid = true ↔ uid ∉ ids ∧ t.committedAt uid = true := by
  by_cases hu : uid ∈ ids
  · have : t'.get uid = none := by rw [h.get, if_pos hu]
    simp [InstanceTable.committedAt, this, hu]
  · simp [committedAt_of_get (h.get_of_not_mem hu), hu]

theorem mem_pendingDeps (h : Without t e ids t' e') {uid : Uid} (hu : uid ∉ ids) (dep : Uid) :
    dep ∈ pendingDeps t' e' uid ↔ dep ∈ pendingDeps t e uid ∧ dep ∉ ids := by
  rw [Deps.mem_pendingDeps, Deps.mem_pendingDeps, depsAt_of_get (h.get_of_not_mem hu), h.executed]
  tauto

theorem executable_iff (h : Without t e ids t' e') (hids : Closed t e {uid | uid ∈ ids})
    (uid : Uid) : Executable t' e' uid ↔ Executable t e uid ∧ uid ∉ ids := by
  constructor
  · intro hu
    have hfresh := ((h.committedAt_iff uid).1 hu.committed).1
    refine ⟨?_, hfresh⟩
    have hclosed : Closed t e {v | v ∈ ids ∨ Executable t' e' v} := by
      rintro v (hv | hv)
      · exact ⟨(hids v hv).1, fun dep hd hne => Or.inl ((hids v hv).2 dep hd hne)⟩
      · obtain ⟨hvids, hc⟩ := (h.committedAt_iff v).1 hv.committed
        refine ⟨hc, fun dep hd hne => ?_⟩
        by_cases hdep : dep ∈ ids
        · exact Or.inl hdep
        · exact Or.inr (hv.step ((h.mem_pendingDeps hvids dep).2
            ⟨(mem_pendingDeps_iff t e v dep).2 ⟨hd, hne⟩, hdep⟩))
    exact hclosed.executable (Or.inr hu)
  · rintro ⟨hu, hfresh⟩
    have hclosed : Closed t' e' {v | Executable t e v ∧ v ∉ ids} := by
      rintro v ⟨hv, hvids⟩
      refine ⟨(h.committedAt_iff v).2 ⟨hvids, hv.committed⟩, fun dep hd hne => ?_⟩
      obtain ⟨hdep, hdids⟩ := (h.mem_pendingDeps hvids dep).1
        ((mem_pendingDeps_iff t' e' v dep).2 ⟨hd, hne⟩)
      exact ⟨hv.step hdep, hdids⟩
    exact hclosed.executable ⟨hu, hfresh⟩

theorem covers (h : Without t e ids t' e') (hc : NamesEarlier t e) : NamesEarlier t' e' := by
  intro uid hu v hv hlt
  obtain ⟨hids, hcom⟩ := (h.committedAt_iff uid).1 hu
  rw [depsAt_of_get (h.get_of_not_mem hids), h.executed]
  exact (hc uid hcom v hv hlt).imp_right Or.inl

theorem live (h : Without t e ids t' e')
    (hl : ∀ uid, t.committedAt uid = true → ¬ e.contains uid) :
    ∀ uid, t'.committedAt uid = true → ¬ e'.contains uid := by
  intro uid hu he
  obtain ⟨hids, hcom⟩ := (h.committedAt_iff uid).1 hu
  exact ((h.executed uid).1 he).elim (hl uid hcom) hids

end Without

theorem DepShard.Ran.without {s s' : DepShard n} {ids : List Uid} (h : DepShard.Ran s ids s') :
    Without s.instances s.executed ids s'.instances s'.executed := ⟨h.get, h.executed⟩

variable {t : InstanceTable n} {e : Executed n}

theorem Executable.mem_candidates (hcover : NamesEarlier t e)
    (hlive : ∀ uid, t.committedAt uid = true → ¬ e.contains uid) {uid : Uid}
    (h : Executable t e uid) : uid ∈ candidates t e := by
  refine Deps.mem_candidates.2 ⟨hlive uid h.committed, fun v hv hle => ?_⟩
  rcases Nat.eq_or_lt_of_le hle with heq | hlt
  · exact Or.inr ((uid_eq_iff (n := n) v uid).2 ⟨hv, heq⟩ ▸ h.committed)
  · by_cases he : e.contains v
    · exact Or.inl he
    · have hd := (hcover uid h.committed v hv hlt).resolve_right he
      refine Or.inr (h.step ((mem_pendingDeps t e uid v).2 ⟨hd, he, ?_⟩)).committed
      rintro rfl
      exact Nat.lt_irrefl _ hlt

theorem Executable.cyclePossible (hcover : NamesEarlier t e)
    (hlive : ∀ uid, t.committedAt uid = true → ¬ e.contains uid) {uid : Uid}
    (h : Executable t e uid) : cyclePossible t e = true := by
  refine List.any_eq_true.2 ⟨uid, h.mem_candidates hcover hlive, List.all_eq_true.2 fun v hv => ?_⟩
  by_cases hvu : v = uid
  · simp [hvu]
  · simp [(h.step ((mem_pendingDeps_iff t e uid v).2 ⟨hv, hvu⟩)).committed]

theorem executable_nextExecutable {uid : Uid} (h : nextExecutable t e = some uid) :
    Closed t e {v | v ∈ [uid]} := by
  obtain ⟨hc, hd⟩ := nextExecutable_spec h
  intro v hv
  obtain rfl := List.mem_singleton.1 hv
  refine ⟨hc, fun dep hdep hne => ?_⟩
  obtain ⟨hin, hout⟩ := (DepSet.mem_pendingOver _ _ _).1 hdep
  exact absurd (hd dep hin) (not_or.2 ⟨hne, hout⟩)

theorem nextExecutable_eq_none (h : ∀ uid, ¬ Executable t e uid) : nextExecutable t e = none := by
  cases hn : nextExecutable t e with
  | none => rfl
  | some uid =>
    exact absurd ((executable_nextExecutable hn).executable (List.mem_singleton.2 rfl)) (h uid)

theorem executableOrder_eq_nil (h : ∀ uid, ¬ Executable t e uid) : executableOrder t e = [] :=
  List.eq_nil_iff_forall_not_mem.2 fun uid hu => h uid ((mem_executableOrder t e uid).1 hu)

namespace DepShard

variable {s : DepShard n}

theorem runExecutable_ran (fuel : Nat)
    (hlive : ∀ uid, s.instances.committedAt uid = true → ¬ s.executed.contains uid) :
    ∃ ids, Ran s ids (runExecutable fuel s) ∧ ids.Nodup ∧
      Closed s.instances s.executed {uid | uid ∈ ids} := by
  induction fuel generalizing s with
  | zero => exact ⟨[], Ran.refl s, List.nodup_nil, by simp [Closed]⟩
  | succ fuel ih =>
    simp only [runExecutable]
    cases hn : nextExecutable s.instances s.executed with
    | none => exact ⟨[], Ran.refl s, List.nodup_nil, by simp [Closed]⟩
    | some uid =>
      obtain ⟨i, hi, -⟩ := (committedAt_iff _ _).1 (nextExecutable_spec hn).1
      have hrun := ran_execute hi
      have hone := executable_nextExecutable hn
      obtain ⟨ids, hrest, hnd, hclosed⟩ := ih (hrun.without.live hlive)
      have hmem : ∀ v ∈ ids, Executable s.instances s.executed v ∧ v ∉ [uid] := fun v hv =>
        (hrun.without.executable_iff hone v).1 (hclosed.executable hv)
      refine ⟨uid :: ids, hrun.append hrest, List.nodup_cons.2 ⟨fun hu => ?_, hnd⟩, ?_⟩
      · exact (hmem uid hu).2 List.mem_cons_self
      · intro v hv
        rcases List.mem_cons.1 hv with rfl | hv
        · refine ⟨(nextExecutable_spec hn).1, fun dep hd hne => ?_⟩
          exact absurd (List.mem_singleton.1 ((hone v (List.mem_singleton.2 rfl)).2 dep hd hne)) hne
        · refine ⟨(hmem v hv).1.committed, fun dep hd hne => ?_⟩
          by_cases hdu : dep = uid
          · exact List.mem_cons.2 (Or.inl hdu)
          · refine List.mem_cons_of_mem _ ((hclosed v hv).2 dep ?_ hne)
            exact ((mem_pendingDeps_iff _ _ _ _).1 ((hrun.without.mem_pendingDeps (hmem v hv).2 dep).2
              ⟨(mem_pendingDeps_iff _ _ _ _).2 ⟨hd, hne⟩, by simpa using hdu⟩)).1

theorem executeCycles_ran :
    ∃ ids, Ran s ids s.executeCycles ∧ ids.Nodup ∧
      ((∀ uid, uid ∈ ids ↔ Executable s.instances s.executed uid) ∨
        cyclePossible s.instances s.executed = false ∧ ids = []) := by
  unfold executeCycles
  split
  · have hspec := (executableOrder_spec s.instances s.executed).1
    have hran := ran_foldl (executableOrder s.instances s.executed)
      (s.emit (.ordered (executableOrder s.instances s.executed))) hspec.nodup fun uid hu hn => by
        obtain ⟨i, hi, -⟩ := (committedAt_iff _ _).1 (hspec.avail_of_mem uid hu)
        exact nomatch hn.symm.trans hi
    have hids : executedIds (s.emit (.ordered (executableOrder s.instances s.executed))).sinks =
        executedIds s.sinks := by simp [emit, executedIds, Event.executedId]
    exact ⟨_, ⟨hran.executed, hran.get, hids ▸ hran.ids, hran.nextUid, hran.seen, hran.conflicts,
      hran.deferred, hran.parked, hran.reads⟩, hspec.nodup, Or.inl (mem_executableOrder _ _)⟩
  · rename_i hc
    exact ⟨[], Ran.refl s, List.nodup_nil, Or.inr ⟨by simpa using hc, rfl⟩⟩

theorem executedIds_serveReadyReads (s : DepShard n) :
    executedIds s.serveReadyReads.sinks = executedIds s.sinks := by
  simp [serveReadyReads, executedIds, List.filterMap_map,
    Function.comp_def, Event.executedId]

-- What one call of `execute_ready` is to leave behind.
structure ExecutesAll (s : DepShard n) : Prop where
  executes : ∃ ids, executedIds s.executeReady.sinks = executedIds s.sinks ++ ids ∧ ids.Nodup ∧
    (∀ uid, s.executeReady.executed.contains uid ↔ s.executed.contains uid ∨ uid ∈ ids) ∧
    IsGreatest {ids | Closed s.instances s.executed ids} {uid | uid ∈ ids}
  acyclic : ∀ s', s' = runExecutable s.instances.len s →
    cyclePossible s'.instances s'.executed = false →
      IsGreatest {ids | Closed s'.instances s'.executed ids} ∅
  next : nextExecutable s.executeReady.instances s.executeReady.executed = none
  order : executableOrder s.executeReady.instances s.executeReady.executed = []

theorem execute_ready_complete (s : DepShard n)
    (hlive : ∀ uid, s.instances.committedAt uid = true → ¬ s.executed.contains uid)
    (hcover : NamesEarlier s.instances s.executed) : ExecutesAll s := by
  obtain ⟨first, hfirst, hnd, hclosed⟩ := runExecutable_ran s.instances.len hlive
  have hexec := hfirst.without.executable_iff hclosed
  have hstuck : cyclePossible (runExecutable s.instances.len s).instances
      (runExecutable s.instances.len s).executed = false →
      ∀ uid, ¬ Executable (runExecutable s.instances.len s).instances
        (runExecutable s.instances.len s).executed uid := by
    intro hf uid hu
    rw [hu.cyclePossible (hfirst.without.covers hcover) (hfirst.without.live hlive)] at hf
    cases hf
  obtain ⟨second, hsecond, hnd', hcycles⟩ := executeCycles_ran (s := runExecutable s.instances.len s)
  have hsecond_iff : ∀ uid, uid ∈ second ↔
      Executable s.instances s.executed uid ∧ uid ∉ first := by
    intro uid
    rw [← hexec]
    rcases hcycles with h | ⟨hf, rfl⟩
    · exact h uid
    · simpa using hstuck hf uid
  have hran := hfirst.append hsecond
  have hall : ∀ uid, uid ∈ first ++ second ↔ Executable s.instances s.executed uid := by
    intro uid
    rw [List.mem_append, hsecond_iff]
    have := fun h : uid ∈ first => hclosed.executable h
    tauto
  have hnone : ∀ uid, ¬ Executable s.executeReady.instances s.executeReady.executed uid := by
    intro uid hu
    have hboth : Closed s.instances s.executed {uid | uid ∈ first ++ second} :=
      (isGreatest_iff.2 hall).1
    obtain ⟨h, hn⟩ := (hran.without.executable_iff hboth uid).1 hu
    exact hn ((hall uid).2 h)
  refine ⟨⟨first ++ second, ?_, ?_, hran.executed, isGreatest_iff.2 hall⟩,
    fun s' hs' hf => ?_,
    nextExecutable_eq_none hnone, executableOrder_eq_nil hnone⟩
  · rw [executeReady, executedIds_serveReadyReads, hran.ids]
  · exact List.nodup_append.2 ⟨hnd, hnd', fun u hu v hv huv =>
      ((hsecond_iff v).1 hv).2 (huv ▸ hu)⟩
  · subst hs'
    exact isGreatest_iff.2 fun uid => by simpa using hstuck hf uid

-- Two commits that name each other, before anything has run.
def deadlocked : DepShard 2 :=
  { DepShard.new pair 0 with
    instances := ((InstanceTable.new 2).insert left
      ((Instance.new 0 0 [] (DepSet.new 2)).commit (mutualDeps left))).insert right
      ((Instance.new 1 0 [] (DepSet.new 2)).commit (mutualDeps right)) }

theorem indexOf_deadlocked {uid : Uid} (h : deadlocked.instances.committedAt uid = true) :
    indexOf 2 uid = 0 := by
  obtain ⟨i, hi, -⟩ := (committedAt_iff _ _).1 h
  simp only [deadlocked, InstanceTable.get_insert, InstanceTable.get_new] at hi
  split at hi
  · rename_i hu
    rw [hu]
    rfl
  · split at hi
    · rename_i hu
      rw [hu]
      rfl
    · cases hi

theorem execute_ready_complete_deadlocked :
    ExecutesAll deadlocked ∧ executedIds deadlocked.executeReady.sinks = [left, right] :=
  ⟨execute_ready_complete deadlocked (fun _ _ => Executed.not_contains_new _)
    (fun uid hu v _ hlt => by
      rw [indexOf_deadlocked hu] at hlt
      exact absurd hlt (Nat.not_lt_zero _)),
    by decide +kernel⟩

-- A commit that has run and is still in the table.
def leftover : DepShard 2 :=
  { DepShard.new pair 0 with
    instances := (InstanceTable.new 2).insert left
      ((Instance.new 0 0 [] (DepSet.new 2)).commit (DepSet.new 2))
    executed := (Executed.new 2).insert left }

theorem execute_ready_passes_over :
    ¬ ∀ s : DepShard 2, NamesEarlier s.instances s.executed → ExecutesAll s := by
  intro h
  have hcover : NamesEarlier leftover.instances leftover.executed := by
    intro uid hu v _ hlt
    obtain ⟨i, hi, -⟩ := (committedAt_iff _ _).1 hu
    simp only [leftover, InstanceTable.get_insert, InstanceTable.get_new] at hi
    split at hi
    · rename_i heq
      subst heq
      exact absurd hlt (Nat.not_lt_zero _)
    · cases hi
  exact absurd (h leftover hcover).order (by decide +kernel)

end DepShard

end KCensus.Deps

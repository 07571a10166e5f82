import KCensus.Deps.ExecuteReady

namespace KCensus.Deps

open Lib

variable {n : Nat} [NeZero n]

def drainReady : Nat → InstanceTable n → Executed n → List Uid × InstanceTable n × Executed n
  | 0, instances, executed => ([], instances, executed)
  | fuel + 1, instances, executed =>
      match nextExecutable instances executed with
      | some uid =>
          let (order, rest) := drainReady fuel (instances.remove uid) (executed.insert uid)
          (uid :: order, rest)
      | none => ([], instances, executed)

def drain (instances : InstanceTable n) (executed : Executed n) : List Uid :=
  let (order, instances, executed) := drainReady (roots instances).length instances executed
  order ++ executableOrder instances executed

-- Of two committed commands that have not run, one names the other.
def Related (t : InstanceTable n) (e : Executed n) : Prop :=
  ∀ u v, u ≠ v → t.committedAt u = true → t.committedAt v = true → ¬ e.contains u →
    ¬ e.contains v → (depsAt t u).contains v ∨ (depsAt t v).contains u

variable {t t' : InstanceTable n} {e e' : Executed n} {ids : List Uid}

theorem without_remove (t : InstanceTable n) (e : Executed n) (uid : Uid) :
    Without t e [uid] (t.remove uid) (e.insert uid) := by
  refine ⟨fun v => ?_, fun v => ?_⟩
  · simp [InstanceTable.get_remove]
  · simp [Executed.contains_insert]

theorem Without.related (h : Without t e ids t' e') (hr : Related t e) : Related t' e' := by
  intro u v hne hu hv hue hve
  obtain ⟨hui, hu⟩ := (h.committedAt_iff u).1 hu
  obtain ⟨hvi, hv⟩ := (h.committedAt_iff v).1 hv
  rw [depsAt_of_get (h.get_of_not_mem hui), depsAt_of_get (h.get_of_not_mem hvi)]
  rw [h.executed, not_or] at hue hve
  exact hr u v hne hu hv hue.1 hve.1

namespace Without

theorem reach (h : Without t e ids t' e') {u v : Uid} (hu : Executable t' e' u)
    (huv : Tarjan.Reach (pendingDeps t' e') u v) : Tarjan.Reach (pendingDeps t e) u v := by
  induction huv with
  | refl => exact Tarjan.Reach.refl u
  | tail hux hxv ih =>
    have hx : Executable t' e' _ := fun w hw => hu w (Tarjan.Reach.trans hux hw)
    have hids := ((h.committedAt_iff _).1 hx.committed).1
    exact ih.trans (Tarjan.Reach.edge ((h.mem_pendingDeps hids _).1 hxv).1)

theorem emitted (h : Without t e ids t' e') {order : List Uid}
    (hids : Tarjan.Emitted t.committedAt (pendingDeps t e) (· ≤ ·) ids)
    (ho : Tarjan.Emitted t'.committedAt (pendingDeps t' e') (· ≤ ·) order) :
    Tarjan.Emitted t.committedAt (pendingDeps t e) (· ≤ ·) (ids ++ order) := by
  induction ho with
  | nil => rwa [List.append_nil]
  | block ho hclosed hconn hsorted hnd hfresh havail ih =>
    rename_i order component
    rw [← List.append_assoc]
    have hblock := ho.block hclosed hconn hsorted hnd hfresh havail
    refine ih.block ?_ ?_ hsorted hnd ?_ ?_
    · intro u hu v hv
      obtain ⟨hui, -⟩ := (h.committedAt_iff u).1 (havail u hu)
      by_cases hvi : v ∈ ids
      · exact Or.inl (List.mem_append_left _ hvi)
      · exact (hclosed u hu v ((h.mem_pendingDeps hui v).2 ⟨hv, hvi⟩)).imp_left
          (List.mem_append_right _)
    · intro u hu v hv
      refine h.reach (fun w hw => ?_) (hconn u hu v hv)
      exact hblock.avail_of_mem w (hblock.reach_mem (List.mem_append_right _ hu) hw)
    · intro u hu hm
      rcases List.mem_append.1 hm with hm | hm
      · exact ((h.committedAt_iff u).1 (havail u hu)).1 hm
      · exact hfresh u hu hm
    · exact fun u hu => ((h.committedAt_iff u).1 (havail u hu)).2

end Without

theorem emitted_singleton {uid : Uid} (h : nextExecutable t e = some uid) :
    Tarjan.Emitted t.committedAt (pendingDeps t e) (· ≤ ·) [uid] := by
  have hone := executable_nextExecutable h
  rw [← List.nil_append [uid]]
  refine Tarjan.Emitted.nil.block ?_ ?_ (List.pairwise_singleton _ _) (List.nodup_singleton _) ?_ ?_
  · intro u hu v hv
    obtain ⟨hp, hne⟩ := (mem_pendingDeps_iff t e u v).1 hv
    exact Or.inr ((hone u hu).2 v hp hne)
  · intro u hu v hv
    rw [List.mem_singleton.1 hu, List.mem_singleton.1 hv]
    exact Tarjan.Reach.refl uid
  · simp
  · exact fun u hu => (hone u hu).1

theorem emitted_eq_of_related {order order' : List Uid}
    (hlive : ∀ uid, t.committedAt uid = true → ¬ e.contains uid) (hr : Related t e)
    (ho : Tarjan.Emitted t.committedAt (pendingDeps t e) (· ≤ ·) order)
    (ho' : Tarjan.Emitted t.committedAt (pendingDeps t e) (· ≤ ·) order')
    (hmem : ∀ uid, uid ∈ order ↔ uid ∈ order') : order = order' := by
  have hperm := (List.perm_ext_iff_of_nodup ho.nodup ho'.nodup).2 hmem
  refine List.Perm.eq_of_pairwise (fun u v hu hv huv hvu => ?_) ho.pairwise ho'.pairwise hperm
  by_contra hne
  have hcu := ho.avail_of_mem u hu
  have hcv := ho'.avail_of_mem v hv
  have hle : u ≤ v ∧ v ≤ u := by
    rcases hr u v hne hcu hcv (hlive u hcu) (hlive v hcv) with hd | hd
    · have hreach := Tarjan.Reach.edge ((mem_pendingDeps t e u v).2 ⟨hd, hlive v hcv, Ne.symm hne⟩)
      exact ⟨(huv hreach).2, (hvu (huv hreach).1).2⟩
    · have hreach := Tarjan.Reach.edge ((mem_pendingDeps t e v u).2 ⟨hd, hlive u hcu, hne⟩)
      exact ⟨(huv (hvu hreach).1).2, (hvu hreach).2⟩
  exact hne (le_antisymm hle.1 hle.2)

theorem executableOrder_step (hlive : ∀ uid, t.committedAt uid = true → ¬ e.contains uid)
    (hr : Related t e) {uid : Uid} (h : nextExecutable t e = some uid) :
    executableOrder t e = uid :: executableOrder (t.remove uid) (e.insert uid) := by
  have hone := emitted_singleton h
  have hw := without_remove t e uid
  refine emitted_eq_of_related hlive hr (executableOrder_spec t e).1
    (hw.emitted hone (executableOrder_spec _ _).1) fun v => ?_
  rw [List.mem_cons, mem_executableOrder, mem_executableOrder,
    hw.executable_iff (executable_nextExecutable h), List.mem_singleton]
  have : v = uid → Executable t e v := fun hv =>
    (executable_nextExecutable h).executable (List.mem_singleton.2 hv)
  tauto

theorem roots_remove_lt {uid : Uid} (h : t.committedAt uid = true) :
    (roots (t.remove uid)).toFinset.card < (roots t).toFinset.card := by
  refine Finset.card_lt_card (Finset.ssubset_iff_subset_ne.2 ⟨fun v hv => ?_, fun heq => ?_⟩)
  · rw [List.mem_toFinset, mem_roots] at hv ⊢
    exact (((without_remove t (Executed.new n) uid).committedAt_iff v).1 hv).2
  · have hu : uid ∈ (roots t).toFinset := List.mem_toFinset.2 ((mem_roots t uid).2 h)
    rw [← heq, List.mem_toFinset, mem_roots] at hu
    exact (((without_remove t (Executed.new n) uid).committedAt_iff uid).1 hu).1
      List.mem_cons_self

theorem drainReady_spec (hlive : ∀ uid, t.committedAt uid = true → ¬ e.contains uid)
    (hr : Related t e) (fuel : Nat) (hfuel : (roots t).toFinset.card ≤ fuel) :
    let (order, t', e') := drainReady fuel t e
    nextExecutable t' e' = none ∧ executableOrder t e = order ++ executableOrder t' e' := by
  induction fuel generalizing t e with
  | zero =>
    refine ⟨?_, rfl⟩
    cases hn : nextExecutable t e with
    | none => rfl
    | some uid =>
      have := roots_remove_lt (nextExecutable_spec hn).1
      omega
  | succ fuel ih =>
    simp only [drainReady]
    split
    · rename_i uid hn
      have hlt := roots_remove_lt (nextExecutable_spec hn).1
      have hw := without_remove t e uid
      obtain ⟨hnone, horder⟩ := ih (hw.live hlive) (hw.related hr) (by omega)
      refine ⟨hnone, ?_⟩
      rw [executableOrder_step hlive hr hn, horder]
      rfl
    · rename_i hn
      exact ⟨hn, rfl⟩

theorem drain_eq_executableOrder (t : InstanceTable n) (e : Executed n)
    (hlive : ∀ uid, t.committedAt uid = true → ¬ e.contains uid) (hr : Related t e) :
    nextExecutable (drainReady (roots t).length t e).2.1 (drainReady (roots t).length t e).2.2 =
        none ∧
      drain t e = executableOrder t e := by
  obtain ⟨hnone, horder⟩ := drainReady_spec hlive hr (roots t).length (List.toFinset_card_le _)
  exact ⟨hnone, horder.symm⟩

def unbound : Instance 1 := (Instance.new 0 0 [] (DepSet.new 1)).commit (DepSet.new 1)

def ranFirst : Uid := uidAt 0 (0 : Fin 1)

def ranNext : Uid := uidAt 1 (0 : Fin 1)

-- The first command has run and is still in the table.
def stale : InstanceTable 1 := ((InstanceTable.new 1).insert ranFirst unbound).insert ranNext unbound

theorem committed_stale {uid : Uid} (h : stale.committedAt uid = true) :
    uid = ranFirst ∨ uid = ranNext := by
  obtain ⟨i, hi, -⟩ := (committedAt_iff _ _).1 h
  simp only [stale, InstanceTable.get_insert, InstanceTable.get_new] at hi
  split at hi
  · rename_i hu
    exact Or.inr hu
  · split at hi
    · rename_i hu
      exact Or.inl hu
    · cases hi

theorem drain_differs_from_executableOrder :
    ¬ ∀ (t : InstanceTable 1) (e : Executed 1), Related t e → drain t e = executableOrder t e := by
  intro h
  have hrelated : Related stale ((Executed.new 1).insert ranFirst) := by
    intro u v hne hu hv hue hve
    have hran : ((Executed.new 1).insert ranFirst).contains ranFirst :=
      (Executed.contains_insert _ _ _).2 (Or.inr rfl)
    have hu := (committed_stale hu).resolve_left fun h => hue (h ▸ hran)
    have hv := (committed_stale hv).resolve_left fun h => hve (h ▸ hran)
    exact absurd (hu.trans hv.symm) hne
  exact absurd (h stale _ hrelated) (by decide +kernel)

def chained : List Uid := [named 0 2, named 0 0, named 0 1, named 1 2]

-- A commit that waits for nothing, two that name each other and the first, and one that waits for all.
def chain : InstanceTable 3 :=
  ((((InstanceTable.new 3).insert (named 0 2) (committedWith [])).insert (named 0 0)
    (committedWith [named 0 2, named 0 1])).insert (named 0 1)
    (committedWith [named 0 2, named 0 0])).insert (named 1 2)
    (committedWith [named 0 2, named 0 0, named 0 1])

theorem committed_chain {uid : Uid} (h : chain.committedAt uid = true) : uid ∈ chained := by
  obtain ⟨i, hi, -⟩ := (committedAt_iff _ _).1 h
  simp only [chain, InstanceTable.get_insert, InstanceTable.get_new] at hi
  by_contra hno
  simp only [chained, List.mem_cons, List.not_mem_nil, or_false, not_or] at hno
  obtain ⟨hfirst, hleft, hright, hlast⟩ := hno
  simp only [if_neg hfirst, if_neg hleft, if_neg hright, if_neg hlast] at hi
  cases hi

theorem related_chain : Related chain (Executed.new 3) := by
  have hall : ∀ u ∈ chained, ∀ v ∈ chained,
      u ≠ v → (depsAt chain u).contains v ∨ (depsAt chain v).contains u := by decide +kernel
  exact fun u v hne hu hv _ _ => hall u (committed_chain hu) v (committed_chain hv) hne

-- The first commit is run without the graph, the others with it.
theorem drain_eq_executableOrder_chain :
    (drainReady (roots chain).length chain (Executed.new 3)).1 = [named 0 2] ∧
      executableOrder chain (Executed.new 3) = chained ∧
      drain chain (Executed.new 3) = executableOrder chain (Executed.new 3) :=
  ⟨by decide +kernel, by decide +kernel, (drain_eq_executableOrder chain (Executed.new 3)
    (fun _ _ => Executed.not_contains_new _) related_chain).2⟩

end KCensus.Deps

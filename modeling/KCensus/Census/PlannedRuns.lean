import KCensus.Census.LoneRun

namespace KCensus.Census

open Propagation

variable {n : Nat} {topology : Topology n} {routes : Routes n} {pathLatencies : Fin n → Fin n → Nat}
  {v : Nat} {proposer : Fin n}

theorem planned_of_plan [NeZero n] (hr : AgreeingRoutes topology pathLatencies routes)
    {minEffort : MinEffortPlan n} {plan : KCensusPlan n}
    (hplan : kcensusPlan topology routes (.new topology pathLatencies) minEffort = .ok plan)
    (htimely : ∀ proposer, (plan.graphs proposer).Timely) (proposer : Fin n) :
    Planned (plan.propagationGraphs topology htimely) pathLatencies proposer (plan.graphs proposer) := by
  obtain ⟨level, hbuild, -⟩ := kcensusPlan_graphs hplan proposer
  exact ⟨fun _ => rfl, (buildGraph_wired hbuild).1, buildGraph_causal hr.shortest hr.link hbuild,
    hr.link, hr.positive⟩

theorem exists_planned [NeZero n] (hr : AgreeingRoutes topology pathLatencies routes)
    (hself : ∀ a, topology.linkLatency a a = 0) (hnanos : ∀ a b, topology.linkLatency a b < 2 ^ 62)
    (hmaj : majority topology ≤ topology.aliveReplicas.card) (hn : n ≤ 2 ^ 27) :
    ∃ minEffort plan kl levels, ∃ htimely : ∀ proposer, (plan.graphs proposer).Timely,
      minEffortPlan topology (.new topology pathLatencies) = .ok minEffort ∧
      kcensusPlan topology routes (.new topology pathLatencies) minEffort = .ok plan ∧
      plan.Fulfils topology routes pathLatencies kl levels ∧
      ∀ proposer, Planned (plan.propagationGraphs topology htimely) pathLatencies proposer
        (plan.graphs proposer) := by
  have hinNanos : InNanos topology := fun a b => (hnanos a b).trans (by decide)
  obtain ⟨effort, hminEffort, heffort⟩ := minEffortPlan_chooses hmaj hinNanos hr.link
  obtain ⟨kl, hkl, hlv⟩ := allKnowledgeLevels_ok hr.shortest hmaj
  obtain ⟨plan, levels, hplan, hfulfils⟩ := kcensusPlan_ok hr hself hinNanos hmaj hn hkl hlv heffort
  have htimely := hfulfils.timely hr hplan hkl hnanos
  exact ⟨effort, plan, kl, levels, htimely, hminEffort, hplan, hfulfils,
    planned_of_plan hr hplan htimely⟩

theorem Lone.Underway.accepted {graphs : PropagationGraphs n} {draft : Draft n} {s : Lone n}
    (hplanned : Planned graphs pathLatencies proposer draft)
    (hvalues : draft.shouldIncludeValue =
      (Finset.univ.erase proposer).image (valueMessage routes pathLatencies proposer))
    (h : Underway graphs v proposer draft s) (hflying : s.flying = ∅) (node : Fin n) :
    (s.rounds node).getMyV = some v := by
  rcases h.stands node with ⟨-, hr⟩ | ⟨hno, hzero, -⟩
  · rw [RoundState.getMyV, RoundState.myState, hr.myPid, hr.mine]
    rfl
  · have hne : node ≠ proposer := fun heq => hno (Or.inl heq)
    have hvalue : valueMessage routes pathLatencies proposer node ∈ draft.shouldIncludeValue := by
      rw [hvalues]
      exact Finset.mem_image_of_mem _ (Finset.mem_erase.mpr ⟨hne, Finset.mem_univ node⟩)
    obtain ⟨hproposer, hnoted⟩ := hplanned.wired.valued hvalue
    obtain ⟨hloop, -, -⟩ := hplanned.wired.posted hproposer hnoted
    have harrives := (hplanned.wired.arrives hproposer hnoted id).1
    have hpos := (hplanned.positive _ _ hloop).trans_le (hplanned.link _ _)
    have hreached := h.quiet hplanned hflying node harrives
    rw [hzero] at hreached
    omega

-- A proposal without a rival, in whatever order its messages arrive: no assertion fails, every message
-- arrives once, and when all have arrived everyone has accepted and is at the end of the schedule.
theorem lone_proposal_completes [NeZero n] (topology : Topology n)
    (pathLatencies : Fin n → Fin n → Nat) (routes : Routes n)
    (hr : AgreeingRoutes topology pathLatencies routes)
    (hself : ∀ a, topology.linkLatency a a = 0) (hnanos : ∀ a b, topology.linkLatency a b < 2 ^ 62)
    (hmaj : 1 + topology.nbReplicas / 2 ≤ topology.aliveReplicas.card) (hn : n ≤ 2 ^ 27) :
    ∃ minEffort plan, ∃ htimely : ∀ proposer, (plan.graphs proposer).Timely,
      minEffortPlan topology (.new topology pathLatencies) = .ok minEffort ∧
      kcensusPlan topology routes (.new topology pathLatencies) minEffort = .ok plan ∧
      ∀ majority v proposer,
        (∃ s, Lone.start (plan.propagationGraphs topology htimely) majority v proposer = some s) ∧
        ∀ s, Lone.Reachable (plan.propagationGraphs topology htimely) majority v proposer s →
          (∀ m ∈ s.flying, ∃ s' done,
            s.deliver (plan.propagationGraphs topology htimely) v m = some (s', done) ∧
            (done = true ↔ (plan.propagationGraphs topology htimely).finalState proposer m.dest
              (s'.reach proposer m.dest) = true) ∧
            s'.awaited (plan.graphs proposer) proposer ⊂ s.awaited (plan.graphs proposer) proposer) ∧
          (s.flying = ∅ → ∀ node, (s.rounds node).getMyV = some v ∧
            (plan.propagationGraphs topology htimely).finalState proposer node
              (s.reach proposer node) = true) := by
  obtain ⟨effort, plan, kl, levels, htimely, hminEffort, hplan, hfulfils, hall⟩ :=
    exists_planned hr hself hnanos hmaj hn
  refine ⟨effort, plan, htimely, hminEffort, hplan, fun majority v proposer => ?_⟩
  have hplanned := hall proposer
  obtain ⟨s₀, hstart, -⟩ := Lone.Underway.start hplanned majority v
  refine ⟨⟨s₀, hstart⟩, fun s hs => ?_⟩
  have hunderway := Lone.Underway.of_reachable hplanned hs
  refine ⟨fun m hm => ?_, fun hflying node => ?_⟩
  · obtain ⟨r, sent, done, -, hrun, -, hfewer, hdone, -⟩ := hunderway.deliver hplanned hm
    refine ⟨s.after m r sent, done, hrun, ?_, hfewer⟩
    rwa [Lone.reach, Lone.rounds_after_dest]
  · refine ⟨hunderway.accepted hplanned (hfulfils.graph proposer).values hflying node, ?_⟩
    exact (hplanned.final_iff (hunderway.has node)).mpr fun u hu =>
      hunderway.quiet hplanned hflying node hu

theorem lone_proposal_completes_squares : ∃ minEffort plan,
    ∃ htimely : ∀ proposer, (plan.graphs proposer).Timely,
      minEffortPlan squares (.new squares lineLatency) = .ok minEffort ∧
      kcensusPlan squares oneByOne (.new squares lineLatency) minEffort = .ok plan ∧
      ∀ majority v proposer,
        (∃ s, Lone.start (plan.propagationGraphs squares htimely) majority v proposer = some s) ∧
        ∀ s, Lone.Reachable (plan.propagationGraphs squares htimely) majority v proposer s →
          (∀ m ∈ s.flying, ∃ s' done,
            s.deliver (plan.propagationGraphs squares htimely) v m = some (s', done) ∧
            (done = true ↔ (plan.propagationGraphs squares htimely).finalState proposer m.dest
              (s'.reach proposer m.dest) = true) ∧
            s'.awaited (plan.graphs proposer) proposer ⊂ s.awaited (plan.graphs proposer) proposer) ∧
          (s.flying = ∅ → ∀ node, (s.rounds node).getMyV = some v ∧
            (plan.propagationGraphs squares htimely).finalState proposer node
              (s.reach proposer node) = true) :=
  lone_proposal_completes squares lineLatency oneByOne agreeing_oneByOne (by decide) (by decide)
    (by decide) (by decide)

end KCensus.Census

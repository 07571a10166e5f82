import KCensus.Propagation.Fulfilment

namespace KCensus.Propagation

variable {n : Nat} {topology : Topology n} {routes : Routes n} {pathLatencies : Fin n → Fin n → Nat}

theorem tabulate_get {ε ι α : Type*} [DecidableEq ι] {f : ι → Except ε α} {is : List ι}
    {table r : ι → α} (hrun : Lib.tabulate f is table = .ok r) {i : ι} (hi : i ∈ is) :
    f i = .ok (r i) := by
  have hkept : ∀ {is table}, Lib.tabulate f is table = .ok r → i ∉ is → table i = r i := by
    intro is
    induction is with
    | nil =>
        intro table hrun _
        cases hrun
        rfl
    | cons j is ih =>
        intro table hrun hno
        rw [Lib.tabulate] at hrun
        split at hrun
        · cases hrun
        · rw [← ih hrun fun h => hno (List.mem_cons_of_mem j h)]
          exact (Function.update_of_ne (fun heq => hno (List.mem_cons.mpr (Or.inl heq))) _ _).symm
  induction is generalizing table with
  | nil => cases hi
  | cons j is ih =>
      rw [Lib.tabulate] at hrun
      split at hrun
      · cases hrun
      · rename_i a ha
        by_cases hmem : i ∈ is
        · exact ih hrun hmem
        · obtain rfl := (List.mem_cons.mp hi).resolve_right hmem
          rw [ha, ← hkept hrun hmem, Function.update_self]

theorem allKnowledgeLevels_get {t : LatencyTables n} {kl : Fin n → Fin n → List (KnowledgeLevel n)}
    (hkl : allKnowledgeLevels topology t = .ok kl) {proposer leader : Fin n}
    (hmay : MayLead topology proposer leader) :
    knowledgeLevels topology t proposer leader = .ok (kl proposer leader) := by
  have hone := tabulate_get (tabulate_get hkl (List.mem_finRange proposer))
    (topology.mem_aliveList.mpr hmay.1)
  rw [← hone, if_neg]
  rw [Topology.isAlive, Bool.and_eq_true, decide_eq_true_eq, decide_eq_true_eq]
  exact fun hboth => hboth.2 (hmay.2 hboth.1)

theorem kcensusPlan_graphs [NeZero n] {t : LatencyTables n} {minEffort : MinEffortPlan n}
    {plan : KCensusPlan n} (hrun : kcensusPlan topology routes t minEffort = .ok plan)
    (proposer : Fin n) :
    ∃ level, buildGraph topology routes proposer (plan.leaders proposer) t level =
        .ok (plan.graphs proposer) ∧
      plan.latencies proposer = level.time + topology.linkLatency (plan.leaders proposer) proposer := by
  obtain ⟨kl, -, hrun⟩ := Lib.bind_ok hrun
  obtain ⟨best, -, hrun⟩ := Lib.bind_ok hrun
  obtain ⟨built, hbuilt, hrun⟩ := Lib.bind_ok hrun
  have hone := tabulate_get hbuilt (List.mem_finRange proposer)
  obtain ⟨level, -, hone⟩ := Lib.bind_ok hone
  obtain ⟨least, -, hone⟩ := Lib.bind_ok hone
  simp only at hrun
  split at hrun
  · cases hrun
  · cases hrun
    split at hone
    · cases hone
    · obtain ⟨draft, hdraft, hone⟩ := Lib.bind_ok hone
      have heq : (draft, level.time + topology.linkLatency (best.leaders proposer) proposer) =
        built proposer := Except.ok.inj hone
      exact ⟨level, hdraft.trans (congrArg (Except.ok ∘ Prod.fst) heq), (congrArg Prod.snd heq).symm⟩

theorem minEffortVia_lt (hlink : ∀ a b, pathLatencies a b ≤ topology.linkLatency a b)
    (hnanos : InNanos topology) (hmaj : majority topology ≤ topology.aliveReplicas.card)
    (pid committer : Fin n) : minEffortVia topology pathLatencies pid committer < durationMax := by
  have := quorumTime_relayed_lt hmaj (fun a b => (hlink a b).trans_lt (hnanos a b)) pid committer
  have := hnanos committer pid
  simp only [minEffortVia, durationMax]
  omega

theorem minProposerLatency_ok (hmaj : majority topology ≤ topology.aliveReplicas.card)
    (hp : ShortestPaths pathLatencies)
    (hlink : ∀ a b, pathLatencies a b ≤ topology.linkLatency a b) (hself : ∀ a, topology.linkLatency a a = 0)
    (hnanos : InNanos topology) {effort : MinEffortPlan n}
    (heffort : effort.Chooses topology (minEffortOwn topology pathLatencies)
      (minEffortVia topology pathLatencies)) (proposer : Fin n) :
    minProposerLatency topology proposer (.new topology pathLatencies) =
      .ok (effort.latencies proposer) := by
  have hown : minEffortOwn topology pathLatencies proposer =
      minEffortVia topology pathLatencies proposer proposer := by
    simp only [minEffortOwn, minEffortVia, hself, Nat.add_zero]
  have hattained : ∃ leader ∈ topology.aliveReplicas,
      effort.latencies proposer = minEffortVia topology pathLatencies proposer leader := by
    by_cases halive : proposer ∈ topology.aliveReplicas
    · exact ⟨proposer, halive, (heffort.replica proposer halive).2.trans hown⟩
    · exact ⟨_, (heffort.committer proposer halive).1, (heffort.committer proposer halive).2⟩
  have hleast : ∀ leader ∈ topology.aliveReplicas,
      effort.latencies proposer ≤ minEffortVia topology pathLatencies proposer leader := by
    intro leader hl
    by_cases halive : proposer ∈ topology.aliveReplicas
    · rw [(heffort.replica proposer halive).2]
      exact quorumTime_add_le _ _ (topology.linkLatency leader proposer) majority_pos hmaj fun r _ => by
        have := hp.triangle r leader proposer
        have := hlink leader proposer
        simp only [relayed]
        omega
    · exact heffort.least proposer halive leader hl
  obtain ⟨leader, hl, heq⟩ := hattained
  have hlt := minEffortVia_lt hlink hnanos hmaj proposer leader
  obtain ⟨least, hrun, hge, -, hle⟩ := @Lib.foldlM_least _ _ _
    (fun least => effort.latencies proposer ≤ least) id
    (fun least leader => (do
      let lat ← indexed ((LatencyTables.new topology pathLatencies).quorum3pPathRtts proposer leader)
        ((LatencyTables.new topology pathLatencies).minQuorum - 1)
      return min least (lat + topology.linkLatency leader proposer) : Except PlanPanic Nat))
    (fun leader time => time = minEffortVia topology pathLatencies proposer leader)
    topology.aliveList
    (fun leader hl least hge => by
      refine ⟨min least (minEffortVia topology pathLatencies proposer leader), ?_, ?_, min_le_left _ _,
        fun time htime => htime ▸ min_le_right _ _⟩
      · rw [quorum3pPath_ok hmaj]
        rfl
      · exact le_min hge (hleast leader (topology.mem_aliveList.mp hl)))
    durationMax (heq ▸ hlt.le)
  rw [minProposerLatency, hrun]
  exact congrArg Except.ok (((hle leader (topology.mem_aliveList.mpr hl) _ rfl).trans_eq heq.symm).antisymm hge)

theorem level_time_le {bound : Nat} (hbound : ∀ a b, pathLatencies a b ≤ bound)
    {kl : Fin n → Fin n → List (KnowledgeLevel n)}
    (hkl : allKnowledgeLevels topology (.new topology pathLatencies) = .ok kl)
    {leaders : Fin n → Fin n} {levels : Fin n → Nat} (hc : IsChoice topology kl leaders levels)
    (pid : Fin n) : (levelAt (kl pid (leaders pid)) (levels pid)).time ≤ 3 * bound := by
  obtain ⟨t, hget, htotal⟩ := (knowledgeLevels_truncate (allKnowledgeLevels_get hkl (hc.mayLead pid)) _
    (levelAt_mem (hc.lt pid))).last
  have heq := ((mem_triangularPaths topology).mp (List.mem_of_getElem? hget)).2.2
  have := hbound pid t.first
  have := hbound t.first t.second
  have := hbound t.second (leaders pid)
  simp only [along] at heq
  omega

theorem total_lt (hlink : ∀ a b, pathLatencies a b ≤ topology.linkLatency a b) (hnanos : InNanos topology)
    (hn : n ≤ 2 ^ 27) {kl : Fin n → Fin n → List (KnowledgeLevel n)}
    (hkl : allKnowledgeLevels topology (.new topology pathLatencies) = .ok kl)
    {leaders : Fin n → Fin n} {levels : Fin n → Nat} (hc : IsChoice topology kl leaders levels) :
    linkTotal topology leaders + levelTotal kl leaders levels < durationMax := by
  have htime := level_time_le (fun a b => (hlink a b).trans (hnanos a b).le) hkl hc
  have hlinks := sum_le fun pid => (hnanos (leaders pid) pid).le
  have hlevels := sum_le htime
  simp only [linkTotal, levelTotal, durationMax]
  omega

theorem requirementSearch_returns [NeZero n] (hp : ShortestPaths pathLatencies)
    (hlink : ∀ a b, pathLatencies a b ≤ topology.linkLatency a b) (hnanos : InNanos topology)
    (hmaj : majority topology ≤ topology.aliveReplicas.card) (hn : n ≤ 2 ^ 27)
    {kl : Fin n → Fin n → List (KnowledgeLevel n)}
    (hkl : allKnowledgeLevels topology (.new topology pathLatencies) = .ok kl)
    (hlv : AllLeveled topology pathLatencies kl) :
    ∃ best, requirementSearch topology (.new topology pathLatencies) = .ok best ∧
      OptimalPlan topology kl (.ok best) := by
  have hplans := requirementSearch_plans hp hkl hlv
  cases hsearch : requirementSearch topology (.new topology pathLatencies) with
  | error panic =>
      rw [hsearch] at hplans
      obtain ⟨leaders, levels, hc⟩ := exists_isChoice hp hlv (alive_nonempty hmaj)
      exact absurd (hplans.2 leaders levels hc) (not_le.mpr (total_lt hlink hnanos hn hkl hc))
  | ok best => exact ⟨best, rfl, hsearch ▸ hplans⟩

theorem requirementSearch_optimal [NeZero n] (topology : Topology n)
    (pathLatencies : Fin n → Fin n → Nat) (hp : ShortestPaths pathLatencies)
    (hmaj : 1 + topology.nbReplicas / 2 ≤ topology.aliveReplicas.card) :
    ∃ kl, allKnowledgeLevels topology (.new topology pathLatencies) = .ok kl ∧
      (∃ leaders levels, IsChoice topology kl leaders levels) ∧
      OptimalPlan topology kl (requirementSearch topology (.new topology pathLatencies)) ∧
      ((∀ a b, pathLatencies a b ≤ topology.linkLatency a b) → InNanos topology → n ≤ 2 ^ 27 →
        ∃ best, requirementSearch topology (.new topology pathLatencies) = .ok best) := by
  obtain ⟨kl, hkl, hlv⟩ := allKnowledgeLevels_ok hp hmaj
  refine ⟨kl, hkl, exists_isChoice hp hlv (alive_nonempty hmaj), requirementSearch_plans hp hkl hlv,
    fun hlink hnanos hn => ?_⟩
  obtain ⟨best, hsearch, -⟩ := requirementSearch_returns hp hlink hnanos hmaj hn hkl hlv
  exact ⟨best, hsearch⟩

theorem requirementSearch_optimal_line :
    ∃ kl best, allKnowledgeLevels line (.new line lineLatency) = .ok kl ∧
      requirementSearch line (.new line lineLatency) = .ok best ∧
      OptimalPlan line kl (.ok best) := by
  obtain ⟨kl, hkl, -, hplan, hreturns⟩ :=
    requirementSearch_optimal line lineLatency ⟨by decide, by decide⟩ (by decide)
  obtain ⟨best, hsearch⟩ := hreturns (fun _ _ => le_rfl) (by unfold InNanos; decide) (by decide)
  exact ⟨kl, best, hkl, hsearch, hsearch ▸ hplan⟩

theorem planProposer_ok [NeZero n] (hr : AgreeingRoutes topology pathLatencies routes)
    (hself : ∀ a, topology.linkLatency a a = 0) (hnanos : InNanos topology)
    (hmaj : majority topology ≤ topology.aliveReplicas.card)
    {kl : Fin n → Fin n → List (KnowledgeLevel n)}
    (hkl : allKnowledgeLevels topology (.new topology pathLatencies) = .ok kl)
    (hlv : AllLeveled topology pathLatencies kl) {effort : MinEffortPlan n}
    (heffort : effort.Chooses topology (minEffortOwn topology pathLatencies)
      (minEffortVia topology pathLatencies))
    {best : BestSol n} (hbest : IsChoice topology kl best.leaders best.levels) (proposer : Fin n) :
    ∃ draft, planProposer topology routes (.new topology pathLatencies) effort kl best proposer =
        .ok (draft, (levelAt (kl proposer (best.leaders proposer)) (best.levels proposer)).time +
          topology.linkLatency (best.leaders proposer) proposer) ∧
      Fulfils topology routes pathLatencies proposer (best.leaders proposer)
        (levelAt (kl proposer (best.leaders proposer)) (best.levels proposer)) draft := by
  have hmay := hbest.mayLead proposer
  have hmem := levelAt_mem (hbest.lt proposer)
  obtain ⟨draft, hbuild, hfulfils⟩ := buildGraph_ok hr ((hlv proposer _ hmay).known _ hmem)
    (knowledgeLevels_truncate (allKnowledgeLevels_get hkl hmay) _ hmem)
  refine ⟨draft, ?_, hfulfils⟩
  simp only [planProposer, indexed_levelAt (hbest.lt proposer),
    minProposerLatency_ok hmaj hr.shortest hr.link hself hnanos heffort proposer, bind, Except.bind,
    ne_eq, not_true_eq_false, if_false, hbuild]
  rfl

-- What a plan is good for: every graph gets its leader to a level that was chosen for it, and no
-- choice has a lesser total.
structure KCensusPlan.Fulfils (topology : Topology n) (routes : Routes n)
    (pathLatencies : Fin n → Fin n → Nat) (kl : Fin n → Fin n → List (KnowledgeLevel n))
    (levels : Fin n → Nat) (plan : KCensusPlan n) : Prop where
  chosen : IsChoice topology kl plan.leaders levels
  least : ∀ leaders' levels', IsChoice topology kl leaders' levels' →
    sumOf plan.latencies ≤ linkTotal topology leaders' + levelTotal kl leaders' levels'
  latency : ∀ proposer, plan.latencies proposer =
    (levelAt (kl proposer (plan.leaders proposer)) (levels proposer)).time +
      topology.linkLatency (plan.leaders proposer) proposer
  graph : ∀ proposer, Propagation.Fulfils topology routes pathLatencies proposer (plan.leaders proposer)
    (levelAt (kl proposer (plan.leaders proposer)) (levels proposer)) (plan.graphs proposer)

theorem sumOf_add {f g : Fin n → Nat} : sumOf (fun i => f i + g i) = sumOf f + sumOf g := by
  simp only [sumOf, List.sum_map_add]

theorem kcensusPlan_ok [NeZero n] (hr : AgreeingRoutes topology pathLatencies routes)
    (hself : ∀ a, topology.linkLatency a a = 0) (hnanos : InNanos topology)
    (hmaj : majority topology ≤ topology.aliveReplicas.card) (hn : n ≤ 2 ^ 27)
    {kl : Fin n → Fin n → List (KnowledgeLevel n)}
    (hkl : allKnowledgeLevels topology (.new topology pathLatencies) = .ok kl)
    (hlv : AllLeveled topology pathLatencies kl) {effort : MinEffortPlan n}
    (heffort : effort.Chooses topology (minEffortOwn topology pathLatencies)
      (minEffortVia topology pathLatencies)) :
    ∃ plan levels, kcensusPlan topology routes (.new topology pathLatencies) effort = .ok plan ∧
      plan.Fulfils topology routes pathLatencies kl levels := by
  obtain ⟨best, hsearch, hchoice, hsum, hleast⟩ :=
    requirementSearch_returns hr.shortest hr.link hnanos hmaj hn hkl hlv
  choose drafts hdrafts hfulfils using
    planProposer_ok hr hself hnanos hmaj hkl hlv heffort hchoice
  have htab := Lib.tabulate_ok (List.finRange n) (fun proposer _ => hdrafts proposer)
    fun proposer => (Draft.start proposer, 0)
  simp only [List.mem_finRange, if_true] at htab
  have htotal : sumOf (fun proposer =>
      (levelAt (kl proposer (best.leaders proposer)) (best.levels proposer)).time +
        topology.linkLatency (best.leaders proposer) proposer) = best.sumOfLatencies := by
    rw [sumOf_add, hsum, Nat.add_comm]
    rfl
  refine ⟨
    { graphs := drafts, leaders := best.leaders
      latencies := fun proposer =>
        (levelAt (kl proposer (best.leaders proposer)) (best.levels proposer)).time +
          topology.linkLatency (best.leaders proposer) proposer },
    best.levels, ?_, hchoice, ?_, fun _ => rfl, hfulfils⟩
  · simp only [kcensusPlan, hkl, hsearch, htab, htotal, bind, Except.bind, ne_eq, not_true_eq_false,
      if_false]
    rfl
  · intro leaders' levels' hc
    exact htotal.trans_le (hleast leaders' levels' hc)

-- The line again, but two links of one hop each are faster than one of two hops.
def squares : Topology 4 :=
  { line with linkLatency := fun a b => lineLatency a b * ((a.val - b.val) + (b.val - a.val)) }

def oneByOne : Routes 4 where
  prevDest := fun p b => if p < b then b - 1 else if b < p then b + 1 else b
  nextSrc := fun a b => if a < b then a + 1 else if b < a then a - 1 else a

theorem OnWay.inv {target current proposer : Fin n} (h : OnWay routes proposer target current)
    (Inv : Fin n → Prop) (hstart : Inv proposer)
    (hnext : ∀ pid, Inv pid → Inv (routes.nextSrc pid target)) : Inv current := by
  obtain ⟨hops, rfl⟩ := h
  induction hops with
  | zero => exact hstart
  | succ hops ih =>
      rw [Function.iterate_succ_apply']
      exact hnext _ ih

theorem agreeing_oneByOne : AgreeingRoutes squares lineLatency oneByOne where
  shortest := ⟨by decide, by decide⟩
  link := by decide
  positive := by decide
  next := by decide
  prev := by decide
  prev_self := by decide
  agree p target current h hne := by
    have hstep : ∀ p target pid : Fin 4, pid ∈ Set.uIcc p target →
        oneByOne.nextSrc pid target ∈ Set.uIcc p target := by
      simp only [Set.mem_uIcc]
      decide
    have hbetween := h.inv (· ∈ Set.uIcc p target) Set.left_mem_uIcc (hstep p target)
    clear h hstep
    rw [Set.mem_uIcc] at hbetween
    revert p target current
    decide

theorem kcensusPlan_squares : ∃ minEffort plan,
    kcensusPlan squares oneByOne (.new squares lineLatency) minEffort = .ok plan := by
  have hr := agreeing_oneByOne
  have hnanos : InNanos squares := by unfold InNanos; decide
  obtain ⟨effort, -, heffort⟩ := minEffortPlan_chooses (by decide) hnanos hr.link
  obtain ⟨kl, hkl, hlv⟩ := allKnowledgeLevels_ok hr.shortest (show majority squares ≤ _ by decide)
  obtain ⟨plan, -, hrun, -⟩ :=
    kcensusPlan_ok hr (by decide) hnanos (by decide) (by decide) hkl hlv heffort
  exact ⟨effort, plan, hrun⟩

-- Whatever the plan is made from, its messages are sent and awaited by the states that belong to them.
theorem kcensus_plan_wired [NeZero n] (topology : Topology n) (routes : Routes n) (t : LatencyTables n)
    (minEffort : MinEffortPlan n) (plan : KCensusPlan n)
    (hplan : kcensusPlan topology routes t minEffort = .ok plan) (proposer : Fin n) :
    Wired topology proposer (fun _ => False) (plan.graphs proposer) ∧
      (plan.graphs proposer).shouldIncludeValue.card = n - 1 := by
  obtain ⟨level, hbuild, -⟩ := kcensusPlan_graphs hplan proposer
  exact buildGraph_wired hbuild

theorem kcensus_plan_wired_squares : ∃ minEffort plan,
    kcensusPlan squares oneByOne (.new squares lineLatency) minEffort = .ok plan ∧
    ∀ proposer, Wired squares proposer (fun _ => False) (plan.graphs proposer) ∧
      (plan.graphs proposer).shouldIncludeValue.card = 3 := by
  obtain ⟨effort, plan, hrun⟩ := kcensusPlan_squares
  exact ⟨effort, plan, hrun,
    fun proposer => kcensus_plan_wired squares oneByOne _ effort plan hrun proposer⟩

-- With shortest paths no state knows anything that it cannot have been told by then.
theorem kcensus_plan_causal [NeZero n] (topology : Topology n) (pathLatencies : Fin n → Fin n → Nat)
    (routes : Routes n) (hp : ShortestPaths pathLatencies)
    (hlink : ∀ a b, pathLatencies a b ≤ topology.linkLatency a b) (minEffort : MinEffortPlan n)
    (plan : KCensusPlan n)
    (hplan : kcensusPlan topology routes (.new topology pathLatencies) minEffort = .ok plan)
    (proposer : Fin n) : Causal pathLatencies proposer (plan.graphs proposer) := by
  obtain ⟨level, hbuild, -⟩ := kcensusPlan_graphs hplan proposer
  exact buildGraph_causal hp hlink hbuild

theorem kcensus_plan_causal_squares : ∃ minEffort plan,
    kcensusPlan squares oneByOne (.new squares lineLatency) minEffort = .ok plan ∧
    ∀ proposer, Causal lineLatency proposer (plan.graphs proposer) := by
  obtain ⟨effort, plan, hrun⟩ := kcensusPlan_squares
  exact ⟨effort, plan, hrun, fun proposer => kcensus_plan_causal squares lineLatency oneByOne
    agreeing_oneByOne.shortest agreeing_oneByOne.link effort plan hrun proposer⟩

-- With tables that agree with each other the plan is made, and serves its purpose.
theorem kcensus_plan_fulfils [NeZero n] (topology : Topology n) (pathLatencies : Fin n → Fin n → Nat)
    (routes : Routes n) (hr : AgreeingRoutes topology pathLatencies routes)
    (hself : ∀ a, topology.linkLatency a a = 0) (hnanos : InNanos topology)
    (hmaj : majority topology ≤ topology.aliveReplicas.card) (hn : n ≤ 2 ^ 27) :
    ∃ minEffort kl plan levels,
      minEffortPlan topology (.new topology pathLatencies) = .ok minEffort ∧
      allKnowledgeLevels topology (.new topology pathLatencies) = .ok kl ∧
      kcensusPlan topology routes (.new topology pathLatencies) minEffort = .ok plan ∧
      plan.Fulfils topology routes pathLatencies kl levels ∧
      ∀ proposer, minEffort.latencies proposer ≤ plan.latencies proposer := by
  obtain ⟨effort, hminEffort, heffort⟩ := minEffortPlan_chooses hmaj hnanos hr.link
  obtain ⟨kl, hkl, hlv⟩ := allKnowledgeLevels_ok hr.shortest hmaj
  obtain ⟨plan, levels, hrun, hfulfils⟩ := kcensusPlan_ok hr hself hnanos hmaj hn hkl hlv heffort
  refine ⟨effort, kl, plan, levels, hminEffort, hkl, hrun, hfulfils, fun proposer => ?_⟩
  have hmay := hfulfils.chosen.mayLead proposer
  rw [hfulfils.latency proposer]
  exact minEffort_le_level hr.shortest heffort hmay (hlv proposer _ hmay)
    (levelAt_mem (hfulfils.chosen.lt proposer))

theorem kcensus_plan_fulfils_squares : ∃ minEffort kl plan levels,
    minEffortPlan squares (.new squares lineLatency) = .ok minEffort ∧
    allKnowledgeLevels squares (.new squares lineLatency) = .ok kl ∧
    kcensusPlan squares oneByOne (.new squares lineLatency) minEffort = .ok plan ∧
    plan.Fulfils squares oneByOne lineLatency kl levels ∧
    ∀ proposer, minEffort.latencies proposer ≤ plan.latencies proposer :=
  kcensus_plan_fulfils squares lineLatency oneByOne agreeing_oneByOne (by decide)
    (by unfold InNanos; decide) (by decide) (by decide)

end KCensus.Propagation

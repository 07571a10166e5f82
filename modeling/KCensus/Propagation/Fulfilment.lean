import KCensus.Propagation.Heading

namespace KCensus.Propagation

variable {n : Nat} {topology : Topology n} {routes : Routes n}
  {pathLatencies : Fin n → Fin n → Nat} {proposer leader : Fin n} {leaderLatency : Nat}

theorem leaderKnows_eq (leaderLatency : Nat) {draft : Draft n} (t : TriangularPath n) (hzero : draft.Has leader 0) :
    ∃ last, draft.Has leader last ∧ leaderKnows leader leaderLatency false draft t =
      .ok (decide (t.first ∈ (draft.state leader last).knowledge t.second)) := by
  obtain ⟨last, hlast⟩ := Lib.exists_last? ((draft.states leader).times.filter (· ≤ leaderLatency))
    ⟨0, Finset.mem_filter.mpr ⟨hzero, Nat.zero_le _⟩⟩
  refine ⟨last, (Finset.mem_filter.mp (Lib.mem_last? hlast).1).1, ?_⟩
  simp only [leaderKnows, Bool.false_eq_true, if_false, hlast]
  rfl

theorem Hopped.carries {valueOnly : Bool} {step : Nat} {target first second : Fin n}
    {s s' : Draft n × Walk n} {msg : MessageId n} {reused : Bool}
    (hop : Hopped topology routes proposer valueOnly step target s s' msg reused)
    (h : Walk.Sound topology pathLatencies proposer s)
    (hk : first ∈ (s.1.state s.2.current s.2.currentTime).knowledge second) :
    first ∈ (s'.1.state s'.2.current s'.2.currentTime).knowledge second ∧
      (second = s.2.current →
        first ∈ (s'.1.state s'.2.current s'.2.currentTime).knowledge s'.2.current) := by
  have hsrc : s.1.Has msg.src msg.time := by
    obtain ⟨sent, opened, hsent, -, -, -, -⟩ := hop.draft
    cases hsent with
    | reused hnoted => exact (h.wired.posted hop.own hnoted).2.1
    | posted _ hhas => exact hhas
  have hlater := (h.causal.grows h.has (hop.src ▸ hsrc) hop.lower second).1 hk
  obtain ⟨hcarried, hheard⟩ := hop.knowledge_carried hsrc (by rw [hop.src]; exact hlater)
  rw [hop.walk]
  exact ⟨hcarried, fun hsecond => hheard (hsecond.trans hop.src.symm)⟩

section

variable (hr : AgreeingRoutes topology pathLatencies routes)
include hr

-- A triangle that is short enough is seen through, and nothing that the leader knew is lost.
theorem triangle_ok {draft : Draft n} {t : TriangularPath n}
    (h : Prepared topology routes pathLatencies proposer leader leaderLatency draft)
    (hpurpose : Purposeful topology routes pathLatencies proposer (AtLeader leader draft) draft)
    (htotal : t.totalLatency = along pathLatencies proposer t.first t.second leader)
    (hle : t.totalLatency ≤ leaderLatency) :
    ∃ draft', followPath topology routes proposer leader leaderLatency false draft t = .ok draft' ∧
      Prepared topology routes pathLatencies proposer leader leaderLatency draft' ∧
      Purposeful topology routes pathLatencies proposer (AtLeader leader draft') draft' ∧
      Told leader draft' t.first t.second ∧
      ∀ first second, Told leader draft first second → Told leader draft' first second := by
  obtain ⟨last, hhas, hknows⟩ := leaderKnows_eq leaderLatency t (h.wired.zero leader)
  by_cases hknown : t.first ∈ (draft.state leader last).knowledge t.second
  · refine ⟨draft, ?_, h, hpurpose, ⟨last, hhas, hknown⟩, fun _ _ ht => ht⟩
    simp only [followPath, hknows, hknown, decide_true, bind, Except.bind, if_true]
    rfl
  have hself := hr.shortest.self
  simp only [along] at htotal
  -- To the first process, with the value.
  obtain ⟨s0, hrun0, hheading0, htold0, -, hthere0⟩ := Heading.leg_ok hr 0 t.first
    (pathLatencies t.first t.second + pathLatencies t.second leader)
    (fun s => s.2.fromProposer = true ∧ OnWay routes proposer t.first s.2.current)
    (show Heading topology routes pathLatencies proposer leader leaderLatency t.first _
        (draft, ⟨0, leaderLatency - t.totalLatency, proposer, true⟩) from
      ⟨h, h.wired.zero proposer, (hself proposer).le, by simp only; omega,
        fun _ => (hself proposer).symm, hpurpose.mono fun _ => Or.inl⟩)
    ⟨rfl, 0, rfl⟩
    (fun s hs hne _ => (onWay_next hr hne hs.2).2.1)
    (fun s s' msg reused _ hop hne hs => by
      obtain ⟨-, -, -, honWay⟩ := onWay_next hr hne hs.2
      rw [← hop.dest] at honWay
      rw [hop.walk, hs.1]
      exact ⟨rfl, honWay⟩)
  have hheard0 : t.first ∈ (s0.1.state s0.2.current s0.2.currentTime).knowledge s0.2.current := by
    rw [← hthere0]
    refine hheading0.prepared.causal.self hheading0.has ?_
    rcases eq_or_ne s0.2.current proposer with heq | hne
    · exact Or.inr heq
    · have := hr.positive proposer s0.2.current hne.symm
      have := hheading0.reached
      exact Or.inl (by omega)
  -- To the second one, with what the first one has to say.
  obtain ⟨s1, hrun1, hheading1, htold1, hheard1, hthere1⟩ := Heading.leg_ok hr 1 t.second
    (pathLatencies t.second leader)
    (fun s => t.first ∈ (s.1.state s.2.current s.2.currentTime).knowledge s.2.current)
    (hheading0.turn hthere0 (hself _) rfl
      (s0.2.fromProposer && !(decide (0 < 1) && decide (t.second = leader)))
      fun hf => (Bool.and_eq_true_iff.mp hf).1)
    hheard0 (fun _ _ _ h => absurd h one_ne_zero)
    (fun s s' msg reused hheading hop _ hs => (hop.carries hheading.sound hs).2 rfl)
  -- To the leader, with what the second one has heard.
  obtain ⟨s2, hrun2, hheading2, htold2, hheard2, hthere2⟩ := Heading.leg_ok hr 2 leader 0
    (fun s => t.first ∈ (s.1.state s.2.current s.2.currentTime).knowledge t.second)
    (hheading1.turn hthere1 (hself _) (Nat.add_zero _)
      (s1.2.fromProposer && !(decide (0 < 2) && decide (leader = leader)))
      fun hf => (Bool.and_eq_true_iff.mp hf).1)
    (hthere1 ▸ hheard1) (fun _ _ _ h => absurd h two_ne_zero)
    (fun s s' msg reused hheading hop _ hs => (hop.carries hheading.sound hs).1)
  refine ⟨s2.1, ?_, hheading2.prepared, hheading2.purposeful.mono fun g hg => hg.elim id ?_,
    ⟨s2.2.currentTime, hthere2 ▸ hheading2.has, ?_⟩,
    fun _ _ ht => htold2 _ _ (htold1 _ _ (htold0 _ _ ht))⟩
  · have hpass0 : passCheckpoint topology routes proposer leader false
        (draft, ⟨0, leaderLatency - t.totalLatency, proposer, true⟩) (0, t.first) = .ok s0 := hrun0
    have hpass1 : passCheckpoint topology routes proposer leader false s0 (1, t.second) = .ok s1 := hrun1
    have hpass2 : passCheckpoint topology routes proposer leader false s1 (2, leader) = .ok s2 := hrun2
    simp only [followPath, hknows, hknown, slackOf, hle, checkpoints, decide_false, Bool.false_eq_true,
      if_true, if_false, bind, Except.bind, List.foldlM_cons, List.foldlM_nil, hpass0, hpass1, hpass2]
    rfl
  · rintro rfl
    exact ⟨hthere2, hthere2 ▸ hheading2.has⟩
  · rw [← hthere2]
    exact hheard2

theorem triangles_ok (ts : List (TriangularPath n)) {draft : Draft n}
    (h : Prepared topology routes pathLatencies proposer leader leaderLatency draft)
    (hpurpose : Purposeful topology routes pathLatencies proposer (AtLeader leader draft) draft)
    (hts : ∀ t ∈ ts, t.totalLatency = along pathLatencies proposer t.first t.second leader ∧
      t.totalLatency ≤ leaderLatency) :
    ∃ draft', ts.foldlM (followPath topology routes proposer leader leaderLatency false) draft =
        .ok draft' ∧
      Prepared topology routes pathLatencies proposer leader leaderLatency draft' ∧
      Purposeful topology routes pathLatencies proposer (AtLeader leader draft') draft' ∧
      (∀ t ∈ ts, Told leader draft' t.first t.second) ∧
      ∀ first second, Told leader draft first second → Told leader draft' first second := by
  induction ts generalizing draft with
  | nil => exact ⟨draft, rfl, h, hpurpose, by simp, fun _ _ ht => ht⟩
  | cons t ts ih =>
      obtain ⟨htotal, hle⟩ := hts t List.mem_cons_self
      obtain ⟨next, hrun, hnext, hpurpose', htold, hkept⟩ := triangle_ok hr h hpurpose htotal hle
      obtain ⟨draft', hfold, hprepared, hpurpose'', hall, hkept'⟩ :=
        ih hnext hpurpose' fun u hu => hts u (List.mem_cons_of_mem t hu)
      refine ⟨draft', ?_, hprepared, hpurpose'', fun u hu => ?_,
        fun _ _ ht => hkept' _ _ (hkept _ _ ht)⟩
      · rw [List.foldlM_cons, hrun]
        exact hfold
      · rcases List.mem_cons.mp hu with rfl | hu
        · exact hkept' _ _ htold
        · exact hall u hu

end

-- How a level truncates the triangles: those that are in time are the first ones.
structure Truncates (triangles : List (TriangularPath n)) (level : KnowledgeLevel n) : Prop where
  last : ∃ t, triangles[level.trianglesCount - 1]? = some t ∧ t.totalLatency = level.time
  pos : 0 < level.trianglesCount
  inTime : ∀ t ∈ triangles.take level.trianglesCount, t.totalLatency ≤ level.time
  late : ∀ t ∈ triangles.drop level.trianglesCount, level.time < t.totalLatency

theorem triangleLoop_truncates (leader : Fin n) (minQuorum minLat maxLat : Nat)
    (ts pre : List (TriangularPath n)) (knowledges : Fin n → Knowledge n)
    (hsorted : (pre ++ ts).Pairwise (·.totalLatency ≤ ·.totalLatency))
    {levels : List (KnowledgeLevel n)}
    (hrun : triangleLoop leader minQuorum minLat maxLat ts pre.length knowledges = .ok levels) :
    ∀ level ∈ levels, Truncates (pre ++ ts) level := by
  induction ts generalizing pre knowledges levels with
  | nil =>
      cases hrun
      simp
  | cons t ts ih =>
      have happ : pre ++ t :: ts = pre ++ [t] ++ ts := by simp
      have hlength : (pre ++ [t]).length = pre.length + 1 := by simp
      have hrest : ∀ {rest}, triangleLoop leader minQuorum minLat maxLat ts (pre.length + 1)
          (learnTriangle knowledges t) = .ok rest → ∀ level ∈ rest, Truncates (pre ++ t :: ts) level := by
        intro rest hrun
        rw [happ]
        exact ih (pre ++ [t]) _ (happ ▸ hsorted) (hlength ▸ hrun)
      obtain ⟨-, hts, hcross⟩ := List.pairwise_append.mp hsorted
      obtain ⟨ht, hsorted'⟩ := List.pairwise_cons.mp hts
      rw [triangleLoop] at hrun
      split at hrun
      · cases hrun
        simp
      simp only at hrun
      split at hrun
      · exact hrest hrun
      split at hrun
      · exact hrest hrun
      rename_i hnext
      split at hrun
      · cases hrun
      split at hrun
      · cases hrun
      split at hrun
      · cases hrun
      rename_i rest hloop
      cases hrun
      intro level hlevel
      rcases List.mem_cons.mp hlevel with rfl | hlevel
      · refine ⟨⟨t, by simp, rfl⟩, Nat.succ_pos _, fun u hu => ?_, fun u hu => ?_⟩
        · rw [happ, ← hlength, List.take_left] at hu
          rcases List.mem_append.mp hu with hu | hu
          · exact hcross u hu t List.mem_cons_self
          · rw [List.mem_singleton.mp hu]
        · rw [happ, ← hlength, List.drop_left] at hu
          -- The next triangle takes longer, or this would not be a level.
          cases ts with
          | nil => cases hu
          | cons w ws =>
              simp only [List.head?_cons, Option.any_some, decide_eq_true_eq] at hnext
              have hlt : t.totalLatency < w.totalLatency :=
                lt_of_le_of_ne (ht w List.mem_cons_self) (Ne.symm hnext)
              rcases List.mem_cons.mp hu with rfl | hu
              · exact hlt
              · exact hlt.trans_le ((List.pairwise_cons.mp hsorted').1 u hu)
      · exact hrest hloop level hlevel

theorem knowledgeLevels_truncate {t : LatencyTables n} {levels : List (KnowledgeLevel n)}
    (hrun : knowledgeLevels topology t proposer leader = .ok levels) :
    ∀ level ∈ levels, Truncates (triangularPaths topology t proposer leader) level := by
  obtain ⟨minLat, -, hrun⟩ := Lib.bind_ok hrun
  obtain ⟨maxRtt, -, hrun⟩ := Lib.bind_ok hrun
  exact triangleLoop_truncates leader t.minQuorum minLat (minLat + maxRtt) _ [] _
    (sorted_mergeSort TriangularPath.totalLatency _) hrun

-- What the graph is there for. The leader's last state is that of the level, and there it knows of
-- the live replicas what the level says; everyone else gets the value as soon as it can, and either
-- is done then or has the leader wait for it to be done.
structure Fulfils (topology : Topology n) (routes : Routes n) (pathLatencies : Fin n → Fin n → Nat)
    (proposer leader : Fin n) (level : KnowledgeLevel n) (draft : Draft n) : Prop where
  final : Lib.last? (draft.states leader).times = some level.time
  knowledge : ∀ first ∈ topology.aliveReplicas, ∀ second ∈ topology.aliveReplicas,
    first ∈ (draft.state leader level.time).knowledge second ↔ first ∈ level.k second
  values : draft.shouldIncludeValue =
    (Finset.univ.erase proposer).image (valueMessage routes pathLatencies proposer)
  supplied : ∀ pid ≠ proposer,
    valueMessage routes pathLatencies proposer pid ∈
        (draft.state (routes.prevDest proposer pid)
          (pathLatencies proposer (routes.prevDest proposer pid))).neededBy ∧
      valueMessage routes pathLatencies proposer pid ∈
        (draft.state pid (pathLatencies proposer pid)).dependencies
  last : ∀ node t, Lib.last? (draft.states node).times = some t →
    t = 0 ∨ draft.Precedes (node, t) (leader, level.time) ∨
      (draft.state node t).dependencies = {valueMessage routes pathLatencies proposer node} ∧
        ∀ u, draft.Has node u → u = 0 ∨ u = t

theorem last_required (hr : AgreeingRoutes topology pathLatencies routes) {draft : Draft n}
    (h : Prepared topology routes pathLatencies proposer leader leaderLatency draft)
    (hpurpose : Purposeful topology routes pathLatencies proposer (AtLeader leader draft) draft)
    (hfinal : draft.Has leader leaderLatency) {node : Fin n} {t : Nat}
    (hlast : Lib.last? (draft.states node).times = some t) :
    t = 0 ∨ draft.Precedes (node, t) (leader, leaderLatency) ∨
      (draft.state node t).dependencies = {valueMessage routes pathLatencies proposer node} ∧
        ∀ u, draft.Has node u → u = 0 ∨ u = t := by
  obtain ⟨hhas, hbiggest⟩ := Lib.mem_last? hlast
  rw [or_iff_not_imp_left, or_iff_not_imp_left]
  intro hne hno
  have hdep : ∀ m ∈ (draft.state node t).dependencies,
      m = valueMessage routes pathLatencies proposer node ∧ t = pathLatencies proposer node := by
    intro m hm
    obtain ⟨hown, hdest, htime, hnoted⟩ := h.wired.awaited hhas hm
    rcases hpurpose _ _ _ hnoted with ⟨hproposer, hsrc, hsent⟩ | ⟨g, ⟨hg, hthere⟩, hchain⟩
    · have hsum := hr.prev proposer node hproposer
      rw [← hsrc, ← hsent] at hsum
      obtain ⟨mp, ms, md, mt⟩ := m
      simp only at hown hdest hsrc hsent
      simp only [valueMessage, hown, hdest, ← hsrc, ← hsent, true_and]
      exact htime.trans hsum
    · obtain ⟨gnode, gtime⟩ := g
      obtain rfl : gnode = leader := hg
      rw [← htime] at hchain
      exact absurd (hchain.tail (.later hfinal (h.inTime hthere))) hno
  obtain ⟨m, hm⟩ := (h.wired.waits hhas hne).resolve_right fun hpending => hpending.elim fun _ h => h.1
  obtain ⟨rfl, htime⟩ := hdep m hm
  refine ⟨Finset.eq_singleton_iff_unique_mem.mpr ⟨hm, fun m hm => (hdep m hm).1⟩, fun u hu => ?_⟩
  rw [or_iff_not_imp_left]
  intro hu0
  exact (hbiggest u hu).antisymm (htime ▸ h.causal.reached hu hu0)

theorem buildGraph_ok (hr : AgreeingRoutes topology pathLatencies routes) {level : KnowledgeLevel n}
    (hknown : level.k = knownBy topology pathLatencies proposer leader level.time)
    (htrunc : Truncates (triangularPaths topology (.new topology pathLatencies) proposer leader) level) :
    ∃ draft, buildGraph topology routes proposer leader (.new topology pathLatencies) level = .ok draft ∧
      Fulfils topology routes pathLatencies proposer leader level draft := by
  obtain ⟨last, hget, hlast⟩ := htrunc.last
  have hindexed : indexed ((triangularPaths topology (.new topology pathLatencies) proposer leader).take
      level.trianglesCount) (level.trianglesCount - 1) = .ok last := by
    have := htrunc.pos
    rw [indexed, List.getElem?_take_of_lt (by omega), hget]
  have htaken : ∀ t ∈ ((triangularPaths topology (.new topology pathLatencies) proposer leader).take
      level.trianglesCount).reverse,
      t.totalLatency = along pathLatencies proposer t.first t.second leader ∧
        t.totalLatency ≤ level.time := fun t ht => by
    have hmem := List.mem_reverse.mp ht
    exact ⟨((mem_triangularPaths topology).mp (List.mem_of_mem_take hmem)).2.2, htrunc.inTime t hmem⟩
  have hlastMem : last ∈ (triangularPaths topology (.new topology pathLatencies) proposer leader).take
      level.trianglesCount := by
    have := htrunc.pos
    exact List.mem_of_getElem? (i := level.trianglesCount - 1)
      (by rw [List.getElem?_take_of_lt (by omega), hget])
  have hlastTotal := (htaken last (List.mem_reverse.mpr hlastMem)).1
  obtain ⟨values, hvalues, ⟨hwired, hcausal⟩, hspreading, hsupplied, -⟩ := valuePaths_ok hr leader
    level.time (valueOnlyPaths proposer (.new topology pathLatencies)).reverse .start
    (.start hr.shortest) .start
  have hall : ∀ pid, Supplied routes pathLatencies proposer values pid := fun pid => by
    obtain ⟨path, hpath, rfl⟩ := exists_valueOnlyPath proposer pid (.new topology pathLatencies)
    exact hsupplied path (List.mem_reverse.mpr hpath)
  have hinTime : ∀ {t}, values.Has leader t → t ≤ level.time := by
    intro t ht
    have := hr.shortest.triangle proposer last.first leader
    have := hr.shortest.triangle last.first last.second leader
    simp only [along] at hlastTotal
    rcases hspreading.times ht with rfl | rfl <;> omega
  obtain ⟨draft, hfold, hprepared, hpurpose, htold, -⟩ := triangles_ok hr _
    ⟨hwired, hcausal, hall, hspreading.shouldIncludeValue_eq hwired hall, hinTime⟩
    (fun _ _ _ ht => Or.inl (hspreading.shortest ht)) htaken
  have hfinal : draft.Has leader level.time := by
    obtain ⟨t, hhas, hk⟩ := htold last (List.mem_reverse.mpr hlastMem)
    have hge := hprepared.causal.known hhas hk
    have hle := hprepared.inTime hhas
    rwa [show level.time = t by omega]
  refine ⟨draft, ?_, ?_, fun first hf second hs => ?_, hprepared.values, fun pid hne => ?_,
    fun node t ht => last_required hr hprepared hpurpose hfinal ht⟩
  · have hcard : draft.shouldIncludeValue.card = n - 1 := by rw [hprepared.values, card_valueMessages]
    simp only [buildGraph, hindexed, bind, Except.bind, hlast, ne_eq, not_true_eq_false, if_false,
      hvalues, hfold, hcard]
    rfl
  · exact Lib.last?_eq_some hfinal fun t ht => hprepared.inTime ht
  · rw [hknown, mem_knownBy]
    constructor
    · exact fun hk => ⟨hf, hs, hprepared.causal.known hfinal hk⟩
    · rintro ⟨-, -, hle⟩
      have hmem : (⟨first, second, along pathLatencies proposer first second leader⟩ : TriangularPath n) ∈
          triangularPaths topology (.new topology pathLatencies) proposer leader :=
        (mem_triangularPaths topology).mpr ⟨hf, hs, rfl⟩
      rw [← List.take_append_drop level.trianglesCount (triangularPaths _ _ _ _)] at hmem
      have hmem' := (List.mem_append.mp hmem).resolve_right fun hdrop =>
        absurd (htrunc.late _ hdrop) (not_lt.mpr hle)
      obtain ⟨t, hhas, hk⟩ := htold _ (List.mem_reverse.mpr hmem')
      exact (hprepared.causal.grows hhas hfinal (hprepared.inTime hhas) second).1 hk
  · have hnoted := hprepared.supplied pid hne
    have harrival := hr.prev proposer pid hne
    refine ⟨(hprepared.wired.posted (m := valueMessage routes pathLatencies proposer pid) rfl hnoted).2.2,
      ?_⟩
    rw [← harrival]
    exact (hprepared.wired.arrives (m := valueMessage routes pathLatencies proposer pid) rfl hnoted id).2

end KCensus.Propagation

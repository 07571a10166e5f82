import KCensus.Propagation.Knowledge
import Mathlib.Data.List.Sort

namespace KCensus.Propagation

variable {n : Nat}

-- Path latencies as shortest paths have them.
structure ShortestPaths (pathLatencies : Fin n → Fin n → Nat) : Prop where
  self : ∀ pid, pathLatencies pid pid = 0
  triangle : ∀ a b c, pathLatencies a c ≤ pathLatencies a b + pathLatencies b c

def reached (ts : List (TriangularPath n)) (time : Nat) (second : Fin n) : Knowledge n :=
  Finset.univ.filter fun first =>
    ∃ t ∈ ts, t.first = first ∧ t.second = second ∧ t.totalLatency ≤ time

@[simp] theorem mem_reached {ts : List (TriangularPath n)} {time : Nat} {first second : Fin n} :
    first ∈ reached ts time second ↔
      ∃ t ∈ ts, t.first = first ∧ t.second = second ∧ t.totalLatency ≤ time := by
  simp [reached]

theorem reached_mono (ts : List (TriangularPath n)) {time time' : Nat} (h : time ≤ time')
    (second : Fin n) : reached ts time second ⊆ reached ts time' second := by
  intro first hf
  obtain ⟨t, ht, h1, h2, hle⟩ := mem_reached.mp hf
  exact mem_reached.mpr ⟨t, ht, h1, h2, hle.trans h⟩

def learned (ts : List (TriangularPath n)) (second : Fin n) : Knowledge n :=
  Finset.univ.filter fun first => ∃ t ∈ ts, t.first = first ∧ t.second = second

theorem learnTriangle_learned (ts : List (TriangularPath n)) (t : TriangularPath n) :
    learnTriangle (learned ts) t = learned (ts ++ [t]) := by
  funext second
  ext first
  rcases eq_or_ne second t.second with rfl | hne
  · simp only [learnTriangle, learned, Function.update_self, Finset.mem_insert, Finset.mem_filter,
      Finset.mem_univ, true_and, List.mem_append, List.mem_singleton]
    constructor
    · rintro (rfl | ⟨u, hu, h1, h2⟩)
      · exact ⟨t, Or.inr rfl, rfl, rfl⟩
      · exact ⟨u, Or.inl hu, h1, h2⟩
    · rintro ⟨u, hu | rfl, h1, h2⟩
      · exact Or.inr ⟨u, hu, h1, h2⟩
      · exact Or.inl h1.symm
  · simp only [learnTriangle, learned, Function.update_of_ne hne, Finset.mem_filter,
      Finset.mem_univ, true_and, List.mem_append, List.mem_singleton]
    constructor
    · rintro ⟨u, hu, h1, h2⟩
      exact ⟨u, Or.inl hu, h1, h2⟩
    · rintro ⟨u, hu | rfl, h1, h2⟩
      · exact ⟨u, hu, h1, h2⟩
      · exact absurd h2.symm hne

theorem learned_eq_reached {pre ts : List (TriangularPath n)} {time : Nat}
    (hpre : ∀ t ∈ pre, t.totalLatency ≤ time) (hts : ∀ t ∈ ts, time < t.totalLatency) :
    learned pre = reached (pre ++ ts) time := by
  funext second
  ext first
  simp only [learned, Finset.mem_filter, Finset.mem_univ, true_and, mem_reached, List.mem_append]
  constructor
  · rintro ⟨t, ht, h1, h2⟩
    exact ⟨t, Or.inl ht, h1, h2, hpre t ht⟩
  · rintro ⟨t, ht | ht, h1, h2, hle⟩
    · exact ⟨t, ht, h1, h2⟩
    · exact absurd hle (by have := hts t ht; omega)

-- What the levels made from the triangles `ts` still to come look like, `all` being every triangle.
structure LevelsOf (all ts : List (TriangularPath n)) (minLat maxLat : Nat)
    (levels : List (KnowledgeLevel n)) : Prop where
  mem : ∀ level ∈ levels, minLat ≤ level.time ∧ level.k = reached all level.time ∧
    ∃ t ∈ ts, t.totalLatency = level.time
  increasing : levels.Pairwise (·.time < ·.time)
  covers : ∀ t ∈ ts, minLat ≤ t.totalLatency → t.totalLatency ≤ maxLat →
    ∃ level ∈ levels, level.time = t.totalLatency

theorem triangleLoop_levels (leader : Fin n) (minQuorum : Nat) (minLat maxLat : Nat)
    (ts : List (TriangularPath n)) (pre : List (TriangularPath n))
    (hsorted : (pre ++ ts).Pairwise (·.totalLatency ≤ ·.totalLatency))
    (hvalid : ∀ time, minLat ≤ time →
      isValidKnowledge leader (reached (pre ++ ts) time) minQuorum = true ∧
        minQuorum ≤ (reached (pre ++ ts) time leader).card) :
    ∃ levels, triangleLoop leader minQuorum minLat maxLat ts pre.length (learned pre) = .ok levels ∧
      LevelsOf (pre ++ ts) ts minLat maxLat levels := by
  induction ts generalizing pre with
  | nil => exact ⟨[], rfl, ⟨by simp, List.Pairwise.nil, by simp⟩⟩
  | cons t ts ih =>
      have happ : pre ++ t :: ts = pre ++ [t] ++ ts := by simp
      obtain ⟨_, hts, hcross⟩ := List.pairwise_append.mp hsorted
      obtain ⟨ht, _⟩ := List.pairwise_cons.mp hts
      obtain ⟨levels, hrun, hlv⟩ := ih (pre ++ [t]) (happ ▸ hsorted) (happ ▸ hvalid)
      rw [← happ] at hlv
      rw [List.length_append, List.length_singleton, ← learnTriangle_learned] at hrun
      have keep : (∃ u ∈ ts, u.totalLatency = t.totalLatency) ∨ t.totalLatency < minLat ∨
          maxLat < t.totalLatency → LevelsOf (pre ++ t :: ts) (t :: ts) minLat maxLat levels := by
        intro hskip
        refine ⟨fun level hl => ?_, hlv.increasing, ?_⟩
        · obtain ⟨h1, h2, u, hu, h3⟩ := hlv.mem level hl
          exact ⟨h1, h2, u, List.mem_cons_of_mem _ hu, h3⟩
        · intro u hu hmin hmax
          rcases List.mem_cons.mp hu with rfl | hu
          · rcases hskip with ⟨w, hw, heq⟩ | h | h
            · obtain ⟨level, hl, h⟩ := hlv.covers w hw (heq ▸ hmin) (heq ▸ hmax)
              exact ⟨level, hl, h.trans heq⟩
            · omega
            · omega
          · exact hlv.covers u hu hmin hmax
      simp only [triangleLoop]
      by_cases hmax : maxLat < t.totalLatency
      · rw [if_pos hmax]
        refine ⟨[], rfl, ⟨by simp, List.Pairwise.nil, ?_⟩⟩
        intro u hu _ hle
        rcases List.mem_cons.mp hu with rfl | hu
        · omega
        · have := ht u hu
          omega
      rw [if_neg hmax]
      by_cases hmin : t.totalLatency < minLat
      · rw [if_pos hmin]
        exact ⟨levels, hrun, keep (Or.inr (Or.inl hmin))⟩
      rw [if_neg hmin]
      by_cases hnext : (ts.head?.any (·.totalLatency = t.totalLatency)) = true
      · rw [if_pos hnext]
        refine ⟨levels, hrun, keep (Or.inl ?_)⟩
        obtain ⟨u, hu, heq⟩ := Option.any_eq_true .. |>.mp hnext
        exact ⟨u, List.mem_of_head? hu, by simpa using heq⟩
      rw [if_neg hnext]
      have hlast : ∀ u ∈ ts, t.totalLatency < u.totalLatency := by
        cases ts with
        | nil => simp
        | cons u us =>
            simp only [List.head?_cons, Option.any_some, decide_eq_true_eq] at hnext
            have hu := ht u List.mem_cons_self
            have hus : (u :: us).Pairwise (·.totalLatency ≤ ·.totalLatency) :=
              (List.pairwise_cons.mp hts).2
            intro w hw
            rcases List.mem_cons.mp hw with rfl | hw
            · omega
            · have := (List.pairwise_cons.mp hus).1 w hw
              omega
      have hk : learnTriangle (learned pre) t = reached (pre ++ t :: ts) t.totalLatency := by
        rw [learnTriangle_learned, happ]
        refine learned_eq_reached (fun u hu => ?_) hlast
        rcases List.mem_append.mp hu with hu | hu
        · exact hcross u hu t List.mem_cons_self
        · rw [List.mem_singleton.mp hu]
      obtain ⟨hv, hcard⟩ := hvalid t.totalLatency (by omega)
      rw [hk] at hrun ⊢
      rw [if_neg (not_not.mpr hcard), if_neg (not_not.mpr hv), hrun]
      refine ⟨_, rfl, ?_, ?_, ?_⟩
      · intro level hl
        rcases List.mem_cons.mp hl with rfl | hl
        · exact ⟨by simpa using hmin, rfl, t, List.mem_cons_self, rfl⟩
        · obtain ⟨h1, h2, u, hu, h3⟩ := hlv.mem level hl
          exact ⟨h1, h2, u, List.mem_cons_of_mem _ hu, h3⟩
      · refine List.pairwise_cons.mpr ⟨fun level hl => ?_, hlv.increasing⟩
        obtain ⟨_, _, u, hu, h3⟩ := hlv.mem level hl
        exact h3 ▸ hlast u hu
      · intro u hu hmin' hmax'
        rcases List.mem_cons.mp hu with rfl | hu
        · exact ⟨_, List.mem_cons_self, rfl⟩
        · obtain ⟨level, hl, h⟩ := hlv.covers u hu hmin' hmax'
          exact ⟨level, List.mem_cons_of_mem _ hl, h⟩

theorem indexed_ok {α : Type*} {xs : List α} {i : Nat} (h : i < xs.length) :
    indexed xs i = .ok xs[i] := by
  simp [indexed, h]

theorem lt_countP_getElem {xs : List Nat} (hsorted : xs.Pairwise (· ≤ ·)) {i : Nat}
    (hi : i < xs.length) : i < xs.countP (· ≤ xs[i]) := by
  have hall : (xs.take (i + 1)).countP (· ≤ xs[i]) = (xs.take (i + 1)).length := by
    refine List.countP_eq_length.mpr fun x hx => decide_eq_true ?_
    obtain ⟨j, hj, rfl⟩ := List.mem_take_iff_getElem.mp hx
    exact List.Pairwise.rel_get_of_le hsorted (a := ⟨j, by omega⟩) (b := ⟨i, hi⟩)
      (Fin.mk_le_mk.mpr (by omega))
  have hle := (List.take_sublist (i + 1) xs).countP_le (p := (· ≤ xs[i]))
  rw [hall, List.length_take] at hle
  omega

theorem sorted_mergeSort {α : Type*} (key : α → Nat) (xs : List α) :
    (xs.mergeSort (key · ≤ key ·)).Pairwise (key · ≤ key ·) := by
  have h := @List.pairwise_mergeSort _ (fun a b => decide (key a ≤ key b))
    (fun a b c hab hbc => by simp only [decide_eq_true_eq] at *; omega)
    (fun a b => by simp only [Bool.or_eq_true, decide_eq_true_eq]; omega) xs
  exact h.imp fun hab => of_decide_eq_true hab

section

variable (topology : Topology n) (pathLatencies : Fin n → Fin n → Nat)

def near (t : LatencyTables n) (src dest : Fin n) (time : Nat) : Finset (Fin n) :=
  topology.aliveReplicas.filter fun replica =>
    t.pathLatencies src replica + t.pathLatencies replica dest ≤ time

theorem quorum3p_get (src dest : Fin n) {quorum : Nat} (hpos : 0 < quorum)
    (hq : quorum ≤ topology.aliveReplicas.card) :
    ∃ time, indexed ((LatencyTables.new topology pathLatencies).quorum3pPathRtts src dest)
        (quorum - 1) = .ok time ∧
      quorum ≤ (near topology (LatencyTables.new topology pathLatencies) src dest time).card ∧
      ∃ replica ∈ topology.aliveReplicas,
        pathLatencies src replica + pathLatencies replica dest = time := by
  let rtt := fun replica => pathLatencies src replica + pathLatencies replica dest
  have hperm := List.mergeSort_perm (topology.aliveList.map rtt) (· ≤ ·)
  have hi : quorum - 1 < ((topology.aliveList.map rtt).mergeSort (· ≤ ·)).length := by
    rw [hperm.length_eq, List.length_map, topology.length_aliveList]
    omega
  refine ⟨_, indexed_ok hi, ?_, ?_⟩
  · have hcount := lt_countP_getElem (sorted_mergeSort (fun x => x) (topology.aliveList.map rtt)) hi
    rw [hperm.countP_eq, List.countP_map, List.countP_eq_length_filter,
      ← List.toFinset_card_of_nodup (topology.nodup_aliveList.filter _)] at hcount
    have hsub : (topology.aliveList.filter ((fun x =>
        decide (x ≤ ((topology.aliveList.map rtt).mergeSort (· ≤ ·))[quorum - 1])) ∘ rtt)).toFinset ⊆
          near topology (LatencyTables.new topology pathLatencies) src dest
            ((topology.aliveList.map rtt).mergeSort (· ≤ ·))[quorum - 1] := by
      intro replica hr
      rw [List.mem_toFinset, List.mem_filter, topology.mem_aliveList] at hr
      exact Finset.mem_filter.mpr ⟨hr.1, of_decide_eq_true hr.2⟩
    have := Finset.card_le_card hsub
    omega
  · have hmem := hperm.subset (List.getElem_mem hi)
    obtain ⟨replica, hr, heq⟩ := List.mem_map.mp hmem
    exact ⟨replica, topology.mem_aliveList.mp hr, heq⟩

variable {pathLatencies}

def along (pathLatencies : Fin n → Fin n → Nat) (proposer first second leader : Fin n) : Nat :=
  pathLatencies proposer first + pathLatencies first second + pathLatencies second leader

theorem mem_triangularPaths {proposer leader : Fin n} {t : TriangularPath n} :
    t ∈ triangularPaths topology (.new topology pathLatencies) proposer leader ↔
      t.first ∈ topology.aliveReplicas ∧ t.second ∈ topology.aliveReplicas ∧
        t.totalLatency = along pathLatencies proposer t.first t.second leader := by
  obtain ⟨first, second, totalLatency⟩ := t
  simp only [triangularPaths, List.mem_mergeSort, List.mem_flatMap, List.mem_map,
    Topology.mem_aliveList, TriangularPath.mk.injEq, along, LatencyTables.new]
  constructor
  · rintro ⟨_, hf, _, hs, rfl, rfl, rfl⟩
    exact ⟨hf, hs, rfl⟩
  · rintro ⟨hf, hs, rfl⟩
    exact ⟨first, hf, second, hs, rfl, rfl, rfl⟩

-- Who can have been heard of at `second` by a message chain that is back in time.
def knownBy (pathLatencies : Fin n → Fin n → Nat) (proposer leader : Fin n) (time : Nat)
    (second : Fin n) : Knowledge n :=
  reached (triangularPaths topology (.new topology pathLatencies) proposer leader) time second

theorem mem_knownBy {proposer leader first second : Fin n} {time : Nat} :
    first ∈ knownBy topology pathLatencies proposer leader time second ↔
      first ∈ topology.aliveReplicas ∧ second ∈ topology.aliveReplicas ∧
        along pathLatencies proposer first second leader ≤ time := by
  simp only [knownBy, mem_reached, mem_triangularPaths]
  constructor
  · rintro ⟨t, ⟨h1, h2, h3⟩, rfl, rfl, hle⟩
    exact ⟨h1, h2, h3 ▸ hle⟩
  · rintro ⟨h1, h2, h3⟩
    exact ⟨⟨first, second, _⟩, ⟨h1, h2, rfl⟩, rfl, rfl, h3⟩

theorem knownBy_mono {proposer leader : Fin n} {time time' : Nat} (h : time ≤ time')
    (second : Fin n) : knownBy topology pathLatencies proposer leader time second ⊆
      knownBy topology pathLatencies proposer leader time' second :=
  reached_mono _ h second

theorem knownBy_subset_leader (hp : ShortestPaths pathLatencies) {proposer leader : Fin n}
    (hl : leader ∈ topology.aliveReplicas) (time : Nat) (second : Fin n) :
    knownBy topology pathLatencies proposer leader time second ⊆
      knownBy topology pathLatencies proposer leader time leader := by
  intro first hf
  obtain ⟨h1, h2, h3⟩ := mem_knownBy topology |>.mp hf
  refine mem_knownBy topology |>.mpr ⟨h1, hl, ?_⟩
  have := hp.triangle first second leader
  have := hp.self leader
  simp only [along] at h3 ⊢
  omega

theorem minQuorum_eq (pathLatencies : Fin n → Fin n → Nat) : (LatencyTables.new topology pathLatencies).minQuorum =
    1 + topology.nbReplicas / 2 := by
  simp only [LatencyTables.new]
  omega

theorem maxQuorum_eq (h : 0 < topology.nbReplicas) :
    (LatencyTables.new topology pathLatencies).maxQuorum = 1 + topology.nbReplicas / 2 := by
  simp only [LatencyTables.new]
  omega

variable (hp : ShortestPaths pathLatencies)
include hp

theorem near_subset_leader {proposer leader : Fin n} (hl : leader ∈ topology.aliveReplicas)
    {minLat time : Nat} (h : minLat ≤ time) :
    near topology (.new topology pathLatencies) proposer leader minLat ⊆
      knownBy topology pathLatencies proposer leader time leader := by
  intro first hf
  obtain ⟨h1, h2⟩ := Finset.mem_filter.mp hf
  refine mem_knownBy topology |>.mpr ⟨h1, hl, ?_⟩
  have := hp.self leader
  simp only [along, LatencyTables.new] at h2 ⊢
  omega

theorem isValidKnowledge_knownBy {proposer leader : Fin n} (hl : leader ∈ topology.aliveReplicas)
    {time minQuorum : Nat}
    (hcard : minQuorum ≤ (knownBy topology pathLatencies proposer leader time leader).card) :
    isValidKnowledge leader (knownBy topology pathLatencies proposer leader time) minQuorum = true := by
  have hq : Finset.univ.biUnion (knownBy topology pathLatencies proposer leader time) =
      knownBy topology pathLatencies proposer leader time leader := by
    refine Finset.Subset.antisymm ?_ (Finset.subset_biUnion_of_mem _ (Finset.mem_univ leader))
    exact Finset.biUnion_subset.mpr fun second _ => knownBy_subset_leader topology hp hl time second
  simp [isValidKnowledge, hq, hcard]

-- The levels of one proposer with one leader, as the search relies on them.
structure Leveled (pathLatencies : Fin n → Fin n → Nat) (proposer leader : Fin n)
    (levels : List (KnowledgeLevel n)) : Prop where
  nonempty : levels ≠ []
  increasing : levels.Pairwise (·.time < ·.time)
  known : ∀ level ∈ levels, level.k = knownBy topology pathLatencies proposer leader level.time
  valid : ∀ level ∈ levels, 1 + topology.nbReplicas / 2 ≤ (level.k leader).card
  widest : ∃ minLat maxRtt,
    1 + topology.nbReplicas / 2 ≤
        (near topology (.new topology pathLatencies) proposer leader minLat).card ∧
      1 + topology.nbReplicas / 2 ≤
        (near topology (.new topology pathLatencies) leader leader maxRtt).card ∧
      ∃ level ∈ levels, ∀ first ∈ topology.aliveReplicas, ∀ second ∈ topology.aliveReplicas,
        along pathLatencies proposer first second leader ≤ minLat + maxRtt →
          first ∈ level.k second

omit hp in
theorem exists_last {levels : List (KnowledgeLevel n)} (hne : levels ≠ [])
    (hinc : levels.Pairwise (·.time < ·.time)) :
    ∃ last ∈ levels, ∀ level ∈ levels, level.time ≤ last.time := by
  refine ⟨levels.getLast hne, List.getLast_mem hne, fun level hl => ?_⟩
  rw [← List.dropLast_append_getLast hne] at hl hinc
  rcases List.mem_append.mp hl with h | h
  · exact ((List.pairwise_append.mp hinc).2.2 level h _ (List.mem_singleton.mpr rfl)).le
  · rw [List.mem_singleton.mp h]

theorem knowledgeLevels_leveled (proposer : Fin n) {leader : Fin n} (hl : leader ∈ topology.aliveReplicas)
    (hmaj : 1 + topology.nbReplicas / 2 ≤ topology.aliveReplicas.card) :
    ∃ levels, knowledgeLevels topology (.new topology pathLatencies) proposer leader = .ok levels ∧
      Leveled topology pathLatencies proposer leader levels := by
  have hpos : 0 < topology.nbReplicas := by
    have := topology.card_alive_le
    omega
  obtain ⟨minLat, hmin, hnear, mid, hmid, hmideq⟩ :=
    quorum3p_get topology pathLatencies proposer leader (by omega) hmaj
  obtain ⟨maxRtt, hmax, hrtt, -⟩ :=
    quorum3p_get topology pathLatencies leader leader (by omega) hmaj
  have hq := minQuorum_eq topology pathLatencies
  have hvalid : ∀ time, minLat ≤ time → 1 + topology.nbReplicas / 2 ≤
      (knownBy topology pathLatencies proposer leader time leader).card := fun time h =>
    hnear.trans (Finset.card_le_card (near_subset_leader topology hp hl h))
  obtain ⟨levels, hrun, hlv⟩ := triangleLoop_levels leader (1 + topology.nbReplicas / 2) minLat
    (minLat + maxRtt) (triangularPaths topology (.new topology pathLatencies) proposer leader) []
    (sorted_mergeSort TriangularPath.totalLatency _)
    (fun time h => ⟨isValidKnowledge_knownBy topology hp hl (hvalid time h), hvalid time h⟩)
  have hfirst : ∃ level ∈ levels, level.time = minLat := by
    have hmem : (⟨mid, mid, minLat⟩ : TriangularPath n) ∈
        triangularPaths topology (.new topology pathLatencies) proposer leader := by
      refine mem_triangularPaths topology |>.mpr ⟨hmid, hmid, ?_⟩
      simp only [along, hp.self, ← hmideq]
      omega
    exact hlv.covers _ hmem le_rfl (Nat.le_add_right minLat maxRtt)
  obtain ⟨level, hlevel, htime⟩ := hfirst
  have hne : levels ≠ [] := List.ne_nil_of_mem hlevel
  obtain ⟨last, hlast, htop⟩ := exists_last hne hlv.increasing
  refine ⟨levels, ?_, hne, hlv.increasing, fun lv h => (hlv.mem lv h).2.1, ?_,
    minLat, maxRtt, hnear, hrtt, last, hlast, ?_⟩
  · have hempty : (fun _ => ∅ : Fin n → Knowledge n) = learned [] := by
      funext second
      simp [learned]
    simp only [knowledgeLevels, LatencyTables.quorumPath, hq, maxQuorum_eq topology hpos, hmin, hmax,
      hempty]
    exact hrun
  · intro lv h
    rw [(hlv.mem lv h).2.1]
    exact hvalid lv.time (hlv.mem lv h).1
  · intro first hf second hs hle
    rw [(hlv.mem last hlast).2.1]
    refine mem_knownBy topology |>.mpr ⟨hf, hs, ?_⟩
    rcases Nat.lt_or_ge (along pathLatencies proposer first second leader) minLat with h | h
    · exact h.le.trans (htime ▸ htop level hlevel)
    · obtain ⟨lv, hlv', heq⟩ := hlv.covers ⟨first, second, _⟩
        (mem_triangularPaths topology |>.mpr ⟨hf, hs, rfl⟩) h hle
      exact (Eq.le heq.symm).trans (htop lv hlv')

end

end KCensus.Propagation

import KCensus.Propagation.Levels
import KCensus.Propagation.Pruning

namespace KCensus.Propagation

open Lib (LevelChoice)

variable {n : Nat}

def levelAt (levels : List (KnowledgeLevel n)) (i : Nat) : KnowledgeLevel n :=
  levels.getD i { time := 0, k := fun _ => ∅, trianglesCount := 0 }

theorem levelAt_eq {levels : List (KnowledgeLevel n)} {i : Nat} (h : i < levels.length) :
    levelAt levels i = levels[i] := by
  simp [levelAt, List.getD_eq_getElem?_getD, h]

theorem levelAt_mem {levels : List (KnowledgeLevel n)} {i : Nat} (h : i < levels.length) :
    levelAt levels i ∈ levels := by
  rw [levelAt_eq h]
  exact List.getElem_mem h

theorem indexed_levelAt {levels : List (KnowledgeLevel n)} {i : Nat} (h : i < levels.length) :
    indexed levels i = .ok (levelAt levels i) := by
  rw [indexed_ok h, levelAt_eq h]

theorem exists_levelAt {levels : List (KnowledgeLevel n)} {level : KnowledgeLevel n}
    (h : level ∈ levels) : ∃ i < levels.length, levelAt levels i = level := by
  obtain ⟨i, hi, rfl⟩ := List.getElem_of_mem h
  exact ⟨i, hi, levelAt_eq hi⟩

section

variable {topology : Topology n} {pathLatencies : Fin n → Fin n → Nat}

theorem levelAt_time_mono {levels : List (KnowledgeLevel n)}
    (hinc : levels.Pairwise (·.time < ·.time)) {i j : Nat} (hij : i ≤ j) (hj : j < levels.length) :
    (levelAt levels i).time ≤ (levelAt levels j).time := by
  rcases Nat.eq_or_lt_of_le hij with rfl | hlt
  · exact le_rfl
  · rw [levelAt_eq (by omega), levelAt_eq hj]
    exact (List.pairwise_iff_getElem.mp hinc i j (by omega) hj hlt).le

theorem Leveled.k_mono {proposer leader : Fin n} {levels : List (KnowledgeLevel n)}
    (h : Leveled topology pathLatencies proposer leader levels) {i j : Nat} (hij : i ≤ j)
    (hj : j < levels.length) (p : Fin n) : (levelAt levels i).k p ⊆ (levelAt levels j).k p := by
  rw [h.known _ (levelAt_mem (by omega)), h.known _ (levelAt_mem hj)]
  exact knownBy_mono topology (levelAt_time_mono h.increasing hij hj) p

theorem areCompatible_symm {a b : Fin n} {knowledgeA knowledgeB : Fin n → Knowledge n}
    {minQuorum : Nat} (ha : minQuorum ≤ (knowledgeA a).card)
    (h : areCompatible a knowledgeA b knowledgeB minQuorum = true) :
    areCompatible b knowledgeB a knowledgeA minQuorum = true := by
  rw [areCompatible_iff] at h ⊢
  rw [deducers_comm]
  exact ⟨ha, h.2⟩

-- The levels of every proposer with its leader, as the abstract choice that the search solves.
def levelChoice (leaders : Fin n → Fin n) (levels : Fin n → Fin n → List (KnowledgeLevel n))
    (h : ∀ pid, Leveled topology pathLatencies pid (leaders pid) (levels pid (leaders pid))) :
    LevelChoice (Fin n) where
  len pid := (levels pid (leaders pid)).length
  cost pid level := (levelAt (levels pid (leaders pid)) level).time
  compat a la b lb := areCompatible (leaders a) (levelAt (levels a (leaders a)) la).k (leaders b)
    (levelAt (levels b (leaders b)) lb).k (1 + topology.nbReplicas / 2) = true
  symm {a la b lb} ha _ hc := areCompatible_symm ((h a).valid _ (levelAt_mem ha)) hc
  mono {a la la' b lb} hle ha hb hc := by
    obtain ⟨h1, h2⟩ := areCompatible_iff.mp hc
    refine areCompatible_iff.mpr ⟨h1, h2.trans (Finset.card_le_card ?_)⟩
    exact deducers_mono ((h a).k_mono hle ha _) ((h a).k_mono hle ha) subset_rfl fun _ => subset_rfl
  cost_mono {a la la'} hle ha := levelAt_time_mono (h a).increasing hle ha

-- Both a majority near the leader and one near the proposer are reached at the widest level, and
-- any quorum of the other proposer has one of the latter.
theorem Leveled.compatible_widest (hp : ShortestPaths pathLatencies) {proposer leader : Fin n}
    {levels : List (KnowledgeLevel n)} (h : Leveled topology pathLatencies proposer leader levels)
    {b : Fin n} (knowledgeB : Fin n → Knowledge n) (hsub : knowledgeB b ⊆ topology.aliveReplicas)
    (hb : 1 + topology.nbReplicas / 2 ≤ (knowledgeB b).card) :
    ∃ level ∈ levels,
      areCompatible leader level.k b knowledgeB (1 + topology.nbReplicas / 2) = true := by
  obtain ⟨minLat, maxRtt, hnear, hrtt, level, hlevel, hwide⟩ := h.widest
  refine ⟨level, hlevel, areCompatible_iff.mpr ⟨hb, hrtt.trans (Finset.card_le_card ?_)⟩⟩
  obtain ⟨first, hfirst, hfb⟩ := topology.exists_common (Finset.filter_subset _ _) hsub hnear hb
  obtain ⟨halive, hlat⟩ := Finset.mem_filter.mp hfirst
  intro second hsecond
  obtain ⟨hsalive, hslat⟩ := Finset.mem_filter.mp hsecond
  have hknown : first ∈ level.k second := by
    refine hwide first halive second hsalive ?_
    have := hp.triangle first leader second
    simp only [along, LatencyTables.new] at hlat hslat ⊢
    omega
  simp only [deducers, Finset.mem_filter, Finset.mem_univ, true_and]
  exact Or.inr (Finset.not_disjoint_iff.mpr ⟨first, hfb, hknown⟩)

theorem topped_levelChoice (hp : ShortestPaths pathLatencies) {leaders : Fin n → Fin n}
    {levels : Fin n → Fin n → List (KnowledgeLevel n)}
    (h : ∀ pid, Leveled topology pathLatencies pid (leaders pid) (levels pid (leaders pid))) :
    LevelSearchData.Topped (levelChoice leaders levels h) := by
  intro a b
  have hlen : 0 < (levels b (leaders b)).length := List.length_pos_iff.mpr (h b).nonempty
  have hmem := levelAt_mem hlen
  refine ⟨hlen, ?_⟩
  obtain ⟨level, hlevel, hc⟩ := (h a).compatible_widest hp
    (levelAt (levels b (leaders b)) 0).k
    (fun first hf => by
      rw [(h b).known _ hmem] at hf
      exact (mem_knownBy topology |>.mp hf).1)
    ((h b).valid _ hmem)
  obtain ⟨top, htop, rfl⟩ := exists_levelAt hlevel
  exact ⟨top, htop, hc⟩

theorem realises_levelChoice {leaders : Fin n → Fin n}
    {levels : Fin n → Fin n → List (KnowledgeLevel n)}
    (h : ∀ pid, Leveled topology pathLatencies pid (leaders pid) (levels pid (leaders pid)))
    {data : LevelSearchData n} (hl : data.leaders = leaders) (hk : data.knowledgeLevels = levels)
    (hq : data.minQuorum = 1 + topology.nbReplicas / 2) :
    data.Realises (levelChoice leaders levels h) := by
  subst hl hk
  refine ⟨fun _ => rfl, fun hlt => ⟨_, indexed_levelAt hlt, rfl⟩, fun ha hb => ⟨_, ?_, Iff.rfl⟩⟩
  simp only [LevelSearchData.areCompatible, LevelSearchData.knowledgeLevel, LevelSearchData.levelsOf]
  rw [indexed_levelAt ha, indexed_levelAt hb, hq]
  rfl

end

end KCensus.Propagation

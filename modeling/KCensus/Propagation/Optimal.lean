import KCensus.Propagation.Requirements

namespace KCensus.Propagation

open Lib (LevelChoice)

variable {n : Nat} {topology : Topology n} {pathLatencies : Fin n → Fin n → Nat}

def MayLead (topology : Topology n) (proposer leader : Fin n) : Prop :=
  leader ∈ topology.aliveReplicas ∧ (proposer ∈ topology.aliveReplicas → leader = proposer)

def AllLeveled (topology : Topology n) (pathLatencies : Fin n → Fin n → Nat)
    (levels : Fin n → Fin n → List (KnowledgeLevel n)) : Prop :=
  ∀ proposer leader, MayLead topology proposer leader →
    Leveled topology pathLatencies proposer leader (levels proposer leader)

theorem allKnowledgeLevels_ok (hp : ShortestPaths pathLatencies)
    (hmaj : 1 + topology.nbReplicas / 2 ≤ topology.aliveReplicas.card) :
    ∃ levels, allKnowledgeLevels topology (.new topology pathLatencies) = .ok levels ∧
      AllLeveled topology pathLatencies levels := by
  have hone : ∀ proposer leader, ∃ levels, leader ∈ topology.aliveList →
      (if (topology.isAlive proposer && decide (leader ≠ proposer)) = true then .ok []
        else knowledgeLevels topology (.new topology pathLatencies) proposer leader) =
          Except.ok (ε := PlanPanic) levels ∧
      (MayLead topology proposer leader →
        Leveled topology pathLatencies proposer leader levels) := by
    intro proposer leader
    by_cases hskip : (topology.isAlive proposer && decide (leader ≠ proposer)) = true
    · refine ⟨[], fun _ => ⟨if_pos hskip, fun hmay => ?_⟩⟩
      simp only [Topology.isAlive, Bool.and_eq_true, decide_eq_true_eq] at hskip
      exact absurd (hmay.2 hskip.1) hskip.2
    · by_cases hl : leader ∈ topology.aliveReplicas
      · obtain ⟨levels, hrun, hlv⟩ := knowledgeLevels_leveled topology hp proposer hl hmaj
        exact ⟨levels, fun _ => ⟨(if_neg hskip).trans hrun, fun _ => hlv⟩⟩
      · exact ⟨[], fun h => absurd (topology.mem_aliveList.mp h) hl⟩
  choose levels hlevels using hone
  have hrow := fun proposer => Lib.tabulate_ok topology.aliveList
    (fun leader hl => (hlevels proposer leader hl).1) fun _ => []
  have htab := Lib.tabulate_ok (List.finRange n) (fun proposer _ => hrow proposer)
    fun _ _ => []
  refine ⟨_, htab, fun proposer leader hmay => ?_⟩
  have hl := topology.mem_aliveList.mpr hmay.1
  simp only [List.mem_finRange, if_true, hl]
  exact (hlevels proposer leader hl).2 hmay

def linkTotal (topology : Topology n) (leaders : Fin n → Fin n) : Nat :=
  ((List.finRange n).map fun proposer => topology.linkLatency (leaders proposer) proposer).sum

def levelTotal (knowledgeLevels : Fin n → Fin n → List (KnowledgeLevel n)) (leaders : Fin n → Fin n)
    (levels : Fin n → Nat) : Nat :=
  ((List.finRange n).map fun pid =>
    (levelAt (knowledgeLevels pid (leaders pid)) (levels pid)).time).sum

-- A choice of leaders and levels that the search may return.
structure IsChoice (topology : Topology n)
    (knowledgeLevels : Fin n → Fin n → List (KnowledgeLevel n)) (leaders : Fin n → Fin n)
    (levels : Fin n → Nat) : Prop where
  mayLead : ∀ pid, MayLead topology pid (leaders pid)
  lt : ∀ pid, levels pid < (knowledgeLevels pid (leaders pid)).length
  compatible : ∀ a b, a ≠ b →
    areCompatible (leaders a) (levelAt (knowledgeLevels a (leaders a)) (levels a)).k
      (leaders b) (levelAt (knowledgeLevels b (leaders b)) (levels b)).k
      (1 + topology.nbReplicas / 2) = true

-- What the search has found so far: nothing yet, or a choice with its price.
def Found (topology : Topology n) (knowledgeLevels : Fin n → Fin n → List (KnowledgeLevel n))
    (best : BestSol n) : Prop :=
  best.sumOfLatencies = durationMax ∨
    IsChoice topology knowledgeLevels best.leaders best.levels ∧
      best.sumOfLatencies = linkTotal topology best.leaders +
        levelTotal knowledgeLevels best.leaders best.levels

section

variable {kl : Fin n → Fin n → List (KnowledgeLevel n)}

theorem firstLevels_ok {data : LevelSearchData n} {c : LevelChoice (Fin n)}
    (hr : data.Realises c) (hpos : ∀ pid, 0 < c.len pid) (pids : List (Fin n)) (acc : Nat) :
    pids.foldlM (fun minLatency pid => do
        let level ← data.knowledgeLevel pid 0
        return minLatency + level.time) acc =
      Except.ok (ε := PlanPanic) (acc + total c (fun _ => 0) pids) := by
  induction pids generalizing acc with
  | nil => rfl
  | cons pid pids ih =>
      obtain ⟨level, hlevel, htime⟩ := hr.level (hpos pid)
      rw [List.foldlM_cons, hlevel, total_cons, ← htime, ← Nat.add_assoc]
      exact ih _

theorem bestAvgSearch_ok [NeZero n] (hp : ShortestPaths pathLatencies)
    (hlv : AllLeveled topology pathLatencies kl) {leaders : Fin n → Fin n}
    (hlead : ∀ pid, MayLead topology pid (leaders pid)) {best : BestSol n}
    (hbest : Found topology kl best) :
    ∃ found, bestAvgSearch best leaders kl topology (1 + topology.nbReplicas / 2) = .ok found ∧
      Found topology kl found ∧ found.sumOfLatencies ≤ best.sumOfLatencies ∧
      ∀ levels, IsChoice topology kl leaders levels →
        found.sumOfLatencies ≤ linkTotal topology leaders + levelTotal kl leaders levels := by
  have h := fun pid => hlv pid (leaders pid) (hlead pid)
  let c := levelChoice leaders kl h
  have htop : LevelSearchData.Topped c := topped_levelChoice hp h
  have hpos : ∀ pid, 0 < c.len pid := fun pid => (htop pid pid).1
  have hcompat : ∀ {levels}, Compatible c levels ↔ IsChoice topology kl leaders levels := fun {levels} =>
    ⟨fun hc => ⟨hlead, hc.1, hc.2⟩, fun hc => ⟨hc.lt, hc.compatible⟩⟩
  let data : LevelSearchData n :=
    { leaders := leaders, knowledgeLevels := kl, compatibleLevels := fun _ => []
      usefulLevels := fun _ => [], maxLevels := fun _ => 0, minQuorum := 1 + topology.nbReplicas / 2 }
  have hreal : data.Realises c := realises_levelChoice h rfl rfl rfl
  have hfirst := firstLevels_ok hreal hpos (List.finRange n) (linkTotal topology leaders)
  have hlow : ∀ levels, IsChoice topology kl leaders levels →
      total c (fun _ => 0) (List.finRange n) ≤ levelTotal kl leaders levels := fun levels hc =>
    total_le (c := c) fun pid _ => ⟨Nat.zero_le _, hc.lt pid⟩
  by_cases hcut : linkTotal topology leaders + total c (fun _ => 0) (List.finRange n) >
      best.sumOfLatencies
  · refine ⟨best, ?_, hbest, le_rfl, fun levels hc => ?_⟩
    · rw [bestAvgSearch]
      rw [show ((List.finRange n).map fun proposer =>
        topology.linkLatency (leaders proposer) proposer).sum = linkTotal topology leaders from rfl,
        hfirst]
      simp only [bind, Except.bind, if_pos hcut]
      rfl
    · have := hlow levels hc
      omega
  · choose maxLevels hmaxrun hmaxlt hmaxc using fun a =>
      LevelSearchData.maxLevel_ok hreal htop a
    have hmaxtab := Lib.tabulate_ok (List.finRange n) (fun a _ => hmaxrun a) data.maxLevels
    simp only [List.mem_finRange, if_true] at hmaxtab
    choose useful compatible hloop hlen hfilled using fun a =>
      LevelSearchData.compatibilityLoop_ok hreal a (c.len a) maxLevels [] [] (by simp) ⟨rfl, by simp, by simp⟩
        (fun b => ⟨hmaxlt b, fun la _ hla => c.symm (hmaxlt b) hla
          (c.mono_right (Nat.zero_le la) (hmaxlt b) hla (hmaxc b a))⟩)
        (fun la hla => by simp at hla)
    have htables := Lib.tabulate_ok (List.finRange n)
      (f := fun a => data.compatibilityLoop a (List.range (data.levelsOf a).length) maxLevels [] [])
      (fun a _ => by
        rw [hreal.length, List.range_eq_range']
        exact hloop a) fun _ => ([], [])
    simp only [List.mem_finRange, if_true] at htables
    let data' : LevelSearchData n :=
      { data with maxLevels := maxLevels, usefulLevels := useful, compatibleLevels := compatible }
    have htab : data'.Tabulated c :=
      { toRealises := realises_levelChoice h rfl rfl rfl
        max_lt := hmaxlt
        max_compat := hmaxc
        required := fun {a la} hla => by
          have hla' : la < (compatible a).length := by rw [hlen a]; exact hla
          exact ⟨_, indexed_ok hla', (hfilled a).least la hla'⟩
        useful := fun {a la} hla => by
          have hla' : la < (useful a).length := by rw [(hfilled a).length, hlen a]; exact hla
          exact ⟨_, indexed_ok hla', (hfilled a).useful_iff la hla'⟩ }
    have hne : List.finRange n ≠ [] := by
      rw [← List.length_pos_iff, List.length_finRange]
      exact Nat.pos_of_ne_zero (NeZero.ne n)
    obtain ⟨found, hrun, hfound, hle, hbound⟩ := bestAvgSearchInner_ok htab
      (Found topology kl) (linkTotal topology leaders) [] hne (List.nil_append _)
      (fun levels hc => Or.inr ⟨hcompat.mp hc, rfl⟩) best (fun _ => 0)
      ⟨fun _ _ => Or.inl rfl, fun _ _ => Nat.zero_le _, by simp, by simp, by simp⟩ hbest
    refine ⟨found, ?_, hfound, hle, fun levels hc => ?_⟩
    · rw [bestAvgSearch]
      rw [show ((List.finRange n).map fun proposer =>
        topology.linkLatency (leaders proposer) proposer).sum = linkTotal topology leaders from rfl,
        hfirst]
      simp only [bind, Except.bind, if_neg hcut]
      have hmaxtab' : Lib.tabulate data.maxLevel (List.finRange n) data.maxLevels = .ok maxLevels :=
        hmaxtab
      simp only [data] at hmaxtab' htables
      rw [hmaxtab']
      simp only
      rw [htables]
      exact hrun
    · have hfit : Fits c (List.finRange n) (fun _ => 0) levels :=
        ⟨fun _ _ => Nat.zero_le _, fun b _ => hc.lt b, fun a _ b _ => hc.compatible a b⟩
      have := hbound levels hfit
      simpa [total, levelTotal, c, levelChoice] using this

theorem bestLeadersSearch_ok [NeZero n] (hp : ShortestPaths pathLatencies)
    (hlv : AllLeveled topology pathLatencies kl) (proposers : List (Fin n))
    (prevLeaders : Fin n → Fin n)
    (hprev : ∀ pid ∉ proposers, MayLead topology pid (prevLeaders pid)) (best : BestSol n)
    (hbest : Found topology kl best) :
    ∃ found, bestLeadersSearch kl topology (1 + topology.nbReplicas / 2) proposers best prevLeaders =
        .ok found ∧
      Found topology kl found ∧ found.sumOfLatencies ≤ best.sumOfLatencies ∧
      ∀ leaders levels, (∀ pid ∉ proposers, leaders pid = prevLeaders pid) →
        IsChoice topology kl leaders levels →
          found.sumOfLatencies ≤ linkTotal topology leaders + levelTotal kl leaders levels := by
  induction proposers generalizing prevLeaders best with
  | nil =>
      obtain ⟨found, hrun, hfound, hle, hbound⟩ :=
        bestAvgSearch_ok hp hlv (fun pid => hprev pid (by simp)) hbest
      refine ⟨found, hrun, hfound, hle, fun leaders levels hsame hc => ?_⟩
      obtain rfl : leaders = prevLeaders := funext fun pid => hsame pid (by simp)
      exact hbound levels hc
  | cons proposer proposers ih =>
      let body := fun leader (best : BestSol n) => (do
        if topology.isAlive proposer && decide (leader ≠ proposer) then return .yield best
        let best ← bestLeadersSearch kl topology (1 + topology.nbReplicas / 2) proposers best
          (Function.update prevLeaders proposer leader)
        return .yield best : Except PlanPanic (ForInStep (BestSol n)))
      let order := topology.aliveList.mergeSort
        fun l l' => topology.linkLatency l proposer ≤ topology.linkLatency l' proposer
      have hmem : ∀ {leader}, leader ∈ order ↔ leader ∈ topology.aliveReplicas := by
        intro leader
        rw [List.mem_mergeSort, Topology.mem_aliveList]
      have hskip : ∀ leader ∈ order, ¬ MayLead topology proposer leader → ∀ b,
          body leader b = .ok (.yield b) := by
        intro leader hl hno b
        have : (topology.isAlive proposer && decide (leader ≠ proposer)) = true := by
          rw [Topology.isAlive, Bool.and_eq_true, decide_eq_true_eq, decide_eq_true_eq]
          by_contra hboth
          exact hno ⟨hmem.mp hl, fun ha => by_contra fun hne => hboth ⟨ha, hne⟩⟩
        simp only [body, if_pos this]
        rfl
      have hturn : ∀ leader, MayLead topology proposer leader → ∀ b, Found topology kl b →
          ∃ found, body leader b = .ok (.yield found) ∧ Found topology kl found ∧
            found.sumOfLatencies ≤ b.sumOfLatencies ∧
            ∀ leaders levels, leaders proposer = leader →
              (∀ pid ∉ proposer :: proposers, leaders pid = prevLeaders pid) →
              IsChoice topology kl leaders levels →
                found.sumOfLatencies ≤ linkTotal topology leaders + levelTotal kl leaders levels := by
        intro leader hmay b hb
        have hout : ∀ {pid}, pid ≠ proposer → pid ∉ proposers → pid ∉ proposer :: proposers :=
          fun h1 h2 h => (List.mem_cons.mp h).elim h1 h2
        obtain ⟨found, hrun, hfound, hle, hbound⟩ := ih
          (Function.update prevLeaders proposer leader)
          (fun pid hpid => by
            rcases eq_or_ne pid proposer with rfl | hne
            · rw [Function.update_self]
              exact hmay
            · rw [Function.update_of_ne hne]
              exact hprev pid (hout hne hpid)) b hb
        refine ⟨found, ?_, hfound, hle, fun leaders levels hself hsame hc => ?_⟩
        · have : ¬ (topology.isAlive proposer && decide (leader ≠ proposer)) = true := by
            rw [Topology.isAlive, Bool.and_eq_true, decide_eq_true_eq, decide_eq_true_eq]
            exact fun hboth => hboth.2 (hmay.2 hboth.1)
          simp only [body, if_neg this, hrun]
          rfl
        · refine hbound leaders levels (fun pid hpid => ?_) hc
          rcases eq_or_ne pid proposer with rfl | hne
          · rw [Function.update_self, hself]
          · rw [Function.update_of_ne hne]
            exact hsame pid (hout hne hpid)
      have hstep : ∀ leader ∈ order, ∀ b, Found topology kl b →
          ∃ s, body leader b = .ok s ∧ Found topology kl s.value ∧
            s.value.sumOfLatencies ≤ b.sumOfLatencies := by
        intro leader hl b hb
        by_cases hmay : MayLead topology proposer leader
        · obtain ⟨found, hrun, hfound, hle, -⟩ := hturn leader hmay b hb
          exact ⟨.yield found, hrun, hfound, hle⟩
        · exact ⟨.yield b, hskip leader hl hmay b, hb, le_rfl⟩
      obtain ⟨found, hrun, hfound, hle⟩ := Lib.forUntil_inv hstep hbest
      refine ⟨found, hrun, hfound, hle, fun leaders levels hsame hc => ?_⟩
      have hmay := hc.mayLead proposer
      refine Lib.forUntil_le (R := fun _ _ => True) (x := leaders proposer)
        (List.pairwise_of_forall fun _ _ => trivial) hstep (hmem.mpr hmay.1) ?_ ?_ hbest hrun
      · intro b s hb hs
        obtain ⟨found', hrun', -, -, hbound⟩ := hturn _ hmay b hb
        obtain rfl : .yield found' = s := Except.ok.inj (hrun'.symm.trans hs)
        exact hbound leaders levels rfl hsame hc
      · intro leader hl _ b b' hb hs
        by_cases hmay' : MayLead topology proposer leader
        · obtain ⟨found', hrun', -⟩ := hturn leader hmay' b hb
          cases Except.ok.inj (hrun'.symm.trans hs)
        · cases Except.ok.inj ((hskip leader hl hmay' b).symm.trans hs)

theorem exists_isChoice (hp : ShortestPaths pathLatencies)
    (hlv : AllLeveled topology pathLatencies kl) (hne : topology.aliveReplicas.Nonempty) :
    ∃ leaders levels, IsChoice topology kl leaders levels := by
  obtain ⟨replica, hr⟩ := hne
  let leaders := fun pid => if pid ∈ topology.aliveReplicas then pid else replica
  have hmay : ∀ pid, MayLead topology pid (leaders pid) := by
    intro pid
    by_cases hpid : pid ∈ topology.aliveReplicas
    · simp only [leaders, if_pos hpid]
      exact ⟨hpid, fun _ => rfl⟩
    · simp only [leaders, if_neg hpid]
      exact ⟨hr, fun h => absurd h hpid⟩
  have h := fun pid => hlv pid (leaders pid) (hmay pid)
  have htop := topped_levelChoice hp h
  have hlast : ∀ pid, (kl pid (leaders pid)).length - 1 < (kl pid (leaders pid)).length := fun pid => by
    have := List.length_pos_iff.mpr (h pid).nonempty
    omega
  refine ⟨leaders, fun pid => (kl pid (leaders pid)).length - 1, hmay, hlast, fun a b _ => ?_⟩
  obtain ⟨_, top, ht, hc⟩ := htop a b
  have hle : top ≤ (kl a (leaders a)).length - 1 := by
    have : top < (kl a (leaders a)).length := ht
    omega
  exact (levelChoice leaders kl h).mono_right (Nat.zero_le _) (hlast a) (hlast b)
    ((levelChoice leaders kl h).mono hle (hlast a) (htop a b).1 hc)

def OptimalPlan (topology : Topology n)
    (kl : Fin n → Fin n → List (KnowledgeLevel n)) : Except PlanPanic (BestSol n) → Prop
  | .ok best =>
      IsChoice topology kl best.leaders best.levels ∧
        best.sumOfLatencies =
          linkTotal topology best.leaders + levelTotal kl best.leaders best.levels ∧
        ∀ leaders levels, IsChoice topology kl leaders levels →
          best.sumOfLatencies ≤ linkTotal topology leaders + levelTotal kl leaders levels
  | .error panic =>
      -- Only when no choice has a total that a `Duration` below `Duration::MAX` can hold.
      panic = .assertion ∧ ∀ leaders levels, IsChoice topology kl leaders levels →
        durationMax ≤ linkTotal topology leaders + levelTotal kl leaders levels

theorem requirementSearch_plans [NeZero n] (hp : ShortestPaths pathLatencies)
    {kl : Fin n → Fin n → List (KnowledgeLevel n)}
    (hkl : allKnowledgeLevels topology (.new topology pathLatencies) = .ok kl)
    (hlv : AllLeveled topology pathLatencies kl) :
    OptimalPlan topology kl (requirementSearch topology (.new topology pathLatencies)) := by
  obtain ⟨found, hrun, hfound, -, hbound⟩ := bestLeadersSearch_ok hp hlv (List.finRange n)
    (fun _ => 0) (fun pid h => absurd (List.mem_finRange pid) h)
    { leaders := fun _ => 0, levels := fun _ => 0, sumOfLatencies := durationMax } (Or.inl rfl)
  have hleast := fun leaders levels =>
    hbound leaders levels fun pid h => absurd (List.mem_finRange pid) h
  simp only [requirementSearch, hkl, minQuorum_eq, bind, Except.bind]
  rw [hrun]
  simp only
  split
  · rename_i hmax
    exact ⟨rfl, fun leaders levels hc => hmax ▸ hleast leaders levels hc⟩
  · rename_i hmax
    obtain ⟨hchoice, hsum⟩ := hfound.resolve_left hmax
    exact ⟨hchoice, hsum, hleast⟩

-- Three replicas on a line, the last one dead, and a fourth process without a vote.
def lineLatency (a b : Fin 4) : Nat := 10 * ((a.val - b.val) + (b.val - a.val))

def line : Topology 4 where
  replicas := {0, 1, 2}
  aliveReplicas := {0, 1}
  linkLatency := lineLatency
  alive_subset := by decide

end

end KCensus.Propagation

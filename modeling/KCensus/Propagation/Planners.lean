import KCensus.Propagation.SwiftOptimal

namespace KCensus.Propagation

variable {n : Nat}

structure CommitterPlan (n : Nat) where
  latencies : Fin n → Nat
  committers : Fin n → Fin n

abbrev MinEffortPlan (n : Nat) := CommitterPlan n

abbrev PaxosPlan (n : Nat) := CommitterPlan n

abbrev EPaxosPlan (n : Nat) := CommitterPlan n

structure PandoPlan (n : Nat) extends CommitterPlan n where
  delegates : Fin n → Fin n

structure MultiPaxosPlan (n : Nat) where
  latencies : Fin n → Fin n → Nat
  leaders : List (Fin n)

structure MultiPaxos3PPlan (n : Nat) where
  latencies : Fin n → Fin n → Nat
  committers : Fin n → Fin n → Fin n
  leaders : List (Fin n)

def bestCommitter {σ : Type} (topology : Topology n)
    (better : Fin n → Fin n → σ → Except PlanPanic σ) (state : σ) : Except PlanPanic σ :=
  (List.finRange n).foldlM
    (fun state proposer =>
      if topology.isAlive proposer then return state
      else topology.aliveList.foldlM (fun state committer => better proposer committer state) state)
    state

namespace CommitterPlan

def unplanned [NeZero n] : CommitterPlan n := ⟨fun _ => durationMax, fun _ => 0⟩

def take (plan : CommitterPlan n) (pid : Fin n) (latency : Nat) (committer : Fin n) :
    CommitterPlan n :=
  ⟨Function.update plan.latencies pid latency, Function.update plan.committers pid committer⟩

-- Every live replica is its own committer.
def alone (topology : Topology n) (own : Fin n → Except PlanPanic Nat) (plan : CommitterPlan n) :
    Except PlanPanic (CommitterPlan n) :=
  topology.aliveList.foldlM
    (fun plan leader => do
      let latency ← own leader
      return plan.take leader latency leader)
    plan

def through (topology : Topology n)
    (via : CommitterPlan n → Fin n → Fin n → Except PlanPanic Nat) (plan : CommitterPlan n) :
    Except PlanPanic (CommitterPlan n) :=
  bestCommitter topology
    (fun proposer committer plan => do
      let latency ← via plan proposer committer
      if latency < plan.latencies proposer then return plan.take proposer latency committer
      else return plan)
    plan

end CommitterPlan

def PandoPlan.take (plan : PandoPlan n) (pid : Fin n) (latency : Nat) (committer : Fin n) :
    PandoPlan n :=
  ⟨plan.toCommitterPlan.take pid latency committer,
    Function.update plan.delegates pid (plan.delegates committer)⟩

def minEffortPlan [NeZero n] (topology : Topology n) (t : LatencyTables n) :
    Except PlanPanic (MinEffortPlan n) := do
  let plan ← CommitterPlan.alone topology
    (fun leader => indexed (t.quorumPath leader) (t.minQuorum - 1)) .unplanned
  plan.through topology fun _ proposer committer => do
    let rtt ← indexed (t.quorum3pPathRtts proposer committer) (t.minQuorum - 1)
    return rtt + topology.linkLatency committer proposer

def viaCommitter (t : LinkTables n) (plan : CommitterPlan n) (proposer committer : Fin n) :
    Except PlanPanic Nat :=
  return t.linkRtts proposer committer + plan.latencies committer

def paxosPlan [NeZero n] (topology : Topology n) (t : LinkTables n) :
    Except PlanPanic (PaxosPlan n) := do
  let plan ← CommitterPlan.alone topology
    (fun leader => do
      let rtt ← indexed (t.quorumLink leader) (t.majQuorum - 1)
      return rtt * 2)
    .unplanned
  plan.through topology (viaCommitter t)

def ePaxosQuorum (topology : Topology n) (majQuorum : Nat) : Nat :=
  max ((topology.nbReplicas * 3 - 1) / 4) majQuorum

def epaxosPlan [NeZero n] (topology : Topology n) (t : LinkTables n) (paxos : PaxosPlan n) :
    Except PlanPanic (EPaxosPlan n) := do
  let plan ← CommitterPlan.alone topology
    (fun leader =>
      if ePaxosQuorum topology t.majQuorum ≤ topology.aliveList.length then
        indexed (t.quorumLink leader) (ePaxosQuorum topology t.majQuorum - 1)
      else return paxos.latencies leader)
    .unplanned
  plan.through topology (viaCommitter t)

def tryDelegate (t : LinkTables n) (leader : Fin n) (plan : PandoPlan n) (delegate : Fin n) :
    Except PlanPanic (PandoPlan n) := do
  let there ← indexed (t.quorum3pLinkRtts leader delegate) (t.majQuorum - 1)
  let back ← indexed (t.quorum3pLinkRtts delegate leader) (t.majQuorum - 1)
  if there + back < plan.latencies leader then
    return { latencies := Function.update plan.latencies leader (there + back)
             committers := plan.committers
             delegates := Function.update plan.delegates leader delegate }
  else return plan

def pandoPlan [NeZero n] (topology : Topology n) (t : LinkTables n) :
    Except PlanPanic (PandoPlan n) := do
  let plan ← topology.aliveList.foldlM
    (fun plan leader =>
      topology.aliveList.foldlM (tryDelegate t leader)
        { plan with committers := Function.update plan.committers leader leader })
    (⟨.unplanned, fun _ => 0⟩ : PandoPlan n)
  bestCommitter topology
    (fun proposer committer plan => do
      let latency ← viaCommitter t plan.toCommitterPlan proposer committer
      if latency < plan.latencies proposer then return plan.take proposer latency committer
      else return plan)
    plan

def leadersOf (topology : Topology n) (latencies : Fin n → Fin n → Nat) : List (Fin n) :=
  topology.aliveList.mergeSort fun a b => sumOf (latencies a) ≤ sumOf (latencies b)

def multiPaxosPlan (topology : Topology n) (t : LinkTables n) :
    Except PlanPanic (MultiPaxosPlan n) := do
  let latencies ← Lib.tabulate
    (fun leader =>
      Lib.tabulate
        (fun requester => do
          let rtt ← indexed (t.quorumLink leader) (t.majQuorum - 1)
          return t.linkRtts requester leader + rtt)
        (List.finRange n) fun _ => 0)
    topology.aliveList fun _ _ => durationMax
  return { latencies := latencies, leaders := leadersOf topology latencies }

def best3P [NeZero n] (topology : Topology n) (t : LinkTables n) (leader requester : Fin n) :
    Except PlanPanic (Nat × Fin n) :=
  topology.aliveList.foldlM
    (fun best committer => do
      if topology.isAlive requester && decide (committer ≠ requester) then return best
      let rtt ← indexed (t.quorum3pLinkRtts leader committer) (t.majQuorum - 1)
      let latency := topology.linkLatency requester leader + rtt +
        topology.linkLatency committer requester
      if latency < best.1 then return (latency, committer) else return best)
    (durationMax, 0)

def multiPaxos3PPlan [NeZero n] (topology : Topology n) (t : LinkTables n) :
    Except PlanPanic (MultiPaxos3PPlan n) := do
  let best ← Lib.tabulate
    (fun leader =>
      Lib.tabulate (fun requester => best3P topology t leader requester) (List.finRange n)
        fun _ => (durationMax, 0))
    topology.aliveList fun _ _ => (durationMax, 0)
  let latencies := fun leader requester => (best leader requester).1
  return { latencies := latencies
           committers := fun leader requester => (best leader requester).2
           leaders := leadersOf topology latencies }

section

variable {topology : Topology n} {rtt rtt' : Fin n → Nat} {quorum time : Nat}

def quorumTime (topology : Topology n) (rtt : Fin n → Nat) (quorum : Nat) : Nat :=
  ((topology.aliveList.map rtt).mergeSort (· ≤ ·)).getD (quorum - 1) 0

def answered (topology : Topology n) (rtt : Fin n → Nat) (time : Nat) : Finset (Fin n) :=
  topology.aliveReplicas.filter fun replica => rtt replica ≤ time

theorem card_answered : (answered topology rtt time).card =
    ((topology.aliveList.map rtt).mergeSort (· ≤ ·)).countP (· ≤ time) := by
  have hset : (topology.aliveList.filter fun r => decide (rtt r ≤ time)).toFinset =
      answered topology rtt time := by
    ext r
    simp [answered]
  rw [(List.mergeSort_perm _ _).countP_eq, List.countP_map, List.countP_eq_length_filter, ← hset,
    List.toFinset_card_of_nodup (topology.nodup_aliveList.filter _)]
  rfl

theorem lt_length (rtt : Fin n → Nat) (hq : 0 < quorum) (hle : quorum ≤ topology.aliveReplicas.card) :
    quorum - 1 < ((topology.aliveList.map rtt).mergeSort (· ≤ ·)).length := by
  rw [List.length_mergeSort, List.length_map, topology.length_aliveList]
  omega

theorem quorumTime_ok (hq : 0 < quorum) (hle : quorum ≤ topology.aliveReplicas.card) :
    indexed ((topology.aliveList.map rtt).mergeSort (· ≤ ·)) (quorum - 1) =
      .ok (quorumTime topology rtt quorum) :=
  indexed_getD (lt_length rtt hq hle)

theorem quorumTime_eq
    (hlen : quorum - 1 < ((topology.aliveList.map rtt).mergeSort (· ≤ ·)).length) :
    quorumTime topology rtt quorum = ((topology.aliveList.map rtt).mergeSort (· ≤ ·))[quorum - 1] := by
  rw [quorumTime, List.getD, List.getElem?_eq_getElem hlen, Option.getD_some]

theorem quorumTime_le (hq : 0 < quorum) (h : quorum ≤ (answered topology rtt time).card) :
    quorumTime topology rtt quorum ≤ time := by
  have hlen := lt_length rtt hq (h.trans (Finset.card_le_card (Finset.filter_subset _ _)))
  rw [quorumTime_eq hlen]
  refine Lib.getElem_le_of_countP (List.pairwise_mergeSort' (· ≤ ·) _) hlen ?_
  rw [card_answered] at h
  omega

theorem le_card_answered (rtt : Fin n → Nat) (hq : 0 < quorum) (hle : quorum ≤ topology.aliveReplicas.card) :
    quorum ≤ (answered topology rtt (quorumTime topology rtt quorum)).card := by
  have hlen := lt_length rtt hq hle
  have := lt_countP_getElem (sorted_mergeSort (fun x => x) (topology.aliveList.map rtt)) hlen
  rw [card_answered, quorumTime_eq hlen]
  omega

theorem quorumTime_add_le (rtt rtt' : Fin n → Nat) (slack : Nat) (hq : 0 < quorum)
    (hle : quorum ≤ topology.aliveReplicas.card)
    (h : ∀ r ∈ topology.aliveReplicas, rtt r ≤ rtt' r + slack) :
    quorumTime topology rtt quorum ≤ quorumTime topology rtt' quorum + slack := by
  refine quorumTime_le hq ((le_card_answered rtt' hq hle).trans
    (Finset.card_le_card fun r hr => ?_))
  obtain ⟨halive, htime⟩ := Finset.mem_filter.mp hr
  have := h r halive
  exact Finset.mem_filter.mpr ⟨halive, by omega⟩

theorem quorumTime_mono {quorum' : Nat} (hq : 0 < quorum) (hle : quorum ≤ quorum')
    (halive : quorum' ≤ topology.aliveReplicas.card) :
    quorumTime topology rtt quorum ≤ quorumTime topology rtt quorum' :=
  quorumTime_le hq (hle.trans (le_card_answered rtt (hq.trans_le hle) halive))

theorem quorumTime_le_of_forall (rtt : Fin n → Nat) (quorum time : Nat) (hq : 0 < quorum)
    (hle : quorum ≤ topology.aliveReplicas.card)
    (h : ∀ r, rtt r ≤ time) : quorumTime topology rtt quorum ≤ time := by
  refine quorumTime_le hq ?_
  rwa [answered, Finset.filter_true_of_mem fun r _ => h r]

end

section

variable {topology : Topology n} {own : Fin n → Nat} {via : Fin n → Fin n → Nat}

-- Everyone but the live replicas takes the best of them for its committer.
structure CommitterPlan.Chooses (topology : Topology n) (own : Fin n → Nat)
    (via : Fin n → Fin n → Nat) (plan : CommitterPlan n) : Prop where
  replica : ∀ pid ∈ topology.aliveReplicas, plan.committers pid = pid ∧ plan.latencies pid = own pid
  committer : ∀ pid ∉ topology.aliveReplicas, plan.committers pid ∈ topology.aliveReplicas ∧
    plan.latencies pid = via pid (plan.committers pid)
  least : ∀ pid ∉ topology.aliveReplicas, ∀ committer ∈ topology.aliveReplicas,
    plan.latencies pid ≤ via pid committer

structure CommitterPlan.Sound (topology : Topology n) (own : Fin n → Nat)
    (via : Fin n → Fin n → Nat) (plan : CommitterPlan n) : Prop where
  replica : ∀ pid ∈ topology.aliveReplicas, plan.committers pid = pid ∧ plan.latencies pid = own pid
  committer : ∀ pid ∉ topology.aliveReplicas, plan.latencies pid = durationMax ∨
    plan.committers pid ∈ topology.aliveReplicas ∧
      plan.latencies pid = via pid (plan.committers pid)

theorem bestCommitter_ok {σ : Type} (better : Fin n → Fin n → σ → Except PlanPanic σ)
    (latencies : σ → Fin n → Nat) (via : Fin n → Fin n → Nat) (Inv : σ → Prop)
    (hbetter : ∀ proposer ∉ topology.aliveReplicas, ∀ committer ∈ topology.aliveReplicas, ∀ s, Inv s →
      ∃ s', better proposer committer s = .ok s' ∧ Inv s' ∧
        latencies s' proposer ≤ latencies s proposer ∧
        latencies s' proposer ≤ via proposer committer ∧
        ∀ pid ≠ proposer, latencies s' pid = latencies s pid)
    {s : σ} (hs : Inv s) :
    ∃ r, bestCommitter topology better s = .ok r ∧ Inv r ∧
      ∀ pid ∉ topology.aliveReplicas, ∀ committer ∈ topology.aliveReplicas,
        latencies r pid ≤ via pid committer := by
  let Row : Fin n → σ → Prop := fun pid s => pid ∉ topology.aliveReplicas →
    ∀ committer ∈ topology.aliveReplicas, latencies s pid ≤ via pid committer
  have hturn : ∀ proposer ∈ List.finRange n, ∀ s, Inv s → ∃ s',
      (if topology.isAlive proposer then return s
        else topology.aliveList.foldlM (fun s committer => better proposer committer s) s) =
          Except.ok (ε := PlanPanic) s' ∧
      Inv s' ∧ Row proposer s' ∧ ∀ pid, pid ≠ proposer → Row pid s → Row pid s' := by
    intro proposer _ s hs
    by_cases halive : proposer ∈ topology.aliveReplicas
    · refine ⟨s, ?_, hs, fun h => absurd halive h, fun _ _ h => h⟩
      simp only [Topology.isAlive, halive, decide_true, if_true]
      rfl
    · obtain ⟨s', hrun, ⟨hinv, hsame⟩, -, hleast⟩ := @Lib.foldlM_least _ _ _
        (fun s' => Inv s' ∧ ∀ pid ≠ proposer, latencies s' pid = latencies s pid)
        (fun s => latencies s proposer) (fun s committer => better proposer committer s)
        (fun committer t => t = via proposer committer) _
        (fun committer hc s' hs' => by
          obtain ⟨s'', hrun, hinv, hle, hvia, hsame⟩ :=
            hbetter proposer halive committer (topology.mem_aliveList.mp hc) s' hs'.1
          exact ⟨s'', hrun, ⟨hinv, fun pid hne => (hsame pid hne).trans (hs'.2 pid hne)⟩, hle,
            fun t ht => ht ▸ hvia⟩)
        _ ⟨hs, fun _ _ => rfl⟩
      refine ⟨s', ?_, hinv, fun _ committer hc => hleast committer (topology.mem_aliveList.mpr hc) _ rfl,
        fun pid hne hrow hpid committer hc => ?_⟩
      · simp only [Topology.isAlive, halive, decide_false, Bool.false_eq_true, if_false]
        exact hrun
      · rw [hsame pid hne]
        exact hrow hpid committer hc
  obtain ⟨r, hrun, hinv, hrows⟩ := Lib.foldlM_rows _ Inv Row hturn hs
  exact ⟨r, hrun, hinv, fun pid hpid => hrows pid (Or.inl (List.mem_finRange pid)) hpid⟩

namespace CommitterPlan

variable {plan : CommitterPlan n}

theorem Sound.take (h : plan.Sound topology own via) {pid committer : Fin n}
    (hpid : pid ∉ topology.aliveReplicas) (hc : committer ∈ topology.aliveReplicas) :
    (plan.take pid (via pid committer) committer).Sound topology own via where
  replica q hq := by
    have hne : q ≠ pid := fun heq => hpid (heq ▸ hq)
    simpa only [CommitterPlan.take, Function.update_of_ne hne] using h.replica q hq
  committer q hq := by
    rcases eq_or_ne q pid with rfl | hne
    · simp only [CommitterPlan.take, Function.update_self]
      exact Or.inr ⟨hc, trivial⟩
    · simpa only [CommitterPlan.take, Function.update_of_ne hne] using h.committer q hq

theorem Sound.chooses (h : plan.Sound topology own via) (hne : topology.aliveReplicas.Nonempty)
    (hmax : ∀ pid, ∀ committer ∈ topology.aliveReplicas, via pid committer < durationMax)
    (hleast : ∀ pid ∉ topology.aliveReplicas, ∀ committer ∈ topology.aliveReplicas,
      plan.latencies pid ≤ via pid committer) : plan.Chooses topology own via where
  replica := h.replica
  committer pid hpid := by
    refine (h.committer pid hpid).resolve_left fun hlast => ?_
    obtain ⟨committer, hc⟩ := hne
    have := hleast pid hpid committer hc
    have := hmax pid committer hc
    omega
  least := hleast

theorem alone_ok [NeZero n] (ownE : Fin n → Except PlanPanic Nat) (own : Fin n → Nat)
    (via : Fin n → Fin n → Nat)
    (hown : ∀ leader ∈ topology.aliveReplicas, ownE leader = .ok (own leader)) :
    ∃ plan, alone topology ownE unplanned = .ok plan ∧ plan.Sound topology own via := by
  obtain ⟨plan, hrun, hinv, hrows⟩ := Lib.foldlM_rows
    (fun (plan : CommitterPlan n) leader => (do
      let latency ← ownE leader
      return plan.take leader latency leader : Except PlanPanic (CommitterPlan n)))
    (fun plan => ∀ pid ∉ topology.aliveReplicas, plan.latencies pid = durationMax)
    (fun leader plan => plan.committers leader = leader ∧ plan.latencies leader = own leader)
    (fun leader hl plan hplan => by
      have halive := topology.mem_aliveList.mp hl
      refine ⟨plan.take leader (own leader) leader, ?_, fun pid hpid => ?_, ?_, fun pid hne hrow => ?_⟩
      · rw [hown leader halive]
        rfl
      · have hne : pid ≠ leader := fun heq => hpid (heq ▸ halive)
        simpa only [take, Function.update_of_ne hne] using hplan pid hpid
      · simp only [take, Function.update_self, true_and]
      · simpa only [take, Function.update_of_ne hne] using hrow)
    (fun _ _ => rfl : ∀ pid ∉ topology.aliveReplicas, unplanned.latencies pid = durationMax)
  exact ⟨plan, hrun, fun pid hpid => hrows pid (Or.inl (topology.mem_aliveList.mpr hpid)),
    fun pid hpid => Or.inl (hinv pid hpid)⟩

theorem through_ok (viaE : CommitterPlan n → Fin n → Fin n → Except PlanPanic Nat)
    (hvia : ∀ plan : CommitterPlan n, plan.Sound topology own via → ∀ pid,
      ∀ committer ∈ topology.aliveReplicas, viaE plan pid committer = .ok (via pid committer))
    (hne : topology.aliveReplicas.Nonempty)
    (hmax : ∀ pid, ∀ committer ∈ topology.aliveReplicas, via pid committer < durationMax)
    (h : plan.Sound topology own via) :
    ∃ r, plan.through topology viaE = .ok r ∧ r.Chooses topology own via := by
  obtain ⟨r, hrun, hsound, hleast⟩ := bestCommitter_ok
    (fun proposer committer (plan : CommitterPlan n) => (do
      let latency ← viaE plan proposer committer
      if latency < plan.latencies proposer then return plan.take proposer latency committer
      else return plan : Except PlanPanic (CommitterPlan n)))
    latencies via (fun plan => plan.Sound topology own via)
    (fun proposer hp committer hc plan hplan => by
      simp only [hvia plan hplan proposer committer hc, bind, Except.bind]
      split
      · rename_i hlt
        refine ⟨_, rfl, hplan.take hp hc, ?_, ?_, fun pid hne => ?_⟩
        · simp only [take, Function.update_self]
          exact hlt.le
        · simp only [take, Function.update_self, le_refl]
        · simp only [take, Function.update_of_ne hne]
      · rename_i hge
        exact ⟨plan, rfl, hplan, le_rfl, not_lt.mp hge, fun _ _ => rfl⟩) h
  exact ⟨r, hrun, hsound.chooses hne hmax hleast⟩

end CommitterPlan

end

end KCensus.Propagation

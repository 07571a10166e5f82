import KCensus.Propagation.Optimal
import KCensus.Propagation.Planners

namespace KCensus.Propagation

variable {n : Nat}

def relayed (latency : Fin n → Fin n → Nat) (src dest replica : Fin n) : Nat :=
  latency src replica + latency replica dest

section

variable (topology : Topology n) (pathLatencies : Fin n → Fin n → Nat)

def minEffortOwn (pid : Fin n) : Nat :=
  quorumTime topology (relayed pathLatencies pid pid) (majority topology)

def minEffortVia (pid committer : Fin n) : Nat :=
  quorumTime topology (relayed pathLatencies pid committer) (majority topology) +
    topology.linkLatency committer pid

def paxosOwn (pid : Fin n) : Nat :=
  quorumTime topology (relayed topology.linkLatency pid pid) (majority topology) * 2

def epaxosOwn (pid : Fin n) : Nat :=
  if ePaxosQuorum topology (majority topology) ≤ topology.aliveReplicas.card then
    quorumTime topology (relayed topology.linkLatency pid pid)
      (ePaxosQuorum topology (majority topology))
  else paxosOwn topology pid

def pandoOwn (pid delegate : Fin n) : Nat :=
  quorumTime topology (relayed topology.linkLatency pid delegate) (majority topology) +
    quorumTime topology (relayed topology.linkLatency delegate pid) (majority topology)

-- The committer commits on its own behalf, a round trip away.
def viaOwn (own : Fin n → Nat) (pid committer : Fin n) : Nat :=
  linkRtt topology pid committer + own committer

def multiPaxosLatency (leader requester : Fin n) : Nat :=
  linkRtt topology requester leader +
    quorumTime topology (relayed topology.linkLatency leader leader) (majority topology)

def multiPaxos3PLatency (leader requester committer : Fin n) : Nat :=
  topology.linkLatency requester leader +
    quorumTime topology (relayed topology.linkLatency leader committer) (majority topology) +
      topology.linkLatency committer requester

end

variable {topology : Topology n} {pathLatencies : Fin n → Fin n → Nat}

theorem majority_pos : 0 < majority topology := by
  simp only [majority]
  omega

theorem tabulate_rows {ε ι α : Type*} [DecidableEq ι] {f : ι → Except ε α} {g : ι → α}
    (is : List ι) (h : ∀ i ∈ is, f i = .ok (g i)) (table : ι → α) :
    ∃ r, Lib.tabulate f is table = .ok r ∧ ∀ i ∈ is, r i = g i :=
  ⟨_, Lib.tabulate_ok is h table, fun _ hi => if_pos hi⟩

theorem tabulate_all {ε α : Type*} {f : Fin n → Except ε α} {g : Fin n → α}
    (h : ∀ i, f i = .ok (g i)) {table : Fin n → α} :
    Lib.tabulate f (List.finRange n) table = .ok g := by
  rw [Lib.tabulate_ok (List.finRange n) (fun i _ => h i)]
  simp only [List.mem_finRange, if_true]

section

variable (hmaj : majority topology ≤ topology.aliveReplicas.card)
include hmaj

theorem alive_nonempty : topology.aliveReplicas.Nonempty :=
  Finset.card_pos.mp (majority_pos.trans_le hmaj)

theorem quorum3pLink_ok (src dest : Fin n) :
    indexed ((LinkTables.new topology).quorum3pLinkRtts src dest)
        ((LinkTables.new topology).majQuorum - 1) =
      .ok (quorumTime topology (relayed topology.linkLatency src dest) (majority topology)) := by
  rw [majQuorum_new hmaj]
  exact quorumTime_ok majority_pos hmaj

theorem quorum3pPath_ok (src dest : Fin n) :
    indexed ((LatencyTables.new topology pathLatencies).quorum3pPathRtts src dest)
        ((LatencyTables.new topology pathLatencies).minQuorum - 1) =
      .ok (quorumTime topology (relayed pathLatencies src dest) (majority topology)) := by
  rw [minQuorum_eq]
  exact quorumTime_ok majority_pos hmaj

theorem quorumTime_relayed_lt {latency : Fin n → Fin n → Nat} (h : ∀ a b, latency a b < 2 ^ 64)
    (src dest : Fin n) : quorumTime topology (relayed latency src dest) (majority topology) < 2 ^ 65 := by
  have hle := quorumTime_le_of_forall (relayed latency src dest) (majority topology) (2 ^ 65 - 1)
    majority_pos hmaj fun r => by
      have := h src r
      have := h r dest
      simp only [relayed]
      omega
  omega

theorem paxosOwn_lt (hnanos : InNanos topology) (pid : Fin n) :
    paxosOwn topology pid < 2 ^ 66 := by
  have := quorumTime_relayed_lt hmaj hnanos pid pid
  simp only [paxosOwn]
  omega

omit hmaj in
theorem viaOwn_lt {own : Fin n → Nat} (hnanos : InNanos topology)
    (hown : ∀ pid, own pid < 2 ^ 66) (pid committer : Fin n) :
    viaOwn topology own pid committer < durationMax := by
  have := hnanos pid committer
  have := hnanos committer pid
  have := hown committer
  simp only [viaOwn, linkRtt, durationMax]
  omega

theorem epaxosOwn_lt (hnanos : InNanos topology) (pid : Fin n) :
    epaxosOwn topology pid < 2 ^ 66 := by
  unfold epaxosOwn
  split
  · rename_i hq
    have hle := quorumTime_le_of_forall (relayed topology.linkLatency pid pid)
      (ePaxosQuorum topology (majority topology)) (2 ^ 65)
      (majority_pos.trans_le (le_max_right _ _)) hq fun r => by
        have := hnanos pid r
        have := hnanos r pid
        simp only [relayed]
        omega
    omega
  · exact paxosOwn_lt hmaj hnanos pid

theorem pandoOwn_lt (hnanos : InNanos topology) (pid delegate : Fin n) :
    pandoOwn topology pid delegate < 2 ^ 66 := by
  have := quorumTime_relayed_lt hmaj hnanos pid delegate
  have := quorumTime_relayed_lt hmaj hnanos delegate pid
  simp only [pandoOwn]
  omega

variable [NeZero n]

theorem minEffortPlan_chooses (hnanos : InNanos topology)
    (hlink : ∀ a b, pathLatencies a b ≤ topology.linkLatency a b) :
    ∃ plan, minEffortPlan topology (.new topology pathLatencies) = .ok plan ∧
      plan.Chooses topology (minEffortOwn topology pathLatencies)
        (minEffortVia topology pathLatencies) := by
  obtain ⟨plan, hrun, hsound⟩ := CommitterPlan.alone_ok _
    (minEffortOwn topology pathLatencies) (minEffortVia topology pathLatencies)
    (fun leader _ => quorum3pPath_ok hmaj leader leader)
  obtain ⟨r, hrun', hr⟩ := CommitterPlan.through_ok
    (fun _ proposer committer => (do
      let rtt ← indexed ((LatencyTables.new topology pathLatencies).quorum3pPathRtts proposer committer)
        ((LatencyTables.new topology pathLatencies).minQuorum - 1)
      return rtt + topology.linkLatency committer proposer : Except PlanPanic Nat))
    (fun _ _ pid committer _ => by
      rw [quorum3pPath_ok hmaj]
      rfl)
    (alive_nonempty hmaj)
    (fun pid committer _ => by
      have := quorumTime_relayed_lt hmaj (fun a b => (hlink a b).trans_lt (hnanos a b)) pid committer
      have := hnanos committer pid
      simp only [minEffortVia, durationMax]
      omega) hsound
  refine ⟨r, ?_, hr⟩
  simp only [minEffortPlan, bind, Except.bind]
  simp only [LatencyTables.quorumPath, hrun]
  exact hrun'

omit [NeZero n] in
theorem through_viaCommitter_ok (hnanos : InNanos topology) {own : Fin n → Nat}
    (hown : ∀ pid, own pid < 2 ^ 66) {plan : CommitterPlan n}
    (hsound : plan.Sound topology own (viaOwn topology own)) :
    ∃ r, plan.through topology (viaCommitter (.new topology)) = .ok r ∧
      r.Chooses topology own (viaOwn topology own) :=
  CommitterPlan.through_ok _
    (fun plan hplan pid committer hc => by
      rw [viaCommitter, (hplan.replica committer hc).2]
      rfl)
    (alive_nonempty hmaj) (fun pid committer _ => viaOwn_lt hnanos hown pid committer) hsound

theorem paxosPlan_chooses (hnanos : InNanos topology) :
    ∃ plan, paxosPlan topology (.new topology) = .ok plan ∧
      plan.Chooses topology (paxosOwn topology) (viaOwn topology (paxosOwn topology)) := by
  obtain ⟨plan, hrun, hsound⟩ := CommitterPlan.alone_ok
    (fun leader => (do
      let rtt ← indexed ((LinkTables.new topology).quorumLink leader)
        ((LinkTables.new topology).majQuorum - 1)
      return rtt * 2 : Except PlanPanic Nat))
    (paxosOwn topology) (viaOwn topology (paxosOwn topology))
    (fun leader _ => by
      rw [LinkTables.quorumLink, quorum3pLink_ok hmaj]
      rfl)
  obtain ⟨r, hrun', hr⟩ := through_viaCommitter_ok hmaj hnanos (paxosOwn_lt hmaj hnanos) hsound
  refine ⟨r, ?_, hr⟩
  simp only [paxosPlan]
  rw [hrun]
  exact hrun'

theorem epaxosPlan_chooses (hnanos : InNanos topology) {paxos : PaxosPlan n}
    (hpaxos : paxos.Chooses topology (paxosOwn topology) (viaOwn topology (paxosOwn topology))) :
    ∃ plan, epaxosPlan topology (.new topology) paxos = .ok plan ∧
      plan.Chooses topology (epaxosOwn topology) (viaOwn topology (epaxosOwn topology)) := by
  obtain ⟨plan, hrun, hsound⟩ := CommitterPlan.alone_ok
    (fun leader =>
      if ePaxosQuorum topology (LinkTables.new topology).majQuorum ≤ topology.aliveList.length then
        indexed ((LinkTables.new topology).quorumLink leader)
          (ePaxosQuorum topology (LinkTables.new topology).majQuorum - 1)
      else return paxos.latencies leader)
    (epaxosOwn topology) (viaOwn topology (epaxosOwn topology))
    (fun leader hl => by
      rw [majQuorum_new hmaj, topology.length_aliveList, epaxosOwn]
      split
      · rename_i hq
        exact quorumTime_ok (majority_pos.trans_le (le_max_right _ _)) hq
      · rw [(hpaxos.replica leader hl).2]
        rfl)
  obtain ⟨r, hrun', hr⟩ := through_viaCommitter_ok hmaj hnanos (epaxosOwn_lt hmaj hnanos) hsound
  refine ⟨r, ?_, hr⟩
  simp only [epaxosPlan]
  rw [hrun]
  exact hrun'

omit [NeZero n] in
theorem tryDelegate_ok (leader delegate : Fin n) (plan : PandoPlan n) :
    tryDelegate (.new topology) leader plan delegate = .ok
      (if pandoOwn topology leader delegate < plan.latencies leader then
        { latencies := Function.update plan.latencies leader (pandoOwn topology leader delegate)
          committers := plan.committers
          delegates := Function.update plan.delegates leader delegate }
      else plan) := by
  simp only [tryDelegate, quorum3pLink_ok hmaj, bind, Except.bind]
  rw [show quorumTime topology (relayed topology.linkLatency leader delegate) (majority topology) +
    quorumTime topology (relayed topology.linkLatency delegate leader) (majority topology) =
      pandoOwn topology leader delegate from rfl]
  split <;> rfl

-- `leader` commits by itself, with the best live delegate.
structure Delegates (topology : Topology n) (plan : PandoPlan n) (leader : Fin n) : Prop where
  alive : plan.delegates leader ∈ topology.aliveReplicas
  committer : plan.committers leader = leader
  latency : plan.latencies leader = pandoOwn topology leader (plan.delegates leader)
  least : ∀ delegate ∈ topology.aliveReplicas,
    plan.latencies leader ≤ pandoOwn topology leader delegate

-- A row that no leader has come to, or whose delegate is the best so far.
def Unplanned (topology : Topology n) (plan : PandoPlan n) (pid : Fin n) : Prop :=
  plan.latencies pid = durationMax ∨ plan.delegates pid ∈ topology.aliveReplicas ∧
    plan.latencies pid = pandoOwn topology pid (plan.delegates pid)

omit [NeZero n] in
theorem delegates_ok (hnanos : InNanos topology) (leader : Fin n) {plan : PandoPlan n}
    (hplan : Unplanned topology plan leader) :
    ∃ r, topology.aliveList.foldlM (tryDelegate (.new topology) leader)
        { plan with committers := Function.update plan.committers leader leader } = .ok r ∧
      Delegates topology r leader ∧ ∀ pid ≠ leader, r.latencies pid = plan.latencies pid ∧
        r.committers pid = plan.committers pid ∧ r.delegates pid = plan.delegates pid := by
  obtain ⟨r, hrun, ⟨hrow, hcommitters, hothers⟩, -, hleast⟩ := @Lib.foldlM_least _ _ _
    (fun r : PandoPlan n => Unplanned topology r leader ∧
      r.committers = Function.update plan.committers leader leader ∧
      ∀ pid ≠ leader, r.latencies pid = plan.latencies pid ∧ r.delegates pid = plan.delegates pid)
    (fun r => r.latencies leader) (tryDelegate (.new topology) leader)
    (fun delegate t => t = pandoOwn topology leader delegate) topology.aliveList
    (fun delegate hd r hr => by
      refine ⟨_, tryDelegate_ok hmaj leader delegate r, ?_⟩
      split
      · rename_i hlt
        refine ⟨⟨Or.inr ⟨?_, ?_⟩, hr.2.1, fun pid hne => ?_⟩, ?_, fun t ht => ?_⟩
        · simp only [Function.update_self]
          exact topology.mem_aliveList.mp hd
        · simp only [Function.update_self]
        · simp only [Function.update_of_ne hne]
          exact hr.2.2 pid hne
        · simp only [Function.update_self]
          exact hlt.le
        · simp only [Function.update_self, ht, le_refl]
      · rename_i hge
        exact ⟨hr, le_rfl, fun t ht => ht ▸ not_lt.mp hge⟩)
    { plan with committers := Function.update plan.committers leader leader }
    ⟨hplan, rfl, fun _ _ => ⟨rfl, rfl⟩⟩
  have hleast' : ∀ delegate ∈ topology.aliveReplicas,
      r.latencies leader ≤ pandoOwn topology leader delegate := fun delegate hd =>
    hleast delegate (topology.mem_aliveList.mpr hd) _ rfl
  obtain ⟨halive, hlatency⟩ := hrow.resolve_left fun hmax => by
    obtain ⟨delegate, hd⟩ := alive_nonempty hmaj
    have := hleast' delegate hd
    have := pandoOwn_lt hmaj hnanos leader delegate
    simp only [durationMax] at hmax
    omega
  refine ⟨r, hrun, ⟨halive, ?_, hlatency, hleast'⟩, fun pid hne => ⟨(hothers pid hne).1, ?_,
    (hothers pid hne).2⟩⟩
  · rw [hcommitters, Function.update_self]
  · rw [hcommitters, Function.update_of_ne hne]

theorem allDelegates_ok (hnanos : InNanos topology) :
    ∃ plan, topology.aliveList.foldlM
        (fun (plan : PandoPlan n) leader => topology.aliveList.foldlM (tryDelegate (.new topology) leader)
          { plan with committers := Function.update plan.committers leader leader })
        (⟨.unplanned, fun _ => 0⟩ : PandoPlan n) = .ok plan ∧
      (∀ leader ∈ topology.aliveReplicas, Delegates topology plan leader) ∧
      ∀ pid ∉ topology.aliveReplicas, plan.latencies pid = durationMax := by
  obtain ⟨plan, hrun, ⟨-, hrest⟩, hrows⟩ := Lib.foldlM_rows _
    (fun plan : PandoPlan n => (∀ pid, Unplanned topology plan pid) ∧
      ∀ pid ∉ topology.aliveReplicas, plan.latencies pid = durationMax)
    (fun leader plan => Delegates topology plan leader)
    (fun leader hl plan hplan => by
      obtain ⟨r, hrun, hdelegates, hothers⟩ := delegates_ok hmaj hnanos leader (hplan.1 leader)
      have halive := topology.mem_aliveList.mp hl
      refine ⟨r, hrun, ⟨fun pid => ?_, fun pid hpid => ?_⟩, hdelegates, fun pid hne hrow => ?_⟩
      · rcases eq_or_ne pid leader with rfl | hne
        · exact Or.inr ⟨hdelegates.alive, hdelegates.latency⟩
        · obtain ⟨hlatency, -, hdelegate⟩ := hothers pid hne
          simpa only [Unplanned, hlatency, hdelegate] using hplan.1 pid
      · have hne : pid ≠ leader := fun heq => hpid (heq ▸ halive)
        exact (hothers pid hne).1.trans (hplan.2 pid hpid)
      · obtain ⟨hlatency, hcommitter, hdelegate⟩ := hothers pid hne
        exact ⟨hdelegate ▸ hrow.alive, hcommitter.trans hrow.committer, by
          rw [hlatency, hdelegate]
          exact hrow.latency, fun delegate hd => hlatency.trans_le (hrow.least delegate hd)⟩)
    (show (∀ pid, Unplanned topology (⟨.unplanned, fun _ => 0⟩ : PandoPlan n) pid) ∧
      ∀ pid ∉ topology.aliveReplicas, CommitterPlan.unplanned.latencies pid = durationMax from
        ⟨fun _ => Or.inl rfl, fun _ _ => rfl⟩)
  exact ⟨plan, hrun, fun leader hl => hrows leader (Or.inl (topology.mem_aliveList.mpr hl)), hrest⟩

structure PandoPlan.Chooses (topology : Topology n) (plan : PandoPlan n) : Prop where
  committers : plan.toCommitterPlan.Chooses topology
    (fun pid => pandoOwn topology pid (plan.delegates pid))
    (viaOwn topology fun pid => pandoOwn topology pid (plan.delegates pid))
  delegate : ∀ pid ∈ topology.aliveReplicas, Delegates topology plan pid
  shared : ∀ pid ∉ topology.aliveReplicas, plan.delegates pid = plan.delegates (plan.committers pid)

theorem pandoPlan_chooses (hnanos : InNanos topology) :
    ∃ plan, pandoPlan topology (.new topology) = .ok plan ∧ plan.Chooses topology := by
  obtain ⟨start, hstart, hdelegates, hmax⟩ := allDelegates_ok hmaj hnanos
  let own := fun pid => pandoOwn topology pid (start.delegates pid)
  let Inv : PandoPlan n → Prop := fun plan =>
    plan.toCommitterPlan.Sound topology own (viaOwn topology own) ∧
      (∀ pid ∈ topology.aliveReplicas, plan.delegates pid = start.delegates pid) ∧
      ∀ pid ∉ topology.aliveReplicas, plan.latencies pid = durationMax ∨
        plan.delegates pid = start.delegates (plan.committers pid)
  have hown : ∀ pid, own pid < 2 ^ 66 := fun pid => pandoOwn_lt hmaj hnanos pid _
  have hvia : ∀ (plan : PandoPlan n), Inv plan → ∀ pid, ∀ committer ∈ topology.aliveReplicas,
      viaCommitter (.new topology) plan.toCommitterPlan pid committer =
        .ok (viaOwn topology own pid committer) := fun plan hplan pid committer hc => by
    rw [viaCommitter, (hplan.1.replica committer hc).2]
    rfl
  obtain ⟨r, hrun, ⟨hsound, hkept, hshared⟩, hleast⟩ := bestCommitter_ok
    (fun proposer committer (plan : PandoPlan n) => (do
      let latency ← viaCommitter (.new topology) plan.toCommitterPlan proposer committer
      if latency < plan.latencies proposer then return plan.take proposer latency committer
      else return plan : Except PlanPanic (PandoPlan n)))
    (fun plan => plan.latencies) (viaOwn topology own) Inv
    (fun proposer hp committer hc plan hplan => by
      simp only [hvia plan hplan proposer committer hc, bind, Except.bind]
      split
      · rename_i hlt
        refine ⟨_, rfl, ⟨hplan.1.take hp hc, fun pid hpid => ?_, fun pid hpid => ?_⟩, ?_, ?_,
          fun pid hne => ?_⟩
        · have hne : pid ≠ proposer := fun heq => hp (heq ▸ hpid)
          simpa only [PandoPlan.take, Function.update_of_ne hne] using hplan.2.1 pid hpid
        · rcases eq_or_ne pid proposer with rfl | hne
          · simp only [PandoPlan.take, CommitterPlan.take, Function.update_self]
            exact Or.inr (hplan.2.1 committer hc)
          · simpa only [PandoPlan.take, CommitterPlan.take, Function.update_of_ne hne] using
              hplan.2.2 pid hpid
        · simp only [PandoPlan.take, CommitterPlan.take, Function.update_self]
          exact hlt.le
        · simp only [PandoPlan.take, CommitterPlan.take, Function.update_self, le_refl]
        · simp only [PandoPlan.take, CommitterPlan.take, Function.update_of_ne hne]
      · rename_i hge
        exact ⟨plan, rfl, hplan, le_rfl, not_lt.mp hge, fun _ _ => rfl⟩)
    (show Inv start from ⟨⟨fun pid hpid => ⟨(hdelegates pid hpid).committer, (hdelegates pid hpid).latency⟩,
      fun pid hpid => Or.inl (hmax pid hpid)⟩, fun _ _ => rfl,
        fun pid hpid => Or.inl (hmax pid hpid)⟩)
  have hchooses := hsound.chooses (alive_nonempty hmaj)
    (fun pid committer _ => viaOwn_lt hnanos hown pid committer) hleast
  have hsame : ∀ pid ∈ topology.aliveReplicas,
      pandoOwn topology pid (r.delegates pid) = own pid := fun pid hpid => by rw [hkept pid hpid]
  have hsame' : ∀ pid, ∀ committer ∈ topology.aliveReplicas,
      viaOwn topology (fun pid => pandoOwn topology pid (r.delegates pid)) pid committer =
        viaOwn topology own pid committer := fun pid committer hc => by
    simp only [viaOwn, hsame committer hc]
  refine ⟨r, ?_, ⟨⟨fun pid hpid => ?_, fun pid hpid => ?_, fun pid hpid committer hc => ?_⟩,
    fun pid hpid => ?_, fun pid hpid => ?_⟩⟩
  · simp only [pandoPlan]
    rw [hstart]
    exact hrun
  · obtain ⟨hcommitter, hlatency⟩ := hchooses.replica pid hpid
    exact ⟨hcommitter, hlatency.trans (hsame pid hpid).symm⟩
  · obtain ⟨hcommitter, hlatency⟩ := hchooses.committer pid hpid
    exact ⟨hcommitter, hlatency.trans (hsame' pid _ hcommitter).symm⟩
  · exact (hchooses.least pid hpid committer hc).trans_eq (hsame' pid committer hc).symm
  · obtain ⟨hcommitter, hlatency⟩ := hchooses.replica pid hpid
    have h := hdelegates pid hpid
    exact ⟨hkept pid hpid ▸ h.alive, hcommitter, hlatency.trans (hsame pid hpid).symm,
      fun delegate hd => (hlatency.trans h.latency.symm).trans_le (h.least delegate hd)⟩
  · have hcommitter := (hchooses.committer pid hpid).1
    rw [hkept _ hcommitter]
    refine (hshared pid hpid).resolve_left fun hlast => ?_
    have := viaOwn_lt hnanos hown pid (r.committers pid)
    have := (hchooses.committer pid hpid).2
    omega

omit [NeZero n] in
theorem multiPaxosPlan_ok :
    ∃ plan, multiPaxosPlan topology (.new topology) = .ok plan ∧
      plan.leaders = leadersOf topology plan.latencies ∧
      ∀ leader ∈ topology.aliveReplicas, plan.latencies leader = multiPaxosLatency topology leader := by
  have hone : ∀ leader requester, (do
      let rtt ← indexed ((LinkTables.new topology).quorumLink leader)
        ((LinkTables.new topology).majQuorum - 1)
      return (LinkTables.new topology).linkRtts requester leader + rtt) =
      Except.ok (ε := PlanPanic) (multiPaxosLatency topology leader requester) := by
    intro leader requester
    rw [LinkTables.quorumLink, quorum3pLink_ok hmaj]
    rfl
  obtain ⟨latencies, hrun, hlatencies⟩ := tabulate_rows topology.aliveList
    (fun leader _ => tabulate_all fun requester => hone leader requester) fun _ _ => durationMax
  refine ⟨⟨latencies, leadersOf topology latencies⟩, ?_, rfl, fun leader hl =>
    hlatencies leader (topology.mem_aliveList.mpr hl)⟩
  simp only [multiPaxosPlan]
  rw [hrun]
  rfl

structure Best3P (topology : Topology n) (leader requester : Fin n) (best : Nat × Fin n) : Prop where
  mayLead : MayLead topology requester best.2
  latency : best.1 = multiPaxos3PLatency topology leader requester best.2
  least : ∀ committer, MayLead topology requester committer →
    best.1 ≤ multiPaxos3PLatency topology leader requester committer

theorem best3P_ok (hnanos : InNanos topology) (leader requester : Fin n) :
    ∃ best, best3P topology (.new topology) leader requester = .ok best ∧
      Best3P topology leader requester best := by
  have hskip : ∀ committer ∈ topology.aliveReplicas,
      (topology.isAlive requester && decide (committer ≠ requester)) = true ↔
        ¬ MayLead topology requester committer := by
    intro committer hc
    simp only [Topology.isAlive, Bool.and_eq_true, decide_eq_true_eq, MayLead, hc, true_and,
      Classical.not_imp, ne_eq]
  obtain ⟨best, hrun, hsound, -, hleast⟩ := @Lib.foldlM_least _ _ _
    (fun best => best.1 = durationMax ∨ MayLead topology requester best.2 ∧
      best.1 = multiPaxos3PLatency topology leader requester best.2)
    Prod.fst
    (fun (best : Nat × Fin n) committer => (do
      if topology.isAlive requester && decide (committer ≠ requester) then return best
      let rtt ← indexed ((LinkTables.new topology).quorum3pLinkRtts leader committer)
        ((LinkTables.new topology).majQuorum - 1)
      let latency := topology.linkLatency requester leader + rtt +
        topology.linkLatency committer requester
      if latency < best.1 then return (latency, committer) else return best :
        Except PlanPanic (Nat × Fin n)))
    (fun committer t => MayLead topology requester committer ∧
      t = multiPaxos3PLatency topology leader requester committer)
    topology.aliveList
    (fun committer hc best hbest => by
      have hc := topology.mem_aliveList.mp hc
      by_cases hmay : MayLead topology requester committer
      · simp only [if_neg fun h => (hskip committer hc).mp h hmay, quorum3pLink_ok hmaj, bind,
          Except.bind]
        rw [show topology.linkLatency requester leader +
          quorumTime topology (relayed topology.linkLatency leader committer) (majority topology) +
            topology.linkLatency committer requester =
              multiPaxos3PLatency topology leader requester committer from rfl]
        split
        · rename_i hlt
          exact ⟨_, rfl, Or.inr ⟨hmay, rfl⟩, hlt.le, fun t ht => ht.2 ▸ le_rfl⟩
        · rename_i hge
          exact ⟨best, rfl, hbest, le_rfl, fun t ht => ht.2 ▸ not_lt.mp hge⟩
      · refine ⟨best, ?_, hbest, le_rfl, fun t ht => absurd ht.1 hmay⟩
        simp only [if_pos ((hskip committer hc).mpr hmay)]
        rfl)
    (durationMax, 0) (Or.inl rfl)
  have hleast' : ∀ committer, MayLead topology requester committer →
      best.1 ≤ multiPaxos3PLatency topology leader requester committer := fun committer hmay =>
    hleast committer (topology.mem_aliveList.mpr hmay.1) _ ⟨hmay, rfl⟩
  obtain ⟨hmay, hlatency⟩ := hsound.resolve_left fun hlast => by
    obtain ⟨committer, hmay⟩ : ∃ committer, MayLead topology requester committer := by
      by_cases halive : requester ∈ topology.aliveReplicas
      · exact ⟨requester, halive, fun _ => rfl⟩
      · obtain ⟨committer, hc⟩ := alive_nonempty hmaj
        exact ⟨committer, hc, fun h => absurd h halive⟩
    have := hleast' committer hmay
    have := quorumTime_relayed_lt hmaj hnanos leader committer
    have := hnanos requester leader
    have := hnanos committer requester
    simp only [multiPaxos3PLatency, durationMax] at *
    omega
  exact ⟨best, hrun, hmay, hlatency, hleast'⟩

theorem multiPaxos3PPlan_ok (hnanos : InNanos topology) :
    ∃ plan, multiPaxos3PPlan topology (.new topology) = .ok plan ∧
      plan.leaders = leadersOf topology plan.latencies ∧
      ∀ leader ∈ topology.aliveReplicas, ∀ requester, Best3P topology leader requester
        (plan.latencies leader requester, plan.committers leader requester) := by
  choose best hrun hbest using best3P_ok hmaj hnanos
  obtain ⟨table, htab, htable⟩ := tabulate_rows topology.aliveList
    (fun leader _ => tabulate_all fun requester => hrun leader requester) fun _ _ => (durationMax, 0)
  let latencies := fun leader requester => (table leader requester).1
  refine ⟨⟨latencies, fun leader requester => (table leader requester).2, leadersOf topology latencies⟩,
    ?_, rfl, fun leader hl requester => ?_⟩
  · simp only [multiPaxos3PPlan]
    rw [htab]
    rfl
  · simp only [latencies, htable leader (topology.mem_aliveList.mpr hl)]
    exact hbest leader requester

omit [NeZero n] in
theorem leadersOf_least (latencies : Fin n → Fin n → Nat) :
    ∃ leader rest, leadersOf topology latencies = leader :: rest ∧
      leader ∈ topology.aliveReplicas ∧
      ∀ other ∈ topology.aliveReplicas, sumOf (latencies leader) ≤ sumOf (latencies other) := by
  have hperm := List.mergeSort_perm topology.aliveList
    fun a b => decide (sumOf (latencies a) ≤ sumOf (latencies b))
  have hsorted := sorted_mergeSort (fun a => sumOf (latencies a)) topology.aliveList
  obtain ⟨pid, hpid⟩ := alive_nonempty hmaj
  cases hl : leadersOf topology latencies with
  | nil =>
      have := hperm.mem_iff.mpr (topology.mem_aliveList.mpr hpid)
      rw [leadersOf] at hl
      rw [hl] at this
      cases this
  | cons leader rest =>
      rw [leadersOf] at hl
      rw [hl] at hperm hsorted
      refine ⟨leader, rest, rfl, topology.mem_aliveList.mp (hperm.subset List.mem_cons_self),
        fun other hother => ?_⟩
      rcases List.mem_cons.mp (hperm.mem_iff.mpr (topology.mem_aliveList.mpr hother)) with rfl | hrest
      · exact le_rfl
      · exact (List.pairwise_cons.mp hsorted).1 other hrest

end

-- Everyone gets the best that is to be had from one committer, whatever the algorithm pays for it.
theorem committer_plans_optimal [NeZero n] (topology : Topology n)
    (pathLatencies : Fin n → Fin n → Nat)
    (hmaj : majority topology ≤ topology.aliveReplicas.card) (hnanos : InNanos topology)
    (hlink : ∀ a b, pathLatencies a b ≤ topology.linkLatency a b) :
    ∃ minEffort paxos epaxos pando,
      minEffortPlan topology (.new topology pathLatencies) = .ok minEffort ∧
      paxosPlan topology (.new topology) = .ok paxos ∧
      epaxosPlan topology (.new topology) paxos = .ok epaxos ∧
      pandoPlan topology (.new topology) = .ok pando ∧
      minEffort.Chooses topology (minEffortOwn topology pathLatencies)
        (minEffortVia topology pathLatencies) ∧
      paxos.Chooses topology (paxosOwn topology) (viaOwn topology (paxosOwn topology)) ∧
      epaxos.Chooses topology (epaxosOwn topology) (viaOwn topology (epaxosOwn topology)) ∧
      pando.Chooses topology := by
  obtain ⟨minEffort, hminEffort, heffort⟩ := minEffortPlan_chooses hmaj hnanos hlink
  obtain ⟨paxos, hpaxos, hp⟩ := paxosPlan_chooses hmaj hnanos
  obtain ⟨epaxos, hepaxos, he⟩ := epaxosPlan_chooses hmaj hnanos hp
  obtain ⟨pando, hpando, hd⟩ := pandoPlan_chooses hmaj hnanos
  exact ⟨minEffort, paxos, epaxos, pando, hminEffort, hpaxos, hepaxos, hpando, heffort, hp, he, hd⟩

theorem committer_plans_optimal_ring : ∃ minEffort paxos epaxos pando,
    minEffortPlan ring (.new ring ring.linkLatency) = .ok minEffort ∧
    paxosPlan ring (.new ring) = .ok paxos ∧ epaxosPlan ring (.new ring) paxos = .ok epaxos ∧
    pandoPlan ring (.new ring) = .ok pando ∧
    minEffort.Chooses ring (minEffortOwn ring ring.linkLatency) (minEffortVia ring ring.linkLatency) ∧
    paxos.Chooses ring (paxosOwn ring) (viaOwn ring (paxosOwn ring)) ∧
    epaxos.Chooses ring (epaxosOwn ring) (viaOwn ring (epaxosOwn ring)) ∧ pando.Chooses ring :=
  committer_plans_optimal ring ring.linkLatency (by decide) (by unfold InNanos; decide) (by decide)

-- The first leader of either plan has the least total over all requesters, each of them at its best.
theorem leader_plans_optimal [NeZero n] (topology : Topology n)
    (hmaj : majority topology ≤ topology.aliveReplicas.card) (hnanos : InNanos topology) :
    ∃ multi multi3P leader leader3P rest rest3P,
      multiPaxosPlan topology (.new topology) = .ok multi ∧
      multiPaxos3PPlan topology (.new topology) = .ok multi3P ∧
      multi.leaders = leader :: rest ∧ multi3P.leaders = leader3P :: rest3P ∧
      leader ∈ topology.aliveReplicas ∧ leader3P ∈ topology.aliveReplicas ∧
      (∀ other ∈ topology.aliveReplicas, multi.latencies other = multiPaxosLatency topology other ∧
        sumOf (multi.latencies leader) ≤ sumOf (multi.latencies other)) ∧
      ∀ other ∈ topology.aliveReplicas, (∀ requester, Best3P topology other requester
          (multi3P.latencies other requester, multi3P.committers other requester)) ∧
        sumOf (multi3P.latencies leader3P) ≤ sumOf (multi3P.latencies other) := by
  obtain ⟨multi, hmulti, hleaders, hlatencies⟩ := multiPaxosPlan_ok hmaj
  obtain ⟨multi3P, hmulti3P, hleaders3P, hbest⟩ := multiPaxos3PPlan_ok hmaj hnanos
  obtain ⟨leader, rest, hlist, halive, hleast⟩ := leadersOf_least hmaj multi.latencies
  obtain ⟨leader3P, rest3P, hlist3P, halive3P, hleast3P⟩ := leadersOf_least hmaj multi3P.latencies
  exact ⟨multi, multi3P, leader, leader3P, rest, rest3P, hmulti, hmulti3P, hleaders.trans hlist,
    hleaders3P.trans hlist3P, halive, halive3P,
    fun other hother => ⟨hlatencies other hother, hleast other hother⟩,
    fun other hother => ⟨hbest other hother, hleast3P other hother⟩⟩

theorem leader_plans_optimal_ring : ∃ multi multi3P leader leader3P rest rest3P,
    multiPaxosPlan ring (.new ring) = .ok multi ∧ multiPaxos3PPlan ring (.new ring) = .ok multi3P ∧
    multi.leaders = leader :: rest ∧ multi3P.leaders = leader3P :: rest3P ∧
    leader ∈ ring.aliveReplicas ∧ leader3P ∈ ring.aliveReplicas ∧
    (∀ other ∈ ring.aliveReplicas, multi.latencies other = multiPaxosLatency ring other ∧
      sumOf (multi.latencies leader) ≤ sumOf (multi.latencies other)) ∧
    ∀ other ∈ ring.aliveReplicas, (∀ requester, Best3P ring other requester
        (multi3P.latencies other requester, multi3P.committers other requester)) ∧
      sumOf (multi3P.latencies leader3P) ≤ sumOf (multi3P.latencies other) :=
  leader_plans_optimal ring (by decide) (by unfold InNanos; decide)

section

variable (hp : ShortestPaths pathLatencies) (hlink : ∀ a b, pathLatencies a b ≤ topology.linkLatency a b)
  (hmaj : majority topology ≤ topology.aliveReplicas.card)
include hmaj

include hp in
theorem minEffortVia_detour {pid committer : Fin n} (leader : Fin n)
    (hlink : ∀ a b, pathLatencies a b ≤ topology.linkLatency a b) :
    minEffortVia topology pathLatencies pid committer ≤ topology.linkLatency pid leader +
      quorumTime topology (relayed topology.linkLatency leader committer) (majority topology) +
        topology.linkLatency committer pid := by
  have := quorumTime_add_le (relayed pathLatencies pid committer)
    (relayed topology.linkLatency leader committer) (topology.linkLatency pid leader) majority_pos hmaj fun r _ => by
      have := hp.triangle pid leader r
      have := hlink pid leader
      have := hlink leader r
      have := hlink r committer
      simp only [relayed]
      omega
  simp only [minEffortVia]
  omega

include hlink in
theorem minEffortOwn_le (pid : Fin n) : minEffortOwn topology pathLatencies pid ≤
    quorumTime topology (relayed topology.linkLatency pid pid) (majority topology) := by
  have := quorumTime_add_le (relayed pathLatencies pid pid)
    (relayed topology.linkLatency pid pid) 0 majority_pos hmaj fun r _ => by
      have := hlink pid r
      have := hlink r pid
      simp only [relayed]
      omega
  exact this

include hp hlink in
theorem minEffortOwn_le_pandoOwn (pid delegate : Fin n) :
    minEffortOwn topology pathLatencies pid ≤ pandoOwn topology pid delegate := by
  have hback := le_card_answered (relayed topology.linkLatency delegate pid) majority_pos hmaj
  obtain ⟨back, hb⟩ := Finset.card_pos.mp (majority_pos.trans_le hback)
  have hb' := (Finset.mem_filter.mp hb).2
  refine quorumTime_add_le _ _ _ majority_pos hmaj fun r _ => ?_
  have := hlink pid r
  have := hlink r delegate
  have := hlink delegate back
  have := hlink back pid
  have := hp.triangle r delegate pid
  have := hp.triangle delegate back pid
  simp only [relayed] at hb' ⊢
  omega

variable {effort : CommitterPlan n}
  (heffort : effort.Chooses topology (minEffortOwn topology pathLatencies)
    (minEffortVia topology pathLatencies))
include heffort

omit hmaj in
theorem minEffort_le_via {pid committer : Fin n} (hmay : MayLead topology pid committer) :
    effort.latencies pid ≤ minEffortVia topology pathLatencies pid committer := by
  by_cases halive : pid ∈ topology.aliveReplicas
  · obtain rfl := hmay.2 halive
    rw [(heffort.replica committer halive).2]
    exact Nat.le_add_right _ _
  · exact heffort.least pid halive committer hmay.1

include hp hlink in
theorem minEffort_le_chooses {own : Fin n → Nat} {plan : CommitterPlan n}
    (hplan : plan.Chooses topology own (viaOwn topology own))
    (hown : ∀ pid, minEffortOwn topology pathLatencies pid ≤ own pid) (pid : Fin n) :
    effort.latencies pid ≤ plan.latencies pid := by
  by_cases halive : pid ∈ topology.aliveReplicas
  · rw [(heffort.replica pid halive).2, (hplan.replica pid halive).2]
    exact hown pid
  · obtain ⟨hc, hlatency⟩ := hplan.committer pid halive
    have hle := heffort.least pid halive _ hc
    have hdetour := quorumTime_add_le (relayed pathLatencies pid (plan.committers pid))
      (relayed pathLatencies (plan.committers pid) (plan.committers pid))
      (topology.linkLatency pid (plan.committers pid)) majority_pos hmaj fun r _ => by
        have := hp.triangle pid (plan.committers pid) r
        have := hlink pid (plan.committers pid)
        simp only [relayed]
        omega
    have := hown (plan.committers pid)
    simp only [hlatency, viaOwn, linkRtt, minEffortVia, minEffortOwn] at *
    omega

include hp hlink in
theorem minEffort_le_multiPaxos (pid leader : Fin n) (hl : leader ∈ topology.aliveReplicas) :
    effort.latencies pid ≤ multiPaxosLatency topology leader pid := by
  by_cases halive : pid ∈ topology.aliveReplicas
  · rw [(heffort.replica pid halive).2]
    have := quorumTime_add_le (relayed pathLatencies pid pid)
      (relayed topology.linkLatency leader leader) (linkRtt topology pid leader) majority_pos hmaj fun r _ => by
        have := hp.triangle pid leader r
        have := hp.triangle r leader pid
        have := hlink pid leader
        have := hlink leader pid
        have := hlink leader r
        have := hlink r leader
        simp only [relayed, linkRtt]
        omega
    simp only [minEffortOwn, multiPaxosLatency]
    omega
  · refine (heffort.least pid halive leader hl).trans
      ((minEffortVia_detour hp hmaj leader hlink).trans ?_)
    simp only [multiPaxosLatency, linkRtt]
    omega

omit hmaj in
include hp in
theorem minEffort_le_level {pid leader : Fin n} (hmay : MayLead topology pid leader)
    {levels : List (KnowledgeLevel n)} (hlv : Leveled topology pathLatencies pid leader levels)
    {level : KnowledgeLevel n} (hlevel : level ∈ levels) :
    effort.latencies pid ≤ level.time + topology.linkLatency leader pid := by
  have hquorum : quorumTime topology (relayed pathLatencies pid leader) (majority topology) ≤
      level.time := by
    refine quorumTime_le majority_pos ((hlv.valid level hlevel).trans
      (Finset.card_le_card fun r hr => ?_))
    rw [hlv.known level hlevel] at hr
    obtain ⟨halive, -, hlat⟩ := (mem_knownBy topology).mp hr
    have := hp.self leader
    simp only [along] at hlat
    refine Finset.mem_filter.mpr ⟨halive, ?_⟩
    simp only [relayed]
    omega
  have := minEffort_le_via heffort hmay
  simp only [minEffortVia] at this
  omega

end

-- Nobody commits sooner than by the plan of the least effort, with whatever algorithm; a delegate
-- never hurts, nor does a committer of one's own when one has no vote.
theorem min_effort_least [NeZero n] (topology : Topology n) (pathLatencies : Fin n → Fin n → Nat)
    (hp : ShortestPaths pathLatencies)
    (hlink : ∀ a b, pathLatencies a b ≤ topology.linkLatency a b) (hnanos : InNanos topology)
    (hmaj : majority topology ≤ topology.aliveReplicas.card) :
    ∃ minEffort paxos epaxos pando multi multi3P kl,
      minEffortPlan topology (.new topology pathLatencies) = .ok minEffort ∧
      paxosPlan topology (.new topology) = .ok paxos ∧
      epaxosPlan topology (.new topology) paxos = .ok epaxos ∧
      pandoPlan topology (.new topology) = .ok pando ∧
      multiPaxosPlan topology (.new topology) = .ok multi ∧
      multiPaxos3PPlan topology (.new topology) = .ok multi3P ∧
      allKnowledgeLevels topology (.new topology pathLatencies) = .ok kl ∧
      ∀ pid, minEffort.latencies pid ≤ paxos.latencies pid ∧
        minEffort.latencies pid ≤ epaxos.latencies pid ∧
        minEffort.latencies pid ≤ pando.latencies pid ∧
        pando.latencies pid ≤ paxos.latencies pid ∧
        (∀ leader ∈ topology.aliveReplicas,
          minEffort.latencies pid ≤ multi.latencies leader pid ∧
          minEffort.latencies pid ≤ multi3P.latencies leader pid ∧
          (pid ∉ topology.aliveReplicas → multi3P.latencies leader pid ≤ multi.latencies leader pid)) ∧
        ∀ leader, MayLead topology pid leader → ∀ level ∈ kl pid leader,
          minEffort.latencies pid ≤ level.time + topology.linkLatency leader pid := by
  obtain ⟨effort, heffort, hleast⟩ := minEffortPlan_chooses hmaj hnanos hlink
  obtain ⟨paxos, hpaxos, hchoosesP⟩ := paxosPlan_chooses hmaj hnanos
  obtain ⟨epaxos, hepaxos, hchoosesE⟩ := epaxosPlan_chooses hmaj hnanos hchoosesP
  obtain ⟨pando, hpando, hchoosesD⟩ := pandoPlan_chooses hmaj hnanos
  obtain ⟨multi, hmulti, -, hlatencies⟩ := multiPaxosPlan_ok hmaj
  obtain ⟨multi3P, hmulti3P, -, hbest⟩ := multiPaxos3PPlan_ok hmaj hnanos
  obtain ⟨kl, hkl, hlv⟩ := allKnowledgeLevels_ok hp hmaj
  have hownP : ∀ pid, minEffortOwn topology pathLatencies pid ≤ paxosOwn topology pid := fun pid => by
    have := minEffortOwn_le hlink hmaj pid
    simp only [paxosOwn]
    omega
  have hownE : ∀ pid, minEffortOwn topology pathLatencies pid ≤ epaxosOwn topology pid := fun pid => by
    unfold epaxosOwn
    split
    · rename_i hq
      exact (minEffortOwn_le hlink hmaj pid).trans
        (quorumTime_mono majority_pos (le_max_right _ _) hq)
    · exact hownP pid
  have hownD : ∀ pid ∈ topology.aliveReplicas,
      pandoOwn topology pid (pando.delegates pid) ≤ paxosOwn topology pid := fun pid hpid => by
    have hd := hchoosesD.delegate pid hpid
    have hself := hd.least pid hpid
    rw [hd.latency] at hself
    refine hself.trans_eq ?_
    simp only [pandoOwn, paxosOwn]
    omega
  refine ⟨effort, paxos, epaxos, pando, multi, multi3P, kl, heffort, hpaxos, hepaxos, hpando, hmulti,
    hmulti3P, hkl, fun pid => ⟨minEffort_le_chooses hp hlink hmaj hleast hchoosesP hownP pid,
      minEffort_le_chooses hp hlink hmaj hleast hchoosesE hownE pid,
      minEffort_le_chooses hp hlink hmaj hleast hchoosesD.committers
        (fun pid => minEffortOwn_le_pandoOwn hp hlink hmaj pid _) pid, ?_,
      fun leader hl => ⟨?_, ?_, fun hpid => ?_⟩, fun leader hmay level hlevel => ?_⟩⟩
  · by_cases halive : pid ∈ topology.aliveReplicas
    · rw [(hchoosesD.committers.replica pid halive).2, (hchoosesP.replica pid halive).2]
      exact hownD pid halive
    · obtain ⟨hc, hlatency⟩ := hchoosesP.committer pid halive
      refine (hchoosesD.committers.least pid halive _ hc).trans ?_
      rw [hlatency]
      exact Nat.add_le_add_left (hownD _ hc) _
  · rw [hlatencies leader hl]
    exact minEffort_le_multiPaxos hp hlink hmaj hleast pid leader hl
  · have hb := hbest leader hl pid
    exact ((minEffort_le_via hleast hb.mayLead).trans
      (minEffortVia_detour hp hmaj leader hlink)).trans_eq hb.latency.symm
  · refine ((hbest leader hl pid).least leader ⟨hl, fun h => absurd h hpid⟩).trans_eq ?_
    rw [hlatencies leader hl]
    simp only [multiPaxos3PLatency, multiPaxosLatency, linkRtt]
    omega
  · exact minEffort_le_level hp hleast hmay (hlv pid leader hmay) hlevel

theorem min_effort_least_line : ∃ minEffort paxos epaxos pando multi multi3P kl,
    minEffortPlan line (.new line lineLatency) = .ok minEffort ∧
    paxosPlan line (.new line) = .ok paxos ∧ epaxosPlan line (.new line) paxos = .ok epaxos ∧
    pandoPlan line (.new line) = .ok pando ∧ multiPaxosPlan line (.new line) = .ok multi ∧
    multiPaxos3PPlan line (.new line) = .ok multi3P ∧
    allKnowledgeLevels line (.new line lineLatency) = .ok kl ∧
    ∀ pid, minEffort.latencies pid ≤ paxos.latencies pid ∧
      minEffort.latencies pid ≤ epaxos.latencies pid ∧
      minEffort.latencies pid ≤ pando.latencies pid ∧ pando.latencies pid ≤ paxos.latencies pid ∧
      (∀ leader ∈ line.aliveReplicas, minEffort.latencies pid ≤ multi.latencies leader pid ∧
        minEffort.latencies pid ≤ multi3P.latencies leader pid ∧
        (pid ∉ line.aliveReplicas → multi3P.latencies leader pid ≤ multi.latencies leader pid)) ∧
      ∀ leader, MayLead line pid leader → ∀ level ∈ kl pid leader,
        minEffort.latencies pid ≤ level.time + line.linkLatency leader pid :=
  min_effort_least line lineLatency ⟨by decide, by decide⟩ (fun _ _ => le_rfl)
    (by unfold InNanos; decide) (by decide)

end KCensus.Propagation

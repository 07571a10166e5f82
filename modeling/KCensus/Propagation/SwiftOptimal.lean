import KCensus.Lib.Selection
import KCensus.Propagation.Levels
import KCensus.Propagation.SwiftSearch
import Mathlib.Algebra.Order.BigOperators.Group.List
import Mathlib.Data.Finset.Lattice.Fold
import Mathlib.Order.Bounds.Basic
import Mathlib.Algebra.Order.Ring.Nat

namespace KCensus.Propagation

variable {n : Nat}

theorem sumOf_le {f g : Fin n → Nat} (h : ∀ r, f r ≤ g r) : sumOf f ≤ sumOf g :=
  List.sum_le_sum fun r _ => h r

theorem sum_le {f : Fin n → Nat} {bound : Nat} (h : ∀ i, f i ≤ bound) :
    ((List.finRange n).map f).sum ≤ n * bound := by
  have := List.sum_le_card_nsmul ((List.finRange n).map f) bound fun x hx => by
    obtain ⟨i, -, rfl⟩ := List.mem_map.mp hx
    exact h i
  simpa using this

-- Link latencies are made from a number of nanoseconds in 64 bits.
def InNanos (topology : Topology n) : Prop := ∀ a b, topology.linkLatency a b < 2 ^ 64

namespace SwiftSearch

variable {search : SwiftSearch n} {fast : Fin n → Nat} {chosen members : List (Fin n)}
  {best : SwiftBest n} {start slots : Nat}

-- What everyone pays when `members` join those chosen so far.
def completion (search : SwiftSearch n) (fast : Fin n → Nat) (members : List (Fin n))
    (r : Fin n) : Nat :=
  min (max (fast r) (members.toFinset.sup (search.linkRtts r))) (search.mpaxos r)

structure Completes (search : SwiftSearch n) (fast : Fin n → Nat) (chosen members : List (Fin n))
    (found : SwiftBest n) : Prop where
  leader : found.leader = search.leader
  quorum : found.quorum = some (chosen ++ members).toFinset
  latencies : found.latencies = search.completion fast members
  total : found.total = sumOf (search.completion fast members)

def Suffixes (search : SwiftSearch n) : Prop :=
  search.suffixSorted = (List.range (search.candidates.length + 1)).map fun start r =>
    ((search.candidates.drop start).map (search.linkRtts r)).mergeSort (· ≤ ·)

theorem completion_cons (member : Fin n) : search.completion fast (member :: members) =
    search.completion (fun r => max (fast r) (search.linkRtts r member)) members := by
  funext r
  simp only [completion, List.toFinset_cons, Finset.sup_insert, max_assoc]

theorem stillToCome_ok (hs : search.Suffixes) (hroom : start + (slots + 1) ≤ search.candidates.length) :
    ∃ nearest, search.stillToCome start (slots + 1) = .ok nearest ∧
      ∀ members : List (Fin n), members.Sublist (search.candidates.drop start) →
        members.length = slots + 1 → ∀ r, nearest r ≤ members.toFinset.sup (search.linkRtts r) := by
  have hlen : ∀ r, slots < (((search.candidates.drop start).map (search.linkRtts r)).mergeSort
      (· ≤ ·)).length := by
    intro r
    rw [List.length_mergeSort, List.length_map, List.length_drop]
    omega
  have hrow : ∀ r, (do
      let rtts ← indexed search.suffixSorted start
      indexed (rtts r) (slots + 1 - 1)) =
      Except.ok (ε := PlanPanic)
        ((((search.candidates.drop start).map (search.linkRtts r)).mergeSort (· ≤ ·)).get ⟨slots, hlen r⟩) := by
    intro r
    have hstart : start < search.suffixSorted.length := by
      rw [hs, List.length_map, List.length_range]
      omega
    rw [indexed_ok hstart]
    simp only [bind, Except.bind, Nat.add_sub_cancel]
    have hrow : search.suffixSorted[start] = fun r =>
        ((search.candidates.drop start).map (search.linkRtts r)).mergeSort (· ≤ ·) := by
      unfold Suffixes at hs
      simp only [hs, List.getElem_map, List.getElem_range]
    rw [hrow]
    exact indexed_ok (hlen r)
  have htab := Lib.tabulate_ok (List.finRange n) (fun r _ => hrow r) fun _ => 0
  simp only [List.mem_finRange, if_true] at htab
  refine ⟨_, htab, fun members hsub hm r => ?_⟩
  refine Lib.mergeSort_getElem_le (hsub.map (search.linkRtts r)) (fun y hy => ?_) (by simp [hm])
    (hlen r)
  obtain ⟨member, hmem, rfl⟩ := List.mem_map.mp hy
  exact Finset.le_sup (f := search.linkRtts r) (List.mem_toFinset.mpr hmem)

theorem explore_ok (hs : search.Suffixes) (hroom : start + slots ≤ search.candidates.length) :
    ∃ found, search.explore slots start fast chosen best = .ok found ∧ found.total ≤ best.total ∧
      (∀ members, members.Sublist (search.candidates.drop start) → members.length = slots →
        found.total ≤ sumOf (search.completion fast members)) ∧
      (found = best ∨ ∃ members, members.Sublist (search.candidates.drop start) ∧
        members.length = slots ∧ search.Completes fast chosen members found) := by
  induction slots generalizing start fast chosen best with
  | zero =>
      have hnil : (fun r => min (fast r) (search.mpaxos r)) = search.completion fast [] := by
        funext r
        simp [completion]
      refine ⟨search.complete fast chosen best, rfl, ?_⟩
      simp only [complete, hnil]
      split
      · rename_i hlt
        refine ⟨hlt.le, fun members _ hm => ?_, Or.inr ⟨[], List.nil_sublist _, rfl, rfl, ?_, rfl, rfl⟩⟩
        · rw [List.length_eq_zero_iff.mp hm]
        · simp
      · rename_i hge
        refine ⟨le_rfl, fun members _ hm => ?_, Or.inl rfl⟩
        rw [List.length_eq_zero_iff.mp hm]
        exact not_lt.mp hge
  | succ slots ih =>
      obtain ⟨nearest, hrun, hnear⟩ := stillToCome_ok hs hroom
      simp only [explore, hrun, bind, Except.bind]
      split
      · rename_i hcut
        refine ⟨best, rfl, le_rfl, fun members hsub hm => hcut.trans (sumOf_le fun r => ?_), Or.inl rfl⟩
        exact min_le_min_right _ (max_le_max_left _ (hnear members hsub hm r))
      · rw [if_neg (by omega)]
        let Inv : SwiftBest n → Prop := fun found => found = best ∨ ∃ members,
          members.Sublist (search.candidates.drop start) ∧ members.length = slots + 1 ∧
            search.Completes fast chosen members found
        let Target : Nat → Nat → Prop := fun next t => ∃ member members,
          search.candidates[next]? = some member ∧
          members.Sublist (search.candidates.drop (next + 1)) ∧ members.length = slots ∧
          t = sumOf (search.completion fast (member :: members))
        have hturn : ∀ next ∈ List.range' start (search.candidates.length - (slots + 1) + 1 - start),
            ∀ b, Inv b → ∃ found, (do
              let member ← indexed search.candidates next
              search.explore slots (next + 1) (fun r => max (fast r) (search.linkRtts r member))
                (chosen ++ [member]) b) = .ok found ∧ Inv found ∧ found.total ≤ b.total ∧
              ∀ t, Target next t → found.total ≤ t := by
          intro next hnext b hinv
          obtain ⟨hstart, hlt⟩ := List.mem_range'_1.mp hnext
          have hget : next < search.candidates.length := by omega
          obtain ⟨found, hfound, hle, hhit, hor⟩ := @ih
            (fun r => max (fast r) (search.linkRtts r search.candidates[next]))
            (chosen ++ [search.candidates[next]]) b (next + 1) (by omega)
          refine ⟨found, ?_, ?_, hle, ?_⟩
          · simp only [indexed_ok hget, bind, Except.bind]
            exact hfound
          · rcases hor with rfl | ⟨members, hsub, hm, hc⟩
            · exact hinv
            · refine Or.inr ⟨search.candidates[next] :: members, ?_, by simp [hm], hc.leader, ?_, ?_, ?_⟩
              · have hdrop : (search.candidates[next] :: search.candidates.drop (next + 1)).Sublist
                    (search.candidates.drop start) := by
                  rw [← List.drop_eq_getElem_cons hget]
                  exact List.drop_sublist_drop_left _ hstart
                exact (hsub.cons_cons _).trans hdrop
              · rw [hc.quorum, List.append_assoc, List.singleton_append]
              · rw [hc.latencies, completion_cons]
              · rw [hc.total, completion_cons]
          · rintro t ⟨member, members, hmember, hsub, hm, rfl⟩
            rw [List.getElem?_eq_getElem hget] at hmember
            cases hmember
            rw [completion_cons]
            exact hhit members hsub hm
        obtain ⟨found, hfold, hinv, hle, hhit⟩ :=
          Lib.foldlM_least hturn (Or.inl rfl)
        refine ⟨found, hfold, hle, fun members hsub hm => ?_, hinv⟩
        cases members with
        | nil => cases hm
        | cons member members =>
            obtain ⟨next, hstart, hget, hrest⟩ := Lib.cons_sublist_drop hsub
            have hnext := (List.getElem?_eq_some_iff.mp hget).1
            have hlen := hrest.length_le
            rw [List.length_drop] at hlen
            rw [List.length_cons] at hm
            exact hhit next (List.mem_range'_1.mpr ⟨hstart, by omega⟩) _
              ⟨member, members, hget, hrest, by omega, rfl⟩

end SwiftSearch

section

variable (topology : Topology n)

def linkRtt (a b : Fin n) : Nat := topology.linkLatency a b + topology.linkLatency b a

def majority : Nat := 1 + topology.nbReplicas / 2

def fastRoute (leader requester : Fin n) : Option (Finset (Fin n)) → Nat
  | some members => members.sup (linkRtt topology requester)
  | none =>
      max ((quorumRtts topology (.new topology) requester).getD
          (fastPaxosQuorum topology (majority topology) - 1) 0)
        (linkRtt topology requester leader)

def leaderRoute (leader requester : Fin n) : Nat :=
  (throughLeader topology leader requester).getD (majority topology - 1) 0

def IsSwiftCandidate (leader : Fin n) : Option (Finset (Fin n)) → Prop
  | some members =>
      leader ∈ members ∧ members ⊆ topology.aliveReplicas ∧ members.card = majority topology
  | none =>
      leader ∈ topology.aliveReplicas ∧
        fastPaxosQuorum topology (majority topology) < topology.aliveReplicas.card

def swiftLatency (leader : Fin n) (quorum : Option (Finset (Fin n))) (requester : Fin n) : Nat :=
  min (fastRoute topology leader requester quorum) (leaderRoute topology leader requester)

def swiftCost (leader : Fin n) (quorum : Option (Finset (Fin n))) : Nat :=
  sumOf (swiftLatency topology leader quorum)

variable {topology}

theorem getD_le {times : List Nat} {bound : Nat} (h : ∀ time ∈ times, time ≤ bound) (i : Nat) :
    times.getD i 0 ≤ bound := by
  rw [List.getD_eq_getElem?_getD]
  cases hget : times[i]? with
  | none => exact Nat.zero_le _
  | some time => exact h time (List.mem_of_getElem? hget)

theorem fastRoute_le (hnanos : InNanos topology) (leader requester : Fin n)
    (quorum : Option (Finset (Fin n))) : fastRoute topology leader requester quorum ≤ 2 ^ 65 := by
  have hrtt : ∀ replica, linkRtt topology requester replica ≤ 2 ^ 65 := by
    intro replica
    have := hnanos requester replica
    have := hnanos replica requester
    simp only [linkRtt]
    omega
  cases quorum with
  | some members => exact Finset.sup_le fun replica _ => hrtt replica
  | none =>
      refine max_le (getD_le (fun time htime => ?_) _) (hrtt leader)
      obtain ⟨replica, -, rfl⟩ := List.mem_map.mp ((List.mergeSort_perm _ _).mem_iff.mp htime)
      exact hrtt replica

theorem swiftCost_lt (hnanos : InNanos topology) (hn : n ≤ 2 ^ 27) (leader : Fin n)
    (quorum : Option (Finset (Fin n))) : swiftCost topology leader quorum < durationMax := by
  have hlatency : ∀ requester, swiftLatency topology leader quorum requester ≤ 2 ^ 65 :=
    fun requester => (min_le_left _ _).trans (fastRoute_le hnanos leader requester quorum)
  have hsum := sum_le hlatency
  simp only [swiftCost, sumOf, durationMax]
  omega

variable (topology)

-- Either nothing has been found yet, or the best candidate so far is what it says it is.
def SoundBest (best : SwiftBest n) : Prop :=
  best.total = durationMax ∨
    IsSwiftCandidate topology best.leader best.quorum ∧
      best.latencies = swiftLatency topology best.leader best.quorum ∧
      best.total = swiftCost topology best.leader best.quorum

variable {topology}

theorem majQuorum_new (hmaj : majority topology ≤ topology.aliveReplicas.card) :
    (LinkTables.new topology).majQuorum = majority topology := by
  have := topology.card_alive_le
  simp only [LinkTables.new, majority] at hmaj ⊢
  omega

theorem indexed_getD {xs : List Nat} {i : Nat} (h : i < xs.length) :
    indexed xs i = .ok (xs.getD i 0) := by
  simp only [indexed_ok h, List.getD, List.getElem?_eq_getElem h, Option.getD_some]

theorem leaderPriorities_ok (hmaj : majority topology ≤ topology.aliveReplicas.card) :
    ∃ leaders, leaderPriorities topology (.new topology) = .ok leaders ∧
      ∀ leader, leader ∈ leaders ↔ leader ∈ topology.aliveReplicas := by
  have hkey : ∀ leader ∈ topology.aliveList, indexed ((LinkTables.new topology).quorumLink leader)
      ((LinkTables.new topology).majQuorum - 1) =
      .ok (((LinkTables.new topology).quorumLink leader).getD (majority topology - 1) 0) := by
    intro leader _
    rw [majQuorum_new hmaj]
    refine indexed_getD ?_
    rw [LinkTables.quorumLink, LinkTables.new, List.length_mergeSort, List.length_map,
      topology.length_aliveList]
    have : 0 < majority topology := by simp [majority]
    omega
  have htab := Lib.tabulate_ok topology.aliveList hkey fun _ => 0
  refine ⟨_, by rw [leaderPriorities, htab]; rfl, fun leader => ?_⟩
  rw [(List.mergeSort_perm _ _).mem_iff, topology.mem_aliveList]

theorem swiftMpaxosLatencies_ok (hmaj : majority topology ≤ topology.aliveReplicas.card) :
    swiftMpaxosLatencies topology (.new topology) = .ok (leaderRoute topology) := by
  have hone : ∀ leader requester, indexed (throughLeader topology leader requester)
      ((LinkTables.new topology).majQuorum - 1) = .ok (leaderRoute topology leader requester) := by
    intro leader requester
    rw [majQuorum_new hmaj]
    refine indexed_getD ?_
    rw [throughLeader, List.length_mergeSort, List.length_map, topology.length_aliveList]
    have : 0 < majority topology := by simp [majority]
    omega
  have hrow := fun leader => Lib.tabulate_ok (List.finRange n) (fun r _ => hone leader r) fun _ => 0
  have htab := Lib.tabulate_ok (List.finRange n) (fun leader _ => hrow leader) fun _ _ => 0
  simp only [List.mem_finRange, if_true] at htab
  exact htab

theorem tryFullSize_ok (hmaj : majority topology ≤ topology.aliveReplicas.card)
    (hsize : fastPaxosQuorum topology (majority topology) < topology.aliveReplicas.card)
    {leader : Fin n} (hl : leader ∈ topology.aliveReplicas) {best : SwiftBest n}
    (hb : SoundBest topology best) :
    ∃ found, tryFullSize topology (.new topology) (leaderRoute topology) best leader = .ok found ∧
      SoundBest topology found ∧ found.total ≤ best.total ∧
      ∀ t, t = swiftCost topology leader none → found.total ≤ t := by
  have hone : ∀ requester, (do
      let rtt ← indexed (quorumRtts topology (.new topology) requester)
        (fastPaxosQuorum topology (LinkTables.new topology).majQuorum - 1)
      return max rtt ((LinkTables.new topology).linkRtts requester leader)) =
      Except.ok (ε := PlanPanic) (fastRoute topology leader requester none) := by
    intro requester
    rw [majQuorum_new hmaj, indexed_getD]
    · rfl
    · rw [quorumRtts, List.length_mergeSort, List.length_map, topology.length_aliveList]
      omega
  have htab := Lib.tabulate_ok (List.finRange n) (fun r _ => hone r) fun _ => 0
  simp only [List.mem_finRange, if_true] at htab
  have hpay : (fun r => if fastRoute topology leader r none < leaderRoute topology leader r then
      fastRoute topology leader r none else leaderRoute topology leader r) =
      swiftLatency topology leader none := by
    funext r
    simp only [swiftLatency]
    split <;> omega
  simp only [tryFullSize, bind, Except.bind] at htab ⊢
  rw [htab]
  simp only [hpay]
  split
  · rename_i hle
    exact ⟨_, rfl, Or.inr ⟨⟨hl, hsize⟩, rfl, rfl⟩, hle, fun t ht => ht ▸ le_rfl⟩
  · rename_i hlt
    exact ⟨best, rfl, hb, le_rfl, fun t ht => ht ▸ (not_le.mp hlt).le⟩

theorem mem_swiftCandidates {leader pid : Fin n} :
    pid ∈ swiftCandidates topology (.new topology) leader ↔
      pid ∈ topology.aliveReplicas ∧ pid ≠ leader := by
  rw [swiftCandidates, (List.mergeSort_perm _ _).mem_iff, List.mem_filter, topology.mem_aliveList,
    decide_eq_true_eq]

theorem nodup_swiftCandidates (leader : Fin n) :
    (swiftCandidates topology (.new topology) leader).Nodup :=
  (List.mergeSort_perm _ _).nodup_iff.mpr (topology.nodup_aliveList.filter _)

theorem length_swiftCandidates {leader : Fin n} (hl : leader ∈ topology.aliveReplicas) :
    (swiftCandidates topology (.new topology) leader).length + 1 = topology.aliveReplicas.card := by
  have hset : (swiftCandidates topology (.new topology) leader).toFinset =
      topology.aliveReplicas.erase leader := by
    ext pid
    rw [List.mem_toFinset, mem_swiftCandidates, Finset.mem_erase, and_comm]
  rw [← List.toFinset_card_of_nodup (nodup_swiftCandidates leader), hset,
    Finset.card_erase_add_one hl]

theorem completion_eq {leader : Fin n} (members : List (Fin n)) :
    (swiftSearch topology (.new topology) (leaderRoute topology) leader).completion
        (fun r => (LinkTables.new topology).linkRtts r leader) members =
      swiftLatency topology leader (some ([leader] ++ members).toFinset) := by
  funext r
  simp only [SwiftSearch.completion, swiftLatency, fastRoute, List.singleton_append,
    List.toFinset_cons, Finset.sup_insert]
  rfl

theorem searchLeader_ok (hmaj : majority topology ≤ topology.aliveReplicas.card) {leader : Fin n}
    (hl : leader ∈ topology.aliveReplicas) {best : SwiftBest n} (hb : SoundBest topology best) :
    ∃ found, searchLeader topology (.new topology) (leaderRoute topology) best leader = .ok found ∧
      SoundBest topology found ∧ found.total ≤ best.total ∧
      ∀ t, (∃ members, IsSwiftCandidate topology leader (some members) ∧
        t = swiftCost topology leader (some members)) → found.total ≤ t := by
  have hlen := length_swiftCandidates hl
  have hpos : 0 < majority topology := by simp [majority]
  obtain ⟨found, hrun, hle, hhit, hor⟩ := @SwiftSearch.explore_ok n
    (swiftSearch topology (.new topology) (leaderRoute topology) leader)
    (fun r => (LinkTables.new topology).linkRtts r leader) [leader] best 0
    (majority topology - 1) rfl (by simp only [swiftSearch]; omega)
  simp only [completion_eq] at hhit
  refine ⟨found, ?_, ?_, hle, ?_⟩
  · rw [searchLeader, majQuorum_new hmaj, if_neg (by simp only [swiftSearch]; omega)]
    exact hrun
  · rcases hor with rfl | ⟨members, hsub, hm, hc⟩
    · exact hb
    · rw [List.drop_zero] at hsub
      have hmem : ∀ pid ∈ members, pid ∈ topology.aliveReplicas ∧ pid ≠ leader := fun pid hpid =>
        mem_swiftCandidates.mp (hsub.subset hpid)
      have hnodup : ([leader] ++ members).Nodup :=
        List.nodup_cons.mpr ⟨fun h => (hmem leader h).2 rfl,
          hsub.nodup (nodup_swiftCandidates leader)⟩
      have hleader : found.leader = leader := hc.leader
      refine Or.inr ⟨?_, ?_, ?_⟩
      · rw [hc.quorum, hleader]
        refine ⟨by simp, fun pid hpid => ?_, ?_⟩
        · rcases List.mem_cons.mp (List.mem_toFinset.mp hpid) with rfl | hpid
          · exact hl
          · exact (hmem pid hpid).1
        · rw [List.toFinset_card_of_nodup hnodup, List.length_append, hm, List.length_singleton]
          omega
      · rw [hc.latencies, completion_eq, hc.quorum, hleader]
      · rw [hc.total, completion_eq, hc.quorum, hleader, swiftCost]
  · rintro t ⟨members, ⟨hlm, halive, hcard⟩, rfl⟩
    let rest := (swiftCandidates topology (.new topology) leader).filter (· ∈ members)
    have hset : rest.toFinset = members.erase leader := by
      ext pid
      rw [List.mem_toFinset, List.mem_filter, mem_swiftCandidates, Finset.mem_erase,
        decide_eq_true_eq]
      exact ⟨fun h => ⟨h.1.2, h.2⟩, fun h => ⟨⟨halive h.2, h.1⟩, h.2⟩⟩
    have hrest : rest.length = majority topology - 1 := by
      rw [← List.toFinset_card_of_nodup ((nodup_swiftCandidates leader).filter _), hset,
        Finset.card_erase_of_mem hlm, hcard]
    have hall : ([leader] ++ rest).toFinset = members := by
      rw [List.singleton_append, List.toFinset_cons, hset, Finset.insert_erase hlm]
    have := hhit rest (by rw [List.drop_zero]; exact List.filter_sublist) hrest
    rwa [hall] at this

-- What the plan promises: one of the candidates, and none that is cheaper.
structure OptimalSwiftPlan (topology : Topology n) (plan : SwiftPaxosPlan n) : Prop where
  candidate : IsSwiftCandidate topology plan.leader plan.fixedFastQuorum
  latencies : plan.latencies = swiftLatency topology plan.leader plan.fixedFastQuorum
  least : IsLeast {cost | ∃ leader quorum, IsSwiftCandidate topology leader quorum ∧
    cost = swiftCost topology leader quorum} (sumOf plan.latencies)

theorem exists_isSwiftCandidate (hmaj : majority topology ≤ topology.aliveReplicas.card) :
    ∃ leader quorum, IsSwiftCandidate topology leader quorum := by
  obtain ⟨members, hsub, hcard⟩ := Finset.exists_subset_card_eq hmaj
  have hne : members.Nonempty := Finset.card_pos.mp (by simp [hcard, majority])
  obtain ⟨leader, hl⟩ := hne
  exact ⟨leader, some members, hl, hsub, hcard⟩

theorem fullSizeLoop_ok (hmaj : majority topology ≤ topology.aliveReplicas.card)
    {leaders : List (Fin n)} (hleaders : ∀ leader, leader ∈ leaders ↔ leader ∈ topology.aliveReplicas)
    {best : SwiftBest n} (hb : SoundBest topology best) :
    ∃ found, fullSizeLoop topology (.new topology) (leaderRoute topology) leaders best = .ok found ∧
      SoundBest topology found ∧
      ∀ leader, IsSwiftCandidate topology leader none →
        found.total ≤ swiftCost topology leader none := by
  rw [fullSizeLoop, majQuorum_new hmaj, topology.length_aliveList]
  split
  · rename_i hsize
    obtain ⟨found, hrun, hsound, -, hhit⟩ := Lib.foldlM_least
      (fun leader hl best hb => tryFullSize_ok hmaj hsize ((hleaders leader).mp hl) hb) hb
    exact ⟨found, hrun, hsound, fun leader hc => hhit leader ((hleaders leader).mpr hc.1) _ rfl⟩
  · rename_i hsize
    exact ⟨best, rfl, hb, fun leader hc => absurd hc.2 hsize⟩

-- Five replicas on a ring, the fifth one failed, and a sixth process without a vote.
def ring : Topology 6 where
  replicas := {0, 1, 2, 3, 4}
  aliveReplicas := {0, 1, 2, 3}
  linkLatency := fun a b => (b.val + 6 - a.val) % 6
  alive_subset := by decide

end

end KCensus.Propagation

import KCensus.Census.NodeState

namespace KCensus.Census

open Propagation (PropagationGraphs)

variable {n : Nat}

def rank : Option (Fin n) → Nat
  | none => 0
  | some a => a.val + 1

theorem compareRounds_eq (a b : Option (Fin n)) : compareRounds a b = compare (rank a) (rank b) := by
  cases a with
  | none =>
      cases b with
      | none => rfl
      | some b => exact (Nat.compare_eq_lt.mpr (Nat.succ_pos b.val)).symm
  | some a =>
      cases b with
      | none => exact (Nat.compare_eq_gt.mpr (Nat.succ_pos a.val)).symm
      | some b =>
          change compare a.val b.val = compare (a.val + 1) (b.val + 1)
          rcases Nat.lt_trichotomy a.val b.val with h | h | h
          · rw [Nat.compare_eq_lt.mpr h, Nat.compare_eq_lt.mpr (by omega)]
          · rw [Nat.compare_eq_eq.mpr h, Nat.compare_eq_eq.mpr (by omega)]
          · rw [Nat.compare_eq_gt.mpr h, Nat.compare_eq_gt.mpr (by omega)]

theorem rank_injective {a b : Option (Fin n)} (h : rank a = rank b) : a = b := by
  cases a <;> cases b <;> simp_all [rank, Fin.ext_iff]

namespace NodeState

-- What one process does to its own state in a slot. Its knowledge only moves on along the schedule
-- of its proposer.
inductive Step (graph : PropagationGraphs n) : NodeState n → NodeState n → Prop
  | acceptWithKState {s s' : NodeState n} (v : Nat) (proposer : Fin n) (duration : Nat)
      (scheduled : duration ∈ (graph.schedule proposer s.id).times)
      (done : s.acceptWithKState v proposer duration graph = some s') : Step graph s s'
  | updateKState {s s' : NodeState n} (proposer : Fin n) (duration : Nat)
      (rooting : s.kProposer = some proposer)
      (scheduled : duration ∈ (graph.schedule proposer s.id).times)
      (onwards : s.kStateNanos ≤ duration)
      (done : s.updateKState duration graph = some s') : Step graph s s'
  | prepareFor (s : NodeState n) (leader : Fin n) : Step graph s (s.prepareFor leader)
  | paxosAccept (s : NodeState n) (leader : Fin n) (v : Nat) : Step graph s (s.paxosAccept leader v).1

-- Newest first.
inductive History (graph : PropagationGraphs n) (pid : Fin n) : List (NodeState n) → Prop
  | start : History graph pid [new pid]
  | next {s s' : NodeState n} {earlier : List (NodeState n)} (past : History graph pid (s :: earlier))
      (step : Step graph s s') : History graph pid (s' :: s :: earlier)

structure Later (s s' : NodeState n) : Prop where
  id : s.id = s'.id
  order :
    rank s.paxosAcceptRound < rank s'.paxosAcceptRound ∧ rank s.preparedFor ≤ rank s'.preparedFor ∨
    rank s.paxosAcceptRound = rank s'.paxosAcceptRound ∧
      (rank s.preparedFor < rank s'.preparedFor ∨
        rank s.preparedFor = rank s'.preparedFor ∧
          (s.kStateNanos < s'.kStateNanos ∨ s.kStateNanos = s'.kStateNanos ∧
            s.v.isSome = false ∧ s.kProposer.isSome = false ∧
              s'.v.isSome = true ∧ s'.kProposer.isSome = true))

theorem Later.trans {s s' s'' : NodeState n} (h : Later s s') (h' : Later s' s'') : Later s s'' := by
  obtain ⟨hid, ho⟩ := h
  obtain ⟨hid', ho'⟩ := h'
  refine ⟨hid.trans hid', ?_⟩
  rcases ho with ⟨h1, h2⟩ | ⟨h1, h2 | ⟨h2, h3 | ⟨h3, h4, h5, h6, h7⟩⟩⟩ <;>
    rcases ho' with ⟨k1, k2⟩ | ⟨k1, k2 | ⟨k2, k3 | ⟨k3, k4, k5, k6, k7⟩⟩⟩
  all_goals first
    | exact Or.inl ⟨by omega, by omega⟩
    | exact Or.inr ⟨by omega, Or.inl (by omega)⟩
    | exact Or.inr ⟨by omega, Or.inr ⟨by omega, Or.inl (by omega)⟩⟩
    | exact absurd (h6.symm.trans k4) (by decide)

def Before (s s' : NodeState n) : Prop := s = s' ∨ Later s s'

theorem Before.refl (s : NodeState n) : Before s s := Or.inl rfl

theorem Before.trans {s s' s'' : NodeState n} (h : Before s s') (h' : Before s' s'') :
    Before s s'' := by
  rcases h with rfl | h
  · exact h'
  · rcases h' with rfl | h'
    · exact Or.inr h
    · exact Or.inr (h.trans h')

theorem partialCmp_self (s : NodeState n) : s.partialCmp s = some .eq := by
  simp [partialCmp, compareRounds_eq]

theorem Later.partialCmp {s s' : NodeState n} (h : Later s s') :
    s.partialCmp s' = some .lt ∧ s'.partialCmp s = some .gt := by
  obtain ⟨hid, ho⟩ := h
  simp only [NodeState.partialCmp, compareRounds_eq, hid, ne_eq, not_true_eq_false, if_false]
  rcases ho with ⟨h1, h2⟩ | ⟨h1, h2 | ⟨h2, h3 | ⟨h3, h4, h5, h6, h7⟩⟩⟩
  · have e1 := Nat.compare_eq_lt.mpr h1
    have e2 := Nat.compare_eq_gt.mpr h1
    rcases Nat.eq_or_lt_of_le h2 with h2 | h2
    · simp [e1, e2, h2]
    · simp [e1, e2, Nat.compare_eq_lt.mpr h2, Nat.compare_eq_gt.mpr h2]
  · simp [h1, Nat.compare_eq_lt.mpr h2, Nat.compare_eq_gt.mpr h2]
  · simp [h1, h2, Nat.compare_eq_lt.mpr h3, Nat.compare_eq_gt.mpr h3]
  · simp [h1, h2, h3, h4, h5, h6, h7]
    decide

theorem updateKState_cases {s s' : NodeState n} {duration : Nat} {graph : PropagationGraphs n}
    (h : s.updateKState duration graph = some s') :
    s.preparedFor = none ∧ ∃ proposer, s.kProposer = some proposer ∧
      (s' = { s with kStateNanos := duration % 2 ^ 64,
                     preparedFor := some (graph.getLeader proposer) } ∨
        s' = { s with kStateNanos := duration % 2 ^ 64 }) := by
  simp only [updateKState, isFrozen] at h
  split at h
  · cases h
  · rename_i hfrozen
    refine ⟨by simpa using hfrozen, ?_⟩
    split at h
    · cases h
    · rename_i proposer hp
      refine ⟨proposer, hp, ?_⟩
      split at h
      · exact Or.inl (Option.some.inj h).symm
      · exact Or.inr (Option.some.inj h).symm

theorem acceptWithKState_cases {s s' : NodeState n} {v duration : Nat} {proposer : Fin n}
    {graph : PropagationGraphs n} (h : s.acceptWithKState v proposer duration graph = some s') :
    s.v = none ∧ s.kProposer = none ∧ s.kStateNanos = 0 ∧
      ({ s with v := some v, kProposer := some proposer } : NodeState n).updateKState duration graph =
        some s' := by
  simp only [acceptWithKState] at h
  split at h
  · cases h
  · rename_i hclear
    simp only [not_or, Bool.not_eq_true, Option.isSome_eq_false_iff, Option.isNone_iff_eq_none,
      ne_eq, Decidable.not_not] at hclear
    exact ⟨hclear.1, hclear.2.1, hclear.2.2, h⟩

theorem prepareFor_eq (s : NodeState n) (leader : Fin n) :
    s.prepareFor leader = { s with preparedFor := (s.prepareFor leader).preparedFor } ∧
      rank s.preparedFor ≤ rank (s.prepareFor leader).preparedFor := by
  simp only [prepareFor]
  split
  · rename_i h
    rw [compareRounds_eq, Nat.compare_eq_lt] at h
    exact ⟨rfl, h.le⟩
  · exact ⟨rfl, le_rfl⟩

theorem before_prepareFor (s : NodeState n) (leader : Fin n) : Before s (s.prepareFor leader) := by
  obtain ⟨heq, hle⟩ := s.prepareFor_eq leader
  rcases Nat.eq_or_lt_of_le hle with h | h
  · rw [heq, ← rank_injective h]
    exact Before.refl s
  · refine Or.inr ⟨by rw [heq], Or.inr ⟨by rw [heq], Or.inl h⟩⟩

theorem paxosAccept_cases (s : NodeState n) (leader : Fin n) (v : Nat) :
    (s.paxosAccept leader v).1 = s.prepareFor leader ∨
      rank s.paxosAcceptRound < rank (some leader) ∧
        (s.paxosAccept leader v).1 = { s.prepareFor leader with
          v := some v, paxosAcceptRound := some leader, kProposer := none, kStateNanos := 0 } := by
  simp only [paxosAccept]
  split
  · rename_i h
    rw [compareRounds_eq, Nat.compare_eq_lt, (s.prepareFor_eq leader).1] at h
    exact Or.inr ⟨h.2, rfl⟩
  · exact Or.inl rfl

theorem Step.before {graph : PropagationGraphs n} {s s' : NodeState n} (h : Step graph s s') :
    Before s s' := by
  cases h with
  | acceptWithKState v proposer duration scheduled done =>
      obtain ⟨hv, hp, hnanos, hupdate⟩ := acceptWithKState_cases done
      obtain ⟨hfree, _, _, rfl | rfl⟩ := updateKState_cases hupdate
      · have hfree : s.preparedFor = none := hfree
        refine Or.inr ⟨rfl, Or.inr ⟨rfl, Or.inl ?_⟩⟩
        rw [hfree]
        exact Nat.succ_pos _
      · refine Or.inr ⟨rfl, Or.inr ⟨rfl, Or.inr ⟨rfl, ?_⟩⟩⟩
        rcases Nat.eq_zero_or_pos (duration % 2 ^ 64) with h0 | hpos
        · exact Or.inr ⟨hnanos.trans h0.symm, by rw [hv]; rfl, by rw [hp]; rfl, rfl, rfl⟩
        · exact Or.inl (hnanos ▸ hpos)
  | updateKState proposer duration rooting scheduled onwards done =>
      obtain ⟨hfree, _, _, rfl | rfl⟩ := updateKState_cases done
      · refine Or.inr ⟨rfl, Or.inr ⟨rfl, Or.inl ?_⟩⟩
        rw [hfree]
        exact Nat.succ_pos _
      · obtain ⟨state, hstate, rfl⟩ := List.mem_map.mp scheduled
        rw [Nat.mod_eq_of_lt ((graph.schedule proposer s.id).nanos state hstate)]
        rcases Nat.eq_or_lt_of_le onwards with h | h
        · exact Or.inl (by rw [← h])
        · exact Or.inr ⟨rfl, Or.inr ⟨rfl, Or.inr ⟨rfl, Or.inl h⟩⟩⟩
  | prepareFor leader => exact before_prepareFor s leader
  | paxosAccept leader v =>
      rcases s.paxosAccept_cases leader v with h | ⟨hlt, h⟩
      · rw [h]
        exact before_prepareFor s leader
      · rw [h]
        exact Or.inr ⟨by rw [(s.prepareFor_eq leader).1], Or.inl ⟨hlt, (s.prepareFor_eq leader).2⟩⟩

-- A proposer is named only while the value comes from it.
structure Rooted (s : NodeState n) : Prop where
  v : s.kProposer.isSome → s.v.isSome
  round : s.kProposer.isSome → s.paxosAcceptRound = none

theorem Step.rooted {graph : PropagationGraphs n} {s s' : NodeState n} (h : Step graph s s')
    (hs : Rooted s) (hround : s.paxosAcceptRound.isSome → s.v.isSome) :
    Rooted s' ∧ (s'.paxosAcceptRound.isSome → s'.v.isSome) := by
  cases h with
  | acceptWithKState v proposer duration scheduled done =>
      obtain ⟨hv, hp, hnanos, hupdate⟩ := acceptWithKState_cases done
      have hnone : s.paxosAcceptRound = none := by
        by_contra hne
        have := hround (Option.isSome_iff_ne_none.mpr hne)
        rw [hv] at this
        exact absurd this (by decide)
      obtain ⟨_, _, _, rfl | rfl⟩ := updateKState_cases hupdate <;>
        exact ⟨⟨fun _ => rfl, fun _ => hnone⟩, fun _ => rfl⟩
  | updateKState proposer duration rooting scheduled onwards done =>
      obtain ⟨_, _, _, rfl | rfl⟩ := updateKState_cases done <;> exact ⟨⟨hs.v, hs.round⟩, hround⟩
  | prepareFor leader =>
      rw [(s.prepareFor_eq leader).1]
      exact ⟨⟨hs.v, hs.round⟩, hround⟩
  | paxosAccept leader v =>
      rcases s.paxosAccept_cases leader v with h | ⟨_, h⟩
      · rw [h, (s.prepareFor_eq leader).1]
        exact ⟨⟨hs.v, hs.round⟩, hround⟩
      · rw [h]
        exact ⟨⟨fun hsome => (Bool.false_ne_true hsome).elim,
          fun hsome => (Bool.false_ne_true hsome).elim⟩, fun _ => rfl⟩

namespace History

variable {graph : PropagationGraphs n} {pid : Fin n} {hist : List (NodeState n)}

theorem pairwise (h : History graph pid hist) : hist.Pairwise fun later earlier => Before earlier later := by
  induction h with
  | start => exact List.pairwise_singleton _ _
  | @next s s' earlier past step ih =>
      refine List.pairwise_cons.mpr ⟨fun t ht => ?_, ih⟩
      rcases List.mem_cons.mp ht with rfl | ht
      · exact step.before
      · exact ((List.pairwise_cons.mp ih).1 t ht).trans step.before

theorem total (h : History graph pid hist) {s s' : NodeState n} (hs : s ∈ hist) (hs' : s' ∈ hist) :
    Before s s' ∨ Before s' s := by
  obtain ⟨i, hi, rfl⟩ := List.getElem_of_mem hs
  obtain ⟨j, hj, rfl⟩ := List.getElem_of_mem hs'
  have hpair := List.pairwise_iff_getElem.mp h.pairwise
  rcases Nat.lt_trichotomy i j with hij | rfl | hij
  · exact Or.inr (hpair i j hi hj hij)
  · exact Or.inl (Before.refl _)
  · exact Or.inl (hpair j i hj hi hij)

theorem rooted (h : History graph pid hist) {s : NodeState n} (hs : s ∈ hist) : Rooted s := by
  have hall : ∀ t ∈ hist, Rooted t ∧ (t.paxosAcceptRound.isSome → t.v.isSome) := by
    clear hs
    induction h with
    | start =>
        intro t ht
        obtain rfl := List.mem_singleton.mp ht
        exact ⟨⟨fun hsome => (Bool.false_ne_true hsome).elim, fun _ => rfl⟩,
          fun hsome => (Bool.false_ne_true hsome).elim⟩
    | @next s₁ s₂ earlier past step ih =>
        intro t ht
        rcases List.mem_cons.mp ht with rfl | ht
        · obtain ⟨h1, h2⟩ := ih s₁ List.mem_cons_self
          exact step.rooted h1 h2
        · exact ih t ht
  exact (hall s hs).1

-- Any two points of a history compare, and the later one is the greater.
theorem partialCmp (h : History graph pid hist) :
    hist.Pairwise fun later earlier =>
      later = earlier ∧ later.partialCmp earlier = some .eq ∨
        later.partialCmp earlier = some .gt ∧ earlier.partialCmp later = some .lt := by
  refine h.pairwise.imp fun hbefore => ?_
  rcases hbefore with rfl | hlater
  · exact Or.inl ⟨rfl, partialCmp_self _⟩
  · exact Or.inr ⟨hlater.partialCmp.2, hlater.partialCmp.1⟩

end History

end NodeState

end KCensus.Census

import KCensus.Deps.Instance

namespace KCensus.Deps

variable {n : Nat}

abbrev ProposalCall (n : Nat) := Fin n × DepSet n

-- What a process proposed, as far as `calls` says: only its first call counts.
def firstProposal : List (ProposalCall n) → Fin n → Option (DepSet n)
  | [], _ => none
  | (src, deps) :: calls, other => if other = src then some deps else firstProposal calls other

namespace Instance

def recordAll (i : Instance n) (calls : List (ProposalCall n)) : Instance n :=
  calls.foldl (fun i call => i.recordPreaccept call.1 call.2) i

structure Classified (i : Instance n) : Prop where
  unheard : i.leaderDeps = none → i.endorsers = ∅
  heard : ∀ deps, i.leaderDeps = some deps →
    ∀ src, src ∈ i.endorsers ↔ i.preaccepts src = some deps
  union_iff : ∀ r k, k < i.union.marks r ↔
    ∃ src deps, i.preaccepts src = some deps ∧ k < deps.marks r

variable {i : Instance n}

theorem classified_new (coordinatorPid leader : Fin n) (commands : List (Command n))
    (deps : DepSet n) : (new coordinatorPid leader commands deps).Classified where
  unheard _ := rfl
  heard _ h := nomatch h
  union_iff r k := by
    constructor
    · intro h
      exact absurd h (Nat.not_lt_zero k)
    · rintro ⟨_, _, h, _⟩
      cases h

theorem recordPreaccept_of_recorded {src : Fin n} {own : DepSet n} (h : i.preaccepts src = some own)
    (deps : DepSet n) : i.recordPreaccept src deps = i := by
  have hs : i.hasPreaccept src = true := by simp [hasPreaccept, h]
  simp only [recordPreaccept, hs, if_true]

-- Everything that the first call for a process writes.
structure Recorded (i i' : Instance n) (src : Fin n) (deps : DepSet n) : Prop where
  leader : i'.leader = i.leader
  preaccepts : ∀ other, i'.preaccepts other = if other = src then some deps else i.preaccepts other
  union : i'.union = i.union.unionWith deps
  endorsers : i'.endorsers =
    if src = i.leader then
      insert src i.endorsers ∪ Finset.univ.filter fun other => i.preaccepts other = some deps
    else if i.leaderDeps = some deps then insert src i.endorsers
    else i.endorsers

theorem recorded_recordPreaccept {src : Fin n} (h : i.preaccepts src = none) (deps : DepSet n) :
    Recorded i (i.recordPreaccept src deps) src deps := by
  have hs : ¬ i.hasPreaccept src = true := by simp [hasPreaccept, h]
  simp only [recordPreaccept, if_neg hs]
  exact ⟨rfl, fun _ => rfl, rfl, rfl⟩

theorem Recorded.classified {i' : Instance n} {src : Fin n} {deps : DepSet n}
    (hr : Recorded i i' src deps) (hnew : i.preaccepts src = none) (h : i.Classified) :
    i'.Classified := by
  have hleader : i'.leaderDeps = if i.leader = src then some deps else i.leaderDeps := by
    rw [leaderDeps, hr.leader, hr.preaccepts]
    rfl
  refine ⟨fun hnone => ?_, fun own hown other => ?_, fun r k => ?_⟩
  · rw [hleader] at hnone
    rcases eq_or_ne i.leader src with heq | hne
    · rw [if_pos heq] at hnone
      cases hnone
    · rw [if_neg hne] at hnone
      rw [hr.endorsers, if_neg hne.symm, hnone, if_neg (by simp)]
      exact h.unheard hnone
  · rw [hleader] at hown
    rw [hr.endorsers, hr.preaccepts]
    rcases eq_or_ne i.leader src with heq | hne
    · -- The leader's own proposal: everyone before it is classified now.
      rw [if_pos heq, Option.some.injEq] at hown
      have hempty := h.unheard (by rw [leaderDeps, heq, hnew])
      rw [if_pos heq.symm, hempty, ← hown]
      rcases eq_or_ne other src with rfl | hother
      · simp
      · simp [hother]
    · rw [if_neg hne] at hown
      rw [if_neg hne.symm, hown]
      rcases eq_or_ne other src with rfl | hother
      · have hout : other ∉ i.endorsers := by
          rw [h.heard own hown, hnew]
          simp
        rcases eq_or_ne own deps with rfl | hdeps
        · simp
        · simp [hdeps, hdeps.symm, hout]
      · rw [if_neg hother, ← h.heard own hown other]
        rcases eq_or_ne own deps with rfl | hdeps
        · simp [hother]
        · simp [hdeps]
  · have : NeZero n := ⟨Nat.ne_of_gt r.pos⟩
    rw [hr.union, DepSet.unionWith_marks, lt_max_iff, h.union_iff r k]
    constructor
    · rintro (⟨other, own, hown, hk⟩ | hk)
      · have hother : other ≠ src := by
          rintro rfl
          rw [hnew] at hown
          cases hown
        exact ⟨other, own, by rw [hr.preaccepts, if_neg hother, hown], hk⟩
      · exact ⟨src, deps, by rw [hr.preaccepts, if_pos rfl], hk⟩
    · rintro ⟨other, own, hown, hk⟩
      rw [hr.preaccepts] at hown
      split at hown
      · cases hown
        exact Or.inr hk
      · exact Or.inl ⟨other, own, hown, hk⟩

theorem Classified.recordPreaccept (h : i.Classified) (src : Fin n) (deps : DepSet n) :
    (i.recordPreaccept src deps).Classified := by
  cases hs : i.preaccepts src with
  | some own => rwa [recordPreaccept_of_recorded hs]
  | none => exact (recorded_recordPreaccept hs deps).classified hs h

theorem leader_recordPreaccept (i : Instance n) (src : Fin n) (deps : DepSet n) :
    (i.recordPreaccept src deps).leader = i.leader := by
  unfold Instance.recordPreaccept
  split <;> rfl

theorem preaccepts_recordPreaccept (i : Instance n) (src other : Fin n) (deps : DepSet n) :
    (i.recordPreaccept src deps).preaccepts other =
      (i.preaccepts other).or (if other = src then some deps else none) := by
  cases hs : i.preaccepts src with
  | some own =>
      rw [recordPreaccept_of_recorded hs]
      rcases eq_or_ne other src with rfl | hne
      · rw [hs, Option.some_or]
      · rw [if_neg hne, Option.or_none]
  | none =>
      rw [(recorded_recordPreaccept hs deps).preaccepts]
      rcases eq_or_ne other src with rfl | hne
      · rw [if_pos rfl, if_pos rfl, hs, Option.none_or]
      · rw [if_neg hne, if_neg hne, Option.or_none]

theorem Classified.recordAll (h : i.Classified) (calls : List (ProposalCall n)) :
    (i.recordAll calls).Classified := by
  induction calls generalizing i with
  | nil => exact h
  | cons call calls ih => exact ih (h.recordPreaccept call.1 call.2)

theorem leader_recordAll (i : Instance n) (calls : List (ProposalCall n)) :
    (i.recordAll calls).leader = i.leader := by
  induction calls generalizing i with
  | nil => rfl
  | cons call calls ih => exact (ih _).trans (leader_recordPreaccept i call.1 call.2)

theorem preaccepts_recordAll (i : Instance n) (calls : List (ProposalCall n)) (src : Fin n) :
    (i.recordAll calls).preaccepts src = (i.preaccepts src).or (firstProposal calls src) := by
  induction calls generalizing i with
  | nil => exact (Option.or_none).symm
  | cons call calls ih =>
      refine (ih _).trans ?_
      rw [preaccepts_recordPreaccept, Option.or_assoc, firstProposal]
      split
      · rw [Option.some_or]
      · rw [Option.none_or]

theorem Classified.same {i' : Instance n} (h : i.Classified) (h' : i'.Classified)
    (hl : i.leader = i'.leader) (hp : i.preaccepts = i'.preaccepts) :
    i.endorsers = i'.endorsers ∧ i.union = i'.union ∧ i.preacceptsCount = i'.preacceptsCount ∧
      i.leaderDeps = i'.leaderDeps ∧ i.allPreacceptsEndorse = i'.allPreacceptsEndorse := by
  have hdeps : i.leaderDeps = i'.leaderDeps := by
    rw [leaderDeps, leaderDeps, hl, hp]
  have hcount : i.preacceptsCount = i'.preacceptsCount := by
    simp only [preacceptsCount, preacceptors, hp]
  have hend : i.endorsers = i'.endorsers := by
    cases hown : i.leaderDeps with
    | none => rw [h.unheard hown, h'.unheard (hdeps ▸ hown)]
    | some own =>
        ext src
        rw [h.heard own hown src, h'.heard own (hdeps ▸ hown) src, hp]
  have hunion : i.union = i'.union := by
    apply DepSet.ext
    funext r
    refine eq_of_forall_lt_iff fun k => ?_
    rw [h.union_iff, h'.union_iff, hp]
  exact ⟨hend, hunion, hcount, hdeps, by rw [allPreacceptsEndorse, allPreacceptsEndorse, hend, hcount]⟩

theorem arrival_order_irrelevant (coordinatorPid leader : Fin n) (commands : List (Command n))
    (deps : DepSet n) :
    (∀ calls calls', (∀ src, firstProposal calls src = firstProposal calls' src) →
      let i := (new coordinatorPid leader commands deps).recordAll calls
      let i' := (new coordinatorPid leader commands deps).recordAll calls'
      i.endorsers = i'.endorsers ∧ i.union = i'.union ∧ i.preacceptsCount = i'.preacceptsCount ∧
        i.leaderDeps = i'.leaderDeps ∧ i.allPreacceptsEndorse = i'.allPreacceptsEndorse) ∧
    ∀ calls,
      let i := (new coordinatorPid leader commands deps).recordAll calls
      (∀ src, i.preaccepts src = firstProposal calls src) ∧
        (i.leaderDeps = none → i.endorsers = ∅) ∧
        ∀ own, i.leaderDeps = some own → ∀ src, src ∈ i.endorsers ↔ i.preaccepts src = some own := by
  have hnew := classified_new coordinatorPid leader commands deps
  have hfirst : ∀ calls src,
      ((new coordinatorPid leader commands deps).recordAll calls).preaccepts src =
        firstProposal calls src := by
    intro calls src
    rw [preaccepts_recordAll]
    exact Option.none_or
  refine ⟨fun calls calls' hsame => ?_, fun calls => ⟨hfirst calls, ?_, ?_⟩⟩
  · refine (hnew.recordAll calls).same (hnew.recordAll calls') ?_ ?_
    · rw [leader_recordAll, leader_recordAll]
    · funext src
      rw [hfirst, hfirst, hsame]
  · exact (hnew.recordAll calls).unheard
  · exact (hnew.recordAll calls).heard

theorem arrival_order_irrelevant_late_leader :
    ((new (0 : Fin 2) 0 [] (DepSet.new 2)).recordAll
        [(1, DepSet.new 2), (0, DepSet.new 2)]).endorsers =
      ((new (0 : Fin 2) 0 [] (DepSet.new 2)).recordAll
        [(0, DepSet.new 2), (1, DepSet.new 2), (0, ⟨fun _ => 1⟩)]).endorsers :=
  ((arrival_order_irrelevant 0 0 [] (DepSet.new 2)).1 _ _ (by decide)).1

end Instance

end KCensus.Deps

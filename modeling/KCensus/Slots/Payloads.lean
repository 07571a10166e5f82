import KCensus.Slots.Agreement

namespace KCensus.Slots

variable {n : Nat} [NeZero n]

theorem commits_have_payload (a : SlotAlgorithm n) {w : World n a.RoundState}
    (h : World.Reachable a.deployment w) {p : Fin n} (hp : w.Clean a.getCommitter p) :
    (∀ v, w.crashed p ≠ some (.removingMissing v)) ∧
      ∀ slot v src lastV value priority,
        (p, .broadcast ⟨⟨.commit slot v, src, lastV⟩, value⟩ priority) ∈ w.hist →
        (p, .committed slot v) ∈ w.hist := by
  have hs := h.sound a.regular
  refine ⟨fun v hv => hs.harmless p _ hp hv v rfl, ?_⟩
  intro slot v src lastV value priority he
  obtain ⟨u, hu, hnamed⟩ := hs.announced p slot v _ hp he rfl
  have hsame : u = v := by
    cases a with
    | kcensus k => exact hnamed trivial
    | paxosFamily f =>
      -- In EPaxos the round state alone does not tell, but what is announced was decided.
      by_cases hmode : f.mode = .ePaxos
      · have hrecorded := PaxosFamily.recorded (by rw [hmode]; rfl) h
        exact hrecorded.announced hu he rfl rfl
      · exact hnamed hmode
  exact hsame ▸ hu

-- Every uid has the replica 1 as its committer.
def threePhase : PaxosFamily 4 where
  cluster := ePaxosFour.cluster
  mode := .multiPaxos3P
  committers := some fun _ => 1
  leaders_alive := by decide
  toAll_eq := rfl
  swift_leader := by decide
  swift_committers := by decide

namespace threePhase

def write (p : Fin 4) : Command 4 := ⟨p, 0, [], false, 0, none⟩

def submit (p : Fin 4) : Label 4 := .submit p (write p) .same

def receive (src p : Fin 4) : Label 4 := .receive src p .same

end threePhase

theorem commits_have_payload_threePhase :
    ∃ w, World.init.follow threePhase.deployment [threePhase.submit 0, threePhase.receive 0 1] =
        some w ∧ w.crashed 1 = none ∧
      (1, .broadcast ⟨⟨.commit 0 0, 1, none⟩, none⟩ (some 0)) ∈ w.hist ∧
      (1, .committed 0 0) ∈ w.hist ∧ ∀ v, w.crashed 1 ≠ some (.removingMissing v) := by
  have hsome : (World.init.follow threePhase.deployment
      [threePhase.submit 0, threePhase.receive 0 1]).any (fun w =>
        decide (w.crashed 1 = none) &&
          decide ((1, .broadcast ⟨⟨.commit 0 0, 1, none⟩, none⟩ (some 0)) ∈ w.hist) &&
          w.hist.all fun e => match e.2 with
            | .unready _ => false
            | _ => true) = true := by decide +kernel
  obtain ⟨w, hw, hchecks⟩ := (Option.any_eq_true _ _).1 hsome
  simp only [Bool.and_eq_true, decide_eq_true_eq, List.all_eq_true] at hchecks
  obtain ⟨⟨hcrash, htold⟩, hclean⟩ := hchecks
  obtain ⟨hpayload, hcommitted⟩ := commits_have_payload (.paxosFamily threePhase)
    (.follow (fun _ => rfl) .init hw) (p := 1) fun v hv => absurd (hclean _ hv) Bool.false_ne_true
  exact ⟨w, hw, hcrash, htold, hcommitted 0 0 1 none none (some 0) htold, hpayload⟩

-- The client's request and the leader's Accept reach 1 on different links, the Accept first.
theorem accept_without_payload : ∃ w, World.Reachable threePhase.deployment w ∧
    w.crashed 1 = some (.removingMissing 6) := by
  have hrun : (World.init.follow threePhase.deployment
      [threePhase.submit 3, threePhase.receive 3 0, threePhase.receive 0 1]).any (fun w =>
        decide (w.crashed 1 = some (.removingMissing 6))) = true := by decide +kernel
  obtain ⟨w, hw, hcrash⟩ := (Option.any_eq_true _ _).1 hrun
  exact ⟨w, .follow (fun _ => rfl) .init hw, of_decide_eq_true hcrash⟩

end KCensus.Slots

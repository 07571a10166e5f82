import KCensus.Slots.Honesty
import KCensus.Slots.KCensusConduct
import KCensus.Slots.PaxosFamily.Conduct
import KCensus.Slots.Algorithms

namespace KCensus.Slots

variable {n : Nat} [NeZero n] {R : Type} {d : Deployment n R}

namespace SlotAlgorithm

-- The fallback is an accept phase that any replica may open.
def Phased : SlotAlgorithm n → Prop
  | paxosFamily f => f.mode = .ePaxos
  | kcensus _ => True

def Busy : (a : SlotAlgorithm n) → ConsensusShard n a.RoundState → Prop
  | paxosFamily _ => PaxosFamily.Valued
  | kcensus _ => KCensusSettings.Stocked

def Votes (a : SlotAlgorithm n) (p : Fin n) : Prop := a.deployment.cluster.isReplica p = true

theorem forthright (a : SlotAlgorithm n) : Forthright a.deployment a.Phased a.Busy := by
  cases a with
  | paxosFamily f => exact ⟨fun _ _ => PaxosFamily.Conducts.candid⟩
  | kcensus k => exact ⟨fun _ _ => KCensusSettings.Conducts.candid⟩

end SlotAlgorithm

theorem World.Run.honest {a : SlotAlgorithm n} {w : World n a.RoundState}
    (h : World.Run a.deployment (fun w l => ¬ w.Overtakes l) w) :
    w.Honest a.deployment a.Phased a.Busy := by
  induction h with
  | init => exact .init
  | step hw ho hs hok hstep ih =>
    exact ih.step a.forthright a.regular (hw.reachable.sound a.regular) hw.calm
      ((ho.sound a.regular).spare hs) hstep

theorem fast_reports_right (a : SlotAlgorithm n) {w : World n a.RoundState}
    (h : World.Run a.deployment (fun w l => ¬ w.Overtakes l) w) {p : Fin n} {slot v waited : Nat}
    {command : Command n} (he : (p, .handed (some (slot, v)) command) ∈ w.hist)
    (hp : command.requester = p) (hreport : command.report = some ⟨true, waited⟩)
    (hshown : Shown a.Phased (a.Votes p) w.hist p slot) :
    ∃ q, (q = p ∨ ∃ u, (p, .learned slot u q) ∈ w.hist) ∧
      (∃ u, (q, .decided slot u true) ∈ w.hist) ∧ ∀ u, (q, .decided slot u false) ∉ w.hist := by
  have hw := h.honest
  obtain ⟨q, u, hdecided, hq⟩ := hw.said p _ he slot v waited rfl hp hreport hshown
  refine ⟨q, hq, ⟨u, hdecided⟩, fun u' hslow => ?_⟩
  cases hw.once q slot u true u' false hdecided hslow

namespace World

end World

-- Three replicas and a client.
def ePaxosFour : PaxosFamily 4 where
  cluster :=
    { topology :=
        { replicas := {0, 1, 2}
          aliveReplicas := {0, 1, 2}
          linkLatency := fun _ _ => 1
          alive_subset := fun _ h => h }
      leaderPriority := [0]
      sendPaxosMessagesToAll := false
      hasLeader := List.cons_ne_nil 0 [] }
  mode := .ePaxos
  committers := none
  leaders_alive := by decide
  toAll_eq := rfl
  swift_leader := by decide
  swift_committers := by decide

namespace ePaxosFour

def submit (p : Fin 4) : Label 4 := .submit p ⟨p, 0, [], false, 0, none⟩ .same

def receive (src p : Fin 4) : Label 4 := .receive src p .same

-- 0 and 1 propose different values, and 1 has that of the client accepted.
def fallback : List (Label 4) :=
  [submit 3, submit 1, receive 3 0, receive 1 0, receive 0 1, receive 3 1, receive 0 1, receive 1 0,
    receive 0 1, receive 1 3, receive 1 3]

end ePaxosFour

theorem fast_reports_right_ePaxosFour : ∃ w, World.Reachable ePaxosFour.deployment w ∧
    (0, .handed (some (0, 0)) ⟨0, 0, [], false, 0, some ⟨true, 0⟩⟩) ∈ w.hist ∧
    ∃ q, (q = 0 ∨ ∃ u, (0, .learned 0 u q) ∈ w.hist) ∧
      (∃ u, (q, .decided 0 u true) ∈ w.hist) ∧ ∀ u, (q, .decided 0 u false) ∉ w.hist := by
  have hrun : (World.init.followIf ePaxosFour.deployment (fun w l => ¬ w.Overtakes l)
      [ePaxosFour.submit 0, ePaxosFour.receive 0 1, ePaxosFour.receive 1 0]).any (fun w =>
        decide ((0, .handed (some (0, 0)) ⟨0, 0, [], false, 0, some ⟨true, 0⟩⟩) ∈ w.hist) &&
          decide ((0, .outranked 0) ∉ w.hist)) = true := by decide +kernel
  obtain ⟨w, hw, hchecks⟩ := (Option.any_eq_true _ _).1 hrun
  simp only [Bool.and_eq_true, decide_eq_true_eq] at hchecks
  have h : World.Run ePaxosFour.deployment (fun w l => ¬ w.Overtakes l) w :=
    .followIf (fun _ => rfl) .init hw
  refine ⟨w, h.reachable, hchecks.1, ?_⟩
  exact fast_reports_right (.paxosFamily ePaxosFour) h hchecks.1 rfl rfl
    ⟨fun _ => Or.inl rfl, fun _ => hchecks.2, fun hno => (hno rfl).elim, fun hno => (hno rfl).elim⟩

-- The Accepts of the fallback do not reach the client, to which its write is a fast one.
theorem fallback_reported_fast : ∃ w, World.Reachable ePaxosFour.deployment w ∧
    (3, .handed (some (0, 6)) ⟨3, 0, [], false, 0, some ⟨true, 0⟩⟩) ∈ w.hist ∧
    ∀ q u, (q, .decided 0 u true) ∉ w.hist := by
  have hrun : (World.init.follow ePaxosFour.deployment ePaxosFour.fallback).any (fun w =>
      decide ((3, .handed (some (0, 6)) ⟨3, 0, [], false, 0, some ⟨true, 0⟩⟩) ∈ w.hist) &&
        w.hist.all fun e => match e.2 with
          | .decided _ _ fast => !fast
          | _ => true) = true := by decide +kernel
  obtain ⟨w, hw, hchecks⟩ := (Option.any_eq_true _ _).1 hrun
  simp only [Bool.and_eq_true, decide_eq_true_eq, List.all_eq_true] at hchecks
  refine ⟨w, .follow (fun _ => rfl) .init hw, hchecks.1, fun q u hfast => ?_⟩
  cases hchecks.2 _ hfast

end KCensus.Slots

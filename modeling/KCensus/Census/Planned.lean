import KCensus.Census.Merge
import KCensus.Census.RoundSteps
import KCensus.Propagation.Schedules

namespace KCensus.Census

open Propagation (PropagationGraphs MessageId KnowledgeState Draft Wired Causal)
open NodeState (History Step Before)

variable {n : Nat} {graphs : PropagationGraphs n} {pathLatencies : Fin n → Fin n → Nat}
  {proposer node pid : Fin n} {draft : Draft n} {v t u : Nat}

-- The schedules of the proposals of `proposer`, as they were planned.
structure Planned (graphs : PropagationGraphs n) (pathLatencies : Fin n → Fin n → Nat)
    (proposer : Fin n) (draft : Draft n) : Prop where
  states : ∀ node, (graphs.schedule proposer node).states = (draft.states node).entries
  wired : Wired graphs.topology proposer (fun _ => False) draft
  causal : Causal pathLatencies proposer draft
  link : ∀ a b, pathLatencies a b ≤ graphs.topology.linkLatency a b
  positive : ∀ a b, a ≠ b → 0 < pathLatencies a b

def point (graphs : PropagationGraphs n) (v : Nat) (proposer pid : Fin n) (t : Nat) : NodeState n where
  id := pid
  v := some v
  kProposer := some proposer
  kStateNanos := t
  preparedFor := if graphs.finalState proposer pid t then some (graphs.getLeader proposer) else none
  paxosAcceptRound := none

namespace Planned

variable (h : Planned graphs pathLatencies proposer draft)

include h

theorem mem_states {e : Nat × KnowledgeState n} : e ∈ (graphs.schedule proposer node).states ↔
    draft.Has node e.1 ∧ e.2 = draft.state node e.1 := by
  rw [h.states, Lib.Timeline.mem_entries]
  rfl

theorem mem_times : t ∈ (graphs.schedule proposer node).times ↔ draft.Has node t := by
  rw [Propagation.Schedule.times, List.mem_map]
  constructor
  · rintro ⟨e, he, rfl⟩
    exact (h.mem_states.mp he).1
  · exact fun ht => ⟨(t, draft.state node t), h.mem_states.mpr ⟨ht, rfl⟩, rfl⟩

theorem nanos (ht : draft.Has node t) : t < 2 ^ 64 :=
  (graphs.schedule proposer node).nanos (t, draft.state node t) (h.mem_states.mpr ⟨ht, rfl⟩)

theorem get (ht : draft.Has node t) :
    (graphs.schedule proposer node).get t = some (draft.state node t) :=
  Propagation.Schedule.get_of_mem (h.mem_states.mpr ⟨ht, rfl⟩)

theorem final_iff (ht : draft.Has node t) :
    graphs.finalState proposer node t = true ↔ ∀ u, draft.Has node u → u ≤ t := by
  have hsorted : (graphs.schedule proposer node).times.Pairwise (· < ·) :=
    List.pairwise_map.mpr (graphs.schedule proposer node).increasing
  obtain ⟨init, last, hlast⟩ : ∃ init last, (graphs.schedule proposer node).times = init ++ [last] :=
    ⟨_, _, (List.dropLast_append_getLast (List.ne_nil_of_mem (h.mem_times.mpr ht))).symm⟩
  have hbiggest : ∀ u, draft.Has node u → u ≤ last := by
    intro u hu
    have hmem := h.mem_times.mpr hu
    rw [hlast] at hmem hsorted
    rcases List.mem_append.mp hmem with hin | hin
    · exact ((List.pairwise_append.mp hsorted).2.2 u hin last (List.mem_singleton.mpr rfl)).le
    · exact (List.mem_singleton.mp hin).le
  have hhas : draft.Has node last := h.mem_times.mp (by simp [hlast])
  rw [PropagationGraphs.finalState, Propagation.Schedule.lastTime, hlast, List.getLast?_concat,
    Option.getD_some, decide_eq_true_eq]
  exact ⟨fun heq => heq ▸ hbiggest, fun hle => (hbiggest t ht).antisymm' (hle last hhas)⟩

theorem final_of_lt (ht : draft.Has node t) (hu : draft.Has node u) (hlt : t < u) :
    graphs.finalState proposer node t = false :=
  Bool.eq_false_iff.mpr fun hfinal => absurd ((h.final_iff ht).mp hfinal u hu) (not_le.mpr hlt)

theorem laterStates_eq (ht : draft.Has node t) : graphs.laterStates proposer node t =
    (graphs.schedule proposer node).states.filter fun e => t < e.1 := by
  have hmem : (t, draft.state node t) ∈ (graphs.schedule proposer node).states :=
    h.mem_states.mpr ⟨ht, rfl⟩
  obtain ⟨before, after, hsplit⟩ := List.append_of_mem hmem
  have hsorted := (graphs.schedule proposer node).increasing
  rw [PropagationGraphs.laterStates, hsplit]
  rw [hsplit, List.pairwise_append, List.pairwise_cons] at hsorted
  obtain ⟨-, ⟨hafter, -⟩, hbefore⟩ := hsorted
  have hnone : ∀ e ∈ before, e.1 < t := fun e he => hbefore e he _ List.mem_cons_self
  have hfrom : before.filter (fun e => t ≤ e.1) = [] :=
    List.filter_eq_nil_iff.mpr fun e he => by simpa using hnone e he
  have hpast : before.filter (fun e => t < e.1) = [] :=
    List.filter_eq_nil_iff.mpr fun e he => by simpa using (hnone e he).le
  have hfrom' : after.filter (fun e => t ≤ e.1) = after :=
    List.filter_eq_self.mpr fun e he => by simpa using (hafter e he).le
  have hpast' : after.filter (fun e => t < e.1) = after :=
    List.filter_eq_self.mpr fun e he => by simpa using hafter e he
  rw [List.filter_append, List.filter_append, List.filter_cons_of_pos (by simp),
    List.filter_cons_of_neg (by simp), hfrom, hpast, hfrom', hpast']
  rfl

theorem outgoing (ht : draft.Has node t) {m : MessageId n} (hm : m ∈ (draft.state node t).neededBy) :
    m.src = node ∧ m.proposer = proposer ∧ m.dest ≠ node := by
  obtain ⟨hproposer, rfl, rfl, hnoted⟩ := h.wired.sent ht hm
  exact ⟨rfl, hproposer, (h.wired.posted hproposer hnoted).1.symm⟩

theorem accept_point (ht : draft.Has pid t) :
    (NodeState.new pid).acceptWithKState v proposer t graphs = some (point graphs v proposer pid t) := by
  simp only [NodeState.acceptWithKState, NodeState.new, NodeState.updateKState, NodeState.isFrozen,
    point, Nat.mod_eq_of_lt (h.nanos ht), Option.isSome_none, Bool.false_eq_true, ne_eq,
    not_true_eq_false, or_self, if_false]
  split <;> rfl

theorem update_point (ht : draft.Has pid t) (hu : draft.Has pid u) (hlt : t < u) :
    (point graphs v proposer pid t).updateKState u graphs =
      some (point graphs v proposer pid u) := by
  simp only [NodeState.updateKState, NodeState.isFrozen, point, h.final_of_lt ht hu hlt,
    Nat.mod_eq_of_lt (h.nanos hu), Option.isSome_none, Bool.false_eq_true, if_false]
  split <;> rfl

theorem history (ht : draft.Has pid t) : ∃ hist, History graphs pid hist ∧
    NodeState.new pid ∈ hist ∧ (∀ u, draft.Has pid u → u ≤ t → point graphs v proposer pid u ∈ hist) ∧
    ∃ earlier, hist = point graphs v proposer pid t :: earlier := by
  induction t using Nat.strong_induction_on with
  | _ t ih =>
    rcases Nat.eq_zero_or_pos t with rfl | hpos
    · refine ⟨[point graphs v proposer pid 0, NodeState.new pid],
        .next .start (.acceptWithKState v proposer 0 (h.mem_times.mpr ht) (h.accept_point ht)),
        by simp, ?_, _, rfl⟩
      intro u _ hu
      obtain rfl := Nat.le_zero.mp hu
      exact List.mem_cons_self
    · obtain ⟨u, hu⟩ := Lib.exists_last? ((draft.states pid).times.filter (· < t))
        ⟨0, Finset.mem_filter.mpr ⟨h.wired.zero pid, hpos⟩⟩
      obtain ⟨hmem, hbiggest⟩ := Lib.mem_last? hu
      obtain ⟨hhas, hlt⟩ := Finset.mem_filter.mp hmem
      obtain ⟨hist, hhist, hnew, hpoints, earlier, rfl⟩ := ih u hlt hhas
      refine ⟨point graphs v proposer pid t :: point graphs v proposer pid u :: earlier,
        .next hhist (.updateKState proposer t rfl (h.mem_times.mpr ht) hlt.le
          (h.update_point hhas ht hlt)), List.mem_cons_of_mem _ hnew, ?_, _, rfl⟩
      intro w hw hle
      rcases hle.eq_or_lt with rfl | hlt'
      · exact List.mem_cons_self
      · exact List.mem_cons_of_mem _
          (hpoints w hw (hbiggest w (Finset.mem_filter.mpr ⟨hw, hlt'⟩)))

end Planned

end KCensus.Census

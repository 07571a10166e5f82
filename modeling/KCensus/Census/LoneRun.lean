import KCensus.Census.LoneProposal

namespace KCensus.Census

open Propagation (PropagationGraphs MessageId KnowledgeState Draft)

variable {n : Nat}

-- A slot with one proposal: what every process makes of it, and the Spreads on their way.
structure Lone (n : Nat) where
  rounds : Fin n → RoundState n
  flying : Finset (MessageId n)

namespace Lone

section

variable (graphs : PropagationGraphs n) (majority v : Nat) (proposer : Fin n)

def start : Option (Lone n) := do
  let (r, _) ← (RoundState.new majority proposer).kcensusTryAccept v proposer graphs
  let msgIds ← graphs.getNewMessagesToSpread proposer proposer 0
  return { rounds := Function.update (RoundState.new majority) proposer r
           flying := msgIds.toFinset }

def after (s : Lone n) (m : MessageId n) (r : RoundState n) (sent : List (MessageId n)) : Lone n where
  rounds := Function.update s.rounds m.dest r
  flying := s.flying.erase m ∪ sent.toFinset

-- The flag says whether the destination gets to the end of its schedule.
def deliver (m : MessageId n) (s : Lone n) : Option (Lone n × Bool) := do
  if m ∉ s.flying then none
  let (r, sent, done) ← (s.rounds m.dest).take graphs v m
  return (s.after m r sent, done)

-- The messages arrive in any order.
inductive Reachable : Lone n → Prop
  | start {s : Lone n} (hrun : start graphs majority v proposer = some s) : Reachable s
  | deliver {s s' : Lone n} {m : MessageId n} {done : Bool} (past : Reachable s)
      (hrun : s.deliver graphs v m = some (s', done)) : Reachable s'

def reach (s : Lone n) (node : Fin n) : Nat := (s.rounds node).propagationStates proposer

def Aware (s : Lone n) (node : Fin n) : Prop :=
  node = proposer ∨ (s.rounds node).receivedMsgs.Nonempty

end

variable {graphs : PropagationGraphs n} {pathLatencies : Fin n → Fin n → Nat} {majority v : Nat}
  {proposer : Fin n} {draft : Draft n} {s s' : Lone n} {m : MessageId n}

theorem rounds_after_dest (r : RoundState n) (sent : List (MessageId n)) :
    (s.after m r sent).rounds m.dest = r :=
  Function.update_self ..

theorem rounds_after_of_ne (r : RoundState n) (sent : List (MessageId n)) {node : Fin n}
    (hnode : node ≠ m.dest) : (s.after m r sent).rounds node = s.rounds node :=
  Function.update_of_ne hnode ..

theorem reach_after_dest (r : RoundState n) (sent : List (MessageId n)) :
    (s.after m r sent).reach proposer m.dest = r.propagationStates proposer := by
  rw [reach, rounds_after_dest]

theorem reach_after_of_ne (r : RoundState n) (sent : List (MessageId n)) {node : Fin n}
    (hnode : node ≠ m.dest) : (s.after m r sent).reach proposer node = s.reach proposer node := by
  rw [reach, rounds_after_of_ne r sent hnode, reach]

theorem reach_le_after {r : RoundState n}
    (honwards : s.reach proposer m.dest ≤ r.propagationStates proposer) (sent : List (MessageId n))
    (node : Fin n) : s.reach proposer node ≤ (s.after m r sent).reach proposer node := by
  rcases eq_or_ne node m.dest with rfl | hnode
  · exact (reach_after_dest r sent).symm ▸ honwards
  · exact (reach_after_of_ne r sent hnode).ge

theorem aware_after_dest {r : RoundState n} (hin : m ∈ r.receivedMsgs) (sent : List (MessageId n)) :
    (s.after m r sent).Aware proposer m.dest :=
  Or.inr ⟨m, by rwa [rounds_after_dest]⟩

theorem aware_after_of_ne (r : RoundState n) (sent : List (MessageId n)) {node : Fin n}
    (hnode : node ≠ m.dest) : (s.after m r sent).Aware proposer node ↔ s.Aware proposer node := by
  rw [Aware, rounds_after_of_ne r sent hnode, Aware]

theorem Aware.after {r : RoundState n} (hin : m ∈ r.receivedMsgs) (sent : List (MessageId n))
    {node : Fin n} (haware : s.Aware proposer node) : (s.after m r sent).Aware proposer node := by
  rcases eq_or_ne node m.dest with rfl | hnode
  · exact aware_after_dest hin sent
  · exact (aware_after_of_ne r sent hnode).mpr haware

def awaited (draft : Draft n) (proposer : Fin n) (s : Lone n) : Finset (MessageId n) :=
  (Finset.univ.biUnion fun src => Finset.univ.biUnion fun dest =>
    (draft.messageTimes src dest).image fun t => ⟨proposer, src, dest, t⟩).filter
      fun m => m ∉ (s.rounds m.dest).receivedMsgs

theorem mem_awaited : m ∈ s.awaited draft proposer ↔
    (m.proposer = proposer ∧ m.time ∈ draft.messageTimes m.src m.dest) ∧
      m ∉ (s.rounds m.dest).receivedMsgs := by
  simp only [awaited, Finset.mem_filter, Finset.mem_biUnion, Finset.mem_univ, true_and,
    Finset.mem_image]
  refine and_congr_left fun _ => ⟨?_, ?_⟩
  · rintro ⟨src, dest, t, ht, rfl⟩
    exact ⟨rfl, ht⟩
  · rintro ⟨rfl, hnoted⟩
    exact ⟨m.src, m.dest, m.time, hnoted, rfl⟩

theorem awaited_after {r : RoundState n} {sent : List (MessageId n)}
    (hnoted : m.proposer = proposer ∧ m.time ∈ draft.messageTimes m.src m.dest)
    (hnew : m ∉ (s.rounds m.dest).receivedMsgs)
    (hreceived : r.receivedMsgs = insert m (s.rounds m.dest).receivedMsgs) :
    (s.after m r sent).awaited draft proposer ⊂ s.awaited draft proposer := by
  refine Finset.ssubset_iff_subset_ne.mpr ⟨fun m' hm' => ?_, fun heq => ?_⟩
  · obtain ⟨hthere, hno⟩ := mem_awaited.mp hm'
    refine mem_awaited.mpr ⟨hthere, fun hin => hno ?_⟩
    rcases eq_or_ne m'.dest m.dest with hown | hother
    · rw [hown] at hin ⊢
      rw [rounds_after_dest, hreceived]
      exact Finset.mem_insert_of_mem hin
    · rw [rounds_after_of_ne r sent hother]
      exact hin
  · have hbefore : m ∈ s.awaited draft proposer := mem_awaited.mpr ⟨hnoted, hnew⟩
    rw [← heq, mem_awaited, rounds_after_dest, hreceived] at hbefore
    exact hbefore.2 (Finset.mem_insert_self ..)

-- The states that would send `m` have been reached.
structure Sent (proposer : Fin n) (draft : Draft n) (s : Lone n) (m : MessageId n) : Prop where
  own : m.proposer = proposer
  noted : m.time ∈ draft.messageTimes m.src m.dest
  aware : s.Aware proposer m.src
  reached : m.time ≤ s.reach proposer m.src

theorem Sent.after {r : RoundState n} (hin : m ∈ r.receivedMsgs)
    (honwards : s.reach proposer m.dest ≤ r.propagationStates proposer) (sent : List (MessageId n))
    {m' : MessageId n} (hm' : Sent proposer draft s m') :
    Sent proposer draft (s.after m r sent) m' :=
  ⟨hm'.own, hm'.noted, hm'.aware.after hin sent, hm'.reached.trans (reach_le_after honwards sent _)⟩

structure Underway (graphs : PropagationGraphs n) (v : Nat) (proposer : Fin n) (draft : Draft n)
    (s : Lone n) : Prop where
  has : ∀ node, draft.Has node (s.reach proposer node)
  stands : ∀ node, (s.rounds node).Stands graphs v proposer node (s.reach proposer node)
    (s.Aware proposer node)
  known : ∀ node, (s.rounds node).Known graphs v proposer draft (s.reach proposer) (s.Aware proposer)
  received : ∀ {node m}, m ∈ (s.rounds node).receivedMsgs →
    m.dest = node ∧ Sent proposer draft s m ∧ m ∉ s.flying
  flying : ∀ m ∈ s.flying, Sent proposer draft s m
  sent : ∀ m, Sent proposer draft s m → m ∈ s.flying ∨ m ∈ (s.rounds m.dest).receivedMsgs
  waited : ∀ {node t}, draft.Has node t → t ≤ s.reach proposer node →
    (draft.state node t).dependencies ⊆ (s.rounds node).receivedMsgs
  stuck : ∀ {node t}, draft.Has node t → s.reach proposer node < t →
    (∀ w, draft.Has node w → s.reach proposer node < w → t ≤ w) →
    ¬ (draft.state node t).dependencies ⊆ (s.rounds node).receivedMsgs

namespace Underway

theorem reached_of_precedes (h : Underway graphs v proposer draft s) {a b : Fin n × Nat}
    (hab : draft.Precedes a b) (haware : s.Aware proposer b.1) (hreached : b.2 ≤ s.reach proposer b.1) :
    s.Aware proposer a.1 ∧ a.2 ≤ s.reach proposer a.1 := by
  induction hab using Relation.ReflTransGen.head_induction_on with
  | refl => exact ⟨haware, hreached⟩
  | head hac _ ih =>
      cases hac with
      | later _ hle => exact ⟨ih.1, hle.trans ih.2⟩
      | message hhas hm =>
          obtain ⟨-, hsent, -⟩ := h.received (h.waited hhas ih.2 hm)
          exact ⟨hsent.aware, hsent.reached⟩

theorem aware_of_noted (hplanned : Planned graphs pathLatencies proposer draft)
    (h : Underway graphs v proposer draft s) {src dest : Fin n} {t : Nat}
    (hnoted : t ∈ draft.messageTimes src dest) (hle : t ≤ s.reach proposer src) :
    s.Aware proposer src := by
  by_contra hno
  have hne : src ≠ proposer := fun heq => hno (Or.inl heq)
  have hzero : s.reach proposer src = 0 := by
    rcases h.stands src with ⟨hyes, -⟩ | ⟨-, hzero, -⟩
    · exact absurd hyes hno
    · exact hzero
  have hpath := hplanned.causal.noted hnoted
  have hpos := hplanned.positive proposer src hne.symm
  omega

theorem sent_of_noted (hplanned : Planned graphs pathLatencies proposer draft)
    (h : Underway graphs v proposer draft s) (hm : m.proposer = proposer)
    (hnoted : m.time ∈ draft.messageTimes m.src m.dest) (hle : m.time ≤ s.reach proposer m.src) :
    Sent proposer draft s m :=
  ⟨hm, hnoted, aware_of_noted hplanned h hnoted hle, hle⟩

-- When nothing is on its way any more, all are at the end of their schedules.
theorem quiet (hplanned : Planned graphs pathLatencies proposer draft)
    (h : Underway graphs v proposer draft s) (hflying : s.flying = ∅) {t : Nat} :
    ∀ node, draft.Has node t → t ≤ s.reach proposer node := by
  induction t using Nat.strong_induction_on with
  | _ t ih =>
    intro node ht
    by_contra hno
    have hlt := not_le.mp hno
    refine h.stuck ht hlt (fun w hw hgt => ?_) fun m hm => ?_
    · by_contra hsooner
      exact absurd (ih w (not_le.mp hsooner) node hw) (not_le.mpr hgt)
    · obtain ⟨hproposer, rfl, htime, hnoted⟩ := hplanned.wired.awaited ht hm
      obtain ⟨hne, hsrc, -⟩ := hplanned.wired.posted hproposer hnoted
      have hpos := (hplanned.positive _ _ hne).trans_le (hplanned.link _ _)
      have hreached := ih m.time (by omega) m.src hsrc
      rcases h.sent m (h.sent_of_noted hplanned hproposer hnoted hreached) with hin | hin
      · rw [hflying] at hin
        exact absurd hin (Finset.notMem_empty m)
      · exact hin

end Underway

-- The destination of `m` has taken it in, and follows its schedule until `t`.
structure Delivered (graphs : PropagationGraphs n) (v : Nat) (proposer : Fin n) (draft : Draft n)
    (s : Lone n) (m : MessageId n) (r₀ r : RoundState n) (t : Nat) (sent : List (MessageId n))
    (done : Bool) : Prop where
  inFlight : m ∈ s.flying
  received : r₀.receivedMsgs = insert m (s.rounds m.dest).receivedMsgs
  others : ∀ pid ≠ m.dest, r₀.nodeStates pid = NodeState.new pid ∨ ∃ u, s.Aware proposer pid ∧
    draft.Has pid u ∧ u ≤ s.reach proposer pid ∧ r₀.nodeStates pid = point graphs v proposer pid u
  advanced : RoundState.Advanced draft m.dest (s.reach proposer m.dest) r₀ r t sent done
  rallied : r.Rallied graphs v proposer m.dest t

namespace Delivered

variable {r₀ r : RoundState n} {t : Nat} {sent : List (MessageId n)} {done : Bool}

section

variable (hd : Delivered graphs v proposer draft s m r₀ r t sent done)

include hd

theorem received_eq : r.receivedMsgs = insert m (s.rounds m.dest).receivedMsgs :=
  hd.advanced.received.trans hd.received

theorem arrived : m ∈ r.receivedMsgs := hd.received_eq ▸ Finset.mem_insert_self ..

theorem reach_dest : (s.after m r sent).reach proposer m.dest = t :=
  (reach_after_dest r sent).trans hd.rallied.propagation

theorem onwards : s.reach proposer m.dest ≤ r.propagationStates proposer :=
  hd.rallied.propagation.symm ▸ hd.advanced.onwards

theorem kept {m' : MessageId n} (hm' : Sent proposer draft s m') :
    Sent proposer draft (s.after m r sent) m' :=
  hm'.after hd.arrived hd.onwards sent

theorem next (hplanned : Planned graphs pathLatencies proposer draft) {m' : MessageId n}
    (hm' : m' ∈ sent) :
    Sent proposer draft (s.after m r sent) m' ∧ ¬ Sent proposer draft s m' := by
  obtain ⟨u, hu, hgt, hle, hneeded⟩ := (hd.advanced.sent m').mp hm'
  obtain ⟨hproposer, hown, rfl, hnoted⟩ := hplanned.wired.sent hu hneeded
  refine ⟨⟨hproposer, hown ▸ hnoted, hown ▸ aware_after_dest hd.arrived sent, ?_⟩, fun hbefore => ?_⟩
  · rw [hown, hd.reach_dest]
    exact hle
  · have hreached := hbefore.reached
    rw [hown] at hreached
    exact absurd hreached (not_le.mpr hgt)

variable (h : Underway graphs v proposer draft s)

include h

theorem split (hplanned : Planned graphs pathLatencies proposer draft) {m' : MessageId n}
    (hm' : Sent proposer draft (s.after m r sent) m') : Sent proposer draft s m' ∨ m' ∈ sent := by
  by_cases hle : m'.time ≤ s.reach proposer m'.src
  · exact Or.inl (h.sent_of_noted hplanned hm'.own hm'.noted hle)
  · have hreached := hm'.reached
    rcases eq_or_ne m'.src m.dest with hown | hother
    · obtain ⟨-, hthere, hneeded⟩ := hplanned.wired.posted hm'.own hm'.noted
      rw [hown] at hthere hneeded hreached hle
      rw [hd.reach_dest] at hreached
      exact Or.inr ((hd.advanced.sent m').mpr ⟨m'.time, hthere, not_le.mp hle, hreached, hneeded⟩)
    · rw [reach_after_of_ne r sent hother] at hreached
      exact absurd hreached hle

theorem stands (node : Fin n) : ((s.after m r sent).rounds node).Stands graphs v proposer node
    ((s.after m r sent).reach proposer node) ((s.after m r sent).Aware proposer node) := by
  rcases eq_or_ne node m.dest with rfl | hnode
  · rw [rounds_after_dest r sent, hd.reach_dest]
    exact Or.inl ⟨aware_after_dest hd.arrived sent, hd.rallied⟩
  · have hstands := h.stands node
    rw [rounds_after_of_ne r sent hnode, reach_after_of_ne r sent hnode]
    exact hstands.imp (fun hr => ⟨hr.1.after hd.arrived sent, hr.2⟩) fun hr =>
      ⟨fun hyes => hr.1 ((aware_after_of_ne r sent hnode).mp hyes), hr.2⟩

theorem known (node : Fin n) : ((s.after m r sent).rounds node).Known graphs v proposer draft
    ((s.after m r sent).reach proposer) ((s.after m r sent).Aware proposer) := by
  intro pid
  have hweaken : ∀ state : NodeState n, (state = NodeState.new pid ∨ ∃ u, s.Aware proposer pid ∧
      draft.Has pid u ∧ u ≤ s.reach proposer pid ∧ state = point graphs v proposer pid u) →
      state = NodeState.new pid ∨ ∃ u, (s.after m r sent).Aware proposer pid ∧ draft.Has pid u ∧
        u ≤ (s.after m r sent).reach proposer pid ∧ state = point graphs v proposer pid u := by
    intro state hstate
    refine hstate.imp_right ?_
    rintro ⟨u, hyes, hu, hle, heq⟩
    exact ⟨u, hyes.after hd.arrived sent, hu, hle.trans (reach_le_after hd.onwards sent pid), heq⟩
  rcases eq_or_ne node m.dest with rfl | hnode
  · rw [rounds_after_dest r sent]
    rcases eq_or_ne pid m.dest with rfl | hpid
    · exact Or.inr ⟨t, aware_after_dest hd.arrived sent, hd.advanced.has, hd.reach_dest.ge,
        hd.rallied.mine⟩
    · rw [hd.advanced.others pid hpid]
      exact hweaken _ (hd.others pid hpid)
  · rw [rounds_after_of_ne r sent hnode]
    exact hweaken _ (h.known node pid)

theorem received_after (hplanned : Planned graphs pathLatencies proposer draft) {node : Fin n}
    {m' : MessageId n} (hin : m' ∈ ((s.after m r sent).rounds node).receivedMsgs) :
    m'.dest = node ∧ Sent proposer draft (s.after m r sent) m' ∧
      m' ∉ (s.after m r sent).flying := by
  have hold : m' ∈ (s.rounds node).receivedMsgs → m'.dest = node ∧
      Sent proposer draft (s.after m r sent) m' ∧ m' ∉ (s.after m r sent).flying := by
    intro hbefore
    obtain ⟨hdest', hsent', hno⟩ := h.received hbefore
    refine ⟨hdest', hd.kept hsent', fun hfly => ?_⟩
    rcases Finset.mem_union.mp hfly with hfly | hfly
    · exact hno (Finset.mem_of_mem_erase hfly)
    · exact (hd.next hplanned (List.mem_toFinset.mp hfly)).2 hsent'
  rcases eq_or_ne node m.dest with rfl | hnode
  · rw [rounds_after_dest r sent, hd.received_eq] at hin
    rcases Finset.mem_insert.mp hin with rfl | hbefore
    · have hsent := h.flying m' hd.inFlight
      refine ⟨rfl, hd.kept hsent, fun hfly => ?_⟩
      rcases Finset.mem_union.mp hfly with hfly | hfly
      · exact Finset.notMem_erase m' s.flying hfly
      · exact (hd.next hplanned (List.mem_toFinset.mp hfly)).2 hsent
    · exact hold hbefore
  · rw [rounds_after_of_ne r sent hnode] at hin
    exact hold hin

theorem sent_after (hplanned : Planned graphs pathLatencies proposer draft) {m' : MessageId n}
    (hm' : Sent proposer draft (s.after m r sent) m') : m' ∈ (s.after m r sent).flying ∨
      m' ∈ ((s.after m r sent).rounds m'.dest).receivedMsgs := by
  rcases hd.split h hplanned hm' with hbefore | hnow
  · rcases h.sent m' hbefore with hfly | hin
    · rcases eq_or_ne m' m with rfl | hother
      · refine Or.inr ?_
        rw [rounds_after_dest r sent, hd.received_eq]
        exact Finset.mem_insert_self ..
      · exact Or.inl (Finset.mem_union_left _ (Finset.mem_erase.mpr ⟨hother, hfly⟩))
    · refine Or.inr ?_
      rcases eq_or_ne m'.dest m.dest with heq | hnode
      · rw [heq] at hin ⊢
        rw [rounds_after_dest r sent, hd.received_eq]
        exact Finset.mem_insert_of_mem hin
      · rw [rounds_after_of_ne r sent hnode]
        exact hin
  · exact Or.inl (Finset.mem_union_right _ (List.mem_toFinset.mpr hnow))

theorem waited {node : Fin n} {u : Nat} (hu : draft.Has node u)
    (hle : u ≤ (s.after m r sent).reach proposer node) :
    (draft.state node u).dependencies ⊆ ((s.after m r sent).rounds node).receivedMsgs := by
  rcases eq_or_ne node m.dest with rfl | hnode
  · rw [rounds_after_dest r sent, hd.received_eq]
    rw [hd.reach_dest] at hle
    by_cases hbefore : u ≤ s.reach proposer m.dest
    · exact (h.waited hu hbefore).trans (Finset.subset_insert ..)
    · exact hd.received ▸ hd.advanced.waited u hu (not_le.mp hbefore) hle
  · rw [reach_after_of_ne r sent hnode] at hle
    rw [rounds_after_of_ne r sent hnode]
    exact h.waited hu hle

theorem stuck {node : Fin n} {u : Nat} (hu : draft.Has node u)
    (hgt : (s.after m r sent).reach proposer node < u)
    (hmin : ∀ w, draft.Has node w → (s.after m r sent).reach proposer node < w → u ≤ w) :
    ¬ (draft.state node u).dependencies ⊆ ((s.after m r sent).rounds node).receivedMsgs := by
  rcases eq_or_ne node m.dest with rfl | hnode
  · rw [rounds_after_dest r sent, hd.received_eq]
    rw [hd.reach_dest] at hgt hmin
    exact hd.received ▸ hd.advanced.stuck u hu hgt hmin
  · rw [reach_after_of_ne r sent hnode] at hgt hmin
    rw [rounds_after_of_ne r sent hnode]
    exact h.stuck hu hgt hmin

theorem underway (hplanned : Planned graphs pathLatencies proposer draft) :
    Underway graphs v proposer draft (s.after m r sent) where
  has node := by
    rcases eq_or_ne node m.dest with rfl | hnode
    · exact hd.reach_dest ▸ hd.advanced.has
    · rw [reach_after_of_ne r sent hnode]
      exact h.has node
  stands := hd.stands h
  known := hd.known h
  received := hd.received_after h hplanned
  flying m' hin := by
    rcases Finset.mem_union.mp hin with hfly | hfly
    · exact hd.kept (h.flying m' (Finset.mem_of_mem_erase hfly))
    · exact (hd.next hplanned (List.mem_toFinset.mp hfly)).1
  sent _ := hd.sent_after h hplanned
  waited := hd.waited h
  stuck := hd.stuck h

end

end Delivered

namespace Underway

theorem deliver (hplanned : Planned graphs pathLatencies proposer draft)
    (h : Underway graphs v proposer draft s) (hm : m ∈ s.flying) :
    ∃ r sent done, (s.rounds m.dest).take graphs v m = some (r, sent, done) ∧
      s.deliver graphs v m = some (s.after m r sent, done) ∧
      Underway graphs v proposer draft (s.after m r sent) ∧
      (s.after m r sent).awaited draft proposer ⊂ s.awaited draft proposer ∧
      (done = true ↔ graphs.finalState proposer m.dest (r.propagationStates proposer) = true) ∧
      r.Rallied graphs v proposer m.dest (r.propagationStates proposer) ∧
      ∀ m' ∈ sent, m'.src = m.dest ∧ m'.proposer = proposer ∧ m'.dest ≠ m.dest := by
  have hsent := h.flying m hm
  obtain ⟨hne, hsrc, -⟩ := hplanned.wired.posted hsent.own hsent.noted
  obtain ⟨harrives, hdeps⟩ := hplanned.wired.arrives hsent.own hsent.noted id
  have hnew : m ∉ (s.rounds m.dest).receivedMsgs := fun hin => (h.received hin).2.2 hm
  have hlt := not_le.mp fun hle => hnew (h.waited harrives hle hdeps)
  have hreported : ∀ pid, (draft.state m.src m.time).remoteStates pid ≠ 0 ∨ pid = proposer →
      s.Aware proposer pid ∧ (draft.state m.src m.time).remoteStates pid ≤ s.reach proposer pid := by
    intro pid hcond
    rcases hplanned.causal.sourced hsrc pid with hzero | hprecedes
    · exact ⟨Or.inl (hcond.resolve_left (not_not.mpr hzero)), hzero ▸ Nat.zero_le _⟩
    · exact h.reached_of_precedes hprecedes hsent.aware hsent.reached
  obtain ⟨r₀, r, t, sent, done, hrun, hreceived, hothers, hadv, hr⟩ := RoundState.take_ok hplanned
    h.has (h.stands m.dest) (h.known m.dest) hsent.own hsrc hreported hnew harrives hlt
  have hd : Delivered graphs v proposer draft s m r₀ r t sent done :=
    ⟨hm, hreceived, hothers, hadv, hr⟩
  refine ⟨r, sent, done, hrun, ?_, hd.underway h hplanned,
    awaited_after ⟨hsent.own, hsent.noted⟩ hnew hd.received_eq, ?_, hr.propagation.symm ▸ hr,
    fun m' hm' => ?_⟩
  · rw [Lone.deliver, hrun]
    simp only [hm, not_true_eq_false, if_false]
    rfl
  · rw [hadv.done, hr.propagation, hplanned.final_iff hadv.has]
  · obtain ⟨u, hu, -, -, hneeded⟩ := (hadv.sent m').mp hm'
    exact hplanned.outgoing hu hneeded

theorem start (hplanned : Planned graphs pathLatencies proposer draft) (majority v : Nat) :
    ∃ s, Lone.start graphs majority v proposer = some s ∧ Underway graphs v proposer draft s ∧
      (RoundState.new majority proposer).kcensusTryAccept v proposer graphs =
        some (s.rounds proposer, true) ∧
      s.flying = (draft.state proposer 0).neededBy.toFinset := by
  have hled : (RoundState.new majority proposer).Led graphs :=
    ⟨fun leader => by simp [RoundState.new], List.nodup_nil⟩
  obtain ⟨r, accepted, hrun, hr, hreceived, hothers, hfirst⟩ := RoundState.accept_ok
    (v := v) (t := 0) (r := RoundState.new majority proposer) hplanned False rfl
    (Or.inr ⟨not_false, rfl, rfl⟩) (fun p hp => absurd hp List.not_mem_nil) List.nodup_nil hled rfl
  obtain rfl : accepted = true := hfirst.mpr not_false
  let s : Lone n :=
    { rounds := Function.update (RoundState.new majority) proposer r
      flying := (draft.state proposer 0).neededBy.toFinset }
  have hown : s.rounds proposer = r := Function.update_self ..
  have hsame : ∀ node ≠ proposer, s.rounds node = RoundState.new majority node := fun node hne =>
    Function.update_of_ne hne ..
  have hnothing : ∀ node, (s.rounds node).receivedMsgs = ∅ := by
    intro node
    rcases eq_or_ne node proposer with rfl | hne
    · exact hown ▸ hreceived
    · rw [hsame node hne]
      rfl
  have hzero : ∀ node, s.reach proposer node = 0 := by
    intro node
    rcases eq_or_ne node proposer with rfl | hne
    · rw [reach, hown, hr.propagation]
    · rw [reach, hsame node hne]
      rfl
  have haware : ∀ node, s.Aware proposer node → node = proposer := by
    intro node hyes
    refine hyes.resolve_right ?_
    rw [hnothing]
    exact Finset.not_nonempty_empty
  refine ⟨s, ?_, ⟨fun node => ?_, fun node => ?_, fun node pid => ?_, fun {node m} hin => ?_,
    fun m hin => ?_, fun m hm => ?_, fun {node t} ht hle => ?_, fun {node t} ht hgt _ => ?_⟩,
    hown.symm ▸ hrun, rfl⟩
  · rw [Lone.start, hrun, PropagationGraphs.getNewMessagesToSpread,
      hplanned.get (hplanned.wired.zero proposer)]
    rfl
  · exact hzero node ▸ hplanned.wired.zero node
  · rw [hzero]
    rcases eq_or_ne node proposer with rfl | hne
    · exact Or.inl ⟨Or.inl rfl, hown ▸ hr⟩
    · refine Or.inr ⟨fun hyes => hne (haware node hyes), rfl, ?_⟩
      rw [hsame node hne]
      exact ⟨rfl, rfl, rfl, rfl, rfl⟩
  · rcases eq_or_ne node proposer with rfl | hne
    · rw [hown]
      rcases eq_or_ne pid node with rfl | hpid
      · exact Or.inr ⟨0, Or.inl rfl, hplanned.wired.zero pid, Nat.zero_le _, hr.mine⟩
      · exact Or.inl (hothers pid hpid)
    · rw [hsame node hne]
      exact Or.inl rfl
  · rw [hnothing] at hin
    exact absurd hin (Finset.notMem_empty m)
  · obtain ⟨hproposer, hsrc, htime, hnoted⟩ :=
      hplanned.wired.sent (hplanned.wired.zero proposer) (List.mem_toFinset.mp hin)
    exact ⟨hproposer, by rw [htime, hsrc]; exact hnoted, Or.inl hsrc, htime ▸ Nat.zero_le _⟩
  · have hsrc := haware m.src hm.aware
    have htime := hm.reached
    rw [hzero] at htime
    obtain ⟨-, -, hneeded⟩ := hplanned.wired.posted hm.own hm.noted
    rw [hsrc, Nat.le_zero.mp htime] at hneeded
    exact Or.inl (List.mem_toFinset.mpr hneeded)
  · intro m hm
    obtain ⟨hproposer, rfl, htime, hnoted⟩ := hplanned.wired.awaited ht hm
    obtain ⟨hne, -, -⟩ := hplanned.wired.posted hproposer hnoted
    have hpos := (hplanned.positive _ _ hne).trans_le (hplanned.link _ _)
    rw [hzero] at hle
    omega
  · rw [hzero] at hgt
    rw [hnothing, Finset.subset_empty]
    rcases hplanned.wired.waits ht hgt.ne' with hsome | ⟨m, hno, -⟩
    · exact hsome.ne_empty
    · exact hno.elim

theorem of_reachable (hplanned : Planned graphs pathLatencies proposer draft)
    (h : Reachable graphs majority v proposer s) : Underway graphs v proposer draft s := by
  induction h with
  | start hrun =>
      obtain ⟨s, hstart, hunderway, -⟩ := start hplanned majority v
      rw [hstart] at hrun
      exact Option.some.inj hrun ▸ hunderway
  | @deliver s s' m done _ hrun ih =>
      have hm : m ∈ s.flying := by
        by_contra hno
        rw [Lone.deliver, if_pos hno] at hrun
        cases hrun
      obtain ⟨r, sent, done', -, hdeliver, hunderway, -⟩ := ih.deliver hplanned hm
      rw [hdeliver] at hrun
      exact (Prod.mk.inj (Option.some.inj hrun)).1 ▸ hunderway

end Underway

end Lone

end KCensus.Census

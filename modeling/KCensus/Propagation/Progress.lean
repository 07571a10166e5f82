import KCensus.Propagation.Walks

namespace KCensus.Propagation

variable {n : Nat} {topology : Topology n} {routes : Routes n}
  {pathLatencies : Fin n → Fin n → Nat} {proposer leader : Fin n} {valueOnly : Bool}

-- `current` is on the way from the proposer to `target`.
def OnWay (routes : Routes n) (proposer target current : Fin n) : Prop :=
  ∃ hops, (fun pid => routes.nextSrc pid target)^[hops] proposer = current

-- The tables lead along shortest paths, and the two agree on those from a proposer.
structure AgreeingRoutes (topology : Topology n) (pathLatencies : Fin n → Fin n → Nat)
    (routes : Routes n) : Prop where
  shortest : ShortestPaths pathLatencies
  link : ∀ a b, pathLatencies a b ≤ topology.linkLatency a b
  positive : ∀ a b, a ≠ b → 0 < pathLatencies a b
  next : ∀ a b, a ≠ b → routes.nextSrc a b ≠ a ∧
    topology.linkLatency a (routes.nextSrc a b) + pathLatencies (routes.nextSrc a b) b =
      pathLatencies a b
  prev : ∀ p b, b ≠ p → pathLatencies p (routes.prevDest p b) +
    topology.linkLatency (routes.prevDest p b) b = pathLatencies p b
  prev_self : ∀ p, routes.prevDest p p = p
  agree : ∀ p target current, OnWay routes p target current → current ≠ target →
    routes.prevDest p (routes.nextSrc current target) = current

namespace Draft

variable {draft : Draft n} {msg : MessageId n} {dest : Fin n} {arrival : Nat}

theorem post_of_has (msg : MessageId n) (hnew : msg.time ∉ draft.messageTimes msg.src msg.dest)
    (h : draft.Has msg.src msg.time) :
    draft.post msg valueOnly = .ok (draft.posted msg valueOnly) := by
  rw [post, if_neg hnew, Lib.Timeline.get?_of_mem h]
  rfl

theorem addState_of_has (arrival : Nat) (h : draft.Has dest 0) (hpos : 0 < arrival) :
    ∃ prev, draft.addState dest arrival = .ok (draft.added dest arrival prev) := by
  obtain ⟨prev, hprev⟩ := Lib.exists_last? ((draft.states dest).times.filter (· < arrival))
    ⟨0, Finset.mem_filter.mpr ⟨h, hpos⟩⟩
  refine ⟨prev, ?_⟩
  rw [addState, hprev]
  rfl

theorem deliver_of_has (msg : MessageId n) (hne : msg.src ≠ msg.dest) (hsrc : draft.Has msg.src msg.time)
    (hdest : draft.Has msg.dest arrival) :
    draft.deliver msg arrival = .ok (draft.delivered msg arrival) := by
  rw [deliver, if_neg hne, Lib.Timeline.get?_of_mem hdest, Lib.Timeline.get?_of_mem hsrc]
  rfl

end Draft

theorem hop_progress (routes : Routes n) (valueOnly : Bool) (step : Nat) (target : Fin n)
    {s : Draft n × Walk n}
    (h : Walk.Sound topology pathLatencies proposer s)
    (hne : s.2.current ≠ routes.nextSrc s.2.current target)
    (hpos : 0 < topology.linkLatency s.2.current (routes.nextSrc s.2.current target))
    (hkind : s.1.reusable s.2.current (routes.nextSrc s.2.current target) s.2.currentTime
        (s.2.currentTime + s.2.maxSlack) = none →
      valueOnly = (s.2.fromProposer && (decide (step = 0) ||
        decide (routes.prevDest proposer (routes.nextSrc s.2.current target) = s.2.current)))) :
    ∃ s', hop topology routes proposer valueOnly step target s = .ok s' := by
  obtain ⟨draft, walk⟩ := s
  simp only at hne hpos hkind
  simp only [hop, bind, Except.bind, pure, Except.pure, throw, throwThe, MonadExceptOf.throw, if_neg hne]
  cases hfound : draft.reusable walk.current (routes.nextSrc walk.current target) walk.currentTime
      (walk.currentTime + walk.maxSlack) with
  | some time =>
      obtain ⟨hnoted, -⟩ := Draft.reusable_some hfound
      let msg : MessageId n := ⟨proposer, walk.current, routes.nextSrc walk.current target, time⟩
      obtain ⟨-, hsrc, -⟩ := h.wired.posted (m := msg) rfl hnoted
      obtain ⟨hdest, -⟩ := h.wired.arrives (m := msg) rfl hnoted id
      have hthere : time + topology.linkLatency walk.current (routes.nextSrc walk.current target) ∈
        (draft.states (routes.nextSrc walk.current target)).times := hdest
      simp only [Option.isSome_some, if_true, Option.getD_some, if_pos hthere]
      rw [show draft.deliver ⟨proposer, walk.current, routes.nextSrc walk.current target, time⟩ _ = _ from
        Draft.deliver_of_has msg hne hsrc hdest]
      exact ⟨_, rfl⟩
  | none =>
      let msg : MessageId n :=
        ⟨proposer, walk.current, routes.nextSrc walk.current target, walk.currentTime⟩
      have hnew : msg.time ∉ draft.messageTimes msg.src msg.dest := fun hnoted =>
        Draft.reusable_none hfound _ hnoted le_rfl (Nat.le_add_right _ _)
      have hhas : draft.Has msg.src msg.time := h.has
      simp only [Option.isSome_none, Bool.false_eq_true, if_false, Option.getD_none]
      rw [show draft.post ⟨proposer, walk.current, routes.nextSrc walk.current target, walk.currentTime⟩
        valueOnly = _ from Draft.post_of_has msg hnew hhas]
      simp only [← hkind hfound, ne_eq, not_true_eq_false, if_false]
      have hzero : (draft.posted msg valueOnly).Has msg.dest 0 :=
        (Draft.has_posted hhas).mpr (h.wired.zero _)
      split
      · rename_i hthere
        rw [show (draft.posted msg valueOnly).deliver
          ⟨proposer, walk.current, routes.nextSrc walk.current target, walk.currentTime⟩ _ = _ from
            Draft.deliver_of_has msg hne ((Draft.has_posted hhas).mpr hhas) hthere]
        exact ⟨_, rfl⟩
      · obtain ⟨prev, hadd⟩ := Draft.addState_of_has
          (walk.currentTime +
            topology.linkLatency walk.current (routes.nextSrc walk.current target)) hzero (by omega)
        simp only [msg] at hadd ⊢
        rw [hadd]
        simp only
        rw [show Draft.deliver (((draft.posted msg valueOnly)).added _ _ prev)
          ⟨proposer, walk.current, routes.nextSrc walk.current target, walk.currentTime⟩ _ = _ from
            Draft.deliver_of_has msg hne
              (Draft.has_added.mpr (Or.inl ((Draft.has_posted hhas).mpr hhas)))
              (Draft.has_added.mpr (Or.inr ⟨rfl, rfl⟩))]
        exact ⟨_, rfl⟩

namespace Hopped

variable {step : Nat} {target : Fin n} {s s' : Draft n × Walk n} {msg : MessageId n} {reused : Bool}
  (h : Hopped topology routes proposer valueOnly step target s s' msg reused)
include h

theorem has_iff {node : Fin n} {t : Nat} : s'.1.Has node t ↔
    s.1.Has node t ∨ node = msg.dest ∧ t = msg.time + topology.linkLatency msg.src msg.dest := by
  obtain ⟨sent, opened, hsent, hopened, hdest, -, hdraft⟩ := h.draft
  rw [hdraft, Draft.has_delivered hdest]
  have hsame : sent.Has node t ↔ s.1.Has node t := by
    cases hsent with
    | reused _ => rfl
    | posted _ hhas => exact Draft.has_posted hhas
  rw [← hsame]
  cases hopened with
  | present hthere =>
      refine ⟨Or.inl, fun hor => hor.elim id ?_⟩
      rintro ⟨rfl, rfl⟩
      exact hthere
  | added _ _ _ _ => exact Draft.has_added

theorem mem_messageTimes {a b : Fin n} {t : Nat} : t ∈ s'.1.messageTimes a b ↔
    t ∈ s.1.messageTimes a b ∨ a = msg.src ∧ b = msg.dest ∧ t = msg.time := by
  obtain ⟨sent, opened, hsent, hopened, -, -, hdraft⟩ := h.draft
  have hsame : s'.1.messageTimes = sent.messageTimes := by
    rw [hdraft]
    cases hopened <;> rfl
  rw [hsame]
  cases hsent with
  | reused hnoted =>
      refine ⟨Or.inl, fun hor => hor.elim id ?_⟩
      rintro ⟨rfl, rfl, rfl⟩
      exact hnoted
  | posted _ _ => exact Draft.mem_messageTimes_posted

theorem shouldIncludeValue : s'.1.shouldIncludeValue =
    if !reused && valueOnly then insert msg s.1.shouldIncludeValue else s.1.shouldIncludeValue := by
  obtain ⟨sent, opened, hsent, hopened, -, -, hdraft⟩ := h.draft
  have hsame : s'.1.shouldIncludeValue = sent.shouldIncludeValue := by
    rw [hdraft]
    cases hopened <;> rfl
  rw [hsame]
  cases hsent <;> rfl

theorem opened_kept : ∃ opened : Draft n,
    s'.1 = opened.delivered msg (msg.time + topology.linkLatency msg.src msg.dest) ∧
      ∀ {node t}, s.1.Has node t →
        (opened.state node t).knowledge = (s.1.state node t).knowledge ∧
          (opened.state node t).dependencies = (s.1.state node t).dependencies := by
  obtain ⟨sent, opened, hsent, hopened, -, -, hdraft⟩ := h.draft
  have hkept : ∀ {node t}, (sent.state node t).knowledge = (s.1.state node t).knowledge ∧
      (sent.state node t).dependencies = (s.1.state node t).dependencies := by
    cases hsent with
    | reused _ => exact fun {_ _} => ⟨rfl, rfl⟩
    | posted _ _ => exact ⟨Draft.knowledge_posted, Draft.dependencies_posted⟩
  have hhas : ∀ {node t}, s.1.Has node t → sent.Has node t := by
    cases hsent with
    | reused _ => exact id
    | posted _ hhas => exact (Draft.has_posted hhas).mpr
  refine ⟨opened, hdraft, fun {node t} ht => ?_⟩
  cases hopened with
  | present _ => exact hkept
  | added hnew _ _ _ =>
      rw [Draft.state_added_of_ne]
      · exact hkept
      · rintro ⟨rfl, rfl⟩
        exact hnew (hhas ht)

theorem knowledge_mono {node i : Fin n} {t : Nat} (ht : s.1.Has node t) :
    (s.1.state node t).knowledge i ⊆ (s'.1.state node t).knowledge i := by
  obtain ⟨opened, hdraft, hkept⟩ := h.opened_kept
  intro r hr
  rw [hdraft]
  refine Draft.mem_knowledge_delivered.mpr (Or.inl ?_)
  rwa [(hkept ht).1]

theorem dependencies_mono {node : Fin n} {t : Nat} (ht : s.1.Has node t) :
    (s.1.state node t).dependencies ⊆ (s'.1.state node t).dependencies := by
  obtain ⟨opened, hdraft, hkept⟩ := h.opened_kept
  intro m hm
  rw [hdraft]
  refine Draft.mem_dependencies_delivered.mpr (Or.inl ?_)
  rwa [(hkept ht).2]

theorem knowledge_carried (hsrc : s.1.Has msg.src msg.time) {r i : Fin n}
    (hk : r ∈ (s.1.state msg.src msg.time).knowledge i) :
    r ∈ (s'.1.state msg.dest (msg.time + topology.linkLatency msg.src msg.dest)).knowledge i ∧
      (i = msg.src →
        r ∈ (s'.1.state msg.dest (msg.time + topology.linkLatency msg.src msg.dest)).knowledge
          msg.dest) := by
  obtain ⟨opened, hdraft, hkept⟩ := h.opened_kept
  rw [hdraft]
  refine ⟨Draft.mem_knowledge_delivered.mpr (Or.inr ⟨rfl, le_rfl, Draft.mem_informed.mpr
    (Or.inr (Or.inr ?_))⟩), fun hi => Draft.mem_knowledge_delivered.mpr (Or.inr ⟨rfl, le_rfl,
      Draft.mem_informed.mpr (Or.inr (Or.inl ⟨rfl, ?_⟩))⟩)⟩
  · rwa [(hkept hsrc).1]
  · subst hi
    rwa [(hkept hsrc).1]

end Hopped

def rank (pathLatencies : Fin n → Fin n → Nat) (target pid : Fin n) : Nat :=
  (Finset.univ.filter fun p => pathLatencies p target < pathLatencies pid target).card

theorem rank_le (target pid : Fin n) : rank pathLatencies target pid ≤ n := by
  have := Finset.card_le_univ (Finset.univ.filter fun p =>
    pathLatencies p target < pathLatencies pid target)
  rwa [Fintype.card_fin] at this

theorem rank_lt {target pid next : Fin n}
    (h : pathLatencies next target < pathLatencies pid target) :
    rank pathLatencies target next < rank pathLatencies target pid := by
  refine Finset.card_lt_card ((Finset.ssubset_iff_of_subset fun p hp => ?_).mpr ⟨next, ?_, ?_⟩)
  · exact Finset.mem_filter.mpr ⟨Finset.mem_univ p, (Finset.mem_filter.mp hp).2.trans h⟩
  · exact Finset.mem_filter.mpr ⟨Finset.mem_univ next, h⟩
  · exact fun hn => lt_irrefl _ (Finset.mem_filter.mp hn).2

section

variable (hr : AgreeingRoutes topology pathLatencies routes)
include hr

theorem next_nearer {pid target : Fin n} (hne : pid ≠ target) :
    pathLatencies (routes.nextSrc pid target) target < pathLatencies pid target ∧
      0 < topology.linkLatency pid (routes.nextSrc pid target) := by
  obtain ⟨hnext, heq⟩ := hr.next pid target hne
  have := hr.positive pid _ hnext.symm
  have := hr.link pid (routes.nextSrc pid target)
  omega

theorem walkTo_reaches (valueOnly : Bool) (step : Nat) {target : Fin n}
    (Inv : Draft n × Walk n → Prop)
    (hhop : ∀ s, Inv s → s.2.current ≠ target →
      ∃ s', hop topology routes proposer valueOnly step target s = .ok s' ∧ Inv s')
    {hops : Nat} {s : Draft n × Walk n} (h : Inv s)
    (hrank : rank pathLatencies target s.2.current ≤ hops) :
    ∃ s', walkTo topology routes proposer valueOnly step target hops s = .ok s' ∧ Inv s' ∧
      s'.2.current = target := by
  induction hops generalizing s with
  | zero =>
      by_cases hthere : s.2.current = target
      · exact ⟨s, by rw [walkTo, if_pos hthere]; rfl, h, hthere⟩
      · have := rank_lt (next_nearer hr hthere).1
        omega
  | succ hops ih =>
      by_cases hthere : s.2.current = target
      · exact ⟨s, by rw [walkTo, if_pos hthere]; rfl, h, hthere⟩
      · obtain ⟨next, hnext, hinv⟩ := hhop s h hthere
        obtain ⟨msg, reused, hhopped⟩ := hop_ok hnext
        have hcurrent : next.2.current = routes.nextSrc s.2.current target := by
          rw [hhopped.walk]
          exact hhopped.dest
        have hlt := rank_lt (next_nearer hr hthere).1
        obtain ⟨s', hrun, hinv', hreached⟩ := ih hinv (by rw [hcurrent]; omega)
        refine ⟨s', ?_, hinv', hreached⟩
        rw [walkTo, if_neg hthere]
        simp only [hnext, bind, Except.bind]
        exact hrun

end

end KCensus.Propagation

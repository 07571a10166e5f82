import KCensus.Propagation.Wiring

namespace KCensus.Propagation

variable {n : Nat} {topology : Topology n} {routes : Routes n}
  {pathLatencies : Fin n → Fin n → Nat} {proposer : Fin n} {draft : Draft n} {msg : MessageId n}

-- What a state knows can have got there: `r` voted, `i` heard of it, and so did `node`.
structure Causal (pathLatencies : Fin n → Fin n → Nat) (proposer : Fin n) (draft : Draft n) :
    Prop where
  reached : ∀ {node t}, draft.Has node t → t ≠ 0 → pathLatencies proposer node ≤ t
  known : ∀ {node t r i}, draft.Has node t → r ∈ (draft.state node t).knowledge i →
    along pathLatencies proposer r i node ≤ t
  inside : ∀ {node t}, draft.Has node t → ∀ i,
    (draft.state node t).knowledge i ⊆ (draft.state node t).knowledge node
  self : ∀ {node t}, draft.Has node t → t ≠ 0 ∨ node = proposer →
    node ∈ (draft.state node t).knowledge node
  remote : ∀ {node t}, draft.Has node t → ∀ i, draft.Has i ((draft.state node t).remoteStates i)
  remote_le : ∀ {node t}, draft.Has node t → ∀ i, (draft.state node t).remoteStates i = 0 ∨
    (draft.state node t).remoteStates i + pathLatencies i node ≤ t
  own : ∀ {node t}, draft.Has node t → (draft.state node t).remoteStates node = t
  grows : ∀ {node t t'}, draft.Has node t → draft.Has node t' → t ≤ t' → ∀ i,
    (draft.state node t).knowledge i ⊆ (draft.state node t').knowledge i ∧
      (draft.state node t).remoteStates i ≤ (draft.state node t').remoteStates i
  noted : ∀ {src dest t}, t ∈ draft.messageTimes src dest → pathLatencies proposer src ≤ t
  witnessed : ∀ {node t}, draft.Has node t → ∀ i, (draft.state node t).knowledge i ⊆
    (draft.state i ((draft.state node t).remoteStates i)).knowledge i
  sourced : ∀ {node t}, draft.Has node t → ∀ i, (draft.state node t).remoteStates i = 0 ∨
    draft.Precedes (i, (draft.state node t).remoteStates i) (node, t)

namespace Causal

theorem start (hp : ShortestPaths pathLatencies) : Causal pathLatencies proposer (.start proposer) where
  reached ht hne := absurd (Finset.mem_singleton.mp ht) hne
  known {node t r i} _ hr := by
    have hr' : r ∈ (KnowledgeState.initial proposer node).knowledge i := hr
    simp only [KnowledgeState.initial] at hr'
    split at hr'
    · rename_i hhere
      obtain ⟨rfl, rfl⟩ := hhere
      obtain rfl := Finset.mem_singleton.mp hr'
      simp only [along, hp.self]
      omega
    · exact absurd hr' (Finset.notMem_empty _)
  inside {node t} _ i r hr := by
    have hr' : r ∈ (KnowledgeState.initial proposer node).knowledge i := hr
    show r ∈ (KnowledgeState.initial proposer node).knowledge node
    simp only [KnowledgeState.initial] at hr' ⊢
    split at hr'
    · rename_i hhere
      rwa [if_pos ⟨hhere.1, hhere.1⟩]
    · exact absurd hr' (Finset.notMem_empty _)
  self {node t} ht hor := by
    have hnode : node = proposer := hor.resolve_left fun hne => hne (Finset.mem_singleton.mp ht)
    show node ∈ (KnowledgeState.initial proposer node).knowledge node
    simp only [KnowledgeState.initial, hnode, and_self, if_true, Finset.mem_singleton]
  remote _ _ := Finset.mem_singleton_self 0
  remote_le _ _ := Or.inl rfl
  own ht := (Finset.mem_singleton.mp ht).symm
  grows _ _ _ _ := ⟨Finset.Subset.refl _, le_rfl⟩
  noted ht := absurd ht (Finset.notMem_empty _)
  witnessed {node t} _ i r hr := by
    have hr' : r ∈ (KnowledgeState.initial proposer node).knowledge i := hr
    show r ∈ (KnowledgeState.initial proposer i).knowledge i
    simp only [KnowledgeState.initial] at hr' ⊢
    split at hr'
    · rename_i hhere
      rwa [if_pos ⟨hhere.2, hhere.2⟩]
    · exact absurd hr' (Finset.notMem_empty _)
  sourced _ _ := Or.inl rfl

theorem post (h : Causal pathLatencies proposer draft) (hhas : draft.Has msg.src msg.time)
    (hle : pathLatencies proposer msg.src ≤ msg.time) (valueOnly : Bool) :
    Causal pathLatencies proposer (draft.posted msg valueOnly) := by
  have hiff : ∀ {node t}, (draft.posted msg valueOnly).Has node t ↔ draft.Has node t :=
    Draft.has_posted hhas
  refine ⟨fun ht => h.reached (hiff.mp ht), fun ht hr => ?_, fun ht i => ?_, fun ht hor => ?_,
    fun ht i => ?_, fun ht i => ?_, fun ht => ?_, fun ht ht' hle i => ?_, fun ht => ?_,
    fun ht i => ?_, fun ht i => ?_⟩
  · rw [Draft.knowledge_posted] at hr
    exact h.known (hiff.mp ht) hr
  · rw [Draft.knowledge_posted]
    exact h.inside (hiff.mp ht) i
  · rw [Draft.knowledge_posted]
    exact h.self (hiff.mp ht) hor
  · rw [Draft.remoteStates_posted]
    exact hiff.mpr (h.remote (hiff.mp ht) i)
  · rw [Draft.remoteStates_posted]
    exact h.remote_le (hiff.mp ht) i
  · rw [Draft.remoteStates_posted]
    exact h.own (hiff.mp ht)
  · rw [Draft.knowledge_posted, Draft.knowledge_posted, Draft.remoteStates_posted,
      Draft.remoteStates_posted]
    exact h.grows (hiff.mp ht) (hiff.mp ht') hle i
  · rcases Draft.mem_messageTimes_posted.mp ht with ht | ⟨rfl, -, rfl⟩
    · exact h.noted ht
    · exact hle
  · rw [Draft.knowledge_posted, Draft.knowledge_posted, Draft.remoteStates_posted]
    exact h.witnessed (hiff.mp ht) i
  · rw [Draft.remoteStates_posted]
    exact (h.sourced (hiff.mp ht) i).imp id
      (Draft.Precedes.mono hiff.mpr fun _ => Draft.dependencies_posted.ge)

section

variable {dest : Fin n} {time prev : Nat}

theorem state_added (hnew : ¬ draft.Has dest time) {node : Fin n} {t : Nat}
    (ht : draft.Has node t) : (draft.added dest time prev).state node t = draft.state node t :=
  Draft.state_added_of_ne fun heq => by
    obtain ⟨rfl, rfl⟩ := heq
    exact hnew ht

theorem mem_knowledge_added {r i : Fin n} :
    r ∈ ((draft.added dest time prev).state dest time).knowledge i ↔
      r ∈ (draft.state dest prev).knowledge i ∨ i = dest ∧ r = dest := by
  rw [Draft.state_added_self]
  rcases eq_or_ne i dest with rfl | hne
  · simp only [KnowledgeState.arriving, Function.update_self, Finset.mem_insert, true_and]
    exact or_comm
  · simp only [KnowledgeState.arriving, Function.update_of_ne hne, hne, false_and, or_false]

theorem remoteStates_added (i : Fin n) :
    ((draft.added dest time prev).state dest time).remoteStates i =
      if i = dest then time else (draft.state dest prev).remoteStates i := by
  rw [Draft.state_added_self]
  simp only [KnowledgeState.arriving, Function.update_apply]

variable (h : Causal pathLatencies proposer draft) (hprev : draft.Has dest prev) (hlt : prev < time)
  (hnew : ¬ draft.Has dest time)

include h hprev hlt hnew

theorem grows_added (hlast : ∀ t, draft.Has dest t → t < time → t ≤ prev) {node : Fin n}
    {t t' : Nat} (ht : (draft.added dest time prev).Has node t)
    (ht' : (draft.added dest time prev).Has node t') (hle : t ≤ t') (i : Fin n) :
    ((draft.added dest time prev).state node t).knowledge i ⊆
        ((draft.added dest time prev).state node t').knowledge i ∧
      ((draft.added dest time prev).state node t).remoteStates i ≤
        ((draft.added dest time prev).state node t').remoteStates i := by
  rcases Draft.has_added.mp ht with hbefore | ⟨rfl, rfl⟩
  · rcases Draft.has_added.mp ht' with hafter | ⟨rfl, rfl⟩
    · rw [state_added hnew hbefore, state_added hnew hafter]
      exact h.grows hbefore hafter hle i
    · have hlt' : t < t' := lt_of_le_of_ne hle fun heq => hnew (heq ▸ hbefore)
      obtain ⟨hk, hr⟩ := h.grows hbefore hprev (hlast t hbefore hlt') i
      rw [state_added hnew hbefore]
      refine ⟨fun r hr => mem_knowledge_added.mpr (Or.inl (hk hr)), ?_⟩
      rw [remoteStates_added]
      split
      · rename_i hi
        subst hi
        rw [h.own hbefore]
        exact hle
      · exact hr
  · rcases Draft.has_added.mp ht' with hafter | ⟨-, rfl⟩
    · obtain ⟨hk, hr⟩ := h.grows hprev hafter (hlt.le.trans hle) i
      rw [state_added hnew hafter]
      refine ⟨fun r hr => ?_, ?_⟩
      · rcases mem_knowledge_added.mp hr with hr | ⟨rfl, rfl⟩
        · exact hk hr
        · exact h.self hafter (Or.inl (by omega))
      · rw [remoteStates_added]
        split
        · rename_i hi
          subst hi
          rw [h.own hafter]
          exact hle
        · exact hr
    · exact ⟨Finset.Subset.refl _, le_rfl⟩

omit hlt in
theorem witnessed_added {node : Fin n} {t : Nat} (ht : (draft.added dest time prev).Has node t)
    (i : Fin n) : ((draft.added dest time prev).state node t).knowledge i ⊆
      ((draft.added dest time prev).state i
        (((draft.added dest time prev).state node t).remoteStates i)).knowledge i := by
  rcases Draft.has_added.mp ht with ht | ⟨rfl, rfl⟩
  · rw [state_added hnew ht, state_added hnew (h.remote ht i)]
    exact h.witnessed ht i
  · rw [remoteStates_added]
    split
    · rename_i hi
      rw [hi]
    · rename_i hi
      rw [state_added hnew (h.remote hprev i)]
      exact fun r hr => h.witnessed hprev i
        ((mem_knowledge_added.mp hr).resolve_right fun hhere => hi hhere.1)

theorem sourced_added {node : Fin n} {t : Nat} (ht : (draft.added dest time prev).Has node t)
    (i : Fin n) : ((draft.added dest time prev).state node t).remoteStates i = 0 ∨
      (draft.added dest time prev).Precedes
        (i, ((draft.added dest time prev).state node t).remoteStates i) (node, t) := by
  have hmono : ∀ {a b}, draft.Precedes a b → (draft.added dest time prev).Precedes a b :=
    Draft.Precedes.mono (fun ht => Draft.has_added.mpr (Or.inl ht)) fun ht =>
      (congrArg KnowledgeState.dependencies (state_added hnew ht)).ge
  rcases Draft.has_added.mp ht with ht | ⟨rfl, rfl⟩
  · rw [state_added hnew ht]
    exact (h.sourced ht i).imp id hmono
  · rw [remoteStates_added]
    split
    · rename_i hi
      subst hi
      exact Or.inr .refl
    · exact (h.sourced hprev i).imp id fun hchain => (hmono hchain).tail
        (.later (Draft.has_added.mpr (Or.inr ⟨rfl, rfl⟩)) hlt.le)

end

theorem add (hp : ShortestPaths pathLatencies) (h : Causal pathLatencies proposer draft) {dest : Fin n}
    {time prev : Nat} (hprev : draft.Has dest prev) (hlt : prev < time)
    (hlast : ∀ t, draft.Has dest t → t < time → t ≤ prev) (hnew : ¬ draft.Has dest time)
    (hreached : pathLatencies proposer dest ≤ time) :
    Causal pathLatencies proposer (draft.added dest time prev) := by
  refine ⟨fun ht hne => ?_, fun {node t r i} ht hr => ?_, fun {node t} ht i => ?_,
    fun {node t} ht hor => ?_, fun {node t} ht i => ?_, fun {node t} ht i => ?_, fun {node t} ht => ?_,
    h.grows_added hprev hlt hnew hlast, h.noted, h.witnessed_added hprev hnew,
    h.sourced_added hprev hlt hnew⟩
  · rcases Draft.has_added.mp ht with ht | ⟨rfl, rfl⟩
    · exact h.reached ht hne
    · exact hreached
  · rcases Draft.has_added.mp ht with ht | ⟨rfl, rfl⟩
    · rw [state_added hnew ht] at hr
      exact h.known ht hr
    · rcases mem_knowledge_added.mp hr with hr | ⟨rfl, rfl⟩
      · exact (h.known hprev hr).trans hlt.le
      · have hzero := hp.self r
        simp only [along]
        omega
  · rcases Draft.has_added.mp ht with ht | ⟨rfl, rfl⟩
    · rw [state_added hnew ht]
      exact h.inside ht i
    · intro r hr
      rw [mem_knowledge_added] at hr ⊢
      exact hr.imp (fun hr => h.inside hprev i hr) fun hr => ⟨rfl, hr.2⟩
  · rcases Draft.has_added.mp ht with ht | ⟨rfl, rfl⟩
    · rw [state_added hnew ht]
      exact h.self ht hor
    · rw [mem_knowledge_added]
      exact Or.inr ⟨rfl, rfl⟩
  · rcases Draft.has_added.mp ht with ht | ⟨rfl, rfl⟩
    · rw [state_added hnew ht]
      exact Draft.has_added.mpr (Or.inl (h.remote ht i))
    · rw [remoteStates_added]
      split
      · rename_i hi
        exact Draft.has_added.mpr (Or.inr ⟨hi, rfl⟩)
      · exact Draft.has_added.mpr (Or.inl (h.remote hprev i))
  · rcases Draft.has_added.mp ht with ht | ⟨rfl, rfl⟩
    · rw [state_added hnew ht]
      exact h.remote_le ht i
    · rw [remoteStates_added]
      split
      · rename_i hi
        subst hi
        have hzero := hp.self i
        omega
      · have hle := h.remote_le hprev i
        omega
  · rcases Draft.has_added.mp ht with ht | ⟨rfl, rfl⟩
    · rw [state_added hnew ht]
      exact h.own ht
    · rw [remoteStates_added, if_pos rfl]

section deliver

variable {arrival : Nat} (hp : ShortestPaths pathLatencies) (h : Causal pathLatencies proposer draft)
  (hsrc : draft.Has msg.src msg.time) (hdest : draft.Has msg.dest arrival)
  (hle : msg.time + pathLatencies msg.src msg.dest ≤ arrival)
include h hsrc hdest

include hp hle in
theorem informed_known {r i : Fin n} (hr : r ∈ (draft.informed msg arrival).knowledge i) :
    along pathLatencies proposer r i msg.dest ≤ arrival := by
  rcases Draft.mem_informed.mp hr with hk | ⟨rfl, hk⟩ | hk
  · exact h.known hdest hk
  · have := h.known hsrc hk
    have := hp.self msg.dest
    have := hp.triangle r msg.src msg.dest
    simp only [along] at *
    omega
  · have := h.known hsrc hk
    have := hp.triangle i msg.src msg.dest
    simp only [along] at *
    omega

theorem informed_inside (i : Fin n) : (draft.informed msg arrival).knowledge i ⊆
    (draft.informed msg arrival).knowledge msg.dest := by
  intro r hr
  rcases Draft.mem_informed.mp hr with hr | ⟨-, hr⟩ | hr
  · exact Draft.mem_informed.mpr (Or.inl (h.inside hdest i hr))
  · exact Draft.mem_informed.mpr (Or.inr (Or.inl ⟨rfl, hr⟩))
  · exact Draft.mem_informed.mpr (Or.inr (Or.inl ⟨rfl, h.inside hsrc i hr⟩))

theorem informed_remote (i : Fin n) : draft.Has i ((draft.informed msg arrival).remoteStates i) := by
  simp only [Draft.informed, KnowledgeState.merge, KnowledgeState.learn]
  rcases le_total ((draft.state msg.dest arrival).remoteStates i)
    ((draft.state msg.src msg.time).remoteStates i) with hmax | hmax
  · rw [max_eq_right hmax]
    exact h.remote hsrc i
  · rw [max_eq_left hmax]
    exact h.remote hdest i

include hp hle in
theorem informed_remote_le (i : Fin n) : (draft.informed msg arrival).remoteStates i = 0 ∨
    (draft.informed msg arrival).remoteStates i + pathLatencies i msg.dest ≤ arrival := by
  have := h.remote_le hsrc i
  have := h.remote_le hdest i
  have := hp.triangle i msg.src msg.dest
  simp only [Draft.informed, KnowledgeState.merge, KnowledgeState.learn]
  omega

theorem delivered_remote {node : Fin n} {t : Nat} (ht : draft.Has node t) (i : Fin n) :
    draft.Has i (((draft.delivered msg arrival).state node t).remoteStates i) ∧
      (draft.state node t).remoteStates i ≤
        ((draft.delivered msg arrival).state node t).remoteStates i := by
  rw [Draft.remoteStates_delivered]
  split
  · refine ⟨?_, le_max_left _ _⟩
    rcases le_total ((draft.state node t).remoteStates i)
      ((draft.informed msg arrival).remoteStates i) with hmax | hmax
    · rw [max_eq_right hmax]
      exact informed_remote h hsrc hdest i
    · rw [max_eq_left hmax]
      exact h.remote ht i
  · exact ⟨h.remote ht i, le_rfl⟩

theorem delivered_witnessed {node : Fin n} {t : Nat} (ht : draft.Has node t) {i : Fin n} (hne : i ≠ node) :
    ((draft.delivered msg arrival).state node t).knowledge i ⊆
      ((draft.delivered msg arrival).state i
        (((draft.delivered msg arrival).state node t).remoteStates i)).knowledge i := by
  obtain ⟨hthere, hlater⟩ := delivered_remote h hsrc hdest ht i
  -- Whoever has seen `i` at some time, `i` knows as much then.
  have hfrom : ∀ {other u}, draft.Has other u → (draft.state other u).remoteStates i ≤
      ((draft.delivered msg arrival).state node t).remoteStates i →
      (draft.state other u).knowledge i ⊆ ((draft.delivered msg arrival).state i
        (((draft.delivered msg arrival).state node t).remoteStates i)).knowledge i :=
    fun hother hup r hr => Draft.mem_knowledge_delivered.mpr
      (Or.inl ((h.grows (h.remote hother i) hthere hup i).1 (h.witnessed hother i hr)))
  intro r hr
  rcases Draft.mem_knowledge_delivered.mp hr with hr | ⟨rfl, hlate, hr⟩
  · exact hfrom ht hlater hr
  · have hinformed : (draft.informed msg arrival).remoteStates i ≤
        ((draft.delivered msg arrival).state msg.dest t).remoteStates i := by
      rw [Draft.remoteStates_delivered, if_pos ⟨rfl, hlate⟩]
      exact le_max_right _ _
    rcases Draft.mem_informed.mp hr with hr | ⟨heq, -⟩ | hr
    · exact hfrom hdest ((le_max_left _ _).trans hinformed) hr
    · exact absurd heq hne
    · exact hfrom hsrc ((le_max_right _ _).trans hinformed) hr

theorem delivered_sourced {node : Fin n} {t : Nat} (ht : draft.Has node t) (i : Fin n) :
    ((draft.delivered msg arrival).state node t).remoteStates i = 0 ∨
      (draft.delivered msg arrival).Precedes
        (i, ((draft.delivered msg arrival).state node t).remoteStates i) (node, t) := by
  have hhas : ∀ {node t}, draft.Has node t → (draft.delivered msg arrival).Has node t :=
    (Draft.has_delivered hdest).mpr
  have hmono : ∀ {a b}, draft.Precedes a b → (draft.delivered msg arrival).Precedes a b :=
    Draft.Precedes.mono hhas fun _ _ hm => Draft.mem_dependencies_delivered.mpr (Or.inl hm)
  have hbefore := (h.sourced ht i).imp id hmono
  rw [Draft.remoteStates_delivered]
  split
  · rename_i hhere
    obtain ⟨rfl, hlate⟩ := hhere
    have hlater : (draft.delivered msg arrival).Leads (msg.dest, arrival) (msg.dest, t) :=
      .later (hhas ht) hlate
    have hmsg : (draft.delivered msg arrival).Leads (msg.src, msg.time) (msg.dest, arrival) :=
      .message (hhas hdest) (Draft.mem_dependencies_delivered.mpr (Or.inr ⟨rfl, rfl, rfl⟩))
    have hinformed : (draft.informed msg arrival).remoteStates i =
        max ((draft.state msg.dest arrival).remoteStates i)
          ((draft.state msg.src msg.time).remoteStates i) := rfl
    rcases max_choice ((draft.state msg.dest t).remoteStates i)
        ((draft.informed msg arrival).remoteStates i) with heq | heq <;> rw [heq]
    · exact hbefore
    · rw [hinformed]
      rcases max_choice ((draft.state msg.dest arrival).remoteStates i)
          ((draft.state msg.src msg.time).remoteStates i) with heq | heq <;> rw [heq]
      · exact (h.sourced hdest i).imp id fun hchain => (hmono hchain).tail hlater
      · exact (h.sourced hsrc i).imp id fun hchain => ((hmono hchain).tail hmsg).tail hlater
  · exact hbefore

include hp hle in
theorem deliver : Causal pathLatencies proposer (draft.delivered msg arrival) := by
  have hiff : ∀ {node t}, (draft.delivered msg arrival).Has node t ↔ draft.Has node t :=
    Draft.has_delivered hdest
  have hown : ∀ {node t}, (draft.delivered msg arrival).Has node t →
      ((draft.delivered msg arrival).state node t).remoteStates node = t := fun {node t} ht => by
    rw [Draft.remoteStates_delivered, h.own (hiff.mp ht)]
    split
    · rename_i hhere
      obtain ⟨rfl, hlate⟩ := hhere
      have := informed_remote_le hp h hsrc hdest hle msg.dest
      omega
    · rfl
  refine ⟨fun ht => h.reached (hiff.mp ht), fun {node t r i} ht hr => ?_, fun {node t} ht i => ?_,
    fun {node t} ht hor => ?_, fun {node t} ht i => ?_, fun {node t} ht i => ?_, fun {node t} ht => ?_,
    fun {node t t'} ht ht' htt' i => ?_, h.noted, fun {node t} ht i => ?_, fun {node t} ht i => ?_⟩
  · rcases Draft.mem_knowledge_delivered.mp hr with hr | ⟨rfl, hlate, hr⟩
    · exact h.known (hiff.mp ht) hr
    · exact (informed_known hp h hsrc hdest hle hr).trans hlate
  · intro r hr
    rcases Draft.mem_knowledge_delivered.mp hr with hr | ⟨rfl, hlate, hr⟩
    · exact Draft.mem_knowledge_delivered.mpr (Or.inl (h.inside (hiff.mp ht) i hr))
    · exact Draft.mem_knowledge_delivered.mpr
        (Or.inr ⟨rfl, hlate, informed_inside h hsrc hdest i hr⟩)
  · exact Draft.mem_knowledge_delivered.mpr (Or.inl (h.self (hiff.mp ht) hor))
  · exact hiff.mpr (delivered_remote h hsrc hdest (hiff.mp ht) i).1
  · rw [Draft.remoteStates_delivered]
    have hbefore := h.remote_le (hiff.mp ht) i
    split
    · rename_i hhere
      obtain ⟨rfl, hlate⟩ := hhere
      have := informed_remote_le hp h hsrc hdest hle i
      omega
    · exact hbefore
  · exact hown ht
  · obtain ⟨hk, hr⟩ := h.grows (hiff.mp ht) (hiff.mp ht') htt' i
    refine ⟨fun r hr => ?_, ?_⟩
    · rcases Draft.mem_knowledge_delivered.mp hr with hr | ⟨rfl, hlate, hr⟩
      · exact Draft.mem_knowledge_delivered.mpr (Or.inl (hk hr))
      · exact Draft.mem_knowledge_delivered.mpr (Or.inr ⟨rfl, hlate.trans htt', hr⟩)
    · rw [Draft.remoteStates_delivered, Draft.remoteStates_delivered]
      split
      · rename_i hhere
        rw [if_pos ⟨hhere.1, hhere.2.trans htt'⟩]
        exact max_le_max_right _ hr
      · split
        · exact hr.trans (le_max_left _ _)
        · exact hr
  · rcases eq_or_ne i node with rfl | hne
    · rw [hown ht]
    · exact delivered_witnessed h hsrc hdest (hiff.mp ht) hne
  · exact delivered_sourced h hsrc hdest (hiff.mp ht) i

end deliver

end Causal

end KCensus.Propagation

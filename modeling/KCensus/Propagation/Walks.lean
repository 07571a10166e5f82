import KCensus.Propagation.Causality

namespace KCensus.Propagation

variable {n : Nat} {topology : Topology n} {routes : Routes n}
  {pathLatencies : Fin n → Fin n → Nat} {proposer leader : Fin n} {valueOnly : Bool}

-- The draft once the source has sent `msg`, unless it had before.
inductive Draft.Sent (draft : Draft n) (msg : MessageId n) (valueOnly : Bool) : Bool → Draft n → Prop
  | reused (h : msg.time ∈ draft.messageTimes msg.src msg.dest) : Sent draft msg valueOnly true draft
  | posted (hnew : msg.time ∉ draft.messageTimes msg.src msg.dest) (hhas : draft.Has msg.src msg.time) :
      Sent draft msg valueOnly false (draft.posted msg valueOnly)

-- The draft once the destination has a state at `arrival`.
inductive Draft.Opened (draft : Draft n) (dest : Fin n) (arrival : Nat) : Draft n → Prop
  | present (h : draft.Has dest arrival) : Opened draft dest arrival draft
  | added {prev : Nat} (hnew : ¬ draft.Has dest arrival) (hprev : draft.Has dest prev)
      (hlt : prev < arrival) (hlast : ∀ t, draft.Has dest t → t < arrival → t ≤ prev) :
      Opened draft dest arrival (draft.added dest arrival prev)

-- What one step of a walk does.
structure Hopped (topology : Topology n) (routes : Routes n) (proposer : Fin n) (valueOnly : Bool)
    (step : Nat) (target : Fin n) (s s' : Draft n × Walk n) (msg : MessageId n) (reused : Bool) :
    Prop where
  own : msg.proposer = proposer
  src : msg.src = s.2.current
  dest : msg.dest = routes.nextSrc s.2.current target
  ne : msg.src ≠ msg.dest
  lower : s.2.currentTime ≤ msg.time
  upper : msg.time ≤ s.2.currentTime + s.2.maxSlack
  fresh : reused = false → msg.time = s.2.currentTime
  first : ∀ u ∈ s.1.messageTimes msg.src msg.dest, s.2.currentTime ≤ u →
    u ≤ s.2.currentTime + s.2.maxSlack → msg.time ≤ u
  walk : s'.2 =
    { currentTime := msg.time + topology.linkLatency msg.src msg.dest
      maxSlack := s.2.currentTime + s.2.maxSlack - msg.time
      current := msg.dest
      fromProposer := s.2.fromProposer &&
        (decide (step = 0) || decide (routes.prevDest proposer msg.dest = msg.src)) }
  draft : ∃ sent opened : Draft n, s.1.Sent msg valueOnly reused sent ∧
    sent.Opened msg.dest (msg.time + topology.linkLatency msg.src msg.dest) opened ∧
    opened.Has msg.dest (msg.time + topology.linkLatency msg.src msg.dest) ∧
    opened.Has msg.src msg.time ∧
    s'.1 = opened.delivered msg (msg.time + topology.linkLatency msg.src msg.dest)

theorem Draft.reusable_some {draft : Draft n} {src dest : Fin n} {time deadline t : Nat}
    (h : draft.reusable src dest time deadline = some t) :
    t ∈ draft.messageTimes src dest ∧ time ≤ t ∧ t ≤ deadline ∧
      ∀ u ∈ draft.messageTimes src dest, time ≤ u → u ≤ deadline → t ≤ u := by
  obtain ⟨hmem, hleast⟩ := Lib.mem_first? h
  obtain ⟨hnoted, hlower, hupper⟩ := Finset.mem_filter.mp hmem
  exact ⟨hnoted, hlower, hupper, fun u hu h1 h2 => hleast u (Finset.mem_filter.mpr ⟨hu, h1, h2⟩)⟩

theorem Draft.reusable_none {draft : Draft n} {src dest : Fin n} {time deadline : Nat}
    (h : draft.reusable src dest time deadline = none) :
    ∀ u ∈ draft.messageTimes src dest, time ≤ u → ¬ u ≤ deadline := by
  intro u hu h1 h2
  have hmem : u ∈ (draft.messageTimes src dest).filter fun t => time ≤ t ∧ t ≤ deadline :=
    Finset.mem_filter.mpr ⟨hu, h1, h2⟩
  rw [Lib.first?_eq_none.mp h] at hmem
  exact Finset.notMem_empty _ hmem

theorem hop_ok {step : Nat} {target : Fin n} {s s' : Draft n × Walk n}
    (h : hop topology routes proposer valueOnly step target s = .ok s') :
    ∃ msg reused, Hopped topology routes proposer valueOnly step target s s' msg reused := by
  obtain ⟨draft, walk⟩ := s
  simp only [hop, bind, Except.bind, pure, Except.pure, throw, throwThe, MonadExceptOf.throw] at h
  split at h
  · cases h
  · rename_i hne
    cases hfound : draft.reusable walk.current (routes.nextSrc walk.current target) walk.currentTime
        (walk.currentTime + walk.maxSlack) with
    | some time =>
        obtain ⟨hnoted, hlower, hupper, hfirst⟩ := Draft.reusable_some hfound
        simp only [hfound, Option.isSome_some, if_true, Option.getD_some] at h
        split at h
        · rename_i hhas
          split at h
          · cases h
          · rename_i draft' hdeliver
            obtain ⟨hne', -, hsrc, rfl⟩ := Draft.deliver_ok hdeliver
            cases h
            exact ⟨_, true, rfl, rfl, rfl, hne', hlower, hupper, by simp, hfirst, rfl, draft, draft,
              .reused hnoted, .present hhas, hhas, hsrc, rfl⟩
        · cases h
    | none =>
        have hfirst := Draft.reusable_none hfound
        simp only [hfound, Option.isSome_none, Bool.false_eq_true, if_false, Option.getD_none] at h
        split at h
        · cases h
        · rename_i sent hpost
          obtain ⟨hnew, hhas, rfl⟩ := Draft.post_ok hpost
          split at h
          · cases h
          · split at h
            · rename_i hthere
              split at h
              · cases h
              · rename_i draft' hdeliver
                obtain ⟨hne', -, hsrc, rfl⟩ := Draft.deliver_ok hdeliver
                cases h
                exact ⟨_, false, rfl, rfl, rfl, hne', le_rfl, Nat.le_add_right _ _, fun _ => rfl,
                  fun u hu h1 h2 => absurd h2 (hfirst u hu h1), rfl, _, _, .posted hnew hhas,
                  .present hthere, hthere, hsrc, rfl⟩
            · rename_i hthere
              split at h
              · cases h
              · rename_i opened hadd
                obtain ⟨prev, hprev, hlt, hlast, rfl⟩ := Draft.addState_ok hadd
                split at h
                · cases h
                · rename_i draft' hdeliver
                  obtain ⟨hne', hdest, hsrc, rfl⟩ := Draft.deliver_ok hdeliver
                  cases h
                  exact ⟨_, false, rfl, rfl, rfl, hne', le_rfl, Nat.le_add_right _ _, fun _ => rfl,
                    fun u hu h1 h2 => absurd h2 (hfirst u hu h1), rfl, _, _, .posted hnew hhas,
                    .added hthere hprev hlt hlast, hdest, hsrc, rfl⟩

-- What the message of a step is for belongs together, whatever the tables.
theorem Hopped.wired {step : Nat} {target : Fin n} {s s' : Draft n × Walk n} {msg : MessageId n}
    {reused : Bool} (hop : Hopped topology routes proposer valueOnly step target s s' msg reused)
    (h : Wired topology proposer (fun _ => False) s.1) :
    Wired topology proposer (fun _ => False) s'.1 := by
  obtain ⟨sent, opened, hsent, hopened, hdest, -, hdraft⟩ := hop.draft
  obtain ⟨hw, hnoted⟩ : Wired topology proposer (· = msg) sent ∧
      msg.time ∈ sent.messageTimes msg.src msg.dest := by
    cases hsent with
    | reused hnoted => exact ⟨h.mono fun _ => False.elim, hnoted⟩
    | posted hnew hhas =>
        exact ⟨h.post hop.own hop.ne hhas hnew valueOnly,
          Draft.mem_messageTimes_posted.mpr (Or.inr ⟨rfl, rfl, rfl⟩)⟩
  rw [hdraft]
  cases hopened with
  | present _ => exact hw.deliver hop.own hnoted hdest
  | added hnew hprev hlt hlast => exact (hw.add hnew).deliver hop.own hnoted hdest

theorem walkTo_inv {step : Nat} {target : Fin n} {Inv : Draft n × Walk n → Prop}
    (hhop : ∀ s s', hop topology routes proposer valueOnly step target s = .ok s' → Inv s → Inv s')
    {hops : Nat} {s s' : Draft n × Walk n}
    (hrun : walkTo topology routes proposer valueOnly step target hops s = .ok s') (h : Inv s) :
    Inv s' := by
  induction hops generalizing s with
  | zero =>
      unfold walkTo at hrun
      split at hrun
      · cases hrun
        exact h
      · cases hrun
  | succ hops ih =>
      unfold walkTo at hrun
      split at hrun
      · cases hrun
        exact h
      · obtain ⟨next, hnext, hrest⟩ := Lib.bind_ok hrun
        exact ih hrest (hhop s next hnext h)

-- What every step of a walk keeps, however far it is from being late, a path keeps.
theorem followPath_inv (Inv : Draft n × Walk n → Prop) {leaderLatency : Nat} {draft draft' : Draft n}
    {t : TriangularPath n}
    (hhop : ∀ step target s s', hop topology routes proposer valueOnly step target s = .ok s' →
      Inv s → Inv s')
    (hturn : ∀ (s : Draft n × Walk n) (fromProposer : Bool), Inv s →
      Inv (s.1, { s.2 with fromProposer := fromProposer }))
    (hstart : ∀ maxSlack, Inv (draft, ⟨0, maxSlack, proposer, true⟩))
    (hrun : followPath topology routes proposer leader leaderLatency valueOnly draft t = .ok draft') :
    draft' = draft ∨ ∃ s, Inv s ∧ draft' = s.1 := by
  obtain ⟨known, -, hrun⟩ := Lib.bind_ok hrun
  split at hrun
  · cases hrun
    exact Or.inl rfl
  · obtain ⟨maxSlack, -, hrun⟩ := Lib.bind_ok hrun
    obtain ⟨s, hfold, hrun⟩ := Lib.bind_ok hrun
    cases hrun
    refine Or.inr ⟨s, ?_, rfl⟩
    refine Lib.foldlM_inv Inv (fun checkpoint _ s s' hpass hs => ?_) hfold (hstart maxSlack)
    exact walkTo_inv (fun s s' hhop' hs => hhop _ _ s s' hhop' hs) hpass (hturn s _ hs)

theorem followPath_wired {leaderLatency : Nat} {draft draft' : Draft n} {t : TriangularPath n}
    (hrun : followPath topology routes proposer leader leaderLatency valueOnly draft t = .ok draft')
    (h : Wired topology proposer (fun _ => False) draft) :
    Wired topology proposer (fun _ => False) draft' := by
  rcases followPath_inv (fun s => Wired topology proposer (fun _ => False) s.1)
    (fun step target s s' hhop hs => by
      obtain ⟨msg, reused, hhopped⟩ := hop_ok hhop
      exact hhopped.wired hs)
    (fun _ _ hs => hs) (fun _ => h) hrun with rfl | ⟨s, hs, rfl⟩
  · exact h
  · exact hs

theorem buildGraph_wired {t : LatencyTables n} {level : KnowledgeLevel n} {draft : Draft n}
    (hrun : buildGraph topology routes proposer leader t level = .ok draft) :
    Wired topology proposer (fun _ => False) draft ∧ draft.shouldIncludeValue.card = n - 1 := by
  obtain ⟨last, -, hrun⟩ := Lib.bind_ok hrun
  split at hrun
  · cases hrun
  · obtain ⟨values, hvalues, hrun⟩ := Lib.bind_ok hrun
    obtain ⟨all, hall, hrun⟩ := Lib.bind_ok hrun
    split at hrun
    · cases hrun
    · rename_i hcard
      cases hrun
      refine ⟨?_, not_not.mp hcard⟩
      exact Lib.foldlM_inv _ (fun _ _ _ _ hpath h => followPath_wired hpath h) hall
        (Lib.foldlM_inv _ (fun _ _ _ _ hpath h => followPath_wired hpath h) hvalues .start)

section

variable (hp : ShortestPaths pathLatencies)
  (hlink : ∀ a b, pathLatencies a b ≤ topology.linkLatency a b)
include hp hlink

-- What holds of the draft, and of where the walk is.
structure Walk.Sound (topology : Topology n) (pathLatencies : Fin n → Fin n → Nat) (proposer : Fin n)
    (s : Draft n × Walk n) : Prop where
  wired : Wired topology proposer (fun _ => False) s.1
  causal : Causal pathLatencies proposer s.1
  has : s.1.Has s.2.current s.2.currentTime
  reached : pathLatencies proposer s.2.current ≤ s.2.currentTime

theorem Hopped.sound {step : Nat} {target : Fin n} {s s' : Draft n × Walk n} {msg : MessageId n}
    {reused : Bool} (hop : Hopped topology routes proposer valueOnly step target s s' msg reused)
    (h : Walk.Sound topology pathLatencies proposer s) :
    Walk.Sound topology pathLatencies proposer s' := by
  have hwired := hop.wired h.wired
  obtain ⟨sent, opened, hsent, hopened, hdest, hsrc, hdraft⟩ := hop.draft
  have hreach : pathLatencies proposer msg.src ≤ msg.time := by
    have := h.reached
    have := hop.lower
    rw [hop.src]
    omega
  have harrival : pathLatencies proposer msg.dest ≤
      msg.time + topology.linkLatency msg.src msg.dest := by
    have := hp.triangle proposer msg.src msg.dest
    have := hlink msg.src msg.dest
    omega
  have hsent' : Causal pathLatencies proposer sent := by
    cases hsent with
    | reused _ => exact h.causal
    | posted _ hhas => exact h.causal.post hhas hreach valueOnly
  have hopened' : Causal pathLatencies proposer opened := by
    cases hopened with
    | present _ => exact hsent'
    | added hnew hprev hlt hlast => exact hsent'.add hp hprev hlt hlast hnew harrival
  refine ⟨hwired, ?_, ?_, ?_⟩
  · rw [hdraft]
    exact hopened'.deliver hp hsrc hdest (Nat.add_le_add_left (hlink msg.src msg.dest) msg.time)
  · rw [hdraft, hop.walk]
    exact (Draft.has_delivered hdest).mpr hdest
  · rw [hop.walk]
    exact harrival

theorem followPath_sound {leaderLatency : Nat} {draft draft' : Draft n} {t : TriangularPath n}
    (hrun : followPath topology routes proposer leader leaderLatency valueOnly draft t = .ok draft')
    (h : Wired topology proposer (fun _ => False) draft ∧ Causal pathLatencies proposer draft) :
    Wired topology proposer (fun _ => False) draft' ∧ Causal pathLatencies proposer draft' := by
  rcases followPath_inv (Walk.Sound topology pathLatencies proposer)
    (fun step target s s' hhop hs => by
      obtain ⟨msg, reused, hhopped⟩ := hop_ok hhop
      exact hhopped.sound hp hlink hs)
    (fun _ _ hs => ⟨hs.wired, hs.causal, hs.has, hs.reached⟩)
    (fun _ => ⟨h.1, h.2, h.1.zero proposer, (hp.self proposer).le⟩) hrun with rfl | ⟨s, hs, rfl⟩
  · exact h
  · exact ⟨hs.wired, hs.causal⟩

theorem buildGraph_causal {t : LatencyTables n} {level : KnowledgeLevel n} {draft : Draft n}
    (hrun : buildGraph topology routes proposer leader t level = .ok draft) :
    Causal pathLatencies proposer draft := by
  obtain ⟨last, -, hrun⟩ := Lib.bind_ok hrun
  split at hrun
  · cases hrun
  · obtain ⟨values, hvalues, hrun⟩ := Lib.bind_ok hrun
    obtain ⟨all, hall, hrun⟩ := Lib.bind_ok hrun
    split at hrun
    · cases hrun
    · cases hrun
      exact (Lib.foldlM_inv _ (fun _ _ _ _ hpath h => followPath_sound hp hlink hpath h) hall
        (Lib.foldlM_inv _ (fun _ _ _ _ hpath h => followPath_sound hp hlink hpath h) hvalues
          ⟨.start, .start hp⟩)).2

end

end KCensus.Propagation

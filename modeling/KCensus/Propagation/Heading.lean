import KCensus.Propagation.Spreading

namespace KCensus.Propagation

variable {n : Nat} {topology : Topology n} {routes : Routes n}
  {pathLatencies : Fin n → Fin n → Nat} {proposer leader : Fin n} {leaderLatency : Nat}

-- At some time the leader has heard that `second` heard of `first`.
def Told (leader : Fin n) (draft : Draft n) (first second : Fin n) : Prop :=
  ∃ t, draft.Has leader t ∧ first ∈ (draft.state leader t).knowledge second

-- The values are on their way to everyone, and nothing gets to the leader too late.
structure Prepared (topology : Topology n) (routes : Routes n) (pathLatencies : Fin n → Fin n → Nat)
    (proposer leader : Fin n) (leaderLatency : Nat) (draft : Draft n) : Prop where
  wired : Wired topology proposer (fun _ => False) draft
  causal : Causal pathLatencies proposer draft
  supplied : ∀ pid, Supplied routes pathLatencies proposer draft pid
  values : draft.shouldIncludeValue =
    (Finset.univ.erase proposer).image (valueMessage routes pathLatencies proposer)
  inTime : ∀ {t}, draft.Has leader t → t ≤ leaderLatency

-- A message is there for its value, or because what it leads to is on the way to `goal`.
def Purposeful (topology : Topology n) (routes : Routes n) (pathLatencies : Fin n → Fin n → Nat)
    (proposer : Fin n) (goal : Fin n × Nat → Prop) (draft : Draft n) : Prop :=
  ∀ src dest t, t ∈ draft.messageTimes src dest →
    (dest ≠ proposer ∧ src = routes.prevDest proposer dest ∧ t = pathLatencies proposer src) ∨
      ∃ g, goal g ∧ draft.Precedes (dest, t + topology.linkLatency src dest) g

def AtLeader (leader : Fin n) (draft : Draft n) (g : Fin n × Nat) : Prop :=
  g.1 = leader ∧ draft.Has leader g.2

theorem Purposeful.mono {goal goal' : Fin n × Nat → Prop} {draft : Draft n}
    (h : Purposeful topology routes pathLatencies proposer goal draft) (hle : ∀ g, goal g → goal' g) :
    Purposeful topology routes pathLatencies proposer goal' draft := by
  intro src dest t ht
  refine (h src dest t ht).imp id ?_
  rintro ⟨g, hg, hchain⟩
  exact ⟨g, hle g hg, hchain⟩

-- Where the walk is on its way to `target`, which leaves `tail` to go. What slack it has is what it
-- can be late; while it has come by shortest paths, it is not late at all.
structure Heading (topology : Topology n) (routes : Routes n) (pathLatencies : Fin n → Fin n → Nat)
    (proposer leader : Fin n) (leaderLatency : Nat) (target : Fin n) (tail : Nat)
    (s : Draft n × Walk n) : Prop where
  prepared : Prepared topology routes pathLatencies proposer leader leaderLatency s.1
  has : s.1.Has s.2.current s.2.currentTime
  reached : pathLatencies proposer s.2.current ≤ s.2.currentTime
  budget : s.2.currentTime + s.2.maxSlack + pathLatencies s.2.current target + tail = leaderLatency
  direct : s.2.fromProposer = true → s.2.currentTime = pathLatencies proposer s.2.current
  purposeful : Purposeful topology routes pathLatencies proposer
    (fun g => AtLeader leader s.1 g ∨ g = (s.2.current, s.2.currentTime)) s.1

namespace Heading

variable {target : Fin n} {tail step : Nat} {s s' : Draft n × Walk n}

theorem sound (h : Heading topology routes pathLatencies proposer leader leaderLatency target tail s) :
    Walk.Sound topology pathLatencies proposer s :=
  ⟨h.prepared.wired, h.prepared.causal, h.has, h.reached⟩

theorem turn (h : Heading topology routes pathLatencies proposer leader leaderLatency target tail s)
    (hthere : s.2.current = target) (self : pathLatencies target target = 0) {next : Fin n}
    {tail' : Nat} (htail : pathLatencies target next + tail' = tail) (fromProposer : Bool)
    (hfrom : fromProposer = true → s.2.fromProposer = true) :
    Heading topology routes pathLatencies proposer leader leaderLatency next tail'
      (s.1, { s.2 with fromProposer := fromProposer }) where
  prepared := h.prepared
  has := h.has
  reached := h.reached
  budget := by
    have := h.budget
    rw [hthere] at this
    simp only [hthere]
    omega
  direct := fun hf => h.direct (hfrom hf)
  purposeful := h.purposeful

theorem hopped_purposeful {valueOnly : Bool} {msg : MessageId n} {reused : Bool}
    (hop : Hopped topology routes proposer valueOnly step target s s' msg reused)
    (hsound : Walk.Sound topology pathLatencies proposer s')
    (h : Heading topology routes pathLatencies proposer leader leaderLatency target tail s) :
    Purposeful topology routes pathLatencies proposer
      (fun g => AtLeader leader s'.1 g ∨ g = (s'.2.current, s'.2.currentTime)) s'.1 := by
  have hhas : ∀ {node t}, s.1.Has node t → s'.1.Has node t := fun ht => hop.has_iff.mpr (Or.inl ht)
  have hmono : ∀ {a b}, s.1.Precedes a b → s'.1.Precedes a b :=
    Draft.Precedes.mono hhas hop.dependencies_mono
  have hnoted := hop.mem_messageTimes.mpr (Or.inr ⟨rfl, rfl, rfl⟩)
  obtain ⟨-, hsrc, -⟩ := hsound.wired.posted (m := msg) hop.own hnoted
  obtain ⟨hdest, hdep⟩ := hsound.wired.arrives (m := msg) hop.own hnoted id
  have hthere : (msg.dest, msg.time + topology.linkLatency msg.src msg.dest) =
      (s'.2.current, s'.2.currentTime) := by rw [hop.walk]
  intro src dest t ht
  rcases hop.mem_messageTimes.mp ht with ht | ⟨rfl, rfl, rfl⟩
  · refine (h.purposeful src dest t ht).imp id ?_
    rintro ⟨g, ⟨hleader, hg⟩ | rfl, hchain⟩
    · exact ⟨g, Or.inl ⟨hleader, hhas hg⟩, hmono hchain⟩
    · refine ⟨_, Or.inr rfl, ?_⟩
      rw [← hthere]
      rw [← hop.src] at hchain
      exact ((hmono hchain).tail (.later hsrc hop.lower)).tail (.message hdest hdep)
  · exact Or.inr ⟨_, Or.inr hthere, .refl⟩

section

variable (hr : AgreeingRoutes topology pathLatencies routes)
include hr

theorem reusable_some
    (h : Heading topology routes pathLatencies proposer leader leaderLatency target tail s)
    (hfrom : s.2.fromProposer = true) {next : Fin n} (hne : next ≠ s.2.current)
    (hprev : routes.prevDest proposer next = s.2.current) :
    pathLatencies proposer s.2.current ∈ s.1.messageTimes s.2.current next ∧
      s.1.reusable s.2.current next s.2.currentTime (s.2.currentTime + s.2.maxSlack) ≠ none := by
  have hproposer : next ≠ proposer := by
    rintro rfl
    rw [hr.prev_self] at hprev
    exact hne hprev
  have hnoted := h.prepared.supplied next hproposer
  rw [hprev] at hnoted
  refine ⟨hnoted, fun hnone => ?_⟩
  have hdirect := h.direct hfrom
  exact Draft.reusable_none hnone _ hnoted hdirect.le (by omega)

theorem hopped {msg : MessageId n} {reused : Bool}
    (hop : Hopped topology routes proposer false step target s s' msg reused)
    (hne : s.2.current ≠ target)
    (h : Heading topology routes pathLatencies proposer leader leaderLatency target tail s)
    (hway : step = 0 → routes.prevDest proposer (routes.nextSrc s.2.current target) = s.2.current) :
    Heading topology routes pathLatencies proposer leader leaderLatency target tail s' ∧
      ∀ first second, Told leader s.1 first second → Told leader s'.1 first second := by
  obtain ⟨hnext, hlatency⟩ := hr.next s.2.current target hne
  have hsound := hop.sound hr.shortest hr.link h.sound
  have hcurrent : s'.2.current = msg.dest := by rw [hop.walk]
  have htime : s'.2.currentTime = msg.time + topology.linkLatency msg.src msg.dest := by rw [hop.walk]
  rw [← hop.dest, ← hop.src] at hlatency
  have hbudget : s'.2.currentTime + s'.2.maxSlack + pathLatencies s'.2.current target + tail =
      leaderLatency := by
    have := h.budget
    have := hop.upper
    rw [← hop.src] at *
    rw [hop.walk]
    simp only
    omega
  refine ⟨⟨⟨hsound.wired, hsound.causal, fun pid => .hopped hop (h.prepared.supplied pid), ?_, ?_⟩,
    hsound.has, hsound.reached, hbudget, fun hfrom => ?_, h.hopped_purposeful hop hsound⟩, ?_⟩
  · rw [hop.shouldIncludeValue, Bool.and_false]
    exact h.prepared.values
  · intro t ht
    rcases hop.has_iff.mp ht with ht | ⟨hdest, rfl⟩
    · exact h.prepared.inTime ht
    · omega
  · have hboth : s.2.fromProposer = true ∧
        routes.prevDest proposer (routes.nextSrc s.2.current target) = s.2.current := by
      rw [hop.walk, Bool.and_eq_true, Bool.or_eq_true, decide_eq_true_eq, decide_eq_true_eq, hop.dest,
        hop.src] at hfrom
      exact ⟨hfrom.1, hfrom.2.elim hway id⟩
    obtain ⟨hnoted, -⟩ := h.reusable_some hr hboth.1 hnext hboth.2
    have hdirect := h.direct hboth.1
    rw [← hop.dest, ← hop.src] at hnoted
    have hle := hop.first _ hnoted (by rw [hop.src]; exact hdirect.le) (by rw [hop.src]; omega)
    have hge := hop.lower
    have hproposer : msg.dest ≠ proposer := by
      intro heq
      have hprev := hboth.2
      rw [← hop.dest, heq, hr.prev_self, ← hop.src] at hprev
      exact hop.ne (hprev.symm.trans heq.symm)
    have harrival := hr.prev proposer msg.dest hproposer
    rw [hop.dest, hboth.2, ← hop.dest, ← hop.src] at harrival
    rw [hcurrent, htime]
    rw [← hop.src] at hdirect
    omega
  · rintro first second ⟨t, ht, hk⟩
    exact ⟨t, hop.has_iff.mpr (Or.inl ht), hop.knowledge_mono ht hk⟩

-- One leg of the path goes through, `Extra` being what else a step keeps.
theorem leg_ok (step : Nat) (target : Fin n) (tail : Nat) (Extra : Draft n × Walk n → Prop)
    {s : Draft n × Walk n}
    (h : Heading topology routes pathLatencies proposer leader leaderLatency target tail s)
    (hextra : Extra s)
    (hway : ∀ s, Extra s → s.2.current ≠ target → step = 0 →
      routes.prevDest proposer (routes.nextSrc s.2.current target) = s.2.current)
    (hstep : ∀ s s' msg reused,
      Heading topology routes pathLatencies proposer leader leaderLatency target tail s →
      Hopped topology routes proposer false step target s s' msg reused → s.2.current ≠ target →
      Extra s → Extra s') :
    ∃ s', walkTo topology routes proposer false step target n s = .ok s' ∧
      Heading topology routes pathLatencies proposer leader leaderLatency target tail s' ∧
      (∀ first second, Told leader s.1 first second → Told leader s'.1 first second) ∧ Extra s' ∧
      s'.2.current = target := by
  obtain ⟨s', hrun, ⟨hheading, htold, hextra'⟩, hthere⟩ := walkTo_reaches hr false step
    (fun s' => Heading topology routes pathLatencies proposer leader leaderLatency target tail s' ∧
      (∀ first second, Told leader s.1 first second → Told leader s'.1 first second) ∧ Extra s')
    (fun w hw hne => by
      obtain ⟨hheading, htold, hextra⟩ := hw
      have hnext := (hr.next w.2.current target hne).1
      obtain ⟨w', hhop⟩ := hop_progress routes false step target hheading.sound hnext.symm
        (next_nearer hr hne).2 fun hnone => by
          -- A new message would carry the value that `next` gets anyway.
          refine (Bool.eq_false_iff.mpr fun hfrom => ?_).symm
          rw [Bool.and_eq_true, Bool.or_eq_true, decide_eq_true_eq, decide_eq_true_eq] at hfrom
          exact (hheading.reusable_some hr hfrom.1 hnext
            (hfrom.2.elim (hway w hextra hne) id)).2 hnone
      obtain ⟨msg, reused, hhopped⟩ := hop_ok hhop
      obtain ⟨hheading', htold'⟩ := hheading.hopped hr hhopped hne (hway w hextra hne)
      exact ⟨w', hhop, hheading', fun first second ht => htold' _ _ (htold _ _ ht),
        hstep w w' msg reused hheading hhopped hne hextra⟩)
    ⟨h, fun _ _ ht => ht, hextra⟩ (rank_le target _)
  exact ⟨s', hrun, hheading, htold, hextra', hthere⟩

end

end Heading

end KCensus.Propagation

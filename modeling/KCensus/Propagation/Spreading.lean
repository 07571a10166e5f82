import KCensus.Propagation.Progress

namespace KCensus.Propagation

variable {n : Nat} {topology : Topology n} {routes : Routes n}
  {pathLatencies : Fin n → Fin n → Nat} {proposer leader : Fin n}

def valueMessage (routes : Routes n) (pathLatencies : Fin n → Fin n → Nat) (proposer pid : Fin n) :
    MessageId n where
  proposer := proposer
  src := routes.prevDest proposer pid
  dest := pid
  time := pathLatencies proposer (routes.prevDest proposer pid)

def Supplied (routes : Routes n) (pathLatencies : Fin n → Fin n → Nat) (proposer : Fin n)
    (draft : Draft n) (pid : Fin n) : Prop :=
  pid ≠ proposer → pathLatencies proposer (routes.prevDest proposer pid) ∈
    draft.messageTimes (routes.prevDest proposer pid) pid

-- While only values are sent, the messages follow the shortest paths from the proposer.
structure Spreading (routes : Routes n) (pathLatencies : Fin n → Fin n → Nat) (proposer : Fin n)
    (draft : Draft n) : Prop where
  shortest : ∀ {src dest t}, t ∈ draft.messageTimes src dest → dest ≠ proposer ∧
    src = routes.prevDest proposer dest ∧ t = pathLatencies proposer src
  times : ∀ {node t}, draft.Has node t → t = 0 ∨ t = pathLatencies proposer node
  valued : ∀ {m : MessageId n}, m.proposer = proposer → m.time ∈ draft.messageTimes m.src m.dest →
    m ∈ draft.shouldIncludeValue

-- Where the walk with the value is on its way to `target`.
structure Walk.Outbound (routes : Routes n) (pathLatencies : Fin n → Fin n → Nat)
    (proposer target : Fin n) (s : Draft n × Walk n) : Prop where
  spreading : Spreading routes pathLatencies proposer s.1
  time : s.2.currentTime = pathLatencies proposer s.2.current
  onWay : OnWay routes proposer target s.2.current
  fromProposer : s.2.fromProposer = true
  supplied : Supplied routes pathLatencies proposer s.1 s.2.current

theorem Spreading.start : Spreading routes pathLatencies proposer (.start proposer) where
  shortest ht := absurd ht (Finset.notMem_empty _)
  times ht := Or.inl (Finset.mem_singleton.mp ht)
  valued _ ht := absurd ht (Finset.notMem_empty _)

theorem walkTo_here {valueOnly : Bool} {step hops : Nat} {target : Fin n} {s : Draft n × Walk n}
    (h : s.2.current = target) :
    walkTo topology routes proposer valueOnly step target hops s = .ok s := by
  cases hops <;>
  · rw [walkTo, if_pos h]
    rfl

theorem passCheckpoint_here {valueOnly : Bool} {step : Nat} {target : Fin n} (draft : Draft n)
    (walk : Walk n) (h : walk.current = target) :
    passCheckpoint topology routes proposer leader valueOnly (draft, walk) (step, target) =
      .ok (draft, { walk with fromProposer := walk.fromProposer &&
        !(decide (0 < step) && decide (target = leader)) }) :=
  walkTo_here h

section

variable (hr : AgreeingRoutes topology pathLatencies routes)
include hr

theorem onWay_next {current target : Fin n} (hne : current ≠ target)
    (h : OnWay routes proposer target current) :
    routes.nextSrc current target ≠ proposer ∧
      routes.prevDest proposer (routes.nextSrc current target) = current ∧
      pathLatencies proposer current + topology.linkLatency current (routes.nextSrc current target) =
        pathLatencies proposer (routes.nextSrc current target) ∧
      OnWay routes proposer target (routes.nextSrc current target) := by
  have hprev := hr.agree proposer target current h hne
  have hproposer : routes.nextSrc current target ≠ proposer := by
    intro heq
    rw [heq, hr.prev_self] at hprev
    exact (hr.next current target hne).1 (heq.trans hprev)
  obtain ⟨hops, hops_eq⟩ := h
  refine ⟨hproposer, hprev, ?_, hops + 1, ?_⟩
  · have hsum := hr.prev proposer _ hproposer
    rwa [hprev] at hsum
  · rw [Function.iterate_succ_apply', hops_eq]

theorem Hopped.outbound {target : Fin n} {s s' : Draft n × Walk n} {msg : MessageId n} {reused : Bool}
    (hop : Hopped topology routes proposer true 0 target s s' msg reused)
    (hne : s.2.current ≠ target) (h : Walk.Outbound routes pathLatencies proposer target s) :
    Walk.Outbound routes pathLatencies proposer target s' := by
  obtain ⟨hproposer, hprev, hsum, honWay⟩ := onWay_next hr hne h.onWay
  rw [← hop.dest] at hproposer hprev hsum honWay
  rw [← hop.src] at hprev hsum
  have htime : msg.time = pathLatencies proposer msg.src := by
    cases reused with
    | false => rw [hop.fresh rfl, h.time, hop.src]
    | true =>
        obtain ⟨sent, opened, hsent, -⟩ := hop.draft
        cases hsent with
        | reused hnoted => exact (h.spreading.shortest hnoted).2.2
  have harrival : msg.time + topology.linkLatency msg.src msg.dest =
      pathLatencies proposer msg.dest := by rw [htime, hsum]
  have hcurrent : s'.2.current = msg.dest := by rw [hop.walk]
  refine ⟨⟨fun {src dest t} ht => ?_, fun {node t} ht => ?_, fun {m} hm ht => ?_⟩, ?_, ?_, ?_, ?_⟩
  · rcases hop.mem_messageTimes.mp ht with ht | ⟨rfl, rfl, rfl⟩
    · exact h.spreading.shortest ht
    · exact ⟨hproposer, hprev.symm, htime⟩
  · rcases hop.has_iff.mp ht with ht | ⟨rfl, rfl⟩
    · exact h.spreading.times ht
    · exact Or.inr harrival
  · rw [hop.shouldIncludeValue]
    rcases hop.mem_messageTimes.mp ht with ht | ⟨hsrc, hdest, htime'⟩
    · have hold := h.spreading.valued hm ht
      split
      · exact Finset.mem_insert_of_mem hold
      · exact hold
    · have hsame : m = msg := by
        have := hop.own
        cases m
        cases msg
        simp_all
      subst hsame
      cases reused with
      | false => exact Finset.mem_insert_self _ _
      | true =>
          obtain ⟨sent, opened, hsent, -⟩ := hop.draft
          cases hsent with
          | reused hnoted => exact h.spreading.valued hm hnoted
  · rw [hop.walk]
    exact harrival
  · rw [hcurrent]
    exact honWay
  · rw [hop.walk, h.fromProposer]
    rfl
  · rw [hcurrent]
    intro _
    rw [hprev]
    exact hop.mem_messageTimes.mpr (Or.inr ⟨rfl, rfl, htime.symm⟩)

omit hr in
theorem Supplied.hopped {step : Nat} {valueOnly : Bool} {target pid : Fin n} {s s' : Draft n × Walk n}
    {msg : MessageId n} {reused : Bool}
    (hop : Hopped topology routes proposer valueOnly step target s s' msg reused)
    (h : Supplied routes pathLatencies proposer s.1 pid) :
    Supplied routes pathLatencies proposer s'.1 pid :=
  fun hne => hop.mem_messageTimes.mpr (Or.inl (h hne))

theorem valuePath_ok (leader : Fin n) (leaderLatency : Nat) (t : TriangularPath n) {draft : Draft n}
    (hw : Wired topology proposer (fun _ => False) draft) (hc : Causal pathLatencies proposer draft)
    (hspreading : Spreading routes pathLatencies proposer draft) :
    ∃ draft', followPath topology routes proposer leader leaderLatency true draft t = .ok draft' ∧
      (Wired topology proposer (fun _ => False) draft' ∧ Causal pathLatencies proposer draft') ∧
      Spreading routes pathLatencies proposer draft' ∧
      Supplied routes pathLatencies proposer draft' t.first ∧
      ∀ pid, Supplied routes pathLatencies proposer draft pid →
        Supplied routes pathLatencies proposer draft' pid := by
  have hslack : ∃ maxSlack, slackOf leaderLatency true t = .ok maxSlack := by
    unfold slackOf
    split
    · exact ⟨_, rfl⟩
    · exact ⟨0, rfl⟩
  obtain ⟨maxSlack, hslack⟩ := hslack
  let Inv : Draft n × Walk n → Prop := fun s => Walk.Sound topology pathLatencies proposer s ∧
    Walk.Outbound routes pathLatencies proposer t.first s ∧
    ∀ pid, Supplied routes pathLatencies proposer draft pid →
      Supplied routes pathLatencies proposer s.1 pid
  have hstart : Inv (draft, ⟨0, maxSlack, proposer, true⟩) := by
    have hself := hr.shortest.self proposer
    exact ⟨⟨hw, hc, hw.zero proposer, hself.le⟩, ⟨hspreading, hself.symm, ⟨0, rfl⟩, rfl,
      fun hne => absurd rfl hne⟩, fun _ h => h⟩
  obtain ⟨s, hrun, ⟨hsound, hout, hkept⟩, hthere⟩ := walkTo_reaches hr true 0 Inv
    (fun s hs hne => by
      have hnext := (hr.next s.2.current t.first hne).1.symm
      obtain ⟨s', hhop⟩ := hop_progress routes true 0 t.first hs.1 hnext (next_nearer hr hne).2 fun _ => by
          rw [hs.2.1.fromProposer]
          rfl
      obtain ⟨msg, reused, hhopped⟩ := hop_ok hhop
      exact ⟨s', hhop, hhopped.sound hr.shortest hr.link hs.1, hhopped.outbound hr hne hs.2.1,
        fun pid h => .hopped hhopped (hs.2.2 pid h)⟩)
    hstart (rank_le t.first _)
  refine ⟨s.1, ?_, ⟨hsound.wired, hsound.causal⟩, hout.spreading, hthere ▸ hout.supplied, hkept⟩
  have hfirst : passCheckpoint topology routes proposer leader true
      (draft, ⟨0, maxSlack, proposer, true⟩) (0, t.first) = .ok s := hrun
  simp only [followPath, leaderKnows, hslack, checkpoints, if_true, bind, Except.bind, List.foldlM_cons,
    List.foldlM_nil, Bool.false_eq_true, if_false, hfirst]
  rw [passCheckpoint_here s.1 s.2 hthere]
  simp only
  rw [passCheckpoint_here s.1 _ (by exact hthere)]
  rfl

theorem valuePaths_ok (leader : Fin n) (leaderLatency : Nat) (paths : List (TriangularPath n))
    {draft : Draft n}
    (hw : Wired topology proposer (fun _ => False) draft) (hc : Causal pathLatencies proposer draft)
    (hspreading : Spreading routes pathLatencies proposer draft) :
    ∃ draft', paths.foldlM (followPath topology routes proposer leader leaderLatency true) draft =
        .ok draft' ∧
      (Wired topology proposer (fun _ => False) draft' ∧ Causal pathLatencies proposer draft') ∧
      Spreading routes pathLatencies proposer draft' ∧
      (∀ t ∈ paths, Supplied routes pathLatencies proposer draft' t.first) ∧
      ∀ pid, Supplied routes pathLatencies proposer draft pid →
        Supplied routes pathLatencies proposer draft' pid := by
  induction paths generalizing draft with
  | nil => exact ⟨draft, rfl, ⟨hw, hc⟩, hspreading, by simp, fun _ h => h⟩
  | cons t paths ih =>
      obtain ⟨next, hrun, hsound, hspreading', hfirst, hkept⟩ :=
        valuePath_ok hr leader leaderLatency t hw hc hspreading
      obtain ⟨draft', hfold, hsound', hspread, hall, hkept'⟩ := ih hsound.1 hsound.2 hspreading'
      refine ⟨draft', ?_, hsound', hspread, fun u hu => ?_, fun pid h => hkept' pid (hkept pid h)⟩
      · rw [List.foldlM_cons, hrun]
        exact hfold
      · rcases List.mem_cons.mp hu with rfl | hu
        · exact hkept' _ hfirst
        · exact hall u hu

end

theorem exists_valueOnlyPath (proposer pid : Fin n) (t : LatencyTables n) :
    ∃ path ∈ valueOnlyPaths proposer t, path.first = pid :=
  ⟨⟨pid, pid, t.pathLatencies proposer pid⟩, by simp [valueOnlyPaths], rfl⟩

theorem Spreading.shouldIncludeValue_eq {draft : Draft n}
    (hw : Wired topology proposer (fun _ => False) draft)
    (h : Spreading routes pathLatencies proposer draft)
    (hall : ∀ pid, Supplied routes pathLatencies proposer draft pid) :
    draft.shouldIncludeValue =
      (Finset.univ.erase proposer).image (valueMessage routes pathLatencies proposer) := by
  ext m
  simp only [Finset.mem_image, Finset.mem_erase, Finset.mem_univ, and_true]
  constructor
  · intro hm
    obtain ⟨hown, hnoted⟩ := hw.valued hm
    obtain ⟨hne, hsrc, htime⟩ := h.shortest hnoted
    refine ⟨m.dest, hne, ?_⟩
    obtain ⟨mp, ms, md, mt⟩ := m
    simp only at hown hsrc htime
    simp only [valueMessage, hown, ← hsrc, htime]
  · rintro ⟨pid, hne, rfl⟩
    exact h.valued rfl (hall pid hne)

theorem card_valueMessages : ((Finset.univ.erase proposer).image
    (valueMessage routes pathLatencies proposer)).card = n - 1 := by
  rw [Finset.card_image_of_injective _ fun a b hab => congrArg MessageId.dest hab,
    Finset.card_erase_of_mem (Finset.mem_univ proposer), Finset.card_univ, Fintype.card_fin]

end KCensus.Propagation

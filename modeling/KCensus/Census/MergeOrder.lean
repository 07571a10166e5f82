import KCensus.Census.Merge

namespace KCensus.Census

open Propagation (PropagationGraphs MessageId)
open NodeState (History Before Later)
open RoundState (Informed Updated mergeAll)

variable {n : Nat} {graph : PropagationGraphs n} {hist : Fin n → List (NodeState n)}

theorem Merged.same_states {init r r' : RoundState n} {points points' : Fin n → NodeState n → Prop}
    (hm : Merged hist init points r) (hm' : Merged hist init points' r')
    (hsame : ∀ pid s, points pid s ↔ points' pid s) : r.nodeStates = r'.nodeStates := by
  funext pid
  refine Before.antisymm ?_ ?_
  · rcases hm.mem pid with h | h
    · exact h ▸ hm'.before pid
    · exact hm'.latest pid _ ((hsame pid _).mp h)
  · rcases hm'.mem pid with h | h
    · exact h ▸ hm.before pid
    · exact hm.latest pid _ ((hsame pid _).mpr h)

theorem Merged.myState {init r : RoundState n} {points : Fin n → NodeState n → Prop}
    (hinit : init.Informed hist) (hm : Merged hist init points r) : r.myState = init.myState := by
  refine Before.antisymm ?_ ?_
  · refine hinit.own _ ?_
    rw [RoundState.myState, hm.myPid]
    exact hm.informed.known _
  · change Before (init.nodeStates init.myPid) (r.nodeStates r.myPid)
    rw [hm.myPid]
    exact hm.before init.myPid

theorem one_lt_length_iff {ps : List (Fin n)} (hnd : ps.Nodup) :
    1 < ps.length ↔ ∃ p ∈ ps, ∃ q ∈ ps, p ≠ q := by
  rw [← List.toFinset_card_of_nodup hnd, Finset.one_lt_card]
  simp only [List.mem_toFinset]

theorem hasConflict_iff {r : RoundState n} (h : r.proposers.Nodup) :
    r.hasConflict = true ↔
      (∃ p ∈ r.proposers, ∃ q ∈ r.proposers, p ≠ q) ∨ r.myState.paxosAcceptRound.isSome = true := by
  rw [RoundState.hasConflict, Bool.or_eq_true, decide_eq_true_eq, one_lt_length_iff h]

-- A report about `pid` that is newer than what `init` holds about it.
def Newer (graph : PropagationGraphs n) (init : RoundState n) (reports : List (Report n))
    (pid : Fin n) (s : NodeState n) : Prop :=
  Reported graph reports pid s ∧ s.partialCmp (init.nodeStates pid) = some .gt

def NamedByNewer (graph : PropagationGraphs n) (init : RoundState n) (reports : List (Report n))
    (p : Fin n) : Prop :=
  p ∈ init.proposers ∨ ∃ pid s, Newer graph init reports pid s ∧ s.kProposer = some p

def NamedByLatest (graph : PropagationGraphs n) (init : RoundState n) (reports : List (Report n))
    (p : Fin n) : Prop :=
  p ∈ init.proposers ∨ ∃ pid s, Newer graph init reports pid s ∧
    (∀ t, Reported graph reports pid t → t.partialCmp s ≠ some .gt) ∧ s.kProposer = some p

theorem partialCmp_gt_iff (hhist : ∀ pid, History graph pid (hist pid)) {pid : Fin n}
    {s t : NodeState n} (hs : s ∈ hist pid) (ht : t ∈ hist pid) :
    s.partialCmp t = some .gt ↔ ¬ Before s t := by
  constructor
  · intro h hb
    obtain ⟨order, horder, hne⟩ := hb.partialCmp
    exact hne (Option.some.inj (horder.symm.trans h))
  · intro hno
    rcases (hhist pid).total hs ht with h | heq | h
    · exact absurd h hno
    · exact absurd (heq ▸ Before.refl _) hno
    · exact h.partialCmp.2

section

variable (hhist : ∀ pid, History graph pid (hist pid)) {init : RoundState n}
  (hinit : init.Informed hist) {reports : List (Report n)} (hf : Faithful graph hist reports)
include hhist hinit hf

theorem mergeAll_ok :
    ∃ r, mergeAll graph init reports = some r ∧ Merged hist init (Reported graph reports) r := by
  obtain ⟨r, hrun, hm, -⟩ := mergeAll_merged hhist (Merged.start hinit) hf
  exact ⟨r, hrun, by simpa only [false_or] using hm⟩

theorem newer_iff {pid : Fin n} {s : NodeState n} :
    Newer graph init reports pid s ↔
      Reported graph reports pid s ∧ ¬ Before s (init.nodeStates pid) :=
  and_congr_right fun h => partialCmp_gt_iff hhist (hf.mem h) (hinit.known pid)

-- What the merge has heard of lies between the proposers of the latest and of all newer reports.
theorem Merged.namedByNewer {r : RoundState n} (hm : Merged hist init (Reported graph reports) r)
    {p : Fin n} (hp : p ∈ r.proposers) : NamedByNewer graph init reports p := by
  refine (hm.named p hp).imp_right ?_
  rintro ⟨pid, s, hs, hno, hkp⟩
  exact ⟨pid, s, (newer_iff hhist hinit hf).mpr ⟨hs, hno⟩, hkp⟩

theorem Merged.of_namedByLatest {r : RoundState n}
    (hm : Merged hist init (Reported graph reports) r) {p : Fin n}
    (hp : NamedByLatest graph init reports p) : p ∈ r.proposers := by
  rcases hp with hp | ⟨pid, s, hnewer, hlast, hkp⟩
  · exact hm.known p hp
  · obtain ⟨hs, hno⟩ := (newer_iff hhist hinit hf).mp hnewer
    have hle := hm.latest pid s hs
    have heq : r.nodeStates pid = s := by
      rcases hm.mem pid with h | h
      · exact absurd (h ▸ hle) hno
      · have := hlast _ h
        rw [ne_eq, partialCmp_gt_iff hhist (hf.mem h) (hf.mem hs), not_not] at this
        exact this.antisymm hle
    refine hm.heard pid p (fun h => hno ?_) (heq ▸ hkp)
    rw [← h, heq]
    exact Before.refl s

omit hinit hf in
theorem merge_first (hinit : init.Informed hist) {report : Report n} {remote : Fin n → NodeState n}
    (hremote : ∀ pid, report.nodeState graph pid = some (remote pid))
    (hpoint : ∀ pid, remote pid ∈ hist pid) :
    ∃ r, init.updateRemoteStates graph report = some r ∧ r.Informed hist ∧
      (∀ pid, Before (remote pid) (r.nodeStates pid) ∧ Before (init.nodeStates pid) (r.nodeStates pid) ∧
        (¬ Before (remote pid) (init.nodeStates pid) → r.nodeStates pid = remote pid)) ∧
      ∀ p, p ∈ r.proposers ↔ p ∈ init.proposers ∨ ∃ pid,
        ¬ Before (remote pid) (init.nodeStates pid) ∧ (remote pid).kProposer = some p := by
  obtain ⟨r, hrun, hupd, hinf⟩ := RoundState.updateRemoteStates_ok hhist hremote hpoint hinit
  refine ⟨r, hrun, hinf, fun pid => ?_, fun p => ?_⟩
  · by_cases h : Before (remote pid) (init.nodeStates pid)
    · rw [hupd.skipped pid (Or.inr h)]
      exact ⟨h, Before.refl _, fun hno => absurd h hno⟩
    · rw [hupd.taken pid (List.mem_finRange pid) h]
      exact ⟨Before.refl _, ((hhist pid).total (hpoint pid) (hinit.known pid)).resolve_left h,
        fun _ => rfl⟩
  · simpa using hupd.proposers p

omit hhist hinit hf in
theorem faithful_cons {report : Report n} {remote : Fin n → NodeState n}
    (hremote : ∀ pid, report.nodeState graph pid = some (remote pid))
    (hpoint : ∀ pid, Reported graph reports pid (remote pid)) (hf : Faithful graph hist reports) :
    Faithful graph hist (report :: reports) ∧ SamePoints graph reports (report :: reports) := by
  refine ⟨fun report' hmem pid => ?_, fun pid s => ?_⟩
  · rcases List.mem_cons.mp hmem with rfl | hmem
    · exact ⟨remote pid, hf.mem (hpoint pid), hremote pid⟩
    · exact hf report' hmem pid
  · rw [reported_cons (hremote pid)]
    exact ⟨Or.inr, fun h => h.elim (fun heq => heq ▸ hpoint pid) id⟩

theorem exists_latest_first {report₀ : Report n} (hmem : report₀ ∈ reports) :
    ∃ reports' r', Faithful graph hist reports' ∧ SamePoints graph reports reports' ∧
      mergeAll graph init reports' = some r' ∧
      ∀ p ∈ r'.proposers, NamedByLatest graph init reports p := by
  obtain ⟨r, -, hm⟩ := mergeAll_ok hhist hinit hf
  have hlast : ∀ pid, ∃ s, Reported graph reports pid s ∧
      ∀ t, Reported graph reports pid t → Before t s ∨ Before t (init.nodeStates pid) := by
    intro pid
    rcases hm.mem pid with h | h
    · obtain ⟨s, hs, hstate⟩ := hf report₀ hmem pid
      exact ⟨s, ⟨report₀, hmem, hstate⟩, fun t ht => Or.inr (h ▸ hm.latest pid t ht)⟩
    · exact ⟨_, h, fun t ht => Or.inl (hm.latest pid t ht)⟩
  choose last hreported hbefore using hlast
  let first : Report n := { report₀ with remoteStates := some last }
  have hfirst : ∀ pid, first.nodeState graph pid = some (last pid) := fun _ => rfl
  obtain ⟨hf', hsame⟩ := faithful_cons hfirst hreported hf
  obtain ⟨r₁, hrun, hinf, hstates, hprops⟩ :=
    merge_first hhist hinit hfirst fun pid => hf.mem (hreported pid)
  obtain ⟨r', hrun', hm'⟩ := mergeAll_ok hhist hinf hf
  refine ⟨first :: reports, r', hf', hsame, ?_, fun p hp => ?_⟩
  · rw [mergeAll, List.foldlM_cons, hrun]
    exact hrun'
  · rcases hm'.named p hp with h | ⟨pid, s, hs, hno, -⟩
    · refine ((hprops p).mp h).imp_right ?_
      rintro ⟨pid, hno, hkp⟩
      refine ⟨pid, last pid, (newer_iff hhist hinit hf).mpr ⟨hreported pid, hno⟩, fun t ht => ?_, hkp⟩
      rw [ne_eq, partialCmp_gt_iff hhist (hf.mem ht) (hf.mem (hreported pid)), not_not]
      refine (hbefore pid t ht).elim id fun h => h.trans ?_
      exact ((hhist pid).total (hinit.known pid) (hf.mem (hreported pid))).resolve_right hno
    · refine absurd ?_ hno
      rcases hbefore pid s hs with h | h
      · exact h.trans (hstates pid).1
      · exact h.trans (hstates pid).2.1

theorem exists_naming {report₀ : Report n} (hmem : report₀ ∈ reports) {p q : Fin n}
    {pid pid' : Fin n} {s s' : NodeState n} (hs : Newer graph init reports pid s)
    (hs' : Newer graph init reports pid' s') (hp : s.kProposer = some p) (hq : s'.kProposer = some q)
    (horder : pid = pid' → Before s s') :
    ∃ reports' r', Faithful graph hist reports' ∧ SamePoints graph reports reports' ∧
      mergeAll graph init reports' = some r' ∧ p ∈ r'.proposers ∧ q ∈ r'.proposers := by
  rw [newer_iff hhist hinit hf] at hs hs'
  choose filler hfill hstate using hf report₀ hmem
  have hfiller : ∀ pid, Reported graph reports pid (filler pid) := fun pid =>
    ⟨report₀, hmem, hstate pid⟩
  let early := Function.update (Function.update filler pid' s') pid s
  let late := Function.update filler pid' s'
  have hlate : ∀ x, Reported graph reports x (late x) := by
    intro x
    rcases eq_or_ne x pid' with rfl | hne
    · simpa [late] using hs'.1
    · simpa [late, hne] using hfiller x
  have hearly : ∀ x, Reported graph reports x (early x) := by
    intro x
    rcases eq_or_ne x pid with rfl | hne
    · simpa [early] using hs.1
    · simpa [early, hne] using hlate x
  let first : Report n := { report₀ with remoteStates := some early }
  let second : Report n := { report₀ with remoteStates := some late }
  have hfirst : ∀ x, first.nodeState graph x = some (early x) := fun _ => rfl
  have hsecond : ∀ x, second.nodeState graph x = some (late x) := fun _ => rfl
  obtain ⟨hf₂, hsame₂⟩ := faithful_cons hsecond hlate hf
  obtain ⟨hf₁, hsame₁⟩ := faithful_cons hfirst (fun x => (hsame₂ x _).mp (hearly x)) hf₂
  obtain ⟨r₁, hrun₁, hinf₁, hstates₁, hprops₁⟩ :=
    merge_first hhist hinit hfirst fun x => hf.mem (hearly x)
  obtain ⟨r₂, hrun₂, hinf₂, -, hprops₂⟩ :=
    merge_first hhist hinf₁ hsecond fun x => hf.mem (hlate x)
  obtain ⟨r', hrun', hm'⟩ := mergeAll_ok hhist hinf₂ hf
  have hpid : early pid = s := Function.update_self ..
  have hpid' : late pid' = s' := Function.update_self ..
  have hp₁ : p ∈ r₁.proposers := (hprops₁ p).mpr (Or.inr ⟨pid, hpid.symm ▸ hs.2, hpid.symm ▸ hp⟩)
  have hq₂ : q ∈ r₂.proposers := by
    by_cases hsamepid : pid' = pid
    · subst hsamepid
      by_cases heq : s = s'
      · have : p = q := Option.some.inj (hp.symm.trans (heq ▸ hq))
        exact (hprops₂ q).mpr (Or.inl (this ▸ hp₁))
      · refine (hprops₂ q).mpr (Or.inr ⟨pid', ?_, hpid'.symm ▸ hq⟩)
        rw [hpid', (hstates₁ pid').2.2 (hpid.symm ▸ hs.2), hpid]
        exact fun h => heq ((horder rfl).antisymm h)
    · refine (hprops₂ q).mpr (Or.inl ((hprops₁ q).mpr (Or.inr ⟨pid', ?_⟩)))
      have : early pid' = s' := (Function.update_of_ne hsamepid ..).trans hpid'
      exact ⟨this.symm ▸ hs'.2, this.symm ▸ hq⟩
  refine ⟨first :: second :: reports, r', hf₁, fun x t => (hsame₂ x t).trans (hsame₁ x t), ?_,
    hm'.known p ((hprops₂ p).mpr (Or.inl hp₁)), hm'.known q hq₂⟩
  rw [mergeAll, List.foldlM_cons, hrun₁]
  change mergeAll graph r₁ (second :: reports) = some r'
  rw [mergeAll, List.foldlM_cons, hrun₂]
  exact hrun'

end

-- Every two points of a history compare and the later one is the greater.
def Comparable (points : List (NodeState n)) : Prop :=
  points.Pairwise fun later earlier =>
    later = earlier ∧ later.partialCmp earlier = some .eq ∨
      later.partialCmp earlier = some .gt ∧ earlier.partialCmp later = some .lt

-- Merging the reports goes through and leaves the latest point of every process, in this order or
-- any other, and with the same answer of has_conflict.
def MergesAlike (graph : PropagationGraphs n) (hist : Fin n → List (NodeState n))
    (init : RoundState n) (reports : List (Report n)) : Prop :=
  ∀ reports', Faithful graph hist reports' → SamePoints graph reports reports' →
    ∃ r r', mergeAll graph init reports = some r ∧ mergeAll graph init reports' = some r' ∧
      r.nodeStates = r'.nodeStates ∧
      (∀ pid, (r.nodeStates pid = init.nodeStates pid ∨ Reported graph reports pid (r.nodeStates pid)) ∧
        ∀ s, s = init.nodeStates pid ∨ Reported graph reports pid s →
          s.partialCmp (r.nodeStates pid) = some .lt ∨ s = r.nodeStates pid) ∧
      r.hasConflict = r'.hasConflict

-- The answer is settled by what `init` holds and the latest reports, or cannot become positive.
def ConflictSettled (graph : PropagationGraphs n) (init : RoundState n) (reports : List (Report n)) :
    Prop :=
  init.myState.paxosAcceptRound.isSome = true ∨
    (∃ p q, NamedByLatest graph init reports p ∧ NamedByLatest graph init reports q ∧ p ≠ q) ∨
    ∀ p q, NamedByNewer graph init reports p → NamedByNewer graph init reports q → p = q

section

variable (hhist : ∀ pid, History graph pid (hist pid)) {init : RoundState n}
  (hinit : init.Informed hist) {reports : List (Report n)} (hf : Faithful graph hist reports)
include hhist hinit hf

-- If the order is irrelevant and the latest reports name one proposer, then no order names two.
theorem MergesAlike.names_one (halike : MergesAlike graph hist init reports)
    (hround : init.myState.paxosAcceptRound.isSome = false)
    (hlatest : ∀ p q, NamedByLatest graph init reports p → NamedByLatest graph init reports q → p = q)
    {report₀ : Report n} (hmem : report₀ ∈ reports) {reports' : List (Report n)} {r' : RoundState n}
    (hf' : Faithful graph hist reports') (hpoints : SamePoints graph reports reports')
    (hrun' : mergeAll graph init reports' = some r') {p q : Fin n} (hp : p ∈ r'.proposers)
    (hq : q ∈ r'.proposers) : p = q := by
  have hanswer : ∀ {reports' r'}, Faithful graph hist reports' →
      mergeAll graph init reports' = some r' →
      (r'.hasConflict = true ↔ ∃ p ∈ r'.proposers, ∃ q ∈ r'.proposers, p ≠ q) := by
    intro reports' r' hf' hrun'
    obtain ⟨r'', hrun'', hm⟩ := mergeAll_ok hhist hinit hf'
    obtain rfl : r'' = r' := Option.some.inj (hrun''.symm.trans hrun')
    rw [hasConflict_iff hm.informed.nodup, hm.myState hinit, hround]
    simp
  obtain ⟨reports₁, r₁, hf₁, hsame₁, hrun₁, hlow⟩ := exists_latest_first hhist hinit hf hmem
  have hfree : r₁.hasConflict ≠ true := by
    rw [ne_eq, hanswer hf₁ hrun₁]
    rintro ⟨x, hx, y, hy, hxy⟩
    exact hxy (hlatest x y (hlow x hx) (hlow y hy))
  obtain ⟨a, b, ha, hb, -, -, heq⟩ := halike reports' hf' hpoints
  obtain ⟨a', c, ha', hc, -, -, heq'⟩ := halike reports₁ hf₁ hsame₁
  obtain rfl : b = r' := Option.some.inj (hb.symm.trans hrun')
  obtain rfl : c = r₁ := Option.some.inj (hc.symm.trans hrun₁)
  obtain rfl : a' = a := Option.some.inj (ha'.symm.trans ha)
  by_contra hne
  exact hfree (heq'.symm.trans (heq.trans ((hanswer hf' hrun').mpr ⟨p, hp, q, hq, hne⟩)))

theorem conflictSettled_of_mergesAlike (halike : MergesAlike graph hist init reports) :
    ConflictSettled graph init reports := by
  by_contra hno
  obtain ⟨hround, hlatest, hnewer⟩ : init.myState.paxosAcceptRound.isSome = false ∧
      (∀ p q, NamedByLatest graph init reports p → NamedByLatest graph init reports q → p = q) ∧
      ∃ p q, NamedByNewer graph init reports p ∧ NamedByNewer graph init reports q ∧ p ≠ q := by
    simp only [ConflictSettled, not_or, not_exists, not_and, not_not, not_forall, Bool.not_eq_true,
      exists_prop] at hno
    exact ⟨hno.1, hno.2.1, hno.2.2⟩
  obtain ⟨p, q, hp, hq, hne⟩ := hnewer
  have hnonempty : ∃ report₀, report₀ ∈ reports := by
    by_contra hempty
    have hinitial : ∀ x, NamedByNewer graph init reports x → NamedByLatest graph init reports x := by
      rintro x (h | ⟨_, _, ⟨⟨report, hmem, -⟩, -⟩, -⟩)
      · exact Or.inl h
      · exact absurd ⟨report, hmem⟩ hempty
    exact hne (hlatest p q (hinitial p hp) (hinitial q hq))
  obtain ⟨report₀, hmem⟩ := hnonempty
  have hnever : ∀ {reports' r' x y}, Faithful graph hist reports' → SamePoints graph reports reports' →
      mergeAll graph init reports' = some r' → x ∈ r'.proposers → y ∈ r'.proposers → x = y :=
    fun hf' hpoints hrun' => halike.names_one hhist hinit hf hround hlatest hmem hf' hpoints hrun'
  have hknown : ∀ {reports' r' x}, Faithful graph hist reports' →
      mergeAll graph init reports' = some r' → x ∈ init.proposers → x ∈ r'.proposers := by
    intro reports' r' x hf' hrun' hx
    obtain ⟨r'', hrun'', hm⟩ := mergeAll_ok hhist hinit hf'
    obtain rfl : r'' = r' := Option.some.inj (hrun''.symm.trans hrun')
    exact hm.known x hx
  have hone : ∀ {x pid s}, Newer graph init reports pid s → s.kProposer = some x →
      ∀ y ∈ init.proposers, x = y := by
    intro x pid s hs hx y hy
    obtain ⟨reports', r', hf', hpoints, hrun', hx', -⟩ :=
      exists_naming hhist hinit hf hmem hs hs hx hx fun _ => Before.refl s
    exact hnever hf' hpoints hrun' hx' (hknown hf' hrun' hy)
  have htwo : ∀ {x y pid pid' s s'}, Newer graph init reports pid s → Newer graph init reports pid' s' →
      s.kProposer = some x → s'.kProposer = some y → (pid = pid' → Before s s') → x = y := by
    intro x y pid pid' s s' hs hs' hx hy horder
    obtain ⟨reports', r', hf', hpoints, hrun', hx', hy'⟩ :=
      exists_naming hhist hinit hf hmem hs hs' hx hy horder
    exact hnever hf' hpoints hrun' hx' hy'
  obtain ⟨r, hrun, hm⟩ := mergeAll_ok hhist hinit hf
  refine hne ?_
  rcases hp with hp | ⟨pid, s, hs, hkp⟩ <;> rcases hq with hq | ⟨pid', s', hs', hkq⟩
  · exact hnever hf (fun _ _ => Iff.rfl) hrun (hm.known p hp) (hm.known q hq)
  · exact (hone hs' hkq p hp).symm
  · exact hone hs hkp q hq
  · by_cases hpid : pid = pid'
    · subst hpid
      rcases (hhist pid).total (hf.mem hs.1) (hf.mem hs'.1) with h | h
      · exact htwo hs hs' hkp hkq fun _ => h
      · exact (htwo hs' hs hkq hkp fun _ => h).symm
    · exact htwo hs hs' hkp hkq fun h => absurd h hpid

theorem mergesAlike_of_conflictSettled (hsettled : ConflictSettled graph init reports) :
    MergesAlike graph hist init reports := by
  intro reports' hf' hpoints
  obtain ⟨r, hrun, hm⟩ := mergeAll_ok hhist hinit hf
  obtain ⟨r', hrun', hm'⟩ := mergeAll_ok hhist hinit hf'
  have hm'' : Merged hist init (Reported graph reports) r' := by
    have : Reported graph reports' = Reported graph reports :=
      funext fun pid => funext fun s => propext (hpoints pid s).symm
    exact this ▸ hm'
  refine ⟨r, r', hrun, hrun', hm.same_states hm' hpoints, fun pid => ⟨hm.mem pid, fun s hs => ?_⟩, ?_⟩
  · have hbefore : Before s (r.nodeStates pid) := by
      rcases hs with rfl | hs
      · exact hm.before pid
      · exact hm.latest pid s hs
    rcases hbefore with heq | hlater
    · exact Or.inr heq
    · exact Or.inl hlater.partialCmp.1
  · rw [Bool.eq_iff_iff, hasConflict_iff hm.informed.nodup, hasConflict_iff hm'.informed.nodup,
      hm.myState hinit, hm'.myState hinit]
    rcases hsettled with h | ⟨p, q, hp, hq, hne⟩ | hone
    · simp [h]
    · have h1 := fun x => hm.of_namedByLatest hhist hinit hf (p := x)
      have h2 := fun x => hm''.of_namedByLatest hhist hinit hf (p := x)
      exact ⟨fun _ => Or.inl ⟨p, h2 p hp, q, h2 q hq, hne⟩,
        fun _ => Or.inl ⟨p, h1 p hp, q, h1 q hq, hne⟩⟩
    · refine or_congr_left ⟨?_, ?_⟩
      · rintro ⟨p, hp, q, hq, hne⟩
        have h1 := fun x => hm.namedByNewer hhist hinit hf (p := x)
        exact absurd (hone p q (h1 p hp) (h1 q hq)) hne
      · rintro ⟨p, hp, q, hq, hne⟩
        have h2 := fun x => hm''.namedByNewer hhist hinit hf (p := x)
        exact absurd (hone p q (h2 p hp) (h2 q hq)) hne

end

theorem merge_order_irrelevant_iff (graph : PropagationGraphs n) (hist : Fin n → List (NodeState n))
    (hhist : ∀ pid, History graph pid (hist pid)) (init : RoundState n)
    (hinit : init.Informed hist) (reports : List (Report n)) (hf : Faithful graph hist reports) :
    ((∀ pid, Comparable (hist pid)) ∧ MergesAlike graph hist init reports) ↔
      ConflictSettled graph init reports :=
  ⟨fun h => conflictSettled_of_mergesAlike hhist hinit hf h.2, fun h =>
    ⟨fun pid => (hhist pid).partialCmp, mergesAlike_of_conflictSettled hhist hinit hf h⟩⟩

namespace Race

-- Three processes, each its own leader; 1 and 2 propose, 0 has accepted the command of 2. Process 1
-- accepts its own command, hears of 2 and votes for 2 in the fallback.
def blank : Propagation.KnowledgeState 3 where
  knowledge _ := ∅
  remoteStates _ := 0
  dependencies := ∅
  neededBy := []

def twoStates : Propagation.Schedule 3 where
  states := [(0, blank), (10, blank)]
  increasing := by simp
  initial := rfl
  nanos := by simp

def schedules : PropagationGraphs 3 where
  graphs proposer := { shouldIncludeValue := ∅, states := fun _ => twoStates, leader := proposer }
  topology :=
    { replicas := Finset.univ, aliveReplicas := Finset.univ, linkLatency := fun _ _ => 5
      alive_subset := subset_rfl }

def accepted (pid proposer : Fin 3) (v : Nat) : NodeState 3 :=
  { NodeState.new pid with v := some v, kProposer := some proposer }

def frozen : NodeState 3 := (accepted 1 1 2).prepareFor 2

def voted : NodeState 3 := (frozen.paxosAccept 2 4).1

def past (pid : Fin 3) : List (NodeState 3) :=
  if pid = 1 then [voted, frozen, accepted 1 1 2, .new 1] else [accepted pid 2 4, .new pid]

def msgId : MessageId 3 where
  proposer := 1
  src := 1
  dest := 0
  time := 10

def report (state : NodeState 3) : Report 3 where
  v := 2
  msgId := msgId
  remoteStates := some fun pid => if pid = 1 then state else accepted pid 2 4

def reports : List (Report 3) := [report frozen, report voted]

def init (proposers : List (Fin 3)) : RoundState 3 where
  myPid := 0
  majority := 2
  nodeStates pid := if pid = 1 then .new 1 else accepted pid 2 4
  propagationStates _ := 0
  proposers := proposers
  leaders := proposers
  receivedMsgs := ∅
  paxosAcceptCount := 0

theorem history (pid : Fin 3) : History schedules pid (past pid) := by
  have haccept : ∀ pid proposer v, NodeState.Step schedules (.new pid) (accepted pid proposer v) :=
    fun pid proposer v => .acceptWithKState v proposer 0 List.mem_cons_self rfl
  by_cases hpid : pid = 1
  · subst hpid
    exact .next (.next (.next .start (haccept 1 1 2)) (.prepareFor _ 2)) (.paxosAccept _ 2 4)
  · simp only [past, if_neg hpid]
    exact .next .start (haccept pid 2 4)

theorem informed {proposers : List (Fin 3)} (h2 : 2 ∈ proposers) (hnd : proposers.Nodup) :
    (init proposers).Informed past := by
  have hknown : ∀ pid : Fin 3, (if pid = 1 then .new 1 else accepted pid 2 4) ∈ past pid := by decide
  refine ⟨hknown, fun s hs => ?_, fun p hp => ?_, hnd⟩
  · rcases List.mem_cons.mp hs with rfl | hs
    · exact Before.refl _
    · exact (List.pairwise_cons.mp (history 0).pairwise).1 s hs
  · obtain rfl : 2 = p := Option.some.inj hp
    exact h2

theorem faithful : Faithful schedules past reports := by
  intro r hr pid
  rcases List.mem_cons.mp hr with rfl | hr
  · exact ⟨_, by decide +revert, rfl⟩
  · obtain rfl := List.mem_singleton.mp hr
    exact ⟨_, by decide +revert, rfl⟩

end Race

-- Process 0 knows both proposers already, and nothing can change its answer.
theorem merge_order_irrelevant_conflicted :
    (∀ pid, Comparable (Race.past pid)) ∧
      MergesAlike Race.schedules Race.past (Race.init [2, 1]) Race.reports :=
  (merge_order_irrelevant_iff Race.schedules Race.past Race.history (Race.init [2, 1])
    (Race.informed (by decide) (by decide)) Race.reports Race.faithful).mpr
      (Or.inr (Or.inl ⟨2, 1, Or.inl (by decide), Or.inl (by decide), by decide⟩))

-- The vote of process 1 erases what its earlier report says about proposer 1.
theorem stale_report_after_vote :
    (∀ pid, History Race.schedules pid (Race.past pid)) ∧ (Race.init [2]).Informed Race.past ∧
      Faithful Race.schedules Race.past Race.reports ∧
      ¬ ((∀ pid, Comparable (Race.past pid)) ∧
        MergesAlike Race.schedules Race.past (Race.init [2]) Race.reports) := by
  refine ⟨Race.history, Race.informed (by decide) (by decide), Race.faithful, fun ⟨_, h⟩ => ?_⟩
  have hf : Faithful Race.schedules Race.past Race.reports.reverse := fun r hr =>
    Race.faithful r (List.mem_reverse.mp hr)
  have hsame : SamePoints Race.schedules Race.reports Race.reports.reverse := fun pid s => by
    simp only [Reported, List.mem_reverse]
  obtain ⟨r, r', hr, hr', -, -, heq⟩ := h _ hf hsame
  have h1 : (mergeAll Race.schedules (Race.init [2]) Race.reports).map RoundState.hasConflict =
      some true := by decide +kernel
  have h2 : (mergeAll Race.schedules (Race.init [2]) Race.reports.reverse).map RoundState.hasConflict =
      some false := by decide +kernel
  rw [hr, Option.map_some, Option.some.injEq] at h1
  rw [hr', Option.map_some, Option.some.injEq] at h2
  exact absurd (h1.symm.trans (heq.trans h2)) (by decide)

end KCensus.Census

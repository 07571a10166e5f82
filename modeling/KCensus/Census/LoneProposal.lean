import KCensus.Census.Planned

namespace KCensus.Census

open Propagation (PropagationGraphs MessageId KnowledgeState Draft Wired Causal)
open NodeState (History Before)

variable {n : Nat} {graphs : PropagationGraphs n} {pathLatencies : Fin n → Fin n → Nat}
  {proposer node pid : Fin n} {draft : Draft n} {v t u t' : Nat}

namespace RoundState

-- The states of the schedule that a process gets to with what it has received, the messages that it
-- sends from there, and whether it gets to the end.
def follow (graphs : PropagationGraphs n) (proposer : Fin n) :
    List (Nat × KnowledgeState n) → RoundState n → Option (RoundState n × List (MessageId n) × Bool)
  | [], r => some (r, [], true)
  | (nextState, knowledge) :: later, r =>
      if r.hasReceived knowledge.dependencies then do
        let r ← (r.setPropagationState proposer nextState).updateKState nextState graphs
        let (r, sent, done) ← follow graphs proposer later r
        return (r, knowledge.neededBy ++ sent, done)
      else some (r, [], false)

-- What a Spread does to a process that hears of no second proposal.
def take (graphs : PropagationGraphs n) (v : Nat) (msgId : MessageId n) (r : RoundState n) :
    Option (RoundState n × List (MessageId n) × Bool) := do
  let oldLeaders := r.leaders
  let r ← r.updateRemoteStates graphs ⟨v, msgId, none⟩
  let (r, accepted) ← r.kcensusTryAccept v msgId.proposer graphs
  if accepted && !oldLeaders.isEmpty then none
  if r.hasConflict || r.amIFrozen then none
  let r ← r.receiveMsg msgId
  follow graphs msgId.proposer
    (graphs.laterStates msgId.proposer r.myPid (r.propagationStates msgId.proposer)) r

-- The process has heard of the proposal, and has got to time `t` of its schedule.
structure Rallied (graphs : PropagationGraphs n) (v : Nat) (proposer node : Fin n) (t : Nat)
    (r : RoundState n) : Prop where
  myPid : r.myPid = node
  mine : r.nodeStates node = point graphs v proposer node t
  proposers : r.proposers = [proposer]
  leaders : r.leaders = [graphs.getLeader proposer]
  propagation : r.propagationStates proposer = t

theorem Rallied.canKcensusCommit {graphs : PropagationGraphs n} {v : Nat} {proposer node : Fin n}
    {t : Nat} {r : RoundState n} (h : r.Rallied graphs v proposer node t)
    (hleader : graphs.getLeader proposer = node) (hfinal : graphs.finalState proposer node t = true) :
    r.canKcensusCommit graphs = true := by
  rw [PropagationGraphs.finalState, decide_eq_true_eq] at hfinal
  rw [RoundState.canKcensusCommit, myState, h.myPid, h.mine]
  simp only [point, hleader, PropagationGraphs.getFinalStateId, hfinal, decide_true, Bool.and_self]

structure Unaware (proposer node : Fin n) (r : RoundState n) : Prop where
  myPid : r.myPid = node
  mine : r.nodeStates node = NodeState.new node
  proposers : r.proposers = []
  leaders : r.leaders = []
  propagation : r.propagationStates proposer = 0

structure Advanced (draft : Draft n) (node : Fin n) (t : Nat) (r r' : RoundState n) (t' : Nat)
    (sent : List (MessageId n)) (done : Bool) : Prop where
  onwards : t ≤ t'
  has : draft.Has node t'
  received : r'.receivedMsgs = r.receivedMsgs
  others : ∀ pid ≠ node, r'.nodeStates pid = r.nodeStates pid
  waited : ∀ u, draft.Has node u → t < u → u ≤ t' →
    (draft.state node u).dependencies ⊆ r.receivedMsgs
  sent : ∀ m, m ∈ sent ↔
    ∃ u, draft.Has node u ∧ t < u ∧ u ≤ t' ∧ m ∈ (draft.state node u).neededBy
  done : done = true ↔ ∀ u, draft.Has node u → u ≤ t'
  stuck : ∀ u, draft.Has node u → t' < u → (∀ w, draft.Has node w → t' < w → u ≤ w) →
    ¬ (draft.state node u).dependencies ⊆ r.receivedMsgs

theorem Rallied.advance (h : Planned graphs pathLatencies proposer draft) {r : RoundState n}
    (hr : r.Rallied graphs v proposer node t) (ht : draft.Has node t) (hu : draft.Has node u)
    (hlt : t < u) : ∃ r', (r.setPropagationState proposer u).updateKState u graphs = some r' ∧
      r'.Rallied graphs v proposer node u ∧ r'.receivedMsgs = r.receivedMsgs ∧
      ∀ pid ≠ node, r'.nodeStates pid = r.nodeStates pid := by
  obtain ⟨rfl, hmine, hproposers, hleaders, -⟩ := hr
  refine ⟨(r.setPropagationState proposer u).setMyState (point graphs v proposer r.myPid u), ?_,
    ⟨rfl, Function.update_self .., hproposers, hleaders, Function.update_self ..⟩, rfl,
    fun pid hne => Function.update_of_ne hne ..⟩
  have hstate : (r.setPropagationState proposer u).myState = point graphs v proposer r.myPid t := hmine
  rw [updateKState, getMyV, hstate, h.update_point ht hu hlt]
  rfl

theorem follow_ok (h : Planned graphs pathLatencies proposer draft)
    (later : List (Nat × KnowledgeState n)) (hsorted : later.Pairwise (·.1 < ·.1))
    {t : Nat} (ht : draft.Has node t)
    (hlater : ∀ e, e ∈ later ↔ draft.Has node e.1 ∧ e.2 = draft.state node e.1 ∧ t < e.1)
    {r : RoundState n} (hr : r.Rallied graphs v proposer node t) :
    ∃ r' t' sent done, follow graphs proposer later r = some (r', sent, done) ∧
      r'.Rallied graphs v proposer node t' ∧ Advanced draft node t r r' t' sent done := by
  induction later generalizing t r with
  | nil =>
      have hlast : ∀ u, draft.Has node u → u ≤ t := fun u hu =>
        not_lt.mp fun hlt => List.not_mem_nil ((hlater (u, draft.state node u)).mpr ⟨hu, rfl, hlt⟩)
      refine ⟨r, t, [], true, rfl, hr, le_rfl, ht, rfl, fun _ _ => rfl, ?_, ?_, ?_, ?_⟩
      · exact fun u _ hlt hle => absurd hle (not_le.mpr hlt)
      · refine fun m => ⟨fun hm => absurd hm List.not_mem_nil, ?_⟩
        rintro ⟨u, -, hlt, hle, -⟩
        exact absurd hle (not_le.mpr hlt)
      · exact ⟨fun _ => hlast, fun _ => rfl⟩
      · exact fun u hu hlt _ => absurd (hlast u hu) (not_le.mpr hlt)
  | cons e later ih =>
      obtain ⟨next, knowledge⟩ := e
      obtain ⟨hnext, hknowledge, hlt⟩ := (hlater _).mp List.mem_cons_self
      simp only at hnext hknowledge hlt
      subst hknowledge
      rw [List.pairwise_cons] at hsorted
      have hleast : ∀ u, draft.Has node u → t < u → u = next ∨ next < u := by
        intro u hu hlt
        rcases List.mem_cons.mp ((hlater (u, draft.state node u)).mpr ⟨hu, rfl, hlt⟩) with heq | hin
        · exact Or.inl (Prod.mk.inj heq).1
        · exact Or.inr (hsorted.1 _ hin)
      by_cases hdeps : (draft.state node next).dependencies ⊆ r.receivedMsgs
      · obtain ⟨r₁, hrun, hr₁, hreceived, hothers⟩ := hr.advance h ht hnext hlt
        have hlater₁ : ∀ e, e ∈ later ↔
            draft.Has node e.1 ∧ e.2 = draft.state node e.1 ∧ next < e.1 := by
          intro e
          constructor
          · intro he
            obtain ⟨h1, h2, -⟩ := (hlater e).mp (List.mem_cons_of_mem _ he)
            exact ⟨h1, h2, hsorted.1 e he⟩
          · rintro ⟨h1, h2, h3⟩
            rcases List.mem_cons.mp ((hlater e).mpr ⟨h1, h2, hlt.trans h3⟩) with rfl | hin
            · exact absurd h3 (lt_irrefl _)
            · exact hin
        obtain ⟨r', t', sent, done, hfollow, hr', hadv⟩ := ih hsorted.2 hnext hlater₁ hr₁
        refine ⟨r', t', (draft.state node next).neededBy ++ sent, done, ?_, hr',
          hlt.le.trans hadv.onwards, hadv.has, hadv.received.trans hreceived,
          fun pid hne => (hadv.others pid hne).trans (hothers pid hne), ?_, ?_, hadv.done, ?_⟩
        · have hall : r.hasReceived (draft.state node next).dependencies = true := decide_eq_true hdeps
          rw [follow, if_pos hall, hrun]
          simp only [Option.bind_eq_bind, Option.bind_some, hfollow]
          rfl
        · intro u hu hlt' hle
          rcases hleast u hu hlt' with rfl | hgt
          · exact hdeps
          · exact hreceived ▸ hadv.waited u hu hgt hle
        · intro m
          rw [List.mem_append, hadv.sent]
          constructor
          · rintro (hm | ⟨u, hu, hgt, hle, hm⟩)
            · exact ⟨next, hnext, hlt, hadv.onwards, hm⟩
            · exact ⟨u, hu, hlt.trans hgt, hle, hm⟩
          · rintro ⟨u, hu, hlt', hle, hm⟩
            rcases hleast u hu hlt' with rfl | hgt
            · exact Or.inl hm
            · exact Or.inr ⟨u, hu, hgt, hle, hm⟩
        · exact fun u hu hgt hmin => hreceived ▸ hadv.stuck u hu hgt hmin
      · refine ⟨r, t, [], false, ?_, hr, le_rfl, ht, rfl, fun _ _ => rfl, ?_, ?_, ?_, ?_⟩
        · rw [follow, if_neg (by simpa [hasReceived] using hdeps)]
        · exact fun u _ hlt hle => absurd hle (not_le.mpr hlt)
        · refine fun m => ⟨fun hm => absurd hm List.not_mem_nil, ?_⟩
          rintro ⟨u, -, hlt, hle, -⟩
          exact absurd hle (not_le.mpr hlt)
        · exact ⟨fun hno => absurd hno Bool.false_ne_true, fun hall =>
            absurd (hall next hnext) (not_le.mpr hlt)⟩
        · intro u hu hgt hmin
          rcases hleast u hu hgt with rfl | hgt'
          · exact hdeps
          · exact absurd (hmin next hnext hlt) (not_le.mpr hgt')

-- The leaders are those of the proposers, once each.
structure Led (graphs : PropagationGraphs n) (r : RoundState n) : Prop where
  leaders : ∀ leader, leader ∈ r.leaders ↔ ∃ p ∈ r.proposers, graphs.getLeader p = leader
  nodup : r.leaders.Nodup

-- What a report leaves as it is.
structure Tended (graphs : PropagationGraphs n) (r r' : RoundState n) : Prop where
  receivedMsgs : r'.receivedMsgs = r.receivedMsgs
  propagationStates : r'.propagationStates = r.propagationStates
  led : r.Led graphs → r'.Led graphs

theorem Led.hearProposer {r : RoundState n} (h : r.Led graphs) (p : Fin n) :
    (r.hearProposer graphs p).Led graphs := by
  constructor
  · intro leader
    simp only [RoundState.hearProposer, List.mem_append, List.mem_singleton]
    split
    · rename_i hthere
      rw [h.leaders]
      constructor
      · rintro ⟨q, hq, heq⟩
        exact ⟨q, Or.inl hq, heq⟩
      · rintro ⟨q, hq | rfl, rfl⟩
        · exact ⟨q, hq, rfl⟩
        · exact (h.leaders _).mp hthere
    · rw [List.mem_append, List.mem_singleton, h.leaders]
      constructor
      · rintro (⟨q, hq, heq⟩ | rfl)
        · exact ⟨q, Or.inl hq, heq⟩
        · exact ⟨p, Or.inr rfl, rfl⟩
      · rintro ⟨q, hq | rfl, rfl⟩
        · exact Or.inl ⟨q, hq, rfl⟩
        · exact Or.inr rfl
  · simp only [RoundState.hearProposer]
    split
    · exact h.nodup
    · rename_i hnew
      exact List.nodup_append.mpr ⟨h.nodup, List.nodup_singleton _, fun a ha b hb heq =>
        hnew (List.mem_singleton.mp hb ▸ heq ▸ ha)⟩

theorem Led.one {r : RoundState n} (h : r.Led graphs) (hone : r.proposers = [proposer]) :
    r.leaders = [graphs.getLeader proposer] := by
  refine List.perm_singleton.mp ((List.perm_ext_iff_of_nodup h.nodup (List.nodup_singleton _)).mpr ?_)
  intro leader
  rw [h.leaders, hone, List.mem_singleton]
  constructor
  · rintro ⟨p, hp, rfl⟩
    rw [List.mem_singleton.mp hp]
  · rintro rfl
    exact ⟨proposer, List.mem_singleton.mpr rfl, rfl⟩

theorem Led.none {r : RoundState n} (h : r.Led graphs) (hnone : r.proposers = []) : r.leaders = [] := by
  refine List.eq_nil_iff_forall_not_mem.mpr fun leader hleader => ?_
  obtain ⟨p, hp, -⟩ := (h.leaders leader).mp hleader
  rw [hnone] at hp
  exact List.not_mem_nil hp

theorem Tended.step {report : Report n} {mine : Option (Fin n)} {r r' : RoundState n}
    (hr : updateRemoteState report graphs mine r pid = some r') : Tended graphs r r' := by
  simp only [updateRemoteState, Option.bind_eq_bind, Option.bind_eq_some_iff] at hr
  obtain ⟨remote, -, order, -, hr⟩ := hr
  have hsame : ∀ states : Fin n → NodeState n, r.Led graphs →
      ({ r with nodeStates := states } : RoundState n).Led graphs := fun _ hled => ⟨hled.leaders, hled.nodup⟩
  split at hr
  · cases hr
    exact ⟨rfl, rfl, id⟩
  · repeat' split at hr
    all_goals cases hr
    · exact ⟨rfl, rfl, hsame _⟩
    · exact ⟨rfl, rfl, hsame _⟩
    · exact ⟨rfl, rfl, fun hled => (hsame _ hled).hearProposer _⟩

theorem Tended.run {report : Report n} {r r' : RoundState n}
    (hr : r.updateRemoteStates graphs report = some r') : Tended graphs r r' := by
  have hfold : ∀ (mine : Option (Fin n)) (pids : List (Fin n)) {r : RoundState n},
      pids.foldlM (updateRemoteState report graphs mine) r = some r' → Tended graphs r r' := by
    intro mine pids
    induction pids with
    | nil =>
        intro r hr
        cases hr
        exact ⟨rfl, rfl, id⟩
    | cons pid pids ih =>
        intro r hr
        rw [List.foldlM_cons, Option.bind_eq_bind, Option.bind_eq_some_iff] at hr
        obtain ⟨mid, hmid, hrest⟩ := hr
        have hfirst := Tended.step hmid
        have hlast := ih hrest
        exact ⟨hlast.receivedMsgs.trans hfirst.receivedMsgs,
          hlast.propagationStates.trans hfirst.propagationStates, hlast.led ∘ hfirst.led⟩
  exact hfold _ _ hr

section

variable {reach : Fin n → Nat} {aware : Fin n → Prop} {r : RoundState n} {m : MessageId n}

-- What is known of the others is where they have been, if they have heard of the proposal.
def Known (graphs : PropagationGraphs n) (v : Nat) (proposer : Fin n) (draft : Draft n)
    (reach : Fin n → Nat) (aware : Fin n → Prop) (r : RoundState n) : Prop :=
  ∀ pid, r.nodeStates pid = NodeState.new pid ∨ ∃ u, aware pid ∧ draft.Has pid u ∧ u ≤ reach pid ∧
    r.nodeStates pid = point graphs v proposer pid u

def Stands (graphs : PropagationGraphs n) (v : Nat) (proposer node : Fin n) (t : Nat) (aware : Prop)
    (r : RoundState n) : Prop :=
  aware ∧ r.Rallied graphs v proposer node t ∨ ¬ aware ∧ t = 0 ∧ r.Unaware proposer node

theorem exists_history (h : Planned graphs pathLatencies proposer draft) (v : Nat)
    (aware : Fin n → Prop) (hreach : draft.Has pid (reach pid)) : ∃ hist, History graphs pid hist ∧
      NodeState.new pid ∈ hist ∧
      (aware pid → ∀ u, draft.Has pid u → u ≤ reach pid → point graphs v proposer pid u ∈ hist) ∧
      (aware pid → ∀ s ∈ hist, Before s (point graphs v proposer pid (reach pid))) ∧
      (¬ aware pid → ∀ s ∈ hist, Before s (NodeState.new pid)) := by
  by_cases haware : aware pid
  · obtain ⟨hist, hhist, hnew, hpoints, earlier, rfl⟩ := h.history (v := v) hreach
    refine ⟨_, hhist, hnew, fun _ => hpoints, fun _ s hs => ?_, fun hno => absurd haware hno⟩
    rcases List.mem_cons.mp hs with rfl | hin
    · exact Before.refl _
    · exact (List.pairwise_cons.mp hhist.pairwise).1 s hin
  · refine ⟨_, .start, List.mem_singleton.mpr rfl, fun hyes => absurd hyes haware,
      fun hyes => absurd hyes haware, fun _ s hs => ?_⟩
    exact List.mem_singleton.mp hs ▸ Before.refl _

theorem hear_ok (h : Planned graphs pathLatencies proposer draft)
    (hreach : ∀ pid, draft.Has pid (reach pid))
    (hstands : r.Stands graphs v proposer node (reach node) (aware node))
    (hknown : r.Known graphs v proposer draft reach aware) (hm : m.proposer = proposer)
    (hsrc : draft.Has m.src m.time)
    (hreported : ∀ pid, (draft.state m.src m.time).remoteStates pid ≠ 0 ∨ pid = proposer →
      aware pid ∧ (draft.state m.src m.time).remoteStates pid ≤ reach pid) :
    ∃ r', r.updateRemoteStates graphs ⟨v, m, none⟩ = some r' ∧
      r'.Known graphs v proposer draft reach aware ∧ r'.myPid = node ∧
      r'.nodeStates node = r.nodeStates node ∧ (∀ p ∈ r.proposers, p ∈ r'.proposers) ∧
      (∀ p ∈ r'.proposers, p = proposer) ∧ r'.proposers.Nodup := by
  choose hist hhist hnew hpoints hlatest hidle using
    fun pid => exists_history h v aware (hreach pid)
  have hmyPid : r.myPid = node := by
    rcases hstands with ⟨-, hr⟩ | ⟨-, -, hr⟩
    · exact hr.myPid
    · exact hr.myPid
  have hproposers : r.proposers.Nodup ∧ (∀ p ∈ r.proposers, p = proposer) ∧
      ∀ p, r.myState.kProposer = some p → p ∈ r.proposers := by
    rw [myState, hmyPid]
    rcases hstands with ⟨-, hr⟩ | ⟨-, -, hr⟩
    · rw [hr.proposers, hr.mine]
      refine ⟨List.nodup_singleton _, fun p hp => List.mem_singleton.mp hp, fun p hp => ?_⟩
      exact List.mem_singleton.mpr (Option.some.inj hp).symm
    · rw [hr.proposers, hr.mine]
      exact ⟨List.nodup_nil, fun p hp => absurd hp List.not_mem_nil, fun p hp => by cases hp⟩
  have hinformed : r.Informed hist := by
    refine ⟨fun pid => ?_, fun s hs => ?_, hproposers.2.2, hproposers.1⟩
    · rcases hknown pid with heq | ⟨u, haware, hu, hle, heq⟩
      · exact heq ▸ hnew pid
      · exact heq ▸ hpoints pid haware u hu hle
    · rw [hmyPid] at hs
      rw [myState, hmyPid]
      rcases hstands with ⟨haware, hr⟩ | ⟨haware, -, hr⟩
      · exact hr.mine ▸ hlatest node haware s hs
      · exact hr.mine ▸ hidle node haware s hs
  have hremote : ∀ pid, ∃ remote, (⟨v, m, none⟩ : Report n).nodeState graphs pid = some remote ∧
      remote ∈ hist pid ∧ (remote = NodeState.new pid ∨ ∃ u, aware pid ∧ draft.Has pid u ∧
        u ≤ reach pid ∧ remote = point graphs v proposer pid u) := by
    intro pid
    rw [Report.nodeState, buildRemoteState, hm, h.get hsrc]
    simp only [Option.bind_eq_bind, Option.bind_some]
    split
    · rename_i hcond
      obtain ⟨haware, hle⟩ := hreported pid hcond
      have hhas := h.causal.remote hsrc pid
      exact ⟨_, h.accept_point hhas, hpoints pid haware _ hhas hle, Or.inr ⟨_, haware, hhas, hle, rfl⟩⟩
    · exact ⟨_, rfl, hnew pid, Or.inl rfl⟩
  choose remote hbuild hpoint hshape using hremote
  obtain ⟨r', hrun, hupd, hinformed'⟩ := updateRemoteStates_ok hhist hbuild hpoint hinformed
  refine ⟨r', hrun, fun pid => ?_, hupd.myPid.trans hmyPid, ?_,
    fun p hp => (hupd.proposers p).mpr (Or.inl hp), fun p hp => ?_, hupd.nodup⟩
  · by_cases hbefore : Before (remote pid) (r.nodeStates pid)
    · rw [hupd.skipped pid (Or.inr hbefore)]
      exact hknown pid
    · rw [hupd.taken pid (List.mem_finRange pid) hbefore]
      exact hshape pid
  · refine hupd.skipped node (Or.inr ?_)
    have hown := hinformed.own (remote node) (hmyPid ▸ hpoint node)
    rw [myState, hmyPid] at hown
    exact hown
  · rcases (hupd.proposers p).mp hp with hold | ⟨pid, -, -, hkp⟩
    · exact hproposers.2.1 p hold
    · rcases hshape pid with heq | ⟨u, -, -, -, heq⟩
      · rw [heq] at hkp
        cases hkp
      · rw [heq] at hkp
        exact (Option.some.inj hkp).symm

theorem Stands.led (h : r.Stands graphs v proposer node t (aware node)) : r.Led graphs := by
  rcases h with ⟨-, hr⟩ | ⟨-, -, hr⟩
  · refine ⟨fun leader => ?_, hr.leaders ▸ List.nodup_singleton _⟩
    simp only [hr.leaders, hr.proposers, List.mem_singleton, exists_eq_left]
    exact eq_comm
  · refine ⟨fun leader => ?_, hr.leaders ▸ List.nodup_nil⟩
    simp only [hr.leaders, hr.proposers, List.not_mem_nil, false_and, exists_false]

theorem Stands.myPid {aware : Prop} (h : r.Stands graphs v proposer node t aware) : r.myPid = node := by
  rcases h with ⟨-, hr⟩ | ⟨-, -, hr⟩
  · exact hr.myPid
  · exact hr.myPid

theorem Stands.propagation {aware : Prop} (h : r.Stands graphs v proposer node t aware) :
    r.propagationStates proposer = t := by
  rcases h with ⟨-, hr⟩ | ⟨-, ht, hr⟩
  · exact hr.propagation
  · exact hr.propagation.trans ht.symm

theorem accept_ok (h : Planned graphs pathLatencies proposer draft) (aware : Prop)
    (hnode : r.myPid = node)
    (hmine : aware ∧ r.nodeStates node = point graphs v proposer node t ∧ proposer ∈ r.proposers ∨
      ¬ aware ∧ t = 0 ∧ r.nodeStates node = NodeState.new node)
    (honly : ∀ p ∈ r.proposers, p = proposer) (hnodup : r.proposers.Nodup) (hled : r.Led graphs)
    (hpropagation : r.propagationStates proposer = t) :
    ∃ r' accepted, r.kcensusTryAccept v proposer graphs = some (r', accepted) ∧
      r'.Rallied graphs v proposer node t ∧ r'.receivedMsgs = r.receivedMsgs ∧
      (∀ pid ≠ node, r'.nodeStates pid = r.nodeStates pid) ∧ (accepted = true ↔ ¬ aware) := by
  subst hnode
  have hone : proposer ∈ r.proposers → r.proposers = [proposer] := fun hmem =>
    List.perm_singleton.mp ((List.perm_ext_iff_of_nodup hnodup (List.nodup_singleton _)).mpr fun p =>
      ⟨fun hp => List.mem_singleton.mpr (honly p hp), fun hp => List.mem_singleton.mp hp ▸ hmem⟩)
  rcases hmine with ⟨haware, hmine, hmem⟩ | ⟨hunaware, rfl, hmine⟩
  · refine ⟨r, false, ?_, ⟨rfl, hmine, hone hmem, hled.one (hone hmem), hpropagation⟩, rfl,
      fun _ _ => rfl, iff_of_false Bool.false_ne_true (not_not.mpr haware)⟩
    have hv : r.getMyV.isSome = true := by rw [getMyV, myState, hmine]; rfl
    rw [kcensusTryAccept, if_pos (Or.inl hv)]
  · have hv : r.getMyV.isSome = false := by rw [getMyV, myState, hmine]; rfl
    have hfrozen : r.amIFrozen = false := by rw [amIFrozen, myState, hmine]; rfl
    have hcalm : r.hasConflict = false := by
      refine Bool.eq_false_iff.mpr fun hconflict => ?_
      rcases (Bool.or_eq_true ..).mp hconflict with hlong | hround
      · have hlength := of_decide_eq_true hlong
        rcases List.eq_nil_or_concat r.proposers with hnil | ⟨init, last, hlast⟩
        · rw [hnil] at hlength
          exact absurd hlength (Nat.not_lt_zero 1)
        · have hmem : proposer ∈ r.proposers := by
            have hlastmem : last ∈ r.proposers := by simp [hlast]
            exact honly last hlastmem ▸ hlastmem
          rw [hone hmem] at hlength
          exact absurd hlength (lt_irrefl 1)
      · rw [myState, hmine] at hround
        exact absurd hround Bool.false_ne_true
    have haccept : r.myState.acceptWithKState v proposer 0 graphs =
        some (point graphs v proposer r.myPid 0) := by
      rw [myState, hmine]
      exact h.accept_point (h.wired.zero r.myPid)
    have hcond : ¬ (r.getMyV.isSome = true ∨ r.hasConflict = true) := by simp [hv, hcalm]
    rw [kcensusTryAccept, if_neg hcond, if_neg (by simp [hfrozen]), haccept]
    by_cases hmem : proposer ∈ r.proposers
    · have hproposers := hone hmem
      have hleaders := hled.one hproposers
      refine ⟨r.setMyState (point graphs v proposer r.myPid 0), true, ?_,
        ⟨rfl, Function.update_self .., hproposers, hleaders, hpropagation⟩, rfl,
        fun pid hne => Function.update_of_ne hne .., iff_of_true rfl hunaware⟩
      simp only [hproposers, hleaders, and_self, if_true]
    · have hproposers : r.proposers = [] := List.eq_nil_iff_forall_not_mem.mpr fun p hp =>
        hmem (honly p hp ▸ hp)
      have hleaders := hled.none hproposers
      refine ⟨{ r.setMyState (point graphs v proposer r.myPid 0) with
          proposers := [proposer], leaders := [graphs.getLeader proposer] }, true, ?_,
        ⟨rfl, Function.update_self .., rfl, rfl, hpropagation⟩, rfl,
        fun pid hne => Function.update_of_ne hne .., iff_of_true rfl hunaware⟩
      simp only [hproposers, hleaders, if_true]

theorem take_ok (h : Planned graphs pathLatencies proposer draft)
    (hreach : ∀ pid, draft.Has pid (reach pid))
    (hstands : r.Stands graphs v proposer node (reach node) (aware node))
    (hknown : r.Known graphs v proposer draft reach aware) (hm : m.proposer = proposer)
    (hsrc : draft.Has m.src m.time)
    (hreported : ∀ pid, (draft.state m.src m.time).remoteStates pid ≠ 0 ∨ pid = proposer →
      aware pid ∧ (draft.state m.src m.time).remoteStates pid ≤ reach pid)
    (hnew : m ∉ r.receivedMsgs) (hu : draft.Has node u) (hlt : reach node < u) :
    ∃ r₀ r' t' sent done, r.take graphs v m = some (r', sent, done) ∧
      r₀.receivedMsgs = insert m r.receivedMsgs ∧
      (∀ pid ≠ node, r₀.nodeStates pid = NodeState.new pid ∨ ∃ u, aware pid ∧ draft.Has pid u ∧
        u ≤ reach pid ∧ r₀.nodeStates pid = point graphs v proposer pid u) ∧
      Advanced draft node (reach node) r₀ r' t' sent done ∧ r'.Rallied graphs v proposer node t' := by
  obtain ⟨r₁, hrun₁, hknown₁, hmyPid₁, hmine₁, hkept, honly, hnodup⟩ :=
    hear_ok h hreach hstands hknown hm hsrc hreported
  have htended := Tended.run hrun₁
  have hself : aware node ∧ r₁.nodeStates node = point graphs v proposer node (reach node) ∧
        proposer ∈ r₁.proposers ∨
      ¬ aware node ∧ reach node = 0 ∧ r₁.nodeStates node = NodeState.new node := by
    rw [hmine₁]
    refine hstands.imp (fun hr => ⟨hr.1, hr.2.mine, hkept _ ?_⟩) fun hr => ⟨hr.1, hr.2.1, hr.2.2.mine⟩
    exact hr.2.proposers ▸ List.mem_singleton.mpr rfl
  obtain ⟨r₂, accepted, hrun₂, hr₂, hreceived₂, hothers₂, hfirst⟩ := accept_ok h (aware node) hmyPid₁ hself honly hnodup
    (htended.led hstands.led) (htended.propagationStates ▸ hstands.propagation)
  have hcalm : r₂.hasConflict = false := by
    rw [hasConflict, hr₂.proposers, myState, hr₂.myPid, hr₂.mine]
    rfl
  have hfrozen : r₂.amIFrozen = false := by
    rw [amIFrozen, myState, hr₂.myPid, hr₂.mine, NodeState.isFrozen, point,
      h.final_of_lt (hreach node) hu hlt]
    rfl
  have hleaders : (accepted && !r.leaders.isEmpty) = false := by
    refine Bool.eq_false_iff.mpr fun hyes => ?_
    obtain ⟨haccepted, hsome⟩ := Bool.and_eq_true_iff.mp hyes
    rcases hstands with ⟨haware, -⟩ | ⟨-, -, hr⟩
    · exact hfirst.mp haccepted haware
    · rw [hr.leaders] at hsome
      exact Bool.false_ne_true hsome
  have hnew₂ : m ∉ r₂.receivedMsgs := by rwa [hreceived₂, htended.receivedMsgs]
  have hr₃ : ({ r₂ with receivedMsgs := insert m r₂.receivedMsgs } : RoundState n).Rallied graphs v
      proposer node (reach node) := ⟨hr₂.myPid, hr₂.mine, hr₂.proposers, hr₂.leaders, hr₂.propagation⟩
  have hstates := h.laterStates_eq (hreach node)
  obtain ⟨r', t', sent, done, hrun₃, hr', hadv⟩ := follow_ok h
    (graphs.laterStates proposer node (reach node))
    (hstates ▸ (graphs.schedule proposer node).increasing.filter _) (hreach node)
    (fun e => by rw [hstates, List.mem_filter, h.mem_states, decide_eq_true_eq, and_assoc]) hr₃
  refine ⟨_, r', t', sent, done, ?_, ?_, fun pid hne => ?_, hadv, hr'⟩
  · have hlist : graphs.laterStates proposer node (reach node) =
        graphs.laterStates proposer r₂.myPid (r₂.propagationStates proposer) := by
      rw [hr₂.myPid, hr₂.propagation]
    have hreceive : r₂.receiveMsg m = some { r₂ with receivedMsgs := insert m r₂.receivedMsgs } :=
      if_neg hnew₂
    rw [take, hrun₁]
    simp only [Option.bind_eq_bind, Option.bind_some, hm, hrun₂, hleaders, hcalm, hfrozen, Bool.or_self,
      Bool.false_eq_true, if_false, hreceive]
    rw [hlist] at hrun₃
    exact hrun₃
  · exact congrArg (insert m) (hreceived₂.trans htended.receivedMsgs)
  · exact (hothers₂ pid hne).symm ▸ hknown₁ pid

end

end RoundState

end KCensus.Census

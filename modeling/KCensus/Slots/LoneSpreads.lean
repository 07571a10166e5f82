import KCensus.Census.PlannedRuns
import KCensus.Slots.KCensusRest

namespace KCensus.Slots

open Census (RoundState Report Lone Planned)
open Propagation (MessageId KnowledgeState Draft)
open Turn

namespace Turn

variable {n : Nat} {R α β : Type} {s s' : ConsensusShard n R}

theorem run_get : (get : Turn n R (ConsensusShard n R)) s = .ok s s := rfl

theorem run_modify {g : ConsensusShard n R → ConsensusShard n R} :
    (modify g : Turn n R Unit) s = .ok () (g s) := rfl

theorem run_bind {m : Turn n R α} {f : α → Turn n R β} {a : α} (h : m s = .ok a s') :
    (m >>= f) s = f a s' := by
  change EStateM.bind m f s = _
  rw [EStateM.bind, h]

end Turn

namespace KCensusSettings

variable {n : Nat} (k : KCensusSettings n) (me : Fin n) (order : HashOrder n)

-- A Spread without a conflict, with the value where the schedule has it.
def spreadEvent (s : KCensusShard n) (v : Nat) (value : Option (CommandBatch n))
    (msgId : MessageId n) : Event n :=
  let withValue := value.isSome && k.graphs.shouldIncludeValue msgId
  .send ⟨⟨.kcensusM (.spread s.slot v msgId none withValue value.isSome), me, s.lastV⟩,
    if withValue then value else none⟩ msgId.dest

variable {k} {me} {order} {s : KCensusShard n} {v : Nat} {value : Option (CommandBatch n)}
  {proposer : Fin n} {msgId : MessageId n}

theorem sendTo_ok {msg : KCensusMsg n} {dest : Fin n}
    (hvalue : msg.includesValue = value.isSome)
    (hqueued : ∀ batch, value = some batch → s.queuedCommands.lookup msg.getV = some batch)
    (hdest : dest ≠ me) : sendTo k me msg dest s =
      .ok () { s with sinks := s.sinks ++ [.send ⟨⟨.kcensusM msg, me, s.lastV⟩, value⟩ dest] } := by
  have hfound : valueForMsg msg s = .ok value s := by
    cases value with
    | none => simp [valueForMsg, bind, EStateM.bind, pure, EStateM.pure, run_get, hvalue]
    | some batch => simp [valueForMsg, bind, EStateM.bind, pure, EStateM.pure, run_get, hvalue,
        hqueued batch rfl]
  rw [sendTo, run_bind hfound]
  simp [Turn.send, sendWith, sendPacket, emit, Turn.check, Lib.Turn.check, bind, EStateM.bind, pure,
    EStateM.pure, run_get, run_modify, hdest]

theorem spreadOne_ok (hcalm : s.roundState.hasConflict = false)
    (hvalue : ∀ batch, value = some batch → s.queuedCommands.lookup v = some batch)
    (hsrc : msgId.src = me) (hproposer : msgId.proposer = proposer) (hdest : msgId.dest ≠ me) :
    spreadOne k me v proposer value.isSome false msgId s =
      .ok () { s with sinks := s.sinks ++ [spreadEvent k me s v value msgId] } := by
  have hremote : remoteStates v proposer s.roundState = .ok none := by
    rw [remoteStates, hcalm]
    rfl
  have hsend : sendTo k me (.spread s.slot v msgId none
        (value.isSome && k.graphs.shouldIncludeValue msgId) value.isSome) msgId.dest s =
      .ok () { s with sinks := s.sinks ++ [spreadEvent k me s v value msgId] } := by
    refine sendTo_ok ?_ (fun batch hbatch => ?_) hdest
    · cases value with
      | none => rfl
      | some batch =>
          cases hinclude : k.graphs.shouldIncludeValue msgId with
          | false => rfl
          | true => rfl
    · split at hbatch
      · exact hvalue batch hbatch
      · cases hbatch
  simp only [spreadOne, Turn.check, Lib.Turn.check, Bool.not_false, Bool.true_or, if_true,
    Bool.false_and, Bool.false_eq_true, if_false, hsrc, hproposer, decide_true, bind, EStateM.bind, pure,
    EStateM.pure, run_get, lift, hremote]
  exact hsend

theorem spreadAll_ok (msgIds : List (MessageId n)) (hcalm : s.roundState.hasConflict = false)
    (hvalue : ∀ batch, value = some batch → s.queuedCommands.lookup v = some batch)
    (hown : ∀ msgId ∈ msgIds, msgId.src = me ∧ msgId.proposer = proposer ∧ msgId.dest ≠ me) :
    spreadAll k me v proposer value.isSome false msgIds s =
      .ok () { s with sinks := s.sinks ++ msgIds.map (spreadEvent k me s v value) } := by
  induction msgIds generalizing s with
  | nil =>
      rw [List.map_nil, List.append_nil]
      rfl
  | cons msgId msgIds ih =>
      obtain ⟨hsrc, hproposer, hdest⟩ := hown msgId List.mem_cons_self
      have hrest := ih (s := { s with sinks := s.sinks ++ [spreadEvent k me s v value msgId] }) hcalm
        hvalue fun m hm => hown m (List.mem_cons_of_mem _ hm)
      rw [List.map_cons, List.append_cons]
      exact (run_bind (spreadOne_ok hcalm hvalue hsrc hproposer hdest)).trans hrest

theorem hasConflict_updateKState {r r' : RoundState n} {time : Nat}
    (h : r.updateKState time k.graphs = some r') : r'.hasConflict = r.hasConflict := by
  rw [RoundState.updateKState] at h
  split at h
  · cases h
  · obtain ⟨state, hstate, rfl⟩ := Option.map_eq_some_iff.mp h
    have hmine : (r.setMyState state).myState = state := Function.update_self ..
    obtain ⟨-, _, -, rfl | rfl⟩ := Census.NodeState.updateKState_cases hstate
    · rw [RoundState.hasConflict, hmine]
      rfl
    · rw [RoundState.hasConflict, hmine]
      rfl

theorem followSchedule_ok (later : List (Nat × KnowledgeState n)) {r' : RoundState n}
    {sent : List (MessageId n)} {done : Bool}
    (hrun : RoundState.follow k.graphs proposer later s.roundState = some (r', sent, done))
    (hlater : ∀ e ∈ later, e ∈ (k.graphs.schedule proposer me).states)
    (hcalm : s.roundState.hasConflict = false)
    (hvalue : ∀ batch, value = some batch → s.queuedCommands.lookup v = some batch)
    (hown : ∀ msgId ∈ sent, msgId.src = me ∧ msgId.proposer = proposer ∧ msgId.dest ≠ me) :
    followSchedule k me v proposer value.isSome false later s = .ok done
      { s with roundState := r', sinks := s.sinks ++ sent.map (spreadEvent k me s v value) } := by
  induction later generalizing s sent with
  | nil =>
      cases hrun
      rw [List.map_nil, List.append_nil]
      rfl
  | cons e later ih =>
      obtain ⟨next, knowledge⟩ := e
      rw [RoundState.follow] at hrun
      by_cases hall : s.roundState.hasReceived knowledge.dependencies = true
      · rw [if_pos hall] at hrun
        simp only [Option.bind_eq_bind, Option.bind_eq_some_iff] at hrun
        obtain ⟨r₁, hupdate, ⟨r₂, sent₂, done₂⟩, hfollow, hresult⟩ := hrun
        cases hresult
        have hcalm₁ : r₁.hasConflict = false := (hasConflict_updateKState hupdate).trans hcalm
        have hget : k.graphs.getNewMessagesToSpread proposer me next = some knowledge.neededBy := by
          rw [Propagation.PropagationGraphs.getNewMessagesToSpread,
            Propagation.Schedule.get_of_mem (hlater _ List.mem_cons_self)]
          rfl
        have hspread : spreadAll k me v proposer value.isSome false knowledge.neededBy
            { s with roundState := r₁ } = .ok ()
              { s with
                roundState := r₁
                sinks := s.sinks ++ knowledge.neededBy.map (spreadEvent k me s v value) } :=
          spreadAll_ok _ hcalm₁ hvalue fun m hm => hown m (List.mem_append_left _ hm)
        have hrest := ih (s := { s with
            roundState := r₁
            sinks := s.sinks ++ knowledge.neededBy.map (spreadEvent k me s v value) }) hfollow
          (fun e he => hlater e (List.mem_cons_of_mem _ he)) hcalm₁ hvalue
          fun m hm => hown m (List.mem_append_right _ hm)
        rw [List.map_append, ← List.append_assoc]
        simp only [followSchedule, bind, EStateM.bind, run_get, hall, if_true, changeRound, run_modify,
          Bool.false_eq_true, if_false, onRound, hupdate, orFail, spread, innerSpread, lift, hget]
        rw [hspread]
        exact hrest
      · rw [if_neg hall] at hrun
        cases hrun
        rw [List.map_nil, List.append_nil]
        simp only [followSchedule, bind, EStateM.bind, run_get, hall]
        rfl

theorem absorb_ok {report : Report n} {r₁ r₂ : RoundState n} {accepted : Bool}
    (hexplicit : report.remoteStates = none)
    (hhear : s.roundState.updateRemoteStates k.graphs report = some r₁)
    (haccept : r₁.kcensusTryAccept report.v report.msgId.proposer k.graphs = some (r₂, accepted))
    (hleaders : (accepted && !s.roundState.leaders.isEmpty) = false)
    (hcalm : (r₂.hasConflict || r₂.amIFrozen) = false) :
    absorb k report s = .ok false { s with roundState := r₂ } := by
  obtain ⟨hconflict, hfrozen⟩ := Bool.or_eq_false_iff.mp hcalm
  have hfirst : (!accepted || decide (s.roundState.leaders.length = 0)) = true := by
    cases accepted with
    | false => rfl
    | true =>
        have hnone : s.roundState.leaders = [] := by simpa using hleaders
        simp [hnone]
  simp only [absorb, bind, EStateM.bind, run_get, updateRemoteStates, onRound, hhear, orFail, tryAccept,
    lift, haccept, changeRound, run_modify, pure, EStateM.pure, Turn.check, Lib.Turn.check, hfirst,
    if_true, settleConflict, hconflict, Bool.false_eq_true, if_false, hexplicit, hfrozen,
    Option.isSome_none, Bool.not_false, Bool.and_self]

-- What a Spread without a conflict does to the shard is what it does to the round state, and the
-- sending; at the end of its schedule the leader commits.
variable [NeZero n] in
theorem onSpread_ok {m : MessageId n} {r' : RoundState n} {sent : List (MessageId n)} {done : Bool}
    {majority : Nat} (hfits : Fits majority me s.roundState)
    (htake : s.roundState.take k.graphs v m = some (r', sent, done))
    (hvalue : ∀ batch, value = some batch → s.queuedCommands.lookup v = some batch)
    (hown : ∀ msgId ∈ sent, msgId.src = me ∧ msgId.proposer = m.proposer ∧ msgId.dest ≠ me) :
    onSpread k me order ⟨v, m, none⟩ value.isSome s =
      (if k.graphs.getLeader m.proposer = me ∧ done = true then do
        let value ← commitAndBroadcast me v true
        return some value
      else do
        fallBack k me order v false
        return none : KCTurn n (Option (CommandBatch n)))
      { s with roundState := r', sinks := s.sinks ++ sent.map (spreadEvent k me s v value) } := by
  rw [RoundState.take] at htake
  simp only [Option.bind_eq_bind, Option.bind_eq_some_iff] at htake
  obtain ⟨r₁, hhear, ⟨r₂, accepted⟩, haccept, htake⟩ := htake
  split at htake
  · cases htake
  · rename_i hleaders
    split at htake
    · cases htake
    · rename_i hcalm
      obtain ⟨r₃, hreceive, hfollow⟩ := Option.bind_eq_some_iff.mp htake
      have hreceived : r₃ = { r₂ with receivedMsgs := insert m r₂.receivedMsgs } := by
        rw [RoundState.receiveMsg] at hreceive
        split at hreceive
        · cases hreceive
        · exact (Option.some.inj hreceive).symm
      have hmyPid : r₃.myPid = me :=
        (((hfits.updateRemoteStates hhear).tryAccept haccept).receiveMsg hreceive).myPid
      have hcalm₃ : r₃.hasConflict = false := by
        rw [hreceived]
        exact (Bool.or_eq_false_iff.mp (Bool.eq_false_iff.mpr hcalm)).1
      have hinner : (onRound fun r => orFail (r.receiveMsg m) : KCTurn n Unit)
          { s with roundState := r₂ } = .ok () { s with roundState := r₃ } := by
        have hreceive' : r₂.receiveMsg m = some r₃ := hreceive
        simp only [onRound, hreceive', orFail]
      rw [hmyPid] at hfollow
      have hlater : ∀ e ∈ k.graphs.laterStates m.proposer me (r₃.propagationStates m.proposer),
          e ∈ (k.graphs.schedule m.proposer me).states := fun e he =>
        List.mem_of_mem_filter (List.mem_of_mem_drop he)
      have habsorb : absorb k ⟨v, m, none⟩ s = .ok false { s with roundState := r₂ } :=
        absorb_ok rfl hhear haccept (Bool.eq_false_iff.mpr hleaders) (Bool.eq_false_iff.mpr hcalm)
      have hschedule : followSchedule k me v m.proposer value.isSome false
          (k.graphs.laterStates m.proposer me (r₃.propagationStates m.proposer))
          { s with roundState := r₃ } = .ok done
            { s with
              roundState := r'
              sinks := s.sinks ++ sent.map (spreadEvent k me s v value) } :=
        followSchedule_ok _ hfollow hlater hcalm₃ hvalue hown
      exact (run_bind habsorb).trans ((run_bind hinner).trans ((run_bind rfl).trans
        ((run_bind hschedule).trans rfl)))

theorem fallBack_idle {r : RoundState n} {sinks : List (Event n)} (h : r.preparedFor ≠ some me) :
    fallBack k me order v false { s with roundState := r, sinks := sinks } =
      .ok () { s with roundState := r, sinks := sinks } := by
  simp only [fallBack, bind, EStateM.bind, run_get, h, if_false]
  rfl

section

variable {pathLatencies : Fin n → Fin n → Nat} {draft : Draft n} {majority : Nat} {lone : Lone n}

theorem proposeAndSpread_lone (hplanned : Planned k.graphs pathLatencies proposer draft)
    (hround : s.roundState = RoundState.new majority proposer)
    (hvalue : ∀ batch, value = some batch → s.queuedCommands.lookup v = some batch) :
    ∃ lone, ∃ sent : List (MessageId n), Lone.start k.graphs majority v proposer = some lone ∧
      lone.flying = sent.toFinset ∧ proposeAndSpread k proposer v value.isSome s = .ok ()
        { s with
          roundState := lone.rounds proposer
          sinks := s.sinks ++ sent.map (spreadEvent k proposer s v value) } := by
  obtain ⟨lone, hstart, hunderway, haccept, hflying⟩ := Lone.Underway.start hplanned majority v
  refine ⟨lone, (draft.state proposer 0).neededBy, hstart, hflying, ?_⟩
  have hr : (lone.rounds proposer).hasConflict = false := by
    rcases hunderway.stands proposer with ⟨-, hr⟩ | ⟨hno, -⟩
    · rw [RoundState.hasConflict, hr.proposers, RoundState.myState, hr.myPid, hr.mine]
      rfl
    · exact absurd (Or.inl rfl) hno
  have htry : tryAccept k v proposer s = .ok true { s with roundState := lone.rounds proposer } := by
    simp only [tryAccept, bind, EStateM.bind, lift, hround, haccept, orFail, changeRound, run_modify]
    rfl
  have hget : k.graphs.getNewMessagesToSpread proposer proposer 0 =
      some (draft.state proposer 0).neededBy := by
    rw [Propagation.PropagationGraphs.getNewMessagesToSpread,
      hplanned.get (hplanned.wired.zero proposer)]
    rfl
  have hspread : spread k proposer v proposer 0 value.isSome
      { s with roundState := lone.rounds proposer } = .ok ()
        { s with
          roundState := lone.rounds proposer
          sinks := s.sinks ++
            (draft.state proposer 0).neededBy.map (spreadEvent k proposer s v value) } := by
    simp only [spread, innerSpread, bind, EStateM.bind, lift, hget, orFail]
    exact spreadAll_ok _ hr hvalue fun m hm => hplanned.outgoing (hplanned.wired.zero proposer) hm
  exact (run_bind htry).trans ((run_bind rfl).trans hspread)

variable [NeZero n] in
theorem onSpread_lone (hplanned : Planned k.graphs pathLatencies proposer draft)
    (hlone : Lone.Reachable k.graphs majority v proposer lone) {m : MessageId n}
    (hm : m ∈ lone.flying) (hround : s.roundState = lone.rounds m.dest)
    (hvalue : ∀ batch, value = some batch → s.queuedCommands.lookup v = some batch) :
    ∃ r sent done, lone.deliver k.graphs v m = some (lone.after m r sent, done) ∧
      (k.graphs.getLeader proposer = m.dest → done = true → r.canKcensusCommit k.graphs = true) ∧
      onSpread k m.dest order ⟨v, m, none⟩ value.isSome s =
        (if k.graphs.getLeader proposer = m.dest ∧ done = true then do
          let value ← commitAndBroadcast m.dest v true
          return some value
        else return none : KCTurn n (Option (CommandBatch n)))
        { s with
          roundState := r
          sinks := s.sinks ++ sent.map (spreadEvent k m.dest s v value) } := by
  have hunderway := Lone.Underway.of_reachable hplanned hlone
  have hproposer := (hunderway.flying m hm).own
  obtain ⟨r, sent, done, htake, hdeliver, -, -, hdone, hr, hown⟩ := hunderway.deliver hplanned hm
  have hfits : Fits s.roundState.majority m.dest s.roundState := by
    rw [hround]
    refine ⟨rfl, (hunderway.stands m.dest).myPid, fun pid => ?_⟩
    rcases hunderway.known m.dest pid with heq | ⟨u, -, -, -, heq⟩
    · rw [heq]
      rfl
    · rw [heq]
      rfl
  refine ⟨r, sent, done, hdeliver, fun hleader hend => hr.canKcensusCommit hleader (hdone.mp hend),
    (onSpread_ok hfits (hround ▸ htake) hvalue fun m' hm' =>
    ⟨(hown m' hm').1, (hown m' hm').2.1.trans hproposer.symm, (hown m' hm').2.2⟩).trans ?_⟩
  rw [hproposer]
  split
  · rfl
  · rename_i hquiet
    refine (run_bind (fallBack_idle fun hprepared => hquiet ?_)).trans rfl
    rw [RoundState.preparedFor, RoundState.myState, hr.myPid, hr.mine, Census.point] at hprepared
    split at hprepared
    · rename_i hfinal
      exact ⟨Option.some.inj hprepared, hdone.mpr hfinal⟩
    · cases hprepared

end

-- A proposal that meets no other: the shards do what the lone run says, and the leader commits on its
-- fast path when it gets to the end of its schedule, as the debug assertion there expects.
variable [NeZero n] in
theorem shards_follow_lone_run (k : KCensusSettings n) (order : HashOrder n)
    (pathLatencies : Fin n → Fin n → Nat) (proposer : Fin n) (draft : Draft n)
    (hplanned : Planned k.graphs pathLatencies proposer draft) (majority v : Nat) :
    (∀ (s : KCensusShard n) (value : Option (CommandBatch n)),
      s.roundState = RoundState.new majority proposer →
      (∀ batch, value = some batch → s.queuedCommands.lookup v = some batch) →
      ∃ lone, ∃ sent : List (MessageId n), Lone.start k.graphs majority v proposer = some lone ∧
        lone.flying = sent.toFinset ∧ proposeAndSpread k proposer v value.isSome s = .ok ()
          { s with
            roundState := lone.rounds proposer
            sinks := s.sinks ++ sent.map (spreadEvent k proposer s v value) }) ∧
    ∀ lone, Lone.Reachable k.graphs majority v proposer lone → ∀ m ∈ lone.flying,
      ∀ (s : KCensusShard n) (value : Option (CommandBatch n)), s.roundState = lone.rounds m.dest →
      (∀ batch, value = some batch → s.queuedCommands.lookup v = some batch) →
      ∃ r sent done, lone.deliver k.graphs v m = some (lone.after m r sent, done) ∧
        (k.graphs.getLeader proposer = m.dest → done = true → r.canKcensusCommit k.graphs = true) ∧
        onSpread k m.dest order ⟨v, m, none⟩ value.isSome s =
          (if k.graphs.getLeader proposer = m.dest ∧ done = true then do
            let value ← commitAndBroadcast m.dest v true
            return some value
          else return none : KCTurn n (Option (CommandBatch n)))
          { s with
            roundState := r
            sinks := s.sinks ++ sent.map (spreadEvent k m.dest s v value) } :=
  ⟨fun _ _ hround hvalue => proposeAndSpread_lone hplanned hround hvalue,
    fun _ hlone _ hm _ _ hround hvalue => onSpread_lone hplanned hlone hm hround hvalue⟩

def stocked (k : KCensusSettings 4) (pid : Fin 4) (r : Census.RoundState 4) : KCensusShard 4 :=
  { (ConsensusShard.new k.cluster pid r : KCensusShard 4) with
    queuedCommands := AList.insert 0 (.single ⟨0, 0, [], false, 0, none⟩) ∅ }

-- 0 proposes a write of its own, and 1 takes in the Spread that brings it.
theorem shards_follow_lone_run_squares : ∃ (k : KCensusSettings 4) (lone : Lone 4)
    (sent : List (MessageId 4)) (m : MessageId 4) (value : CommandBatch 4),
      k.graphs.topology = Propagation.squares ∧ Lone.start k.graphs 2 0 0 = some lone ∧
      proposeAndSpread k 0 0 true (stocked k 0 (.new 2 0)) = .ok ()
        { stocked k 0 (.new 2 0) with
          roundState := lone.rounds 0
          sinks := sent.map (spreadEvent k 0 (stocked k 0 (.new 2 0)) 0 (some value)) } ∧
      m ∈ sent ∧ m.dest = 1 ∧ k.graphs.shouldIncludeValue m = true ∧
      ∃ r next done, lone.deliver k.graphs 0 m = some (lone.after m r next, done) ∧
        (k.graphs.getLeader 0 = m.dest → done = true → r.canKcensusCommit k.graphs = true) ∧
        onSpread k m.dest .same ⟨0, m, none⟩ true (stocked k 1 (lone.rounds 1)) =
          (if k.graphs.getLeader 0 = m.dest ∧ done = true then do
            let value ← commitAndBroadcast m.dest 0 true
            return some value
          else return none : KCTurn 4 (Option (CommandBatch 4)))
          { stocked k 1 (lone.rounds 1) with
            roundState := r
            sinks := next.map (spreadEvent k m.dest (stocked k 1 (lone.rounds 1)) 0 (some value)) } := by
  obtain ⟨effort, plan, kl, levels, htimely, -, -, hfulfils, hall⟩ := Census.exists_planned
    Propagation.agreeing_oneByOne (by decide) (by decide)
    (show Propagation.majority Propagation.squares ≤ _ by decide) (by decide)
  let k : KCensusSettings 4 :=
    { cluster := ⟨Propagation.squares, [0], false, List.cons_ne_nil _ _⟩
      graphs := plan.propagationGraphs Propagation.squares htimely }
  let value : CommandBatch 4 := .single ⟨0, 0, [], false, 0, none⟩
  have hvalue : ∀ pid r batch, some value = some batch →
      (stocked k pid r).queuedCommands.lookup 0 = some batch := fun pid r batch hbatch => by
    cases hbatch
    exact AList.lookup_insert _
  have hrun := shards_follow_lone_run k .same Propagation.lineLatency 0 (plan.graphs 0) (hall 0) 2 0
  obtain ⟨lone, sent, hstart, hflying, hpropose⟩ := hrun.1 (stocked k 0 (.new 2 0)) (some value) rfl
    (hvalue 0 _)
  let m := Propagation.valueMessage Propagation.oneByOne Propagation.lineLatency 0 1
  have hincluded : k.graphs.shouldIncludeValue m = true := by
    refine decide_eq_true ?_
    change m ∈ (plan.graphs 0).shouldIncludeValue
    rw [(hfulfils.graph 0).values]
    exact Finset.mem_image_of_mem _ (by decide)
  obtain ⟨lone', hstart', -, -, hflying'⟩ := Lone.Underway.start (hall 0) 2 0
  obtain rfl : lone = lone' := Option.some.inj (hstart.symm.trans hstart')
  have hm : m ∈ lone.flying := by
    rw [hflying', List.mem_toFinset]
    exact ((hfulfils.graph 0).supplied 1 (by decide)).1
  refine ⟨k, lone, sent, m, value, rfl, hstart, hpropose, ?_, rfl, hincluded,
    hrun.2 lone (.start hstart) m hm (stocked k 1 (lone.rounds 1)) (some value) rfl (hvalue 1 _)⟩
  exact List.mem_toFinset.mp (hflying ▸ hm)

end KCensusSettings

end KCensus.Slots

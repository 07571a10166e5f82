import KCensus.Slots.KCensusConduct
import KCensus.Slots.Rest

namespace KCensus.Slots

open Lib.Turn (Meets Along)
open Census (RoundState NodeState Report)
open Propagation (PropagationGraphs MessageId KnowledgeState)
open Turn Conduct

variable {n : Nat}

namespace KCensusSettings

section ids

variable {graph : PropagationGraphs n} {state state' : NodeState n} {v : Nat}

theorem id_of_updateKState {duration : Nat} (h : state.updateKState duration graph = some state') :
    state'.id = state.id := by
  rw [NodeState.updateKState] at h
  split at h
  · cases h
  · split at h
    · cases h
    · dsimp only at h
      split at h
      · cases h
        rfl
      · cases h
        rfl

theorem id_of_acceptWithKState {proposer : Fin n} {duration : Nat}
    (h : state.acceptWithKState v proposer duration graph = some state') : state'.id = state.id := by
  rw [NodeState.acceptWithKState] at h
  split at h
  · cases h
  · exact (id_of_updateKState h).trans rfl

theorem id_prepareFor (state : NodeState n) (leader : Fin n) :
    (state.prepareFor leader).id = state.id := by
  rw [NodeState.prepareFor]
  split
  · rfl
  · rfl

theorem id_paxosAccept (state : NodeState n) (leader : Fin n) (v : Nat) :
    (state.paxosAccept leader v).1.id = state.id := by
  rw [NodeState.paxosAccept]
  split
  · exact id_prepareFor state leader
  · exact id_prepareFor state leader

theorem id_of_partialCmp {order : Ordering} (h : state.partialCmp state' = some order) :
    state.id = state'.id := by
  rw [NodeState.partialCmp] at h
  split at h
  · cases h
  · exact not_not.1 ‹_›

end ids

structure Fits (majority : Nat) (me : Fin n) (r : RoundState n) : Prop where
  majority : r.majority = majority
  myPid : r.myPid = me
  ids : ∀ pid, (r.nodeStates pid).id = pid

variable {majority : Nat} {me : Fin n} {r r' : RoundState n} {graph : PropagationGraphs n} {v : Nat}

namespace Fits

theorem new : Fits majority me (RoundState.new majority me) := ⟨rfl, rfl, fun _ => rfl⟩

theorem clear (h : Fits majority me r) : r.clear = RoundState.new majority me := by
  obtain ⟨rfl, rfl, hids⟩ := h
  have hnodes : (fun pid => NodeState.new (r.nodeStates pid).id) = NodeState.new :=
    funext fun pid => congrArg NodeState.new (hids pid)
  rw [RoundState.clear, hnodes]
  rfl

theorem update (h : Fits majority me r) {pid : Fin n} {state : NodeState n} (hs : state.id = pid) :
    Fits majority me { r with nodeStates := Function.update r.nodeStates pid state } := by
  refine ⟨h.majority, h.myPid, fun q => ?_⟩
  dsimp only
  rcases eq_or_ne q pid with rfl | hne
  · rw [Function.update_self, hs]
  · rw [Function.update_of_ne hne, h.ids]

theorem setMyState (h : Fits majority me r) {state : NodeState n} (hs : state.id = r.myState.id) :
    Fits majority me (r.setMyState state) := h.update (hs.trans (h.ids r.myPid))

theorem tryAccept (h : Fits majority me r) {proposer : Fin n} {accepted : Bool}
    (hr : r.kcensusTryAccept v proposer graph = some (r', accepted)) : Fits majority me r' := by
  rw [RoundState.kcensusTryAccept] at hr
  split at hr
  · cases hr
    exact h
  · split at hr
    · cases hr
    · split at hr
      · cases hr
      · rename_i state hstate
        have hset := h.setMyState (id_of_acceptWithKState hstate)
        dsimp only at hr
        split at hr
        · split at hr
          · cases hr
            exact ⟨hset.majority, hset.myPid, hset.ids⟩
          · cases hr
        · split at hr
          · cases hr
            exact hset
          · cases hr

theorem updateKState (h : Fits majority me r) {time : Nat}
    (hr : r.updateKState time graph = some r') : Fits majority me r' := by
  rw [RoundState.updateKState] at hr
  split at hr
  · cases hr
  · obtain ⟨state, hstate, rfl⟩ := Option.map_eq_some_iff.1 hr
    exact h.setMyState (id_of_updateKState hstate)

theorem freezeAndPrepareFor (h : Fits majority me r) (leader : Fin n) :
    Fits majority me (r.freezeAndPrepareFor leader) := h.setMyState (id_prepareFor _ _)

theorem freezeAndPrepareForLeaders (h : Fits majority me r) :
    Fits majority me r.freezeAndPrepareForLeaders := by
  have hfold : ∀ (leaders : List (Fin n)) {r : RoundState n}, Fits majority me r →
      Fits majority me (leaders.foldl RoundState.freezeAndPrepareFor r) := by
    intro leaders
    induction leaders with
    | nil => exact id
    | cons leader leaders ih => exact fun h => ih (h.freezeAndPrepareFor leader)
  exact hfold _ h

theorem receiveMsg (h : Fits majority me r) {msg : MessageId n} (hr : r.receiveMsg msg = some r') :
    Fits majority me r' := by
  rw [RoundState.receiveMsg] at hr
  split at hr
  · cases hr
  · cases hr
    exact ⟨h.majority, h.myPid, h.ids⟩

theorem paxosAccept (h : Fits majority me r) (leader : Fin n) (v : Nat) :
    Fits majority me (r.paxosAccept leader v) := by
  have hset := h.setMyState (id_paxosAccept r.myState leader v)
  rw [RoundState.paxosAccept]
  dsimp only
  split
  · exact ⟨hset.majority, hset.myPid, hset.ids⟩
  · exact hset

theorem recvPaxosAccept (h : Fits majority me r) (src : Fin n) (v : Nat) :
    Fits majority me (r.recvPaxosAccept src v) := by
  have hset := h.update ((id_paxosAccept (r.nodeStates src) r.myPid v).trans (h.ids src))
  rw [RoundState.recvPaxosAccept]
  dsimp only
  split
  · exact ⟨hset.majority, hset.myPid, hset.ids⟩
  · exact hset

theorem updateRemoteState (h : Fits majority me r) {report : Report n} {mine : Option (Fin n)}
    {pid : Fin n} (hr : RoundState.updateRemoteState report graph mine r pid = some r') :
    Fits majority me r' := by
  simp only [RoundState.updateRemoteState, Option.bind_eq_bind, Option.bind_eq_some_iff] at hr
  obtain ⟨remote, -, order, horder, hr⟩ := hr
  have hset := h.update ((id_of_partialCmp horder).trans (h.ids pid))
  split at hr
  · cases hr
    exact h
  · repeat' split at hr
    all_goals cases hr
    all_goals exact ⟨hset.majority, hset.myPid, hset.ids⟩

theorem updateRemoteStates (h : Fits majority me r) {report : Report n}
    (hr : r.updateRemoteStates graph report = some r') : Fits majority me r' := by
  have hfold : ∀ (mine : Option (Fin n)) (pids : List (Fin n)) {r : RoundState n},
      Fits majority me r →
      pids.foldlM (RoundState.updateRemoteState report graph mine) r = some r' →
      Fits majority me r' := by
    intro mine pids
    induction pids with
    | nil =>
      intro r h hr
      cases hr
      exact h
    | cons pid pids ih =>
      intro r h hr
      rw [List.foldlM_cons, Option.bind_eq_bind, Option.bind_eq_some_iff] at hr
      obtain ⟨mid, hmid, hrest⟩ := hr
      exact ih (h.updateRemoteState hmid) hrest
  exact hfold _ _ h hr

end Fits

variable  (k : KCensusSettings n) (me)

-- A message carries a value if and only if it says so.
def Speaks : ConsensusMsg n → Bool → Prop
  | .kcensusM msg, withValue => msg.includesValue = withValue
  | .paxosM _, _ => False
  | _, _ => True

def rest : Rest me (RoundState n) where
  follows := false
  readQuorum := k.cluster.majority
  speaks := Speaks
  fit := Fits k.cluster.majority me
  valued _ := False
  idle := k.newRoundState me

variable {k} {me} {order : HashOrder n} {s : KCensusShard n}

namespace Rests

open Rest

theorem proper {msg : KCensusMsg n} {value : Option (CommandBatch n)} {lastV : Option Nat}
    (h : msg.includesValue = value.isSome) :
    (k.rest me).Proper ⟨⟨.kcensusM msg, me, lastV⟩, value⟩ :=
  ⟨rfl, fun hread => (by cases hread), h⟩

theorem valueForMsg {msg : KCensusMsg n} :
    Meets (KCensusSettings.valueForMsg msg) s
      (fun value t => (k.rest me).Kept s t ∧ msg.includesValue = value.isSome) (fun _ => (k.rest me).Kept s) := by
  refine Meets.get ?_
  split
  · split
    · exact ⟨refl s, ‹_›⟩
    · exact refl s
  · exact ⟨refl s, Bool.eq_false_of_not_eq_true ‹_›⟩

theorem sendTo {msg : KCensusMsg n} {dest : Fin n} : (k.rest me).Keeps (k.sendTo me msg dest) s :=
  Lib.Turn.meets_bind.2 (valueForMsg.mono
    (fun _ _ ht => Along.after ht.1 (Keeps.send fun _ => proper ht.2)) fun _ _ => id)

theorem broadcastPaxosAccept {v : Nat} {newValue : Bool} :
    (k.rest me).Keeps (KCensusSettings.broadcastPaxosAccept me v newValue) s :=
  Keeps.get (Lib.Turn.meets_bind.2 (valueForMsg.mono
    (fun _ _ ht => Along.after ht.1 (Keeps.priorityBroadcast fun _ => proper ht.2)) fun _ _ => id))

theorem spreadOne {v : Nat} {proposer : Fin n} {newValue valueOnly : Bool} {msgId : MessageId n} :
    (k.rest me).Keeps (k.spreadOne me v proposer newValue valueOnly msgId) s := by
  refine .bind .check fun _ t _ => ?_
  dsimp only
  split
  · exact .pure _
  · refine .bind .check fun _ _ _ => .bind .check fun _ _ _ => ?_
    split
    · exact sendTo
    · exact Keeps.get (.bind Keeps.lift fun _ _ _ => sendTo)

theorem spreadAll {v : Nat} {proposer : Fin n} {newValue valueOnly : Bool}
    (msgIds : List (MessageId n)) :
    (k.rest me).Keeps (k.spreadAll me v proposer newValue valueOnly msgIds) s := by
  induction msgIds generalizing s with
  | nil => exact .pure _
  | cons msgId msgIds ih => exact .bind spreadOne fun _ _ _ => ih

theorem innerSpread {v : Nat} {proposer : Fin n} {stateId : Nat} {newValue valueOnly : Bool} :
    (k.rest me).Keeps (k.innerSpread me v proposer stateId newValue valueOnly) s :=
  .bind Keeps.lift fun _ _ _ => spreadAll _

theorem graphSpreadValueOnly {prevMsgId : MessageId n} {v : Nat} :
    (k.rest me).Keeps (k.graphSpreadValueOnly me prevMsgId v) s := by
  refine Keeps.get ?_
  split
  · exact innerSpread
  · exact .pure _

theorem changeRound {g : RoundState n → RoundState n}
    (hg : Fits k.cluster.majority me s.roundState →
      Fits k.cluster.majority me (g s.roundState)) :
    (k.rest me).Keeps (KCensusSettings.changeRound g) s := Keeps.changeRound hg id

theorem onRound {g : RoundState n → Option (RoundState n)}
    (hg : ∀ r r', g r = some r' → Fits k.cluster.majority me r → Fits k.cluster.majority me r') :
    (k.rest me).Keeps (Turn.onRound fun r => orFail (g r)) s :=
  Keeps.onRound (fun r hr => hg _ r (orFail_ok hr)) fun _ _ => id

theorem tryAccept {v : Nat} {proposer : Fin n} :
    (k.rest me).Keeps (k.tryAccept v proposer) s :=
  Keeps.lift_bind fun _ hr => .bind (changeRound fun h => h.tryAccept (orFail_ok hr))
    fun _ _ _ => .pure _

theorem proposeAndSpread {v : Nat} {newValue : Bool} :
    (k.rest me).Keeps (k.proposeAndSpread me v newValue) s :=
  .bind tryAccept fun _ _ _ => .bind .check fun _ _ _ => innerSpread

theorem proposeStart {value : CommandBatch n} {contention : Bool} :
    Meets (k.proposeStart me value contention) s
      (fun _ t => (k.rest me).Kept s t ∧ ∃ v, v ∈ t.queuedCommands) (fun _ => (k.rest me).Kept s) := by
  rw [KCensusSettings.proposeStart, Lib.Turn.meets_bind]
  refine Keeps.storeNewCommand.mono (fun v t ht => ?_) fun _ _ => id
  have hrest : ∀ {m : KCTurn n Unit}, (k.rest me).Keeps m t →
      Meets m t (fun _ u => (k.rest me).Kept s u ∧ ∃ v, v ∈ u.queuedCommands)
        (fun _ => (k.rest me).Kept s) := fun hm =>
    Meets.mono hm (fun _ u hu => ⟨IsTrans.trans _ _ _ ht.1 hu, v, hu.held v ht.2⟩) fun _ _ => IsTrans.trans _ _ _ ht.1
  split
  · exact hrest innerSpread
  · exact hrest proposeAndSpread

theorem followSchedule {v : Nat} {proposer : Fin n} {newValue conflict : Bool}
    (states : List (Nat × KnowledgeState n)) :
    (k.rest me).Keeps (k.followSchedule me v proposer newValue conflict states) s := by
  induction states generalizing s with
  | nil => exact .pure _
  | cons state later ih =>
    refine Keeps.get ?_
    split
    · refine .bind (changeRound fun h => ⟨h.majority, h.myPid, h.ids⟩) fun _ _ _ => ?_
      dsimp only
      split
      · exact .bind innerSpread fun _ _ _ => ih
      · refine .bind (onRound fun r r' hr h => h.updateKState hr) fun _ _ _ => ?_
        exact .bind innerSpread fun _ _ _ => ih
    · exact .pure _

theorem adopted {v : Nat} : (k.rest me).Keeps (k.adopted order v) s := by
  refine .bind Keeps.lift fun adoptedV _ _ => ?_
  cases adoptedV with
  | some adoptedV => exact .pure _
  | none =>
    refine Keeps.get ?_
    split
    · exact .bind (Keeps.storeNewCommand.mono (fun _ _ ht => ht.1) fun _ _ => id) fun _ _ _ => .pure _
    · exact .pure _

theorem fallBack {v : Nat} {conflict : Bool} :
    (k.rest me).Keeps (k.fallBack me order v conflict) s := by
  refine Keeps.get ?_
  split
  · refine .bind .check fun _ _ _ => .bind .check fun _ _ _ => ?_
    dsimp only
    split
    · refine .bind adopted fun adopted _ _ => ?_
      refine .bind broadcastPaxosAccept fun _ _ _ => ?_
      exact changeRound fun h => h.paxosAccept me _
    · exact .pure _
  · exact .pure _

theorem settleConflict {explicitRemoteStates : Bool} :
    (k.rest me).Keeps (KCensusSettings.settleConflict explicitRemoteStates) s := by
  refine Keeps.get ?_
  split
  · refine .bind Keeps.leaveFastPath fun _ _ _ => ?_
    exact .bind (changeRound fun h => h.freezeAndPrepareForLeaders) fun _ _ _ => .pure _
  · exact .bind .check fun _ _ _ => .pure _

theorem absorb {report : Report n} : (k.rest me).Keeps (k.absorb report) s := by
  refine Keeps.get (.bind (onRound fun r r' hr h => h.updateRemoteStates hr) fun _ _ _ => ?_)
  exact .bind tryAccept fun _ _ _ => .bind .check fun _ _ _ => settleConflict

theorem commitSlot {v : Nat} : Meets (KCensusSettings.commitSlot v) s
    (fun value => (k.rest me).Ended s (some value)) (fun _ => (k.rest me).Kept s) :=
  Keeps.advance fun _ h => h.clear

variable [NeZero n] in
theorem commitAndBroadcast {v : Nat} {fast : Bool} :
    Meets (KCensusSettings.commitAndBroadcast me v fast) s
      (fun value => (k.rest me).Ended s (some value)) (fun _ => (k.rest me).Kept s) := by
  refine Meets.get (Along.check.read (fun _ t ht => ?_) fun _ _ => id)
  have hemit : (k.rest me).Keeps (emit (.decided s.slot v fast)) t := Keeps.emit trivial rfl
  refine hemit.read (fun _ u hu => ?_) fun _ _ hu => IsTrans.trans _ _ _ ht hu
  have hsay : (k.rest me).Keeps
      (priorityBroadcast me (.commit s.slot v) none (getRequester v)) u :=
    Keeps.priorityBroadcast fun _ => ⟨rfl, fun hread => (by cases hread), trivial⟩
  refine hsay.read (fun _ w hw => ?_) fun _ _ hw => IsTrans.trans _ _ _ ht (IsTrans.trans _ _ _ hu hw)
  have hsw : (k.rest me).Kept s w := IsTrans.trans _ _ _ ht (IsTrans.trans _ _ _ hu hw)
  exact commitSlot.mono (fun _ _ => hsw.ended) fun _ _ => IsTrans.trans _ _ _ hsw

variable [NeZero n] in
theorem onSpread {report : Report n} {newValue : Bool} :
    Meets (k.onSpread me order report newValue) s ((k.rest me).Ended s)
      (fun _ => (k.rest me).Kept s) := by
  rw [KCensusSettings.onSpread]
  refine Keeps.hand absorb fun conflict _ _ => ?_
  refine Keeps.hand (onRound fun r r' hr h => h.receiveMsg hr) fun _ t _ => Meets.get ?_
  refine Keeps.hand (followSchedule _) fun reached _ _ => ?_
  split
  · exact Lib.Turn.meets_bind.2 commitAndBroadcast
  · exact fallBack.read (fun _ _ ht => ht) fun _ _ => id

variable [NeZero n] in
theorem onPaxosAccept {src leader : Fin n} {v : Nat} :
    Meets (k.onPaxosAccept me src leader v) s ((k.rest me).Ended s)
      (fun _ => (k.rest me).Kept s) := by
  rw [KCensusSettings.onPaxosAccept]
  refine Keeps.hand Keeps.leaveFastPath fun _ _ _ => ?_
  refine Keeps.hand (changeRound fun h => h.freezeAndPrepareFor leader) fun _ t _ => Meets.get ?_
  split
  · exact refl t
  · split
    · refine Keeps.hand .check fun _ _ _ => ?_
      refine Keeps.hand (changeRound fun h => h.paxosAccept leader v) fun _ _ _ => ?_
      exact sendTo.read (fun _ _ hu => hu) fun _ _ => id
    · refine Keeps.hand (changeRound fun h => h.recvPaxosAccept src v) fun _ u _ => Meets.get ?_
      split
      · exact Lib.Turn.meets_bind.2 commitAndBroadcast
      · exact refl u

variable [NeZero n] in
theorem processMessage {msg : ConsensusMessage n} (hready : s.readyToProcess me msg = .ok true) :
    Meets (k.processMessage me order msg) s ((k.rest me).Replied msg s)
      (fun _ => (k.rest me).Kept s) := by
  obtain ⟨msg, src, lastV⟩ := msg
  cases msg with
  | kcensusM msg =>
    have hwait : (k.rest me).Replied ⟨.kcensusM msg, src, lastV⟩ s none s :=
      ⟨refl s, fun _ => Or.inl rfl⟩
    have hsend : ∀ {msgId v}, Meets (do
        k.graphSpreadValueOnly me msgId v
        return none) s
        ((k.rest me).Replied ⟨.kcensusM msg, src, lastV⟩ s) (fun _ => (k.rest me).Kept s) := by
      intro msgId v
      have hstill : (Conduct.still me False fun _ _ _ => True).Acts
          (k.graphSpreadValueOnly me msgId v) s := Conducts.graphSpreadValueOnly
      have hkept : (k.rest me).Keeps (k.graphSpreadValueOnly me msgId v) s := graphSpreadValueOnly
      rw [Lib.Turn.meets_bind]
      exact (Meets.and hkept hstill).mono (fun _ t ht => ⟨ht.1, fun _ => Or.inl ht.2.keeps⟩)
        fun _ _ ht => ht.1
    have hcurrent : ∀ {m : KCTurn n (Option (CommandBatch n))}, msg.getSlot = some s.slot →
        Meets m s ((k.rest me).Ended s) (fun _ => (k.rest me).Kept s) →
        Meets m s ((k.rest me).Replied ⟨.kcensusM msg, src, lastV⟩ s)
          (fun _ => (k.rest me).Kept s) := by
      intro m hslot hm
      obtain ⟨v, hv⟩ : ∃ v, v ∈ s.queuedCommands := by
        rcases ConsensusShard.ready_cases hready with ⟨-, hvalue | ⟨-, hled⟩⟩ | hlow
        · obtain ⟨value, hlookup, -⟩ := ConsensusShard.holds_of_valueReady hvalue rfl
          exact ⟨_, Lib.HashMap.mem_of_lookup hlookup⟩
        · cases hled
        · exact absurd (hlow s.slot hslot) (lt_irrefl _)
      refine hm.post fun r t ht => ⟨ht, ?_⟩
      rintro rfl
      exact Or.inr (Or.inl (Or.inl ⟨v, ht.held v hv⟩))
    refine Meets.get ?_
    cases msg with
    | spread slot v msgId remoteStates withValue newValue =>
      dsimp only
      split
      · split
        · rw [Lib.Turn.meets_bind, meets_check]
          exact ⟨fun _ => hsend, fun _ => refl s⟩
        · exact hwait
      · rw [Lib.Turn.meets_bind, meets_check]
        exact ⟨fun hslot => hcurrent (congrArg some (of_decide_eq_true hslot)) onSpread,
          fun _ => refl s⟩
    | spreadValueOnly v msgId => exact hsend
    | paxosAccept slot leader v newValue =>
      dsimp only
      split
      · exact hwait
      · rename_i hskip
        refine hcurrent ?_ onPaxosAccept
        rcases ConsensusShard.ready_cases hready with ⟨hslot, -⟩ | hlow
        · exact hslot
        · exact absurd (Or.inl (hlow slot rfl)) hskip
  | _ => exact refl s

variable [NeZero n] in
theorem stale {msg : ConsensusMessage n} {slot : Nat} (hslot : msg.getSlot = some slot)
    (hlow : slot < s.slot) (hspeaks : Speaks msg.msg false)
    (hcommit : ∀ slot v, msg.msg ≠ .commit slot v) (hanswer : msg.isReadResponse = false) :
    k.processMessage me order msg s = .ok none s := by
  obtain ⟨msg, src, lastV⟩ := msg
  cases msg with
  | kcensusM msg =>
    cases msg with
    | spread slot' v msgId remoteStates withValue newValue =>
      cases hslot
      cases hspeaks
      change (ite (slot < s.slot) _ _ : KCTurn n _) s = _
      rw [if_pos hlow]
      rfl
    | spreadValueOnly v msgId => cases hslot
    | paxosAccept slot' leader v newValue =>
      cases hslot
      change (ite (slot < s.slot ∨ _) _ _ : KCTurn n _) s = _
      rw [if_pos (Or.inl hlow)]
      rfl
  | paxosM msg => exact hspeaks.elim
  | commit slot v => exact absurd rfl (hcommit slot v)
  | readRequest id => cases hslot
  | readResponse id slot => cases hanswer

variable [NeZero n] in
theorem habitual : (k.rest me).Habitual (k.algorithm me order) where
  idle := Fits.new
  ongoing := False.elim
  valued := fun hfollows => by cases hfollows
  speaks := by
    intro msg withValue hkcensus hpaxos
    cases msg with
    | kcensusM m => exact absurd rfl (hkcensus m)
    | paxosM m => exact absurd rfl (hpaxos m)
    | _ => trivial
  processMessage := processMessage
  commitSlot := commitSlot
  proposeStart := proposeStart
  reproposeStart := proposeAndSpread
  stale := stale

end Rests

end KCensusSettings

end KCensus.Slots

import KCensus.Slots.KCensusShard
import KCensus.Slots.Turns

namespace KCensus.Slots

open Lib.Turn (Meets)
open Census (RoundState NodeState Report buildRemoteState)
open Propagation (PropagationGraphs MessageId KnowledgeState)
open Turn Watch ConsensusShard

variable {n : Nat} {K K' held held' : Nat → Prop}

section values

variable {graph : PropagationGraphs n} {state state' : NodeState n} {v w : Nat}

theorem v_of_updateKState {duration : Nat} (h : state.updateKState duration graph = some state') :
    state'.v = state.v := by
  rw [NodeState.updateKState] at h
  split at h
  · cases h
  · split at h
    · cases h
    · dsimp only at h
      split at h
      · cases h
        rfl
      · cases h
        rfl

theorem v_of_acceptWithKState {proposer : Fin n} {duration : Nat}
    (h : state.acceptWithKState v proposer duration graph = some state') : state'.v = some v := by
  rw [NodeState.acceptWithKState] at h
  split at h
  · cases h
  · exact v_of_updateKState h

theorem v_prepareFor (state : NodeState n) (leader : Fin n) :
    (state.prepareFor leader).v = state.v := by
  rw [NodeState.prepareFor]
  split
  · rfl
  · rfl

theorem v_paxosAccept (state : NodeState n) (leader : Fin n) (v : Nat) :
    (state.paxosAccept leader v).1.v = state.v ∨ (state.paxosAccept leader v).1.v = some v := by
  rw [NodeState.paxosAccept]
  split
  · exact Or.inr rfl
  · exact Or.inl (v_prepareFor state leader)

theorem v_of_report {report : Report n} {pid : Fin n} (h : report.nodeState graph pid = some state)
    (hv : state.v = some w) :
    w = report.v ∨ ∃ states, report.remoteStates = some states ∧ (states pid).v = some w := by
  rw [Report.nodeState] at h
  split at h
  · cases h
    exact Or.inr ⟨_, ‹_›, hv⟩
  · left
    rw [buildRemoteState] at h
    simp only [Option.bind_eq_bind, Option.bind_eq_some_iff] at h
    obtain ⟨knowledge, -, h⟩ := h
    split at h
    · rw [v_of_acceptWithKState h] at hv
      exact (Option.some.inj hv).symm
    · cases h
      cases hv

end values

namespace KCensusSettings

-- The uids of a census; it is empty before a value of the slot has come.
structure Mentions (K held : Nat → Prop) (r : RoundState n) : Prop where
  known : ∀ pid v, (r.nodeStates pid).v = some v → K v
  held : ∀ pid v, (r.nodeStates pid).v = some v → ∃ w, held w

def From (P : Nat → Prop) (r r' : RoundState n) : Prop :=
  ∀ pid v, (r'.nodeStates pid).v = some v → (∃ q, (r.nodeStates q).v = some v) ∨ P v

variable {P Q : Nat → Prop} {r r' r'' : RoundState n} {graph : PropagationGraphs n} {v : Nat}

namespace From

theorem refl : From P r r := fun pid _ hv => Or.inl ⟨pid, hv⟩

theorem trans (h : From P r r') (h' : From P r' r'') : From P r r'' := by
  intro pid v hv
  rcases h' pid v hv with ⟨q, hq⟩ | hp
  · exact h q v hq
  · exact Or.inr hp

theorem same (h : r'.nodeStates = r.nodeStates) : From P r r' :=
  fun pid _ hv => Or.inl ⟨pid, h ▸ hv⟩

theorem update {pid : Fin n} {state : NodeState n} (hr : r'.nodeStates = Function.update r.nodeStates pid state)
    (hs : ∀ v, state.v = some v → (∃ q, (r.nodeStates q).v = some v) ∨ P v) : From P r r' := by
  intro q v hv
  rw [hr] at hv
  rcases eq_or_ne q pid with rfl | hne
  · rw [Function.update_self] at hv
    exact hs v hv
  · rw [Function.update_of_ne hne] at hv
    exact Or.inl ⟨q, hv⟩

theorem tryAccept {proposer : Fin n} {accepted : Bool}
    (h : r.kcensusTryAccept v proposer graph = some (r', accepted)) : From (· = v) r r' := by
  have hset : ∀ state, r.myState.acceptWithKState v proposer 0 graph = some state →
      ∀ w, state.v = some w → (∃ q, (r.nodeStates q).v = some w) ∨ w = v := by
    intro state hs w hw
    rw [v_of_acceptWithKState hs] at hw
    exact Or.inr (Option.some.inj hw).symm
  rw [RoundState.kcensusTryAccept] at h
  split at h
  · cases h
    exact refl
  · split at h
    · cases h
    · split at h
      · cases h
      · rename_i state hstate
        dsimp only at h
        split at h
        · split at h
          · cases h
            exact update rfl (hset state hstate)
          · cases h
        · split at h
          · cases h
            exact update rfl (hset state hstate)
          · cases h

theorem updateKState {time : Nat} (h : r.updateKState time graph = some r') : From P r r' := by
  rw [RoundState.updateKState] at h
  split at h
  · cases h
  · obtain ⟨state, hstate, rfl⟩ := Option.map_eq_some_iff.1 h
    refine update rfl fun v hv => Or.inl ⟨r.myPid, ?_⟩
    rw [← hv, v_of_updateKState hstate]
    rfl

theorem freezeAndPrepareFor (leader : Fin n) : From P r (r.freezeAndPrepareFor leader) :=
  update rfl fun _ hv => Or.inl ⟨r.myPid, (v_prepareFor r.myState leader) ▸ hv⟩

theorem freezeAndPrepareForLeaders : From P r r.freezeAndPrepareForLeaders := by
  have hfold : ∀ (leaders : List (Fin n)) (r : RoundState n),
      From P r (leaders.foldl RoundState.freezeAndPrepareFor r) := by
    intro leaders
    induction leaders with
    | nil => exact fun r => refl
    | cons leader leaders ih => exact fun r => (freezeAndPrepareFor leader).trans (ih _)
  exact hfold _ _

theorem paxosAccept (leader : Fin n) : From (· = v) r (r.paxosAccept leader v) := by
  have hset : From (· = v) r (r.setMyState (r.myState.paxosAccept leader v).1) := by
    refine update rfl fun w hw => ?_
    rcases v_paxosAccept r.myState leader v with hold | hnew
    · exact Or.inl ⟨r.myPid, hold ▸ hw⟩
    · rw [hnew] at hw
      exact Or.inr (Option.some.inj hw).symm
  rw [RoundState.paxosAccept]
  dsimp only
  split
  · exact hset.trans (same rfl)
  · exact hset

theorem recvPaxosAccept (src : Fin n) : From (· = v) r (r.recvPaxosAccept src v) := by
  have hset : From (· = v) r
      { r with nodeStates :=
        Function.update r.nodeStates src ((r.nodeStates src).paxosAccept r.myPid v).1 } := by
    refine update rfl fun w hw => ?_
    rcases v_paxosAccept (r.nodeStates src) r.myPid v with hold | hnew
    · exact Or.inl ⟨src, hold ▸ hw⟩
    · rw [hnew] at hw
      exact Or.inr (Option.some.inj hw).symm
  rw [RoundState.recvPaxosAccept]
  dsimp only
  split
  · exact hset.trans (same rfl)
  · exact hset

def ToldBy (report : Report n) (v : Nat) : Prop :=
  v = report.v ∨ ∃ states pid, report.remoteStates = some states ∧ (states pid).v = some v

theorem updateRemoteState {report : Report n} {mine : Option (Fin n)} {pid : Fin n}
    (h : RoundState.updateRemoteState report graph mine r pid = some r') :
    From (ToldBy report) r r' := by
  simp only [RoundState.updateRemoteState, Option.bind_eq_bind, Option.bind_eq_some_iff] at h
  obtain ⟨remote, hremote, order, -, h⟩ := h
  have hset : ∀ r' : RoundState n, r'.nodeStates = Function.update r.nodeStates pid remote →
      From (ToldBy report) r r' := by
    intro r' hr'
    refine update hr' fun w hw => Or.inr ?_
    rcases v_of_report hremote hw with rfl | ⟨states, hs, hv⟩
    · exact Or.inl rfl
    · exact Or.inr ⟨states, pid, hs, hv⟩
  split at h
  · cases h
    exact refl
  · repeat' split at h
    all_goals cases h
    all_goals exact hset _ rfl

theorem updateRemoteStates {report : Report n} (h : r.updateRemoteStates graph report = some r') :
    From (ToldBy report) r r' := by
  have hfold : ∀ (mine : Option (Fin n)) (pids : List (Fin n)) (r : RoundState n),
      pids.foldlM (RoundState.updateRemoteState report graph mine) r = some r' →
      From (ToldBy report) r r' := by
    intro mine pids
    induction pids with
    | nil =>
      intro r h
      cases h
      exact refl
    | cons pid pids ih =>
      intro r h
      rw [List.foldlM_cons, Option.bind_eq_bind, Option.bind_eq_some_iff] at h
      obtain ⟨mid, hmid, hrest⟩ := h
      exact (updateRemoteState hmid).trans (ih mid hrest)
  exact hfold _ _ r h

theorem mentions (h : From P r r') (hr : Mentions K held r) (hP : ∀ v, P v → K v ∧ ∃ w, held w) :
    Mentions K held r' := by
  constructor
  · intro pid v hv
    rcases h pid v hv with ⟨q, hq⟩ | hp
    · exact hr.known q v hq
    · exact (hP v hp).1
  · intro pid v hv
    rcases h pid v hv with ⟨q, hq⟩ | hp
    · exact hr.held q v hq
    · exact (hP v hp).2

theorem kept (h : From (fun _ => False) r r') (hr : Mentions K held r) : Mentions K held r' :=
  h.mentions hr fun _ hf => hf.elim

end From

namespace Mentions

theorem mono (h : Mentions K held r) (hK : ∀ v, K v → K' v) (hheld : ∀ v, held v → held' v) :
    Mentions K' held' r :=
  ⟨fun pid v hv => hK v (h.known pid v hv), fun pid v hv => (h.held pid v hv).imp hheld⟩

theorem of_empty (h : ∀ pid, (r.nodeStates pid).v = none) : Mentions K held r := by
  constructor
  · intro pid v hv
    rw [h pid] at hv
    cases hv
  · intro pid v hv
    rw [h pid] at hv
    cases hv

theorem clear (r : RoundState n) : Mentions K held r.clear := of_empty fun _ => rfl

theorem highestVote (h : Mentions K held r) {round : Option (Fin n)} {v : Nat}
    (hv : r.highestVote = some (round, some v)) : K v := by
  have hfold : ∀ (pids : List (Fin n)) (best : Option (Fin n) × Option Nat),
      (∀ w, best.2 = some w → K w) →
      ∀ out, pids.foldlM (fun best pid =>
        if Census.compareRounds (r.nodeStates pid).paxosAcceptRound best.1 = .gt then
          if (r.nodeStates pid).v.isSome then
            some ((r.nodeStates pid).paxosAcceptRound, (r.nodeStates pid).v)
          else none
        else some best) best = some out → ∀ w, out.2 = some w → K w := by
    intro pids
    induction pids with
    | nil =>
      intro best hbest out hout
      cases hout
      exact hbest
    | cons pid pids ih =>
      intro best hbest out hout
      rw [List.foldlM_cons, Option.bind_eq_bind, Option.bind_eq_some_iff] at hout
      obtain ⟨mid, hmid, hrest⟩ := hout
      refine ih mid (fun w hw => ?_) out hrest
      split at hmid
      · split at hmid
        · cases hmid
          exact h.known pid w hw
        · cases hmid
      · cases hmid
        exact hbest w hw
  exact hfold _ _ (fun w hw => by cases hw) _ hv v rfl

theorem adoptAmong (h : Mentions K held r) {proposers : List (Fin n)} {v : Nat}
    (hv : r.adoptAmong graph proposers = some (some v)) : K v := by
  induction proposers with
  | nil => cases hv
  | cons proposer proposers ih =>
    simp only [RoundState.adoptAmong, Option.bind_eq_bind, Option.bind_eq_some_iff] at hv
    obtain ⟨w, hw, knowledge, -, survives, -, hv⟩ := hv
    split at hv
    · cases hv
      exact h.known proposer v hw
    · exact ih hv

theorem adopt (h : Mentions K held r) {v : Nat} (hv : r.adopt graph = some (some v)) : K v := by
  rw [RoundState.adopt] at hv
  split at hv
  · cases hv
  · cases hv
    exact h.highestVote ‹_›
  · exact h.adoptAmong hv

end Mentions

variable [NeZero n] {k : KCensusSettings n} {order : HashOrder n} {x : Watch n (RoundState n)}
  {s t : KCensusShard n}

def Watches (x : Watch n (RoundState n)) : Prop := x.mentions = Mentions

theorem orFail_harmless {α : Type} {o : Option α} {e : Panic} (h : orFail o = .error e) :
    Harmless e := by
  cases o with
  | none =>
    cases h
    exact failed_harmless
  | some a => cases h

theorem orFail_ok {α : Type} {o : Option α} {a : α} (h : orFail o = .ok a) : o = some a := by
  cases o with
  | none => cases h
  | some b =>
    cases h
    rfl

-- A value of the slot is at hand.
structure Backed (x : Watch n (RoundState n)) (s : KCensusShard n) (v : Nat) : Prop where
  knows : x.Knows s v
  mem : v ∈ s.queuedCommands

theorem Backed.within {v : Nat} (h : Backed x s v) (ht : x.Within s t) : Backed x t v :=
  ⟨ht.knows h.knows, (ht.frame.mem h.knows.1).2 h.mem⟩

theorem Backed.mentions {v : Nat} (h : Backed x s v) :
    ∀ w, w = v → x.Knows s w ∧ ∃ u, u ∈ s.queuedCommands := by
  rintro _ rfl
  exact ⟨h.knows, _, h.mem⟩

namespace Watches

theorem round (hx : Watches x) (h : x.Sound s) :
    Mentions (x.Knows s) (· ∈ s.queuedCommands) s.roundState := by
  have hr := h.round
  rw [hx] at hr
  exact hr

theorem within (hx : Watches x) (h : x.Sound s) {r : RoundState n}
    (hr : Mentions (x.Knows s) (· ∈ s.queuedCommands) r) :
    x.Within s { s with roundState := r } :=
  h.within_round (by rw [hx]; exact hr)

theorem changeRound (hx : Watches x) (h : x.Sound s) {g : RoundState n → RoundState n}
    (hg : Mentions (x.Knows s) (· ∈ s.queuedCommands) (g s.roundState)) :
    Meets (KCensusSettings.changeRound g) s (fun _ => x.Within s) (x.Fault s) := by
  rw [KCensusSettings.changeRound, Lib.Turn.meets_modify]
  exact hx.within h hg

theorem onRound (hx : Watches x) (h : x.Sound s) {g : RoundState n → Option (RoundState n)}
    (hg : ∀ r, g s.roundState = some r → Mentions (x.Knows s) (· ∈ s.queuedCommands) r) :
    Meets (Turn.onRound fun r => orFail (g r)) s (fun _ => x.Within s) (x.Fault s) := by
  rw [meets_onRound]
  exact ⟨fun r hr => hx.within h (hg r (orFail_ok hr)), fun e he =>
    (Within.refl h).fails (orFail_harmless he)⟩

theorem valueForMsg (h : x.Sound s) (msg : KCensusMsg n) :
    Meets (KCensusSettings.valueForMsg msg) s
      (fun value t => x.Within s t ∧ ∀ a, value = some a → Stored (x.Knows s) msg.getV a)
      (x.Fault s) := by
  refine Meets.get ?_
  split
  · split
    · refine ⟨.refl h, ?_⟩
      rintro _ ⟨⟩
      exact h.stored _ _ ‹_›
    · exact (Within.refl h).fails failed_harmless
  · exact ⟨.refl h, fun _ hn => by cases hn⟩

theorem tells_kcensusM {msg : KCensusMsg n} {src : Fin n} {lastV : Option Nat}
    {value : Option (CommandBatch n)} (hmsg : ConsensusMsg.Tells (x.Knows s) (.kcensusM msg))
    (hvalue : ∀ a, value = some a → Stored (x.Knows s) msg.getV a) :
    Packet.Tells (x.Knows s) ⟨⟨.kcensusM msg, src, lastV⟩, value⟩ :=
  ⟨hmsg, fun a ha => ⟨msg.getV, rfl, hvalue a ha⟩⟩

theorem sendTo (h : x.Sound s) {msg : KCensusMsg n} {dest : Fin n}
    (hmsg : ConsensusMsg.Tells (x.Knows s) (.kcensusM msg)) :
    Meets (k.sendTo x.me msg dest) s (fun _ => x.Within s) (x.Fault s) := by
  refine (Within.refl h).read (valueForMsg h msg) fun value t ht _ hvalue => ?_
  refine ht.finish (send_spec ht.sound (tells_kcensusM ?_ fun a ha => ?_))
  · exact hmsg.mono fun _ => ht.knows
  · exact (hvalue a ha).mono fun _ => ht.knows

theorem broadcastPaxosAccept (h : x.Sound s) {v : Nat} (hv : x.Knows s v) {newValue : Bool} :
    Meets (KCensusSettings.broadcastPaxosAccept x.me v newValue) s (fun _ => x.Within s)
      (x.Fault s) := by
  refine Meets.get ((Within.refl h).read (valueForMsg h _) fun value t ht _ hvalue => ?_)
  refine ht.finish (priorityBroadcast_spec ht.sound (tells_kcensusM ?_ fun a ha => ?_) nofun)
  · exact ht.knows hv
  · exact (hvalue a ha).mono fun _ => ht.knows

theorem commitSlot (hx : Watches x) {v : Nat} (h : x.Near v s t) (hs : x.Sound s)
    (hv : x.supplied → Holds s v) :
    Meets (KCensusSettings.commitSlot v) t (fun value => x.Handled s (some value)) (x.Fault s) := by
  refine advance_spec h hs hv fun r K held => ?_
  rw [hx]
  exact .clear r

theorem commitAndBroadcast (hx : Watches x) (h : x.Sound s) {v : Nat} {fast : Bool}
    (hk : x.Knows s v) (hv : Holds s v) :
    Meets (KCensusSettings.commitAndBroadcast x.me v fast) s
      (fun value => x.Handled s (some value)) (x.Fault s) := by
  refine Meets.get ((Within.refl h).check failed_harmless fun _ => ?_)
  simp only [priorityBroadcast, emit, Lib.Turn.meets_bind, Lib.Turn.meets_get,
    Lib.Turn.meets_modify]
  have hdecided := h.within_emit (e := .decided s.slot v fast) trivial fun _ hn => hn
  have hmsg : Packet.Tells (x.Knows s) ⟨⟨.commit s.slot v, x.me, s.lastV⟩, none⟩ :=
    ⟨hk, fun _ hn => by cases hn⟩
  refine hx.commitSlot (.after (hdecided.sound.near_emit
    (e := .broadcast ⟨⟨.commit s.slot v, x.me, s.lastV⟩, none⟩ (getRequester v)) hmsg ?_) hdecided) h
    fun _ => hv
  rintro slot u ⟨⟩
  exact ⟨rfl, fun _ => rfl⟩

theorem remoteStates_spec (hx : Watches x) (h : x.Sound s) (v : Nat) (proposer : Fin n) :
    Meets (lift fun s => KCensusSettings.remoteStates v proposer s.roundState) s
      (fun remote t => x.Within s t ∧ ∀ states, remote = some states → ∀ pid w,
        (states pid).v = some w → x.Knows s w)
      (x.Fault s) := by
  rw [meets_lift]
  refine ⟨fun remote hr => ⟨.refl h, ?_⟩, fun e he => (Within.refl h).fails ?_⟩
  · rintro states rfl pid w hw
    rw [KCensusSettings.remoteStates] at hr
    split at hr
    · split at hr
      · cases hr
        exact (hx.round h).known pid w hw
      · cases hr
    · cases hr
  · rw [KCensusSettings.remoteStates] at he
    split at he
    · split at he
      · cases he
      · cases he
        exact failed_harmless
    · cases he

theorem spreadOne (hx : Watches x) (h : x.Sound s) {v : Nat} (hv : x.Knows s v)
    {proposer : Fin n} {newValue valueOnly : Bool} {msgId : MessageId n} :
    Meets (k.spreadOne x.me v proposer newValue valueOnly msgId) s (fun _ => x.Within s)
      (x.Fault s) := by
  refine (Within.refl h).check failed_harmless fun _ => ?_
  dsimp only
  split
  · exact .refl h
  · refine (Within.refl h).check failed_harmless fun _ => ?_
    refine (Within.refl h).check failed_harmless fun _ => ?_
    split
    · refine sendTo h ?_
      exact hv
    · refine Meets.get ((Within.refl h).read (hx.remoteStates_spec h v proposer) ?_)
      intro remote t ht _ hr
      refine ht.finish (sendTo ht.sound ⟨ht.knows hv, fun states hs pid w hw => ?_⟩)
      exact ht.knows (hr states hs pid w hw)

theorem spreadAll (hx : Watches x) (msgIds : List (MessageId n)) (h : x.Sound s) {v : Nat}
    (hv : x.Knows s v) {proposer : Fin n} {newValue valueOnly : Bool} :
    Meets (k.spreadAll x.me v proposer newValue valueOnly msgIds) s (fun _ => x.Within s)
      (x.Fault s) := by
  induction msgIds generalizing s with
  | nil => exact .refl h
  | cons msgId msgIds ih =>
    exact (Within.refl h).step (hx.spreadOne h hv) fun _ t ht _ =>
      ht.finish (ih ht.sound (ht.knows hv))

theorem innerSpread (hx : Watches x) (h : x.Sound s) {v : Nat} (hv : x.Knows s v)
    {proposer : Fin n} {stateId : Nat} {newValue valueOnly : Bool} :
    Meets (k.innerSpread x.me v proposer stateId newValue valueOnly) s (fun _ => x.Within s)
      (x.Fault s) :=
  (Within.refl h).lift (fun _ he => orFail_harmless he) fun msgIds _ => hx.spreadAll msgIds h hv

theorem tryAccept (hx : Watches x) (h : x.Sound s) {v : Nat} (hv : Backed x s v)
    {proposer : Fin n} :
    Meets (k.tryAccept v proposer) s (fun _ => x.Within s) (x.Fault s) := by
  refine (Within.refl h).lift (fun _ he => orFail_harmless he) fun a ha => ?_
  obtain ⟨r, accepted⟩ := a
  refine (Within.refl h).step (hx.changeRound h ?_) fun _ t ht _ => ht
  exact (From.tryAccept (orFail_ok ha)).mentions (hx.round h) hv.mentions

theorem proposeAndSpread (hx : Watches x) (h : x.Sound s) {v : Nat} (hv : Backed x s v)
    {newValue : Bool} :
    Meets (k.proposeAndSpread x.me v newValue) s (fun _ => x.Within s) (x.Fault s) := by
  refine (Within.refl h).step (hx.tryAccept h hv) fun _ t ht _ => ?_
  exact ht.check failed_harmless fun _ =>
    ht.finish (hx.innerSpread ht.sound (ht.knows hv.knows))

theorem graphSpreadValueOnly (hx : Watches x) (h : x.Sound s) {v : Nat} (hv : x.Knows s v)
    {msgId : MessageId n} :
    Meets (k.graphSpreadValueOnly x.me msgId v) s (fun _ => x.Within s) (x.Fault s) := by
  refine Meets.get ?_
  split
  · exact hx.innerSpread h hv
  · exact .refl h

theorem followSchedule (hx : Watches x) (states : List (Nat × KnowledgeState n)) (h : x.Sound s)
    {v : Nat} (hv : x.Knows s v) {proposer : Fin n} {newValue conflict : Bool} :
    Meets (k.followSchedule x.me v proposer newValue conflict states) s (fun _ => x.Within s)
      (x.Fault s) := by
  induction states generalizing s with
  | nil => exact .refl h
  | cons state states ih =>
    refine Meets.get ?_
    split
    · have hkeep : From (fun _ => False) s.roundState
          (s.roundState.setPropagationState proposer state.1) := From.same rfl
      refine (Within.refl h).step (hx.changeRound h (hkeep.kept (hx.round h))) fun _ t ht _ => ?_
      have hrest : ∀ u, x.Within s u → Meets (do
          k.spread x.me v proposer state.1 newValue
          k.followSchedule x.me v proposer newValue conflict states) u (fun _ => x.Within s)
          (x.Fault s) := by
        intro u hu
        refine hu.step (hx.innerSpread hu.sound (hu.knows hv)) fun _ w hw _ => ?_
        exact hw.finish (ih hw.sound (hw.knows hv))
      split
      · exact hrest t ht
      · refine ht.step (hx.onRound ht.sound fun r hr => ?_) fun _ u hu _ => hrest u hu
        exact (From.updateKState hr).kept (hx.round ht.sound)
    · exact .refl h

theorem adopted (hx : Watches x) (h : x.Sound s) {v : Nat} (hv : x.Knows s v) :
    Meets (k.adopted order v) s (fun a t => x.Within s t ∧ x.Knows t a.1) (x.Fault s) := by
  refine (Within.refl h).lift (fun _ he => orFail_harmless he) fun a ha => ?_
  split
  · exact ⟨.refl h, (hx.round h).adopt (orFail_ok ha)⟩
  · refine Meets.get ?_
    split
    · refine (Within.refl h).read (storeNewCommand_spec h (newBatch_proposable h ‹_›)) ?_
      exact fun w t ht _ hw => ⟨ht, hw.1⟩
    · exact ⟨.refl h, hv⟩

theorem fallBack (hx : Watches x) (h : x.Sound s) {v : Nat} (hv : Backed x s v) {conflict : Bool} :
    Meets (k.fallBack x.me order v conflict) s (fun _ => x.Within s) (x.Fault s) := by
  refine Meets.get ?_
  split
  · refine (Within.refl h).check failed_harmless fun _ => ?_
    refine (Within.refl h).check failed_harmless fun _ => ?_
    split
    · refine (Within.refl h).read (hx.adopted h hv.knows) fun a t ht _ ha => ?_
      obtain ⟨w, newValue⟩ := a
      refine ht.step (broadcastPaxosAccept ht.sound ha) fun _ u hu htu => ?_
      refine hu.finish (hx.changeRound hu.sound ?_)
      refine (From.paxosAccept x.me).mentions (hx.round hu.sound) fun w' hw' => ?_
      subst hw'
      exact ⟨htu.knows ha, v, (hv.within hu).mem⟩
    · exact .refl h
  · exact .refl h

theorem settleConflict (hx : Watches x) (h : x.Sound s) {explicit : Bool} :
    Meets (KCensusSettings.settleConflict explicit) s (fun _ => x.Within s) (x.Fault s) := by
  refine Meets.get ?_
  split
  · refine (Within.refl h).step (leaveFastPath_spec h) fun _ t ht _ => ?_
    refine ht.step (hx.changeRound ht.sound ?_) fun _ u hu _ => hu
    exact From.freezeAndPrepareForLeaders.kept (hx.round ht.sound)
  · exact (Within.refl h).check (fun _ hn => (by cases hn)) fun _ => .refl h

theorem absorb (hx : Watches x) (h : x.Sound s) {report : Report n} (hv : Backed x s report.v)
    (hreport : ∀ states, report.remoteStates = some states → ∀ pid w,
      (states pid).v = some w → x.Knows s w) :
    Meets (k.absorb report) s (fun _ => x.Within s) (x.Fault s) := by
  refine Meets.get ((Within.refl h).step (hx.onRound h fun r hr => ?_) fun _ t ht _ => ?_)
  · refine (From.updateRemoteStates hr).mentions (hx.round h) fun w hw => ?_
    refine ⟨?_, report.v, hv.mem⟩
    rcases hw with rfl | ⟨states, pid, hs, hw⟩
    · exact hv.knows
    · exact hreport states hs pid w hw
  · refine ht.step (hx.tryAccept ht.sound (hv.within ht)) fun accepted u hu _ => ?_
    exact hu.check failed_harmless fun _ => hu.finish (hx.settleConflict hu.sound)

theorem committing (hx : Watches x) (h : x.Within s t) (hs : x.Sound s) {v : Nat} {fast : Bool}
    (hk : x.Knows s v) (hv : Holds s v) :
    Meets (do
      let value ← KCensusSettings.commitAndBroadcast x.me v fast
      return some value) t (x.Handled s) (x.Fault s) := by
  rw [Lib.Turn.meets_bind]
  exact (hx.commitAndBroadcast h.sound (h.knows hk) (h.frame.holds hs hv)).mono
    (fun _ _ hu => h.handled hu) fun _ _ => h.fault

theorem onSpread (hx : Watches x) (h : x.Sound s) {report : Report n} (hk : x.Knows s report.v)
    (hv : Holds s report.v) (hreport : ∀ states, report.remoteStates = some states → ∀ pid w,
      (states pid).v = some w → x.Knows s w) {newValue : Bool} :
    Meets (k.onSpread x.me order report newValue) s (x.Handled s) (x.Fault s) := by
  have hbacked : Backed x s report.v := by
    obtain ⟨value, hvalue, -⟩ := hv
    exact ⟨hk, Lib.HashMap.mem_of_lookup hvalue⟩
  refine (Within.refl h).step (hx.absorb h hbacked hreport) fun conflict t ht _ => ?_
  refine ht.step (hx.onRound ht.sound fun r hr => ?_) fun _ u hu _ => Meets.get ?_
  · refine From.kept (From.same ?_) (hx.round ht.sound)
    rw [RoundState.receiveMsg] at hr
    split at hr
    · cases hr
    · cases hr
      rfl
  · refine hu.step (hx.followSchedule _ hu.sound (hu.knows hk)) fun final w hw _ => ?_
    split
    · exact hx.committing hw h hk hv
    · exact hw.step (hx.fallBack hw.sound (hbacked.within hw)) fun _ _ hz _ => hz.nothing

theorem onPaxosAccept (hx : Watches x) (h : x.Sound s) {src leader : Fin n} {v : Nat}
    (hk : x.Knows s v) (hv : Holds s v) :
    Meets (k.onPaxosAccept x.me src leader v) s (x.Handled s) (x.Fault s) := by
  have hbacked : Backed x s v := by
    obtain ⟨value, hvalue, -⟩ := hv
    exact ⟨hk, Lib.HashMap.mem_of_lookup hvalue⟩
  refine (Within.refl h).step (leaveFastPath_spec h) fun _ t ht _ => ?_
  refine ht.step (hx.changeRound ht.sound ?_) fun _ u hu _ => Meets.get ?_
  · exact (From.freezeAndPrepareFor leader).kept (hx.round ht.sound)
  · have hmine := (hbacked.within hu).mentions
    split
    · exact hu.nothing
    · split
      · refine hu.check failed_harmless fun _ => ?_
        refine hu.step (hx.changeRound hu.sound ?_) fun _ w hw _ => ?_
        · exact (From.paxosAccept leader).mentions (hx.round hu.sound) hmine
        · refine hw.step (sendTo hw.sound ?_) fun _ _ hz _ => hz.nothing
          exact hw.knows hk
      · refine hu.step (hx.changeRound hu.sound ?_) fun _ w hw _ => Meets.get ?_
        · exact (From.recvPaxosAccept src).mentions (hx.round hu.sound) hmine
        · split
          · exact hx.committing hw h hk hv
          · exact hw.nothing

omit [NeZero n] in
-- Here a message of the current slot never goes without its payload.
theorem holds_of_ready {msg : KCensusMsg n} {src : Fin n} {lastV : Option Nat}
    (hready : s.readyToProcess x.me ⟨.kcensusM msg, src, lastV⟩ = .ok true)
    (hslot : msg.getSlot = some s.slot) : Holds s msg.getV := by
  rcases ready_cases hready with ⟨-, hvalue | ⟨-, hled⟩⟩ | hlow
  · exact holds_of_valueReady hvalue rfl
  · cases hled
  · exact absurd (hlow s.slot hslot) (lt_irrefl _)

omit [NeZero n] in
theorem slot_of_ready {msg : KCensusMsg n} {src : Fin n} {lastV : Option Nat}
    (hready : s.readyToProcess x.me ⟨.kcensusM msg, src, lastV⟩ = .ok true) {slot : Nat}
    (hslot : msg.getSlot = some slot) (hge : ¬ slot < s.slot) : slot = s.slot := by
  rcases ready_cases hready with ⟨hsame, -⟩ | hlow
  · exact Option.some.inj (hslot.symm.trans hsame)
  · exact absurd (hlow slot hslot) hge

theorem onMsg (hx : Watches x) (h : x.Sound s) {msg : KCensusMsg n} {src : Fin n}
    {lastV : Option Nat} (hmsg : ConsensusMsg.Tells (x.Knows s) (.kcensusM msg))
    (hready : s.readyToProcess x.me ⟨.kcensusM msg, src, lastV⟩ = .ok true) :
    Meets (k.onMsg x.me order src msg) s (x.Handled s) (x.Fault s) := by
  refine Meets.get ?_
  cases msg with
  | spread slot v msgId remoteStates withValue newValue =>
    dsimp only
    split
    · split
      · refine (Within.refl h).check failed_harmless fun _ => ?_
        exact (Within.refl h).step (hx.graphSpreadValueOnly h hmsg.1) fun _ t ht _ => ht.nothing
      · exact (Within.refl h).nothing
    · rename_i hslot
      have hsame := slot_of_ready hready rfl hslot
      refine (Within.refl h).check failed_harmless fun _ => ?_
      exact hx.onSpread h hmsg.1 (holds_of_ready hready (congrArg some hsame)) hmsg.2
  | spreadValueOnly v msgId =>
    exact (Within.refl h).step (hx.graphSpreadValueOnly h hmsg) fun _ t ht _ => ht.nothing
  | paxosAccept slot leader v newValue =>
    dsimp only
    split
    · exact (Within.refl h).nothing
    · rename_i hslot
      have hsame := slot_of_ready hready rfl fun hlt => hslot (Or.inl hlt)
      exact hx.onPaxosAccept h hmsg (holds_of_ready hready (congrArg some hsame))

theorem proposeStart (hx : Watches x) (h : x.Sound s) {value : CommandBatch n}
    (hvalue : Proposable (x.Knows s) value) {contention : Bool} :
    Meets (k.proposeStart x.me value contention) s (fun _ => x.Within s) (x.Fault s) := by
  refine (Within.refl h).read (storeNewCommand_spec h hvalue) fun v t ht _ hv => ?_
  split
  · exact ht.finish (hx.innerSpread ht.sound hv.1)
  · exact ht.finish (hx.proposeAndSpread ht.sound ⟨hv.1, Lib.HashMap.mem_of_lookup hv.2⟩)

theorem lawful (hx : Watches x) :
    Lawful x k.cluster (fun _ => none) (k.algorithm x.me order) where
  processMessage {s msg} h hmsg hready _ := by
    obtain ⟨msg, src, lastV⟩ := msg
    cases msg with
    | kcensusM msg => exact hx.onMsg h hmsg hready
    | _ => exact (Within.refl h).fails failed_harmless
  commitSlot h hv := hx.commitSlot ((Within.refl h).near _) h fun _ => hv
  proposeStart h hvalue := hx.proposeStart h hvalue
  reproposeStart h hv := by
    obtain ⟨value, hvalue⟩ := Lib.HashMap.exists_lookup hv
    exact hx.proposeAndSpread h ⟨(h.stored _ value hvalue).uid, hv⟩
  shouldLead he := nomatch he
  rests h hs K held := by
    simp only [ConsensusShard.canSleep, hasQueuedCommands, Bool.and_eq_true, Bool.not_eq_true',
      Bool.not_eq_false', Lib.HashMap.isEmpty_iff] at hs
    rw [hx]
    refine .of_empty fun pid => Option.eq_none_iff_forall_ne_some.2 fun v hv => ?_
    obtain ⟨w, hw⟩ := (hx.round h).held pid v hv
    rw [hs.1.1.1.2] at hw
    exact absurd hw (AList.notMem_empty w)

end Watches

end KCensusSettings

end KCensus.Slots

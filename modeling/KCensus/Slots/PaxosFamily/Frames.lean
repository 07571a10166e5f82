import KCensus.Slots.Turns
import KCensus.Slots.PaxosFamily.Shard

namespace KCensus.Slots

open Lib.Turn (Meets)
open Turn Watch ConsensusShard

variable {n : Nat} {K K' : Nat → Prop}

namespace PaxosFamily

variable {f : PaxosFamily n} {me src : Fin n} {r r' : PaxosFamilyRoundState n}

-- The uids of a round state.
structure Told (f : PaxosFamily n) (K : Nat → Prop) (r : PaxosFamilyRoundState n) : Prop where
  value : ∀ v, r.getV = some v → K v
  answers : f.mode.isSwift = false → ∀ p v, r.fastProposerToV.lookup p = some v → K v

-- Outside SwiftPaxos an idle round has no answers left.
structure Mentions (f : PaxosFamily n) (K : Nat → Prop) (r : PaxosFamilyRoundState n) : Prop
    extends Told f K r where
  rest : f.mode.isSwift = false → r.maxRv = none → r.fastProposerToV = ∅

namespace Told

theorem setMaxRv (h : f.Told K r) {rv : RoundV n} (hrv : K rv.getV) (hmax : r'.maxRv = some rv)
    (hsame : r'.fastProposerToV = r.fastProposerToV) : f.Mentions K r' := by
  refine ⟨⟨fun v hv => ?_, fun hs p v hv => h.answers hs p v (hsame ▸ hv)⟩, fun _ hn => ?_⟩
  · rw [PaxosFamilyRoundState.getV, hmax] at hv
    exact Option.some.inj hv ▸ hrv
  · rw [hmax] at hn
    cases hn

theorem receivePromise (h : f.Told K r) {rv : RoundV n} (hrv : K rv.getV) :
    f.Mentions K (r.receivePromise f.cluster me src rv) := by
  rw [PaxosFamilyRoundState.receivePromise]
  split
  · exact h.setMaxRv hrv rfl rfl
  · rename_i hmax
    obtain ⟨old, hold⟩ := Option.ne_none_iff_exists'.1 fun hn => hmax (Or.inl hn)
    exact h.setMaxRv (h.value _ (Option.map_eq_some_iff.2 ⟨old, hold, rfl⟩)) hold rfl

theorem epaxosAnswered (h : f.Told K r) {proposer : Fin n} {v : Nat} (hv : K v)
    (hr : r.epaxosAnswered me src proposer v = .ok r') : f.Told K r' ∧ r'.maxRv = r.maxRv := by
  rw [PaxosFamilyRoundState.epaxosAnswered] at hr
  split at hr
  · cases hr
    refine ⟨⟨h.value, fun hs p w hw => ?_⟩, rfl⟩
    rcases eq_or_ne p proposer with rfl | hne
    · rw [AList.lookup_insert] at hw
      exact Option.some.inj hw ▸ hv
    · rw [AList.lookup_insert_ne hne] at hw
      exact h.answers hs p w hw
  · split at hr
    · cases hr
    · cases hr
      exact ⟨h, rfl⟩

end Told

namespace Mentions

theorem mono (h : f.Mentions K r) (hK : ∀ v, K v → K' v) : f.Mentions K' r :=
  ⟨⟨fun v hv => hK v (h.value v hv), fun hs p v hv => hK v (h.answers hs p v hv)⟩, h.rest⟩

theorem of_idle (h : f.Mentions K r) (hr : r.getV = none) : f.Mentions K' r := by
  have hmax : r.maxRv = none := Option.map_eq_none_iff.1 hr
  refine ⟨⟨fun v hv => ?_, fun hs p v hv => ?_⟩, h.rest⟩
  · rw [hr] at hv
    cases hv
  · rw [h.rest hs hmax, AList.lookup_empty] at hv
    cases hv

theorem gotoRound (h : f.Mentions K r) (round : WithBot (PaxosRound n)) :
    f.Mentions K (r.gotoRound round) := ⟨⟨h.value, h.answers⟩, h.rest⟩

theorem fullClear (r : PaxosFamilyRoundState n) : f.Mentions K r.fullClear :=
  ⟨⟨nofun, nofun⟩, fun _ _ => rfl⟩

theorem receiveAccept (h : f.Mentions K r) {round : PaxosRound n} {v : Nat} (hv : K v)
    (hr : r.receiveAccept f.cluster me src round v = .ok r') : f.Mentions K r' := by
  rw [PaxosFamilyRoundState.receiveAccept] at hr
  split at hr
  · cases hr
    exact h.toTold.setMaxRv (show K (RoundV.paxosV (round : WithBot _) v).getV from hv) rfl rfl
  · cases hr

theorem selfAccept (h : f.Mentions K r) {round : PaxosRound n}
    (hr : r.selfAccept f.cluster me round = .ok r') : f.Mentions K r' := by
  rw [PaxosFamilyRoundState.selfAccept] at hr
  split at hr
  · split at hr
    · exact h.receiveAccept (h.value _ ‹_›) hr
    · cases hr
  · cases hr

theorem adoptFromEpaxos (h : f.Mentions K r) {v : Nat} (hv : K v) :
    f.Mentions K (r.adoptFromEpaxos v) :=
  h.toTold.setMaxRv (show K (RoundV.paxosV ⊥ v : RoundV n).getV from hv) rfl rfl

theorem epaxosAnswered (h : f.Mentions K r) {proposer : Fin n} {v : Nat} (hv : K v)
    (hmax : r.maxRv ≠ none) (hr : r.epaxosAnswered me src proposer v = .ok r') :
    f.Mentions K r' := by
  obtain ⟨htold, hsame⟩ := h.toTold.epaxosAnswered hv hr
  exact ⟨htold, fun _ hn => absurd (hsame ▸ hn) hmax⟩

theorem of_swift (h : f.Mentions K r) (hs : f.mode.isSwift = true) (hmax : r'.maxRv = r.maxRv) :
    f.Mentions K r' := by
  refine ⟨⟨fun v hv => h.value v ?_, fun hn => ?_⟩, fun hn => ?_⟩
  · rw [PaxosFamilyRoundState.getV, ← hmax]
    exact hv
  · rw [hs] at hn
    cases hn
  · rw [hs] at hn
    cases hn

theorem swiftAnswered (h : f.Mentions K r) (hs : f.mode.isSwift = true) {proposer : Fin n} {v : Nat}
    {quorum : Option (Finset (Fin n))} {leader : Bool}
    (hr : r.swiftAnswered me src proposer v quorum leader = .ok r') : f.Mentions K r' := by
  rw [PaxosFamilyRoundState.swiftAnswered] at hr
  refine h.of_swift hs ?_
  repeat' split at hr
  all_goals cases hr
  all_goals rfl

theorem swiftProposeV (h : f.Mentions K r) (hs : f.mode.isSwift = true) {v : Nat}
    {quorum : Option (Finset (Fin n))} {leader : Bool}
    (hr : r.swiftProposeV f.cluster me v quorum leader = .ok r') : f.Mentions K r' := by
  rw [PaxosFamilyRoundState.swiftProposeV] at hr
  split at hr
  · exact h.swiftAnswered hs hr
  · cases hr
    exact h

theorem foldl_consider {best : Nat × Option Nat}
    (hbest : ∀ v, best.2 = some v → ∃ p, r.fastProposerToV.lookup p = some v) (ps : List (Fin n)) :
    ∀ v, (ps.foldl (PaxosFamilyRoundState.consider r) best).2 = some v →
      ∃ p, r.fastProposerToV.lookup p = some v := by
  induction ps generalizing best with
  | nil => exact hbest
  | cons p ps ih =>
    refine ih fun v hv => ?_
    rw [PaxosFamilyRoundState.consider] at hv
    split at hv
    · exact ⟨p, hv⟩
    · exact hbest v hv

theorem epaxosTryAdopt (h : f.Mentions K r) (hs : f.mode.isSwift = false) {order : HashOrder n}
    {v : Nat} (hv : r.epaxosTryAdopt f.cluster order = some v) : K v := by
  rw [PaxosFamilyRoundState.epaxosTryAdopt] at hv
  split at hv
  · cases hv
  · split at hv
    · cases hv
    · obtain ⟨p, hp⟩ := foldl_consider (fun _ hn => by cases hn) _ v hv
      exact h.answers hs p v hp

end Mentions

theorem receiveAccept_harmless {round : PaxosRound n} {v : Nat} {e : Panic}
    (h : r.receiveAccept f.cluster me src round v = .error e) : Harmless e := by
  rw [PaxosFamilyRoundState.receiveAccept] at h
  split at h
  · cases h
  · cases h
    exact failed_harmless

theorem selfAccept_harmless {round : PaxosRound n} {e : Panic}
    (h : r.selfAccept f.cluster me round = .error e) : Harmless e := by
  rw [PaxosFamilyRoundState.selfAccept] at h
  split at h
  · split at h
    · exact receiveAccept_harmless h
    · cases h
      exact failed_harmless
  · cases h
    exact failed_harmless

theorem epaxosAnswered_harmless {proposer : Fin n} {v : Nat} {e : Panic}
    (h : r.epaxosAnswered me src proposer v = .error e) : Harmless e := by
  rw [PaxosFamilyRoundState.epaxosAnswered] at h
  repeat' split at h
  all_goals cases h
  exact failed_harmless

theorem swiftAnswered_harmless {proposer : Fin n} {v : Nat} {quorum : Option (Finset (Fin n))}
    {leader : Bool} {e : Panic} (h : r.swiftAnswered me src proposer v quorum leader = .error e) :
    Harmless e := by
  rw [PaxosFamilyRoundState.swiftAnswered] at h
  repeat' split at h
  all_goals cases h
  all_goals exact failed_harmless

theorem swiftProposeV_harmless {v : Nat} {quorum : Option (Finset (Fin n))} {leader : Bool}
    {e : Panic} (h : r.swiftProposeV f.cluster me v quorum leader = .error e) : Harmless e := by
  rw [PaxosFamilyRoundState.swiftProposeV] at h
  split at h
  · exact swiftAnswered_harmless h
  · cases h

variable [NeZero n] {order : HashOrder n} {x : Watch n (PaxosFamilyRoundState n)}
  {s t : PaxosFamilyShard n}

-- In EPaxos that a fast decision is for the value of the round state takes the other processes.
def Watches (f : PaxosFamily n) (x : Watch n (PaxosFamilyRoundState n)) : Prop :=
  (x.mentions = fun K _ => f.Mentions K) ∧ (x.named → f.mode ≠ .ePaxos)

def SameValue (s t : PaxosFamilyShard n) : Prop := t.roundState.getV = s.roundState.getV

omit [NeZero n] in
instance : IsPreorder (PaxosFamilyShard n) SameValue where
  refl _ := rfl
  trans _ _ _ h h' := h'.trans h

omit [NeZero n] in
theorem sendMsg_sameValue {msg : PaxosMsg n} {dest : Fin n} :
    Lib.Turn.Along SameValue (f.sendMsg me msg dest) s := by
  rw [PaxosFamily.sendMsg, Turn.send]
  exact Meets.get (Lib.Turn.Along.bind .check fun _ t _ => Lib.Turn.meets_modify.2 rfl)

theorem answerAccept_sameValue : Lib.Turn.Along SameValue (f.answerAccept me) s := by
  refine Meets.get (Lib.Turn.Along.bind (meets_lift.2 ⟨fun _ _ => rfl, fun _ _ => rfl⟩)
    fun round t _ => Lib.Turn.Along.bind (meets_lift.2 ⟨fun _ _ => rfl, fun _ _ => rfl⟩)
      fun v u _ => ?_)
  split
  · exact .bind sendMsg_sameValue fun _ _ _ => sendMsg_sameValue
  · exact sendMsg_sameValue

omit [NeZero n] in
theorem castVote_sameValue {round : PaxosRound n} {v : Nat} :
    Lib.Turn.Along SameValue (f.castVote me round v) s := by
  refine Meets.get ?_
  split
  · exact Lib.Turn.meets_modify.2 rfl
  · exact Lib.Turn.Along.pure ()

omit [NeZero n] in
theorem leaveFastPath_sameValue :
    Lib.Turn.Along SameValue (leaveFastPath : PFTurn n Unit) s := Lib.Turn.meets_modify.2 rfl

theorem Within.keep {α β : Type} {m : PFTurn n α} {g : α → PFTurn n β}
    {Q : β → PaxosFamilyShard n → Prop} (h : x.Within s t)
    (hm : Meets m t (fun _ => x.Within t) (x.Fault t)) (hsame : Lib.Turn.Along SameValue m t)
    (hf : ∀ a u, x.Within s u → x.Within t u → SameValue t u → Meets (g a) u Q (x.Fault s)) :
    Meets (m >>= g) t Q (x.Fault s) :=
  h.read ((Meets.and hm hsame).mono (fun _ _ => id) fun _ _ he => he.1) hf

namespace Watches

theorem round (hx : f.Watches x) (h : x.Sound s) : f.Mentions (x.Knows s) s.roundState := by
  have hr := h.round
  rw [hx.1] at hr
  exact hr

theorem within (hx : f.Watches x) (h : x.Sound s) {r : PaxosFamilyRoundState n}
    (hr : f.Mentions (x.Knows s) r) : x.Within s { s with roundState := r } :=
  h.within_round (by rw [hx.1]; exact hr)

theorem changeRound (hx : f.Watches x) (h : x.Sound s)
    {g : PaxosFamilyRoundState n → PaxosFamilyRoundState n}
    (hg : f.Mentions (x.Knows s) (g s.roundState)) :
    Meets (PaxosFamily.changeRound g) s
      (fun _ t => x.Within s t ∧ t.roundState = g s.roundState) (x.Fault s) := by
  rw [PaxosFamily.changeRound, Lib.Turn.meets_modify]
  exact ⟨hx.within h hg, rfl⟩

theorem onRound (hx : f.Watches x) (h : x.Sound s)
    {g : PaxosFamilyRoundState n → Except Panic (PaxosFamilyRoundState n)}
    (hg : ∀ r, g s.roundState = .ok r → f.Mentions (x.Knows s) r)
    (he : ∀ e, g s.roundState = .error e → Harmless e) :
    Meets (Turn.onRound g) s (fun _ t => x.Within s t ∧ g s.roundState = .ok t.roundState)
      (x.Fault s) := by
  rw [meets_onRound]
  exact ⟨fun r hr => ⟨hx.within h (hg r hr), hr⟩, fun e hge => (Within.refl h).fails (he e hge)⟩

omit [NeZero n] in
theorem valueOf_harmless {e : Panic} (h : PaxosFamily.valueOf s = .error e) : Harmless e := by
  rw [PaxosFamily.valueOf] at h
  split at h
  · cases h
  · cases h
    exact failed_harmless

theorem valueOf (hx : f.Watches x) (h : x.Sound s) :
    Meets (Turn.lift PaxosFamily.valueOf) s (fun v t => x.Within s t ∧ x.Knows s v)
      (x.Fault s) := by
  rw [meets_lift]
  exact ⟨fun v hv => ⟨.refl h, (hx.round h).value _ (value_of_ok hv)⟩,
    fun e he => (Within.refl h).fails (valueOf_harmless he)⟩

theorem rvOf (hx : f.Watches x) (h : x.Sound s) :
    Meets (Turn.lift PaxosFamily.rvOf) s (fun rv t => x.Within s t ∧ x.Knows s rv.getV)
      (x.Fault s) := by
  rw [meets_lift]
  refine ⟨fun rv hrv => ⟨.refl h, (hx.round h).value _ ?_⟩, fun e he => (Within.refl h).fails ?_⟩
  · rw [PaxosFamily.rvOf] at hrv
    split at hrv
    · cases hrv
      exact Option.map_eq_some_iff.2 ⟨_, ‹_›, rfl⟩
    · cases hrv
  · rw [PaxosFamily.rvOf] at he
    split at he
    · cases he
    · cases he
      exact failed_harmless

theorem roundOf (h : x.Sound s) :
    Meets (Turn.lift PaxosFamily.roundOf) s (fun _ => x.Within s) (x.Fault s) := by
  rw [meets_lift]
  refine ⟨fun _ _ => .refl h, fun e he => (Within.refl h).fails ?_⟩
  rw [PaxosFamily.roundOf] at he
  split at he
  · cases he
  · cases he
    exact failed_harmless

theorem sendMsg (h : x.Sound s) {msg : PaxosMsg n} (hmsg : x.Knows s msg.getV) {dest : Fin n} :
    Meets (f.sendMsg x.me msg dest) s (fun _ => x.Within s) (x.Fault s) :=
  send_spec h ⟨hmsg, nofun⟩

theorem broadcastMsg (h : x.Sound s) {msg : PaxosMsg n} (hmsg : x.Knows s msg.getV)
    {withValue : Bool} :
    Meets (PaxosFamily.broadcastMsg x.me msg withValue) s (fun _ => x.Within s) (x.Fault s) := by
  refine Meets.get ?_
  split
  · split
    · exact priorityBroadcast_spec h ⟨hmsg, fun value hv => ⟨msg.getV, rfl, Option.some.inj hv ▸
        h.stored _ _ ‹_›⟩⟩ fun _ _ ha => by cases ha
    · exact (Within.refl h).fails failed_harmless
  · exact priorityBroadcast_spec h ⟨hmsg, fun _ hn => by cases hn⟩ fun _ _ ha => by cases ha

theorem answerPrepare (hx : f.Watches x) (h : x.Sound s) {dest : Fin n} :
    Meets (f.answerPrepare x.me dest) s (fun _ => x.Within s) (x.Fault s) := by
  refine Meets.get ((Within.refl h).step (roundOf h) fun round t ht _ => ?_)
  refine ht.read (hx.rvOf ht.sound) fun rv u hu hut hrv => ?_
  refine hu.finish (sendMsg hu.sound ?_)
  exact hut.knows hrv

theorem broadcastAccept (hx : f.Watches x) (h : x.Sound s) :
    Meets (f.broadcastAccept x.me) s (fun _ => x.Within s) (x.Fault s) := by
  have main : ∀ t, x.Within s t → Meets (do
      let s ← get
      let round ← Turn.lift PaxosFamily.roundOf
      let v ← Turn.lift PaxosFamily.valueOf
      PaxosFamily.broadcastMsg x.me (.accept s.slot round v) false) t (fun _ => x.Within s)
      (x.Fault s) := by
    intro t ht
    refine Meets.get (ht.step (roundOf ht.sound) fun round u hu _ => ?_)
    refine hu.read (hx.valueOf hu.sound) fun v w hw hwu hv => ?_
    refine hw.finish (broadcastMsg hw.sound ?_)
    exact hwu.knows hv
  rw [PaxosFamily.broadcastAccept]
  split
  · exact main s (.refl h)
  · exact (Within.refl h).step (leaveFastPath_spec h) fun _ t ht _ => main t ht

theorem answerAccept (hx : f.Watches x) (h : x.Sound s) :
    Meets (f.answerAccept x.me) s (fun _ => x.Within s) (x.Fault s) := by
  refine Meets.get ((Within.refl h).step (roundOf h) fun round t ht _ => ?_)
  refine ht.read (hx.valueOf ht.sound) fun v u hu hut hv => ?_
  have hknown : x.Knows u (PaxosMsg.accept s.slot round v).getV := hut.knows hv
  split
  · refine hu.step (sendMsg hu.sound hknown) fun _ w hw huw => ?_
    exact hw.finish (sendMsg hw.sound (huw.knows hknown))
  · exact hu.finish (sendMsg hu.sound hknown)

theorem castVote (h : x.Sound s) {round : PaxosRound n} {v : Nat} :
    Meets (f.castVote x.me round v) s (fun _ => x.Within s) (x.Fault s) := by
  refine Meets.get ?_
  split
  · rw [emit, Lib.Turn.meets_modify]
    exact h.within_emit trivial fun _ => id
  · exact .refl h

theorem acceptFrom (hx : f.Watches x) (h : x.Sound s) {round : PaxosRound n} {v : Nat}
    (hv : x.Knows s v) :
    Meets (f.acceptFrom x.me src round v) s
      (fun _ t => x.Within s t ∧ t.roundState.getV = some v) (x.Fault s) := by
  refine (Within.refl h).read (hx.onRound h ?_ ?_) fun _ t ht _ hr => ?_
  · exact fun r hr => (hx.round h).receiveAccept hv hr
  · exact fun e he => receiveAccept_harmless he
  · refine ((castVote ht.sound).and castVote_sameValue).mono (fun _ u hu => ⟨ht.trans hu.1, ?_⟩)
      fun _ _ hu => ht.fault hu.1
    exact hu.2.trans (PaxosFamilyRoundState.receiveAccept_getV hr).2

theorem acceptMine (hx : f.Watches x) (h : x.Sound s) {round : PaxosRound n} :
    Meets (f.acceptMine x.me round) s (fun _ => x.Within s) (x.Fault s) := by
  refine (Within.refl h).read (hx.onRound h ?_ ?_) fun _ t ht _ _ => ?_
  · exact fun r hr => (hx.round h).selfAccept hr
  · exact fun e he => selfAccept_harmless he
  · exact ht.read (hx.valueOf ht.sound) fun v u hu _ _ => hu.finish (castVote hu.sound)

theorem acceptPhase (hx : f.Watches x) (h : x.Sound s) {round : PaxosRound n} :
    Meets (f.acceptPhase x.me round) s (fun _ => x.Within s) (x.Fault s) :=
  (Within.refl h).step (hx.acceptMine h) fun _ _ ht _ => ht.finish (hx.broadcastAccept ht.sound)

theorem broadcastCommit (hx : f.Watches x) (h : x.Sound s) {v : Nat}
    (hvalue : x.named → s.roundState.getV = some v) :
    Meets (PaxosFamily.broadcastCommit x.me) s (fun _ => x.Near v s) (x.Fault s) := by
  rw [PaxosFamily.broadcastCommit]
  refine Meets.get ((Within.refl h).lift (fun _ => valueOf_harmless) fun w hw => ?_)
  simp only [priorityBroadcast, emit, Lib.Turn.meets_bind, Lib.Turn.meets_get,
    Lib.Turn.meets_modify]
  have hget := value_of_ok hw
  have hmsg : Packet.Tells (x.Knows s) ⟨⟨.commit s.slot w, x.me, s.lastV⟩, none⟩ :=
    ⟨(hx.round h).value _ hget, fun _ heq => by cases heq⟩
  refine h.near_emit (e := .broadcast ⟨⟨.commit s.slot w, x.me, s.lastV⟩, none⟩ (getRequester w))
    hmsg ?_
  rintro slot u ⟨⟩
  exact ⟨rfl, fun hnamed => Option.some.inj (hget.symm.trans (hvalue hnamed))⟩

theorem commitQuietly (hx : f.Watches x) {v : Nat} (h : x.Near v s t) (hs : x.Sound s) {fast : Bool}
    (hv : x.supplied → Holds s v) :
    Meets (f.commitQuietly v fast) t (x.Handled s) (x.Fault s) := by
  refine Meets.get ?_
  simp only [emit, Lib.Turn.meets_bind, Lib.Turn.meets_modify]
  have hdecided := h.sound.within_emit (e := .decided t.slot v fast) trivial fun _ hn => hn
  refine (advance_spec (h.before hdecided) hs hv fun r K held => ?_).post fun value u hu => hu
  rw [hx.1]
  exact .fullClear _

theorem announced (hx : f.Watches x) (h : x.Within s t) (hs : x.Sound s) {v : Nat} {fast : Bool}
    (hvalue : x.named → t.roundState.getV = some v) (hv : x.supplied → Holds s v) :
    Meets (do
      PaxosFamily.broadcastCommit x.me
      f.commitQuietly v fast) t (x.Handled s) (x.Fault s) := by
  rw [Lib.Turn.meets_bind]
  exact (hx.broadcastCommit h.sound hvalue).mono (fun _ u hu => hx.commitQuietly (hu.after h) hs hv)
    fun _ _ => h.fault

theorem clientAnswer (hx : f.Watches x) (h : x.Sound s) (hs : f.mode.isSwift = true)
    {round : PaxosRound n} {rv : RoundV n} {quorum : Option (Finset (Fin n))}
    (hv : x.supplied → Holds s rv.getV) :
    Meets (f.clientAnswer x.me src round rv quorum) s (x.Handled s) (x.Fault s) := by
  cases rv with
  | fastV proposer v =>
    refine (Within.refl h).check failed_harmless fun _ => ?_
    refine (Within.refl h).read (hx.onRound h ?_ ?_) fun _ t ht _ _ => Meets.get ?_
    · exact fun r hr => (hx.round h).swiftAnswered hs hr
    · exact fun e he => swiftAnswered_harmless he
    · split
      · exact hx.commitQuietly (ht.near _) h hv
      · exact ht.nothing
  | paxosV acceptRound v => exact (Within.refl h).fails failed_harmless

theorem clientPrepare (hx : f.Watches x) (h : x.Sound s) {round : PaxosRound n} {rv : RoundV n}
    (hv : x.supplied → f.getCommitter rv.getV = some x.me → Holds s rv.getV) :
    Meets (f.clientPrepare x.me src round rv) s (x.Handled s) (x.Fault s) := by
  rw [PaxosFamily.clientPrepare]
  split
  · exact (Within.refl h).nothing
  · have hme := Decidable.not_not.1 ‹_›
    split
    · exact hx.clientAnswer h (by rw [‹f.mode = _›]; rfl) fun hp => hv hp hme
    · exact (Within.refl h).fails failed_harmless

theorem clientVote (hx : f.Watches x) (h : x.Sound s) {round : PaxosRound n} {v : Nat}
    (hk : x.Knows s v) (hv : x.supplied → Holds s v) :
    Meets (f.clientVote x.me src round v) s (x.Handled s) (x.Fault s) := by
  refine (Within.refl h).read (hx.acceptFrom h hk) fun _ t ht _ _ => Meets.get ?_
  split
  · exact hx.commitQuietly (ht.near _) h hv
  · exact ht.nothing

theorem clientAccept (hx : f.Watches x) (h : x.Sound s) {round : PaxosRound n} {v : Nat}
    (hk : x.Knows s v) (hv : x.supplied → f.getCommitter v = some x.me → Holds s v) :
    Meets (f.clientAccept x.me src round v) s (x.Handled s) (x.Fault s) := by
  rw [PaxosFamily.clientAccept]
  split
  · exact (Within.refl h).nothing
  · have hme := Decidable.not_not.1 ‹_›
    have hheld := fun hp => hv hp hme
    split
    · have hs : f.mode.isSwift = true := by rw [‹f.mode = _›]; rfl
      split
      · refine (Within.refl h).read (hx.onRound h ?_ ?_) fun _ t ht _ _ => Meets.get ?_
        · exact fun r hr => (hx.round h).swiftAnswered hs hr
        · exact fun e he => swiftAnswered_harmless he
        · split
          · exact hx.commitQuietly (ht.near _) h hheld
          · exact ht.hand (hx.clientVote ht.sound (ht.knows hk)
              fun hp => ht.frame.holds h (hheld hp))
      · exact hx.clientVote h hk hheld
    · exact (Within.refl h).fails failed_harmless

theorem onFastAnswer (hx : f.Watches x) (h : x.Sound s) (hmode : f.mode = .ePaxos)
    (hmax : s.roundState.maxRv ≠ none) {round : PaxosRound n} {rv : RoundV n}
    (hk : x.Knows s rv.getV) (hv : x.supplied → Holds s rv.getV) :
    Meets (f.onFastAnswer x.me order src round rv) s (x.Handled s) (x.Fault s) := by
  cases rv with
  | paxosV acceptRound v => exact (Within.refl h).fails failed_harmless
  | fastV proposer v =>
    refine (Within.refl h).read (hx.onRound h ?_ ?_) fun _ t ht _ _ => Meets.get ?_
    · exact fun r hr => (hx.round h).epaxosAnswered hk hmax hr
    · exact fun e he => epaxosAnswered_harmless he
    · split
      · exact hx.announced ht h (fun hnamed => absurd hmode (hx.2 hnamed)) hv
      · split
        · rename_i w hw
          have hknown := (hx.round ht.sound).epaxosTryAdopt (by rw [hmode]; rfl) hw
          refine ht.check failed_harmless fun _ => ?_
          refine ht.read (hx.changeRound ht.sound ((hx.round ht.sound).adoptFromEpaxos hknown))
            fun _ u hu _ _ => ?_
          exact hu.step (hx.acceptPhase hu.sound) fun _ _ hw _ => hw.nothing
        · exact ht.nothing

-- Only a leader, and the committer of a uid, may need the payload that comes with it.
def Supplied (f : PaxosFamily n) (me : Fin n) (s : PaxosFamilyShard n) (round : PaxosRound n)
    (v : Nat) : Prop :=
  Holds s v ∨ (round.leader ≠ me ∧ f.getCommitter v ≠ some me)

theorem Supplied.committer {round : PaxosRound n} {v : Nat} (h : Supplied f me s round v)
    (hv : f.getCommitter v = some me) : Holds s v :=
  h.resolve_right fun hn => hn.2 hv

theorem Supplied.leader {round : PaxosRound n} {v : Nat} (h : Supplied f me s round v)
    (hr : round.leader = me) : Holds s v :=
  h.resolve_right fun hn => hn.1 hr

theorem Supplied.frame {round : PaxosRound n} {v : Nat} (h : Supplied f x.me s round v)
    (hs : x.Sound s) (hf : x.Frame s t) : Supplied f x.me t round v :=
  h.imp_left (hf.holds hs)

theorem onPromise (hx : f.Watches x) (h : x.Sound s) {round : PaxosRound n} {rv : RoundV n}
    {wasPrepared : Bool} (hd : f.delegateOrLeader x.me round (some rv) = x.me)
    (hk : x.Knows s rv.getV) (hv : x.supplied → Supplied f x.me s round rv.getV) :
    Meets (f.onPromise x.me order src round rv wasPrepared) s (x.Handled s) (x.Fault s) := by
  refine (Within.refl h).read (hx.changeRound h ((hx.round h).toTold.receivePromise hk))
    fun _ t ht _ hr => Meets.get ?_
  have hsupplied := fun hp => (hv hp).frame h ht.frame
  have hphase : Meets (do
      f.acceptPhase x.me round
      return none) t (x.Handled s) (x.Fault s) :=
    ht.step (hx.acceptPhase ht.sound) fun _ _ hu _ => hu.nothing
  split
  · split
    · exact ht.hand (hx.clientPrepare ht.sound fun hp => (hsupplied hp).committer)
    · split
      · exact hphase
      · exact ht.nothing
  · rename_i hswift
    split
    · rename_i hmode
      have hleader : round.leader = x.me := by
        simpa only [delegateOrLeader, hmode.1] using hd
      refine ht.hand (hx.onFastAnswer ht.sound hmode.1 ?_ (ht.knows hk)
        fun hp => (hsupplied hp).leader hleader)
      rw [hr, PaxosFamilyRoundState.receivePromise]
      split
      · exact fun hn => by cases hn
      · exact fun hn => ‹¬ _› (Or.inl hn)
    · split
      · exact hphase
      · exact ht.nothing

theorem onPrepare (hx : f.Watches x) (h : x.Sound s) {round : PaxosRound n} {rv : RoundV n}
    (hk : x.Knows s rv.getV) (hv : x.supplied → Supplied f x.me s round rv.getV) :
    Meets (f.onPrepare x.me order src round rv) s (x.Handled s) (x.Fault s) := by
  refine (Within.refl h).read (hx.changeRound h ?_) fun _ t ht _ _ => Meets.get ?_
  · split
    · exact (hx.round h).toTold.receivePromise hk
    · exact hx.round h
  · split
    · split
      · exact ht.nothing
      · refine ht.step (hx.answerPrepare ht.sound) fun _ u hu _ => ?_
        exact hu.check failed_harmless fun _ => hu.nothing
    · exact ht.hand (hx.onPromise ht.sound (Decidable.not_not.1 ‹_›) (ht.knows hk)
        fun hp => (hv hp).frame h ht.frame)

theorem acceptQuorum (hx : f.Watches x) (h : x.Sound s) {round : PaxosRound n} {v : Nat}
    (hvalue : s.roundState.getV = some v) (hv : x.supplied → Holds s v) :
    Meets (f.acceptQuorum x.me round v) s (x.Handled s) (x.Fault s) := by
  refine Meets.get ?_
  split
  · refine Within.keep (.refl h) (leaveFastPath_spec h) leaveFastPath_sameValue fun _ t ht _ hsame => ?_
    have hquiet : Meets (f.commitQuietly v false) t (x.Handled s) (x.Fault s) :=
      hx.commitQuietly (ht.near _) h hv
    have hannounced : Meets (do
        PaxosFamily.broadcastCommit x.me
        f.commitQuietly v false) t (x.Handled s) (x.Fault s) := hx.announced ht h
          (fun _ => hsame.trans hvalue) hv
    split
    · exact hannounced
    · split
      · split
        · exact ht.fails failed_harmless
        · split
          · exact hannounced
          · exact hquiet
      · exact hquiet
  · exact (Within.refl h).nothing

theorem onLeaderAccept (hx : f.Watches x) (h : x.Sound s) {round : PaxosRound n} {v : Nat}
    (hvalue : s.roundState.getV = some v) (hv : x.supplied → Supplied f x.me s round v) :
    Meets (f.onLeaderAccept x.me src round v) s (x.Handled s) (x.Fault s) := by
  refine Within.keep (.refl h) (hx.answerAccept h) answerAccept_sameValue fun _ t ht _ hsame => ?_
  have hget : t.roundState.getV = some v := hsame.trans hvalue
  split
  · rename_i hc
    simp only [amCommitter, Bool.and_eq_true, decide_eq_true_eq] at hc
    have hheld := fun hp => (hv hp).committer hc.2
    have hquorum : ∀ u, x.Within s u → u.roundState.getV = some v →
        Meets (f.acceptQuorum x.me round v) u (x.Handled s) (x.Fault s) := fun u hu hgetu =>
      hu.hand (hx.acceptQuorum hu.sound hgetu fun hp => hu.frame.holds h (hheld hp))
    split
    · have hs : f.mode.isSwift = true := by rw [‹f.mode = _›]; rfl
      refine ht.read (hx.onRound ht.sound ?_ ?_) fun _ u hu _ hr => Meets.get ?_
      · exact fun r hr => (hx.round ht.sound).swiftAnswered hs hr
      · exact fun e he => swiftAnswered_harmless he
      · split
        · exact hx.commitQuietly (hu.near _) h hheld
        · exact hquorum u hu ((PaxosFamilyRoundState.swiftAnswered_getV hr).trans hget)
    · exact hquorum t ht hget
  · exact ht.nothing

theorem onAccept (hx : f.Watches x) (h : x.Sound s) {round : PaxosRound n} {v : Nat}
    (hk : x.Knows s v) (hv : x.supplied → Supplied f x.me s round v) :
    Meets (f.onAccept x.me src round v) s (x.Handled s) (x.Fault s) := by
  have main : ∀ t, x.Within s t → Meets (do
      f.acceptFrom x.me src round v
      if x.me ≠ round.leader then
        if src = f.delegateOrLeader x.me round none then f.onLeaderAccept x.me src round v
        else
          Turn.check (f.amCommitter x.me v) .failed
          f.acceptQuorum x.me round v
      else f.acceptQuorum x.me round v) t (x.Handled s) (x.Fault s) := by
    intro t ht
    refine ht.read (hx.acceptFrom ht.sound (ht.knows hk)) fun _ u hu _ hget => ?_
    have hsupplied := fun hp => (hv hp).frame h hu.frame
    split
    · split
      · exact hu.hand (hx.onLeaderAccept hu.sound hget hsupplied)
      · refine hu.check failed_harmless fun hc => ?_
        simp only [amCommitter, Bool.and_eq_true, decide_eq_true_eq] at hc
        exact hu.hand (hx.acceptQuorum hu.sound hget fun hp => (hsupplied hp).committer hc.2)
    · rename_i hne
      have hleader : round.leader = x.me := (Decidable.not_not.1 hne).symm
      exact hu.hand (hx.acceptQuorum hu.sound hget fun hp => (hsupplied hp).leader hleader)
  rw [PaxosFamily.onAccept]
  split
  · exact main s (.refl h)
  · exact (Within.refl h).step (leaveFastPath_spec h) fun _ t ht _ => main t ht

theorem enterRound (hx : f.Watches x) (h : x.Sound s) {slot : Nat} {round : PaxosRound n} :
    Meets (f.enterRound src slot round) s
      (fun entered t => x.Within s t ∧ (entered = true → slot = s.slot)) (x.Fault s) := by
  refine Meets.get ?_
  split
  · exact ⟨.refl h, fun hf => by cases hf⟩
  · refine (Within.refl h).read (hx.changeRound h ?_) fun _ t ht _ _ => ?_
    · split
      · exact (hx.round h).gotoRound _
      · exact hx.round h
    · refine ht.check failed_harmless fun hslot => ht.check failed_harmless fun _ => ?_
      exact ⟨ht, fun _ => of_decide_eq_true hslot⟩

-- Whom a message of the algorithm may find without the payload of its uid.
def SuppliedFor (f : PaxosFamily n) (me : Fin n) (s : PaxosFamilyShard n) : PaxosMsg n → Prop
  | .prepare slot round rv => slot = s.slot → Supplied f me s round rv.getV
  | .accept slot round v => slot = s.slot → Supplied f me s round v
  | .forwardRequest _ => True

theorem noteOutranked (h : x.Sound s) {slot : Nat} :
    Meets (PaxosFamily.noteOutranked slot) s (x.Handled s) (x.Fault s) := by
  refine Meets.get ?_
  split
  · exact (h.within_emit (e := .outranked slot) trivial fun _ hn => hn).nothing
  · exact (Within.refl h).nothing

theorem processMessage (hx : f.Watches x) (h : x.Sound s) {msg : ConsensusMessage n}
    (hmsg : msg.msg.Tells (x.Knows s))
    (hv : x.supplied → ∀ m, msg.msg = .paxosM m → SuppliedFor f x.me s m) :
    Meets (f.processMessage x.me order msg) s (x.Handled s) (x.Fault s) := by
  obtain ⟨msg, src, lastV⟩ := msg
  rw [PaxosFamily.processMessage]
  split
  · exact (Within.refl h).nothing
  · cases msg with
    | paxosM m =>
      cases m with
      | forwardRequest v => exact (Within.refl h).nothing
      | prepare slot round rv =>
        refine (Within.refl h).read (hx.enterRound h) fun entered t ht _ he => ?_
        have hk : x.Knows t rv.getV := ht.knows hmsg
        split
        · exact ht.nothing
        · rename_i hentered
          have hsupplied := fun hp =>
            (hv hp _ rfl (he (by simpa using hentered))).frame h ht.frame
          split
          · exact ht.hand (hx.onPrepare ht.sound hk hsupplied)
          · exact ht.hand (hx.clientPrepare ht.sound fun hp => (hsupplied hp).committer)
      | accept slot round v =>
        refine (Within.refl h).read (hx.enterRound h) fun entered t ht _ he => ?_
        have hk : x.Knows t v := ht.knows hmsg
        split
        · exact ht.hand (noteOutranked ht.sound)
        · rename_i hentered
          have hsupplied := fun hp =>
            (hv hp _ rfl (he (by simpa using hentered))).frame h ht.frame
          split
          · exact ht.hand (hx.onAccept ht.sound hk hsupplied)
          · exact ht.hand (hx.clientAccept ht.sound hk fun hp => (hsupplied hp).committer)
    | _ => exact (Within.refl h).fails failed_harmless

theorem suggest (hx : f.Watches x) (h : x.Sound s) {v : Nat} (hv : x.Knows s v) :
    Meets (f.suggest x.me v) s
      (fun rv t => rv.getV = v ∧ ∃ r, t = { s with roundState := r } ∧ f.Told (x.Knows s) r)
      (x.Fault s) := by
  have hround := hx.round h
  rw [PaxosFamily.suggest]
  split
  · simp only [Lib.Turn.meets_bind, meets_onRound, Lib.Turn.meets_pure]
    refine ⟨fun r hr => ⟨rfl, r, rfl, (hround.toTold.epaxosAnswered hv hr).1⟩, fun e he => ?_⟩
    exact (Within.refl h).fails (epaxosAnswered_harmless he)
  · have hs : f.mode.isSwift = true := by rw [‹f.mode = _›]; rfl
    simp only [Lib.Turn.meets_bind, meets_onRound, Lib.Turn.meets_pure]
    refine ⟨fun r hr => ⟨rfl, r, rfl, (hround.swiftProposeV hs hr).toTold⟩, fun e he => ?_⟩
    exact (Within.refl h).fails (swiftProposeV_harmless he)
  · exact ⟨rfl, s.roundState, rfl, hround.toTold⟩

theorem propose (hx : f.Watches x) (h : x.Sound s) {v : Nat} (hv : x.Knows s v)
    {withValue : Bool} :
    Meets (f.propose x.me v withValue) s (fun _ => x.Within s) (x.Fault s) := by
  refine Meets.get ((Within.refl h).check failed_harmless fun _ => ?_)
  refine (Within.refl h).check failed_harmless fun _ => ?_
  refine (Within.refl h).read (hx.changeRound h ((hx.round h).gotoRound _)) fun _ t ht _ _ => ?_
  refine ht.check failed_harmless fun _ => ?_
  have hk : x.Knows t v := ht.knows hv
  split
  · refine ht.read (hx.changeRound ht.sound ((hx.round ht.sound).toTold.receivePromise ?_))
      fun _ u hu hut _ => ?_
    · exact hk
    · refine hu.step (hx.acceptMine hu.sound) fun _ w hw huw => ?_
      refine hw.finish (broadcastMsg hw.sound ?_)
      exact huw.knows (hut.knows hk)
  · rw [Lib.Turn.meets_bind]
    refine (hx.suggest ht.sound hk).mono ?_ fun _ _ => ht.fault
    rintro rv _ ⟨rfl, r, rfl, htold⟩
    have hmentions : f.Mentions (x.Knows t) (r.receivePromise f.cluster x.me x.me rv) :=
      htold.receivePromise hk
    rw [Lib.Turn.meets_bind, PaxosFamily.changeRound, Lib.Turn.meets_modify]
    have hu := hx.within ht.sound hmentions
    refine (ht.trans hu).finish (broadcastMsg hu.sound ?_)
    exact hk

theorem forward (h : x.Sound s) {value : CommandBatch n} (hvalue : Proposable (x.Knows s) value) :
    Meets (f.forward x.me value) s (fun _ => x.Within s) (x.Fault s) := by
  refine (Within.refl h).read (storeNewCommand_spec h hvalue) fun v t ht _ hv => Meets.get ?_
  refine ht.finish (priorityBroadcast_spec ht.sound ⟨hv.1, fun other ho => ⟨v, rfl, ?_⟩⟩ nofun)
  exact Option.some.inj ho ▸ ht.sound.stored v value hv.2

theorem proposeNew (hx : f.Watches x) (h : x.Sound s) {value : CommandBatch n}
    (hvalue : Proposable (x.Knows s) value) :
    Meets (f.proposeNew x.me value) s (fun _ => x.Within s) (x.Fault s) :=
  (Within.refl h).read (storeNewCommand_spec h hvalue) fun _ _ ht _ hv =>
    ht.finish (hx.propose ht.sound hv.1)

theorem proposeStart (hx : f.Watches x) (h : x.Sound s) {value : CommandBatch n}
    (hvalue : Proposable (x.Knows s) value) {contention : Bool} :
    Meets (f.proposeStart x.me value contention) s (fun _ => x.Within s) (x.Fault s) := by
  rw [PaxosFamily.proposeStart]
  split
  · exact forward h hvalue
  · split
    · refine (Within.refl h).lift (fun e he => ?_) fun lead _ => ?_
      · rw [PaxosFamily.shouldLead] at he
        split at he
        · cases he
        · cases he
          exact failed_harmless
      · split
        · exact hx.proposeNew h hvalue
        · exact forward h hvalue
    · exact hx.proposeNew h hvalue

theorem commitSlot (hx : f.Watches x) (h : x.Sound s) {v : Nat} (hv : Holds s v) :
    Meets (f.commitSlot v) s (fun value => x.Handled s (some value)) (x.Fault s) := by
  refine advance_spec ((Within.refl h).near _) h (fun _ => hv) fun r K held => ?_
  rw [hx.1]
  exact .fullClear _

-- A message that is handled without its payload is led by another process.
theorem suppliedFor {msg : ConsensusMessage n}
    (hready : s.readyToProcess x.me msg = .ok true)
    (hv : ∀ v, msg.getV = some v → msg.getSlot = some s.slot →
      Holds s v ∨ f.getCommitter v ≠ some x.me)
    {m : PaxosMsg n} (hm : msg.msg = .paxosM m) : SuppliedFor f x.me s m := by
  obtain ⟨_, src, lastV⟩ := msg
  cases hm
  have key : ∀ round v, PaxosMsg.getV m = v → m.getSlot = some s.slot →
      (ledByAnother x.me ⟨.paxosM m, src, lastV⟩ = true → round.leader ≠ x.me) →
      Supplied f x.me s round v := by
    intro round v hmv hslot hled
    rcases ready_cases hready with ⟨-, hvalue | ⟨-, hother⟩⟩ | hlow
    · exact Or.inl (holds_of_valueReady hvalue (congrArg some hmv))
    · exact (hv v (congrArg some hmv) hslot).imp_right fun hn => ⟨hled hother, hn⟩
    · exact absurd (hlow s.slot hslot) (lt_irrefl _)
  cases m with
  | prepare slot round rv =>
    intro hslot
    exact key round rv.getV rfl (congrArg some hslot) of_decide_eq_true
  | accept slot round v =>
    intro hslot
    exact key round v rfl (congrArg some hslot) of_decide_eq_true
  | forwardRequest v => trivial

theorem lawful (hx : f.Watches x) :
    Lawful x f.cluster f.getCommitter (f.algorithm x.me order) where
  processMessage h hmsg hready hv :=
    hx.processMessage h hmsg fun hp _ hm => suppliedFor hready (hv hp) hm
  commitSlot h hv := hx.commitSlot h hv
  proposeStart h hvalue := hx.proposeStart h hvalue
  reproposeStart h hv := by
    obtain ⟨value, hvalue⟩ := Lib.HashMap.exists_lookup hv
    exact hx.propose h (h.stored _ value hvalue).uid
  shouldLead he := by
    simp only [algorithm, PaxosFamily.shouldLead] at he
    split at he
    · cases he
    · cases he
      exact failed_harmless
  rests h hs K held := by
    simp only [ConsensusShard.canSleep, algorithm, Bool.and_eq_true, Bool.not_eq_true',
      Option.isSome_eq_false_iff, Option.isNone_iff_eq_none] at hs
    rw [hx.1]
    exact (hx.round h).of_idle hs.1.1.1.1

end Watches

end PaxosFamily

end KCensus.Slots

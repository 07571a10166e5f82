import KCensus.Slots.Conduct
import KCensus.Slots.PaxosFamily.Shard

namespace KCensus.Slots

open Lib.Turn (Meets)
open Turn Conduct

variable {n : Nat} {f : PaxosFamily n} {me src : Fin n} {order : HashOrder n}
  {y : Conduct n (PaxosFamilyRoundState n)} {s t : PaxosFamilyShard n}
  {heard : Fin n → Nat → Nat → Prop} {fixed : Prop}

namespace PaxosFamilyRoundState

variable {c : Cluster n} {r r' : PaxosFamilyRoundState n}

-- The round, and whether there is a value, as another state has them or better.
structure Stays (fixed : Prop) (r r' : PaxosFamilyRoundState n) : Prop where
  round : fixed → r'.round = r.round
  value : r.getV.isSome = true → r'.getV.isSome = true

theorem Stays.refl : Stays fixed r r := ⟨fun _ => rfl, id⟩

theorem Stays.receivePromise {rv : RoundV n} : Stays fixed r (r.receivePromise c me src rv) := by
  refine ⟨fun _ => rfl, fun hv => ?_⟩
  simp only [getV, PaxosFamilyRoundState.receivePromise, Option.isSome_map] at hv ⊢
  split
  · rfl
  · exact hv

theorem selfAccept_getV {round : PaxosRound n} (h : r.selfAccept c me round = .ok r') :
    r'.round = r.round ∧ r'.getV.isSome = true := by
  rw [selfAccept] at h
  split at h
  · split at h
    · obtain ⟨hround, hv⟩ := receiveAccept_getV h
      exact ⟨hround, hv ▸ rfl⟩
    · cases h
  · cases h

theorem Stays.epaxosAnswered {proposer : Fin n} {v : Nat}
    (h : r.epaxosAnswered me src proposer v = .ok r') : Stays fixed r r' := by
  simp only [PaxosFamilyRoundState.epaxosAnswered] at h
  split at h
  · cases h
    exact ⟨fun _ => rfl, id⟩
  · split at h
    · cases h
    · cases h
      exact .refl

theorem Stays.swiftAnswered {proposer : Fin n} {v : Nat} {quorum : Option (Finset (Fin n))}
    {leader : Bool} (h : r.swiftAnswered me src proposer v quorum leader = .ok r') :
    Stays fixed r r' := by
  simp only [PaxosFamilyRoundState.swiftAnswered] at h
  split at h
  · split at h
    · split at h
      · cases h
      · cases h
        exact ⟨fun _ => rfl, id⟩
    · cases h
      exact ⟨fun _ => rfl, id⟩
  · split at h
    · cases h
    · cases h
      exact .refl

theorem Stays.swiftProposeV {v : Nat} {quorum : Option (Finset (Fin n))} {leader : Bool}
    (h : r.swiftProposeV c me v quorum leader = .ok r') : Stays fixed r r' := by
  rw [PaxosFamilyRoundState.swiftProposeV] at h
  split at h
  · exact .swiftAnswered h
  · cases h
    exact .refl

end PaxosFamilyRoundState

namespace PaxosFamily

-- A value is never given up within a slot, and a slot that has left the fast path has one; `fixed`
-- says whether the round stays.
def conduct (f : PaxosFamily n) (me : Fin n) (heard : Fin n → Nat → Nat → Prop) (fixed : Prop) :
    Conduct n (PaxosFamilyRoundState n) where
  me := me
  phased := f.mode = .ePaxos
  heard := heard
  keeps s t := t.slot = s.slot ∧ (s.slotLeftFastPath = true → t.slotLeftFastPath = true) ∧
    (t.slotLeftFastPath = true → s.slotLeftFastPath = true ∨ t.roundState.getV.isSome = true) ∧
    s.roundState.Stays fixed t.roundState
  refl _ := ⟨rfl, id, Or.inl, .refl⟩
  trans := by
    rintro s t u ⟨hslot, hleft, hbusy, hround, hvalue⟩ ⟨hslot', hleft', hbusy', hround', hvalue'⟩
    refine ⟨hslot'.trans hslot, hleft' ∘ hleft, fun hl => ?_,
      fun hf => (hround' hf).trans (hround hf), hvalue' ∘ hvalue⟩
    exact (hbusy' hl).elim (fun hl' => (hbusy hl').imp id hvalue') Or.inr
  emits _ _ := ⟨rfl, id, Or.inl, .refl⟩

def Valued (s : PaxosFamilyShard n) : Prop := s.roundState.getV.isSome = true

namespace Conducts

theorem sendMsg {msg : PaxosMsg n} {dest : Fin n} (hheard : y.phased → ∀ leader slot v,
    (ConsensusMsg.paxosM msg).Accepts leader slot v → y.heard leader slot v) :
    y.Acts (f.sendMsg y.me msg dest) s := send rfl hheard

theorem broadcastMsg {msg : PaxosMsg n} {withValue : Bool} (hown : y.phased → ∀ leader slot v,
    (ConsensusMsg.paxosM msg).Accepts leader slot v → leader = y.me) :
    y.Acts (PaxosFamily.broadcastMsg y.me msg withValue) s := by
  refine .get ?_
  split
  · split
    · exact broadcast rfl hown
    · exact .throw _
  · exact broadcast rfl hown

theorem answerPrepare {dest : Fin n} : y.Acts (f.answerPrepare y.me dest) s :=
  .get (.bind .lift fun _ _ _ => .bind .lift fun _ _ _ => sendMsg fun _ _ _ _ => False.elim)

theorem castVote {round : PaxosRound n} {v : Nat} : y.Acts (f.castVote y.me round v) s := by
  refine .get ?_
  split
  · exact .emit trivial
  · exact .pure _

theorem changeRound {g : PaxosFamilyRoundState n → PaxosFamilyRoundState n}
    (hg : s.roundState.Stays fixed (g s.roundState)) :
    (conduct f me heard fixed).Acts (PaxosFamily.changeRound g) s :=
  .update ⟨rfl, id, Or.inl, hg⟩ rfl

theorem onRound {g : PaxosFamilyRoundState n → Except Panic (PaxosFamilyRoundState n)}
    (hg : ∀ r, g s.roundState = .ok r → s.roundState.Stays fixed r) :
    (conduct f me heard fixed).Acts (Turn.onRound g) s :=
  .onRound fun r hr => ⟨rfl, id, Or.inl, hg r hr⟩

theorem storeNewCommand {value : CommandBatch n} :
    (conduct f me heard fixed).Acts (Turn.storeNewCommand value : PFTurn n Nat) s := by
  refine .get ?_
  simp only [Acts, Lib.Turn.meets_bind, Lib.Turn.meets_modify, Lib.Turn.meets_pure]
  refine ⟨⟨rfl, id, Or.inl, .refl⟩, [_], rfl, fun e he => ?_⟩
  exact List.mem_singleton.1 he ▸ trivial

theorem round_of_ok {round : PaxosRound n} (h : PaxosFamily.roundOf s = .ok round) :
    s.roundState.round = round := by
  rw [PaxosFamily.roundOf] at h
  split at h
  · cases h
    assumption
  · cases h

theorem broadcastAccept (hvalue : s.roundState.getV.isSome = true)
    (hlead : f.mode = .ePaxos → ∀ round : PaxosRound n, s.roundState.round = round →
      round.leader = me) :
    (conduct f me heard fixed).Acts (f.broadcastAccept me) s := by
  have hsay : ∀ {t}, t.roundState = s.roundState →
      (conduct f me heard fixed).Acts (do
        let s ← get
        let round ← lift PaxosFamily.roundOf
        let v ← lift PaxosFamily.valueOf
        PaxosFamily.broadcastMsg me (.accept s.slot round v) false) t := by
    intro t ht
    refine .get (.lift_bind fun round hround => .lift_bind fun v _ => broadcastMsg ?_)
    rintro hmode leader slot w ⟨-, rfl, -⟩
    exact hlead hmode round (ht ▸ round_of_ok hround)
  rw [PaxosFamily.broadcastAccept]
  split
  · exact hsay rfl
  · rw [Acts, Turn.leaveFastPath, Lib.Turn.meets_bind, Lib.Turn.meets_modify]
    exact Acts.after ⟨⟨rfl, fun _ => rfl, fun _ => Or.inr hvalue, .refl⟩, .of_eq rfl⟩ (hsay rfl)

variable [NeZero n] in
theorem answerAccept (hheard : y.phased → ∀ (round : PaxosRound n) v,
      s.roundState.round = round → s.roundState.getV = some v → y.heard round.leader s.slot v) :
    y.Acts (f.answerAccept y.me) s := by
  refine .get (.lift_bind fun round hround => .lift_bind fun v hv => ?_)
  have hsend : ∀ {dest t}, y.Acts (f.sendMsg y.me (.accept s.slot round v) dest) t := by
    intro dest t
    refine sendMsg ?_
    rintro hmode leader slot w ⟨rfl, rfl, rfl⟩
    exact hheard hmode round v (round_of_ok hround) (value_of_ok hv)
  split
  · exact .bind hsend fun _ _ _ => hsend
  · exact hsend

theorem acceptMine {round : PaxosRound n} :
    Meets (f.acceptMine me round) s
      (fun _ t => (conduct f me heard fixed).Goes s t ∧ t.roundState.getV.isSome = true)
      (fun _ => (conduct f me heard fixed).Goes s) := by
  rw [PaxosFamily.acceptMine, Lib.Turn.meets_bind, meets_onRound]
  refine ⟨fun r hr => ?_, fun _ _ => Goes.refl⟩
  obtain ⟨hround, hv⟩ := PaxosFamilyRoundState.selfAccept_getV hr
  have ht : (conduct f me heard fixed).Goes s { s with roundState := r } :=
    ⟨⟨rfl, id, Or.inl, fun _ => hround, fun _ => hv⟩, .of_eq rfl⟩
  have hvote : (conduct f me heard fixed).Acts (do
      let v ← lift PaxosFamily.valueOf
      f.castVote me round v) { s with roundState := r } := .lift_bind fun _ _ => castVote
  refine Meets.mono hvote (fun _ u hu => ⟨ht.trans hu, hu.keeps.2.2.2.value hv⟩) ?_
  exact fun _ u hu => ht.trans hu

theorem acceptPhase {round : PaxosRound n}
    (hlead : f.mode = .ePaxos → ∀ round : PaxosRound n, s.roundState.round = round →
      round.leader = me) :
    (conduct f me heard True).Acts (f.acceptPhase me round) s := by
  rw [Acts, PaxosFamily.acceptPhase, Lib.Turn.meets_bind]
  refine acceptMine.mono (fun _ t ht => ?_) fun _ _ => id
  refine Acts.after ht.1 (broadcastAccept ht.2 fun hmode round hround => hlead hmode round ?_)
  exact (ht.1.keeps.2.2.2.round trivial).symm.trans hround

-- What a reply to an accept message begins with; `s` had not yet left the fast path.
theorem acceptFrom (left : Bool) (hleft : s.slotLeftFastPath = true → left = true)
    {round : PaxosRound n} {v : Nat} :
    Meets (f.acceptFrom me src round v) { s with slotLeftFastPath := left }
      (fun _ t => (conduct f me heard True).Goes s t ∧ t.slotLeftFastPath = left ∧
        t.roundState.round = s.roundState.round ∧ t.roundState.getV = some v)
      (fun _ => Said (conduct f me heard True).Says s) := by
  rw [PaxosFamily.acceptFrom, Lib.Turn.meets_bind, meets_onRound]
  refine ⟨fun r hr => ?_, fun _ _ => .of_eq rfl⟩
  obtain ⟨hround, hv⟩ := PaxosFamilyRoundState.receiveAccept_getV hr
  have ht : (conduct f me heard True).Goes s
      { s with slotLeftFastPath := left, roundState := r } :=
    ⟨⟨rfl, hleft, fun _ => Or.inr (hv ▸ rfl), fun _ => hround, fun _ => hv ▸ rfl⟩, .of_eq rfl⟩
  rw [PaxosFamily.castVote]
  refine Meets.get ?_
  split
  · rw [Turn.emit, Lib.Turn.meets_modify]
    exact ⟨ht.trans ⟨⟨rfl, id, Or.inl, .refl⟩, [_], rfl, fun e he => List.mem_singleton.1 he ▸ trivial⟩,
      rfl, hround, hv⟩
  · exact ⟨ht, rfl, hround, hv⟩

theorem suggest {v : Nat} : (conduct f me heard fixed).Acts (f.suggest me v) s := by
  rw [PaxosFamily.suggest]
  split
  · exact .bind (onRound fun r hr => .epaxosAnswered hr) fun _ _ _ => .pure _
  · exact .bind (onRound fun r hr => .swiftProposeV hr) fun _ _ _ => .pure _
  · exact .pure _

variable [NeZero n] in
theorem propose {v : Nat} {withValue : Bool} :
    (conduct f me heard False).Acts (f.propose me v withValue) s := by
  refine .get (.bind .check fun _ _ _ => .bind .check fun _ _ _ => ?_)
  refine .bind (changeRound ⟨False.elim, id⟩) fun _ _ _ => .bind .check fun _ _ _ => ?_
  split
  · rename_i hlead
    refine .bind (changeRound .receivePromise) fun _ _ _ => ?_
    refine .bind (Meets.mono acceptMine (fun _ _ ht => ht.1) fun _ _ => id) fun _ _ _ => ?_
    refine broadcastMsg fun hmode => ?_
    have hmode : f.mode = .ePaxos := hmode
    simp [leadsSwift, hmode, PFModeSetting.isMultiPaxos, PFModeSetting.isSwift] at hlead
  · refine .bind suggest fun rv _ _ => .bind (changeRound .receivePromise) fun _ _ _ => ?_
    exact broadcastMsg fun _ _ _ _ => False.elim

variable [NeZero n] in
theorem forward {value : CommandBatch n} :
    (conduct f me heard fixed).Acts (f.forward me value) s :=
  .bind storeNewCommand fun _ _ _ => .get (broadcast rfl fun _ _ _ _ => False.elim)

variable [NeZero n] in
theorem proposeNew {value : CommandBatch n} :
    (conduct f me heard False).Acts (f.proposeNew me value) s :=
  .bind storeNewCommand fun _ _ _ => propose

variable [NeZero n] in
theorem proposeStart {value : CommandBatch n} {contention : Bool} :
    (conduct f me heard False).Acts (f.proposeStart me value contention) s := by
  rw [PaxosFamily.proposeStart]
  split
  · exact forward
  · split
    · refine .bind .lift fun lead _ _ => ?_
      split
      · exact proposeNew
      · exact forward
    · exact proposeNew

-- The outcome of a message of the slot, which has come to `t`.
def Replied (f : PaxosFamily n) (me : Fin n) (heard : Fin n → Nat → Nat → Prop)
    (s : PaxosFamilyShard n) : Option (CommandBatch n) → PaxosFamilyShard n → Prop
  | none, t => (conduct f me heard True).Goes s t
  | some _, t => ∃ v fast, Told me (f.mode = .ePaxos) heard v fast s t ∧ t.slot = s.slot + 1 ∧
      (fast = false → t.slotLeftFastPath = true ∨ ¬ f.mode = .ePaxos ∧ ¬ f.replica me = true)

variable [NeZero n] in
theorem commitQuietly {v : Nat} {fast : Bool}
    (h : Said (fun e => e.Plain me (f.mode = .ePaxos) heard ∨
      e.Decides me (f.mode = .ePaxos) s.slot v fast) s t) (hslot : t.slot = s.slot)
    (hheard : f.mode = .ePaxos → fast = false → heard me s.slot v)
    (hroute : fast = false → t.slotLeftFastPath = true ∨
      ¬ f.mode = .ePaxos ∧ ¬ f.replica me = true) :
    Meets (f.commitQuietly v fast) t (Replied f me heard s)
      (fun _ => Voiced me (f.mode = .ePaxos) heard s) := by
  refine Meets.get ?_
  rw [hslot]
  simp only [Turn.emit, Lib.Turn.meets_bind, Lib.Turn.meets_modify]
  set t' : PaxosFamilyShard n := { t with sinks := t.sinks ++ [.decided s.slot v fast] } with ht'
  have htold : Told me (f.mode = .ePaxos) heard v fast s t' := by
    refine ⟨h.trans ⟨_, rfl, fun e he => Or.inr ?_⟩, ?_, hheard⟩
    · exact List.mem_singleton.1 he ▸ ⟨rfl, rfl, rfl⟩
    · exact List.mem_append_right _ (List.mem_singleton_self _)
  have hends : Meets (advance v fun r => (r.gotoRound f.startingRound).fullClear) t' _ _ :=
    advance_ends
  refine hends.mono (fun value u hu => ⟨v, fast, htold.advance hu.2.2, ?_, fun hf => ?_⟩) ?_
  · exact hu.1.trans (congrArg (· + 1) hslot)
  · rw [hu.2.1]
    exact hroute hf
  · rintro _ _ rfl
    exact Or.inr ⟨v, fast, htold⟩

variable [NeZero n] in
theorem announced {v : Nat} {fast : Bool} (h : (conduct f me heard True).Goes s t)
    (hheard : f.mode = .ePaxos → fast = false → heard me s.slot v ∧ t.roundState.getV = some v)
    (hroute : fast = false → t.slotLeftFastPath = true) :
    Meets (do
      PaxosFamily.broadcastCommit me
      f.commitQuietly v fast) t (Replied f me heard s)
      (fun _ => Voiced me (f.mode = .ePaxos) heard s) := by
  have hsaid : Said (fun e => e.Plain me (f.mode = .ePaxos) heard) s t := h.said
  rw [PaxosFamily.broadcastCommit]
  simp only [bind_assoc]
  refine Meets.get ?_
  rw [Lib.Turn.meets_bind, meets_lift]
  refine ⟨fun u hu => ?_, fun _ _ => Or.inl hsaid⟩
  simp only [Turn.emit, priorityBroadcast, Lib.Turn.meets_bind, Lib.Turn.meets_get,
    Lib.Turn.meets_modify]
  refine commitQuietly ?_ h.keeps.1 (fun hmode hf => (hheard hmode hf).1) fun hf => .inl (hroute hf)
  refine (hsaid.mono fun _ => Or.inl).trans ⟨_, rfl, fun e he => Or.inr ?_⟩
  rw [List.mem_singleton.1 he, h.keeps.1]
  refine ⟨rfl, rfl, u, rfl, fun hmode hf => ?_⟩
  exact Option.some.inj ((value_of_ok hu).symm.trans (hheard hmode hf).2)

theorem Replied.after {r : Option (CommandBatch n)} {u : PaxosFamilyShard n}
    (hu : Replied f me heard t r u) (h : (conduct f me heard True).Goes s t) :
    Replied f me heard s r u := by
  cases r with
  | none => exact h.trans hu
  | some value =>
    obtain ⟨v, fast, htold, hslot, hroute⟩ := hu
    exact ⟨v, fast, htold.after h.said h.keeps.1, hslot.trans (congrArg (· + 1) h.keeps.1), hroute⟩

theorem hand {m : PFTurn n (Option (CommandBatch n))} (h : (conduct f me heard True).Goes s t)
    (hm : Meets m t (Replied f me heard t) (fun _ => Voiced me (f.mode = .ePaxos) heard t)) :
    Meets m t (Replied f me heard s) (fun _ => Voiced me (f.mode = .ePaxos) heard s) :=
  hm.mono (fun _ _ hu => hu.after h) fun _ _ hu => hu.after h.said h.keeps.1

theorem failing (h : (conduct f me heard True).Goes s t) : Voiced me (f.mode = .ePaxos) heard s t :=
  Or.inl h.said

variable [NeZero n] in
theorem fastCommit (h : (conduct f me heard True).Goes s t) {v : Nat} :
    Meets (f.commitQuietly v true) t (Replied f me heard s)
      (fun _ => Voiced me (f.mode = .ePaxos) heard s) :=
  commitQuietly (h.said.mono fun _ => Or.inl) h.keeps.1 (fun _ => nofun) nofun

variable [NeZero n] in
theorem clientAnswer {round : PaxosRound n} {rv : RoundV n} {quorum : Option (Finset (Fin n))} :
    Meets (f.clientAnswer me src round rv quorum) s (Replied f me heard s)
      (fun _ => Voiced me (f.mode = .ePaxos) heard s) := by
  cases rv with
  | fastV proposer v =>
    refine Acts.check.read (fun _ t ht => ?_) fun _ _ => failing
    refine (onRound fun r hr => .swiftAnswered hr).read (fun _ u hu => Meets.get ?_)
      fun _ _ hu => failing (ht.trans hu)
    split
    · exact fastCommit (ht.trans hu)
    · exact ht.trans hu
  | paxosV acceptRound v => exact Or.inl .refl

variable [NeZero n] in
theorem clientPrepare {round : PaxosRound n} {rv : RoundV n} :
    Meets (f.clientPrepare me src round rv) s (Replied f me heard s)
      (fun _ => Voiced me (f.mode = .ePaxos) heard s) := by
  rw [PaxosFamily.clientPrepare]
  split
  · exact Goes.refl
  · split
    · exact clientAnswer
    · exact Or.inl .refl

variable [NeZero n] in
theorem clientVote (hmode : ¬ f.mode = .ePaxos) (hclient : ¬ f.replica me = true)
    {round : PaxosRound n} {v : Nat} :
    Meets (f.clientVote me src round v) s (Replied f me heard s)
      (fun _ => Voiced me (f.mode = .ePaxos) heard s) := by
  rw [PaxosFamily.clientVote, Lib.Turn.meets_bind]
  refine (acceptFrom s.slotLeftFastPath id).mono (fun _ t ht => Meets.get ?_) fun _ _ => Or.inl
  split
  · exact commitQuietly (ht.1.said.mono fun _ => Or.inl) ht.1.keeps.1 (fun hm => absurd hm hmode)
      fun _ => Or.inr ⟨hmode, hclient⟩
  · exact ht.1

variable [NeZero n] in
theorem clientAccept (hclient : ¬ f.replica me = true) {round : PaxosRound n} {v : Nat} :
    Meets (f.clientAccept me src round v) s (Replied f me heard s)
      (fun _ => Voiced me (f.mode = .ePaxos) heard s) := by
  rw [PaxosFamily.clientAccept]
  split
  · exact Goes.refl
  · split
    · rename_i quorum hswift
      have hmode : ¬ f.mode = .ePaxos := fun hm => by cases hm.symm.trans hswift
      split
      · refine (onRound fun r hr => .swiftAnswered hr).read (fun _ t ht => Meets.get ?_)
          fun _ _ => failing
        split
        · exact fastCommit ht
        · exact hand ht (clientVote hmode hclient)
      · exact clientVote hmode hclient
    · exact Or.inl .refl

end Conducts

-- In EPaxos the process is the leader of the round that it is in.
def Leads (f : PaxosFamily n) (me : Fin n) (s : PaxosFamilyShard n) : Prop :=
  f.mode = .ePaxos → ∀ round : PaxosRound n, s.roundState.round = round → round.leader = me

theorem Leads.goes (h : Leads f me s) (ht : (conduct f me heard True).Goes s t) : Leads f me t :=
  fun hmode round hround => h hmode round ((ht.keeps.2.2.2.round trivial).symm.trans hround)

namespace Conducts

variable [NeZero n] in
theorem onFastAnswer (hlead : Leads f me s) {round : PaxosRound n} {rv : RoundV n} :
    Meets (f.onFastAnswer me order src round rv) s (Replied f me heard s)
      (fun _ => Voiced me (f.mode = .ePaxos) heard s) := by
  cases rv with
  | fastV proposer v =>
    refine (onRound fun r hr => .epaxosAnswered hr).read (fun _ t ht => Meets.get ?_)
      fun _ _ => failing
    split
    · exact announced ht (fun _ => nofun) nofun
    · split
      · refine Acts.check.read (fun _ u hu => ?_) fun _ _ hu => failing (ht.trans hu)
        have htu := ht.trans hu
        refine (changeRound ⟨fun _ => rfl, fun _ => rfl⟩).read (fun _ w hw => ?_)
          fun _ _ hw => failing (htu.trans hw)
        have hsw := htu.trans hw
        refine (acceptPhase (hlead.goes hsw)).read (fun _ _ hw' => hsw.trans hw')
          fun _ _ hw' => failing (hsw.trans hw')
      · exact ht
  | paxosV acceptRound v => exact Or.inl .refl

variable [NeZero n] in
theorem onPromise (hlead : Leads f me s) {round : PaxosRound n} {rv : RoundV n}
    {wasPrepared : Bool} :
    Meets (f.onPromise me order src round rv wasPrepared) s (Replied f me heard s)
      (fun _ => Voiced me (f.mode = .ePaxos) heard s) := by
  refine (changeRound .receivePromise).read (fun _ t ht => Meets.get ?_) fun _ _ => failing
  have hphase : Meets (do
      f.acceptPhase me round
      return none) t (Replied f me heard s) (fun _ => Voiced me (f.mode = .ePaxos) heard s) :=
    (acceptPhase (hlead.goes ht)).read (fun _ _ hu => ht.trans hu) fun _ _ hu => failing (ht.trans hu)
  split
  · split
    · exact hand ht clientPrepare
    · split
      · exact hphase
      · exact ht
  · split
    · exact hand ht (onFastAnswer (hlead.goes ht))
    · split
      · exact hphase
      · exact ht

variable [NeZero n] in
theorem onPrepare {round : PaxosRound n} (hround : s.roundState.round = round) {rv : RoundV n} :
    Meets (f.onPrepare me order src round rv) s (Replied f me heard s)
      (fun _ => Voiced me (f.mode = .ePaxos) heard s) := by
  refine (changeRound ?_).read (fun _ t ht => Meets.get ?_) fun _ _ => failing
  · split
    · exact .receivePromise
    · exact .refl
  · split
    · split
      · exact ht
      · have hanswer : (conduct f me heard True).Acts
            (f.answerPrepare me (f.delegateOrLeader me round (some rv))) t := answerPrepare
        refine hanswer.read (fun _ u hu => ?_) fun _ _ hu => failing (ht.trans hu)
        refine Acts.check.read (fun _ w hw => (ht.trans hu).trans hw)
          fun _ _ hw => failing ((ht.trans hu).trans hw)
    · rename_i hdelegate
      refine hand ht (onPromise fun hmode round' hround' => ?_)
      have heq : round' = round := by
        rw [ht.keeps.2.2.2.round trivial, hround] at hround'
        exact (WithBot.coe_injective hround').symm
      rw [heq]
      simpa [delegateOrLeader, hmode] using hdelegate

variable [NeZero n] in
theorem acceptQuorum {round : PaxosRound n} {v : Nat}
    (hvalue : s.roundState.getV.isSome = true)
    (hheard : f.mode = .ePaxos → heard me s.slot v ∧ s.roundState.getV = some v) :
    Meets (f.acceptQuorum me round v) s (Replied f me heard s)
      (fun _ => Voiced me (f.mode = .ePaxos) heard s) := by
  refine Meets.get ?_
  split
  · rw [Turn.leaveFastPath, Lib.Turn.meets_bind, Lib.Turn.meets_modify]
    set t : PaxosFamilyShard n := { s with slotLeftFastPath := true } with ht
    have hgoes : (conduct f me heard True).Goes s t :=
      ⟨⟨rfl, fun _ => rfl, fun _ => Or.inr hvalue, .refl⟩, .of_eq rfl⟩
    have hannounced : Meets (do
        PaxosFamily.broadcastCommit me
        f.commitQuietly v false) t (Replied f me heard s)
        (fun _ => Voiced me (f.mode = .ePaxos) heard s) :=
      announced hgoes (fun hmode _ => hheard hmode) fun _ => rfl
    have hquiet : Meets (f.commitQuietly v false) t (Replied f me heard s)
        (fun _ => Voiced me (f.mode = .ePaxos) heard s) :=
      commitQuietly (hgoes.said.mono fun _ => Or.inl) rfl (fun hmode _ => (hheard hmode).1)
        fun _ => Or.inl rfl
    split
    · exact hannounced
    · split
      · split
        · exact failing hgoes
        · split
          · exact hannounced
          · exact hquiet
      · exact hquiet
  · exact Goes.refl

variable [NeZero n] in
theorem amCommitter_phased {v : Nat} (h : f.amCommitter me v = true) : ¬ f.mode = .ePaxos := by
  intro hmode
  simp [amCommitter, hmode, PFModeSetting.isSwift] at h

variable [NeZero n] in
theorem onLeaderAccept {round : PaxosRound n} {v : Nat}
    (hvalue : s.roundState.getV.isSome = true)
    (hheard : f.mode = .ePaxos → ∀ (round : PaxosRound n) v,
      s.roundState.round = round → s.roundState.getV = some v → heard round.leader s.slot v) :
    Meets (f.onLeaderAccept me src round v) s (Replied f me heard s)
      (fun _ => Voiced me (f.mode = .ePaxos) heard s) := by
  have hanswer : (Conduct.still me (f.mode = .ePaxos) heard).Acts (f.answerAccept me) s :=
    answerAccept hheard
  refine hanswer.read (fun _ t ht => ?_) fun _ _ ht => Or.inl ht.said
  have hstill : t = { s with sinks := t.sinks } := ht.keeps
  have hgoes : (conduct f me heard True).Goes s t := by
    rw [hstill]
    exact ⟨⟨rfl, id, Or.inl, .refl⟩, ht.said⟩
  split
  · rename_i hcommitter
    have hmode := amCommitter_phased hcommitter
    split
    · refine (onRound fun r hr => .swiftAnswered hr).read (fun _ u hu => Meets.get ?_)
        fun _ _ hu => failing (hgoes.trans hu)
      split
      · exact fastCommit (hgoes.trans hu)
      · have hsu := hgoes.trans hu
        exact hand hsu (acceptQuorum (hsu.keeps.2.2.2.value hvalue) fun hm => absurd hm hmode)
    · exact hand hgoes (acceptQuorum (hgoes.keeps.2.2.2.value hvalue) fun hm => absurd hm hmode)
  · exact hgoes

variable [NeZero n] in
theorem onAccept {round : PaxosRound n} {v : Nat} (hround : s.roundState.round = round)
    (hheard : heard round.leader s.slot v) :
    Meets (f.onAccept me src round v) s
      (fun r t => Replied f me heard s r t ∧
        (r = none → f.mode = .ePaxos → t.slotLeftFastPath = true))
      (fun _ => Voiced me (f.mode = .ePaxos) heard s) := by
  have hrest : ∀ left, (s.slotLeftFastPath = true → left = true) → (f.mode = .ePaxos → left = true) →
      Meets (do
        f.acceptFrom me src round v
        if me ≠ round.leader then
          if src = f.delegateOrLeader me round none then f.onLeaderAccept me src round v
          else
            check (f.amCommitter me v) .failed
            f.acceptQuorum me round v
        else f.acceptQuorum me round v) { s with slotLeftFastPath := left }
        (fun r t => Replied f me heard s r t ∧
          (r = none → f.mode = .ePaxos → t.slotLeftFastPath = true))
        (fun _ => Voiced me (f.mode = .ePaxos) heard s) := by
    intro left hleft hmarked
    rw [Lib.Turn.meets_bind]
    refine (acceptFrom left hleft).mono (fun _ t ht => ?_) fun _ _ => Or.inl
    obtain ⟨hgoes, htleft, htround, htvalue⟩ := ht
    have hend : ∀ {m : PFTurn n (Option (CommandBatch n))},
        Meets m t (Replied f me heard t) (fun _ => Voiced me (f.mode = .ePaxos) heard t) →
        Meets m t (fun r u => Replied f me heard s r u ∧
          (r = none → f.mode = .ePaxos → u.slotLeftFastPath = true))
          (fun _ => Voiced me (f.mode = .ePaxos) heard s) := by
      refine fun hm => hm.mono (fun r u hu => ⟨hu.after hgoes, ?_⟩)
        fun _ _ hu => hu.after hgoes.said hgoes.keeps.1
      rintro rfl hmode
      exact hu.keeps.2.1 (htleft.trans (hmarked hmode))
    have hsome : t.roundState.getV.isSome = true := htvalue ▸ rfl
    split
    · split
      · refine hend (onLeaderAccept hsome fun _ round' v' hround' hv' => ?_)
        rw [htround, hround] at hround'
        rw [htvalue] at hv'
        obtain rfl := WithBot.coe_injective hround'
        obtain rfl := Option.some.inj hv'
        exact hgoes.keeps.1 ▸ hheard
      · rw [Lib.Turn.meets_bind, meets_check]
        refine ⟨fun hcommitter => ?_, fun _ => failing hgoes⟩
        exact hend (acceptQuorum hsome fun hmode => absurd hmode (amCommitter_phased hcommitter))
    · rename_i hme
      refine hend (acceptQuorum hsome fun _ => ⟨?_, htvalue⟩)
      rw [hgoes.keeps.1, Decidable.not_not.1 hme]
      exact hheard
  rw [PaxosFamily.onAccept]
  split
  · rename_i hswift
    refine hrest s.slotLeftFastPath id fun hmode => ?_
    simp [hmode, PFModeSetting.isSwift] at hswift
  · rw [Turn.leaveFastPath, Lib.Turn.meets_bind, Lib.Turn.meets_modify]
    exact hrest true (fun _ => rfl) fun _ => rfl

theorem enterRound {slot : Nat} {round : PaxosRound n} :
    Meets (f.enterRound src slot round) s
      (fun entered t => t.slot = s.slot ∧ t.slotLeftFastPath = s.slotLeftFastPath ∧
        t.roundState.getV = s.roundState.getV ∧ t.sinks = s.sinks ∧
        (entered = true → slot = s.slot ∧ t.roundState.round = round))
      (fun _ t => t.sinks = s.sinks) := by
  refine Meets.get ?_
  split
  · exact ⟨rfl, rfl, rfl, rfl, nofun⟩
  · rename_i hlow
    simp only [PaxosFamily.changeRound, Lib.Turn.meets_bind, Lib.Turn.meets_modify, meets_check,
      Lib.Turn.meets_pure]
    refine ⟨fun hslot => ⟨fun _ => ⟨trivial, trivial, ?_, trivial, fun _ => ⟨?_, ?_⟩⟩, fun _ => trivial⟩,
      fun _ => trivial⟩
    · split
      · rfl
      · rfl
    · exact of_decide_eq_true hslot
    · split
      · rfl
      · rename_i hnot
        exact le_antisymm (not_lt.1 (not_or.1 hlow).2) (not_lt.1 hnot) |>.symm ▸ rfl

theorem noteOutranked {slot : Nat} :
    Meets (PaxosFamily.noteOutranked slot) s
      (fun r t => r = none ∧ (conduct f me heard True).Goes s t ∧
        (slot = s.slot → .outranked s.slot ∈ t.sinks))
      (fun _ => Voiced me (f.mode = .ePaxos) heard s) := by
  refine Meets.get ?_
  split
  · rename_i hslot
    rw [Turn.emit, Lib.Turn.meets_bind, Lib.Turn.meets_modify]
    refine ⟨rfl, ⟨⟨rfl, id, Or.inl, .refl⟩, [_], rfl, fun e he => ?_⟩, fun _ => ?_⟩
    · exact List.mem_singleton.1 he ▸ trivial
    · exact List.mem_append_right _ (List.mem_singleton.2 (congrArg Event.outranked hslot.symm))
  · exact ⟨rfl, Goes.refl, fun hslot => absurd hslot ‹_›⟩

theorem answered {msg : ConsensusMsg n} {r : Option (CommandBatch n)} {u : PaxosFamilyShard n}
    (h : Replied f me msg.Accepts t r u) (hslot : t.slot = s.slot)
    (hleft : t.slotLeftFastPath = s.slotLeftFastPath)
    (hvalue : t.roundState.getV = s.roundState.getV) (hsinks : t.sinks = s.sinks)
    (hseen : r = none → f.mode = .ePaxos → f.replica me = true → ∀ leader v,
      msg.Accepts leader s.slot v → u.slotLeftFastPath = true ∨ .outranked s.slot ∈ u.sinks) :
    Answered me (f.mode = .ePaxos) (f.replica me = true) Valued msg s r u := by
  have hsaid : Said (fun e => e.Plain me (f.mode = .ePaxos) msg.Accepts) s t := .of_eq hsinks
  cases r with
  | none =>
    obtain ⟨hgoes, hsay⟩ := h
    refine ⟨⟨hgoes.1.trans hslot, fun hl => hgoes.2.1 (hleft.trans hl), fun hbusy hl => ?_⟩,
      hsaid.trans hsay, fun hmode hvoter leader v _ => hseen rfl hmode hvoter leader v⟩
    refine (hgoes.2.2.1 hl).elim (fun hl' => hgoes.2.2.2.value ?_) id
    exact hvalue ▸ hbusy (hleft.symm.trans hl')
  | some value =>
    obtain ⟨v, fast, htold, hslot', hroute⟩ := h
    exact ⟨v, fast, htold.after hsaid hslot, hslot'.trans (congrArg (· + 1) hslot), hroute⟩

variable [NeZero n] in
theorem processMessage {msg : ConsensusMessage n} :
    Meets (f.processMessage me order msg) s
      (Answered me (f.mode = .ePaxos) (f.replica me = true) Valued msg.msg s)
      (fun _ => Voiced me (f.mode = .ePaxos) msg.msg.Accepts s) := by
  obtain ⟨msg, src, lastV⟩ := msg
  rw [PaxosFamily.processMessage]
  have hfail : ∀ {t u}, t.sinks = s.sinks → t.slot = s.slot →
      Voiced me (f.mode = .ePaxos) msg.Accepts t u → Voiced me (f.mode = .ePaxos) msg.Accepts s u :=
    fun hsinks hslot hu => hu.after (.of_eq hsinks) hslot
  have hidle : Replied f me msg.Accepts s none s := Goes.refl
  split
  · rename_i hquiet
    refine answered hidle rfl rfl rfl rfl fun _ _ hvoter => ?_
    rw [hvoter] at hquiet
    cases hquiet
  · cases msg with
    | paxosM m =>
      cases m with
      | forwardRequest v =>
        exact answered hidle rfl rfl rfl rfl fun _ _ _ _ _ => False.elim
      | prepare slot round rv =>
        rw [Lib.Turn.meets_bind]
        refine enterRound.mono ?_ fun _ _ hs => Or.inl (.of_eq hs)
        rintro entered t ⟨hslot, hleft, hvalue, hsinks, hentered⟩
        have hend : ∀ {r u}, Replied f me (ConsensusMsg.paxosM (.prepare slot round rv)).Accepts t r u →
            Answered me (f.mode = .ePaxos) (f.replica me = true) Valued
              (.paxosM (.prepare slot round rv)) s r u :=
          fun hu => answered hu hslot hleft hvalue hsinks fun _ _ _ _ _ => False.elim
        split
        · exact hend (r := none) Goes.refl
        · rename_i hin
          have hround := (hentered (by simpa using hin)).2
          split
          · exact (onPrepare hround).mono (fun _ _ => hend) fun _ _ => hfail hsinks hslot
          · exact clientPrepare.mono (fun _ _ => hend) fun _ _ => hfail hsinks hslot
      | accept slot round v =>
        rw [Lib.Turn.meets_bind]
        refine enterRound.mono ?_ fun _ _ hs => Or.inl (.of_eq hs)
        rintro entered t ⟨hslot, hleft, hvalue, hsinks, hentered⟩
        split
        · refine noteOutranked.mono ?_ fun _ _ => hfail hsinks hslot
          rintro r u ⟨rfl, hgoes, hnote⟩
          refine answered hgoes hslot hleft hvalue hsinks fun _ _ _ leader w hw => Or.inr ?_
          exact hslot ▸ hnote (hw.1.trans hslot.symm)
        · rename_i hin
          obtain ⟨hcurrent, hround⟩ := hentered (by simpa using hin)
          split
          · refine (onAccept hround ⟨hcurrent.trans hslot.symm, rfl, rfl⟩).mono (fun r u hu => ?_)
              fun _ _ => hfail hsinks hslot
            exact answered hu.1 hslot hleft hvalue hsinks fun hr hmode _ _ _ _ => Or.inl (hu.2 hr hmode)
          · rename_i hclient
            refine (clientAccept hclient).mono (fun r u hu => ?_) fun _ _ => hfail hsinks hslot
            exact answered hu hslot hleft hvalue hsinks fun _ _ hvoter => absurd hvoter hclient
    | _ => exact Or.inl .refl

theorem proposes {m : PFTurn n Unit} (hm : (conduct f me (fun _ _ _ => False) False).Acts m s) :
    Meets m s (fun _ => Proposed me (f.mode = .ePaxos) Valued s)
      (fun _ => Proposed me (f.mode = .ePaxos) Valued s) := by
  have hgoes : ∀ t, (conduct f me (fun _ _ _ => False) False).Goes s t →
      Proposed me (f.mode = .ePaxos) Valued s t := by
    refine fun t ht => ⟨⟨ht.keeps.1, ht.keeps.2.1, fun hbusy hl => ?_⟩, ht.said⟩
    exact (ht.keeps.2.2.1 hl).elim (fun hl' => ht.keeps.2.2.2.value (hbusy hl')) id
  exact Meets.mono hm (fun _ => hgoes) fun _ => hgoes

variable [NeZero n] in
theorem candid : Candid me (f.mode = .ePaxos) (f.replica me = true) Valued (f.algorithm me order) where
  processMessage _ := processMessage
  proposeStart := proposes proposeStart
  reproposeStart := proposes propose
  commitSlot := ⟨fun r => (r.gotoRound f.startingRound).fullClear, fun _ => rfl⟩
  restless h := by
    have hongoing : (f.algorithm me order).ongoing _ = true := h
    rw [ConsensusShard.canSleep, hongoing]
    rfl
  lasting _ hround h := by
    rw [Valued, hround]
    exact h

end Conducts

end PaxosFamily

end KCensus.Slots

import KCensus.Slots.Frugal
import KCensus.Slots.PaxosFamily.Shard

namespace KCensus.Slots

open Lib.Turn (Meets Along)
open Turn Conduct

variable {n : Nat} [NeZero n]

namespace PaxosFamily

variable {f : PaxosFamily n} {me src dest : Fin n} {order : HashOrder n} {s t : PaxosFamilyShard n}
  {b : PaxosRound n} {v : Nat} {rv : RoundV n}

namespace Hushes

omit [NeZero n] in
theorem changeRound {g : PaxosFamilyRoundState n → PaxosFamilyRoundState n} :
    Along (Hushed me) (PaxosFamily.changeRound g) s :=
  ⟨rfl, rfl, rfl, rfl, rfl, id, .of_eq rfl⟩

omit [NeZero n] in
theorem sendMsg {msg : PaxosMsg n} : Along (Hushed me) (f.sendMsg me msg dest) s := Hushed.send

omit [NeZero n] in
theorem answerPrepare : Along (Hushed me) (f.answerPrepare me dest) s :=
  Meets.get (Along.bind Hushed.lift fun _ _ _ => .bind Hushed.lift fun _ _ _ => sendMsg)

omit [NeZero n] in
theorem castVote : Along (Hushed me) (f.castVote me b v) s := by
  refine Meets.get ?_
  split
  · exact Hushed.emit trivial
  · exact refl s

omit [NeZero n] in
theorem acceptFrom : Along (Hushed me) (f.acceptFrom me src b v) s :=
  .bind Hushed.onRound fun _ _ _ => castVote

omit [NeZero n] in
theorem acceptMine : Along (Hushed me) (f.acceptMine me b) s :=
  .bind Hushed.onRound fun _ _ _ => .bind Hushed.lift fun _ _ _ => castVote

omit [NeZero n] in
theorem broadcastAccept : Along (Hushed me) (f.broadcastAccept me) s := by
  have hsay : ∀ t : PaxosFamilyShard n, Along (Hushed me) (do
      let s ← get
      let round ← lift PaxosFamily.roundOf
      let v ← lift PaxosFamily.valueOf
      PaxosFamily.broadcastMsg me (.accept s.slot round v) false) t := fun t =>
    Meets.get (Along.bind Hushed.lift fun _ _ _ => .bind Hushed.lift fun _ _ _ =>
      Meets.get Hushed.priorityBroadcast)
  rw [PaxosFamily.broadcastAccept]
  split
  · exact hsay s
  · exact .bind Hushed.leaveFastPath fun _ _ _ => hsay _

theorem answerAccept : Along (Hushed me) (f.answerAccept me) s := by
  refine Meets.get (Along.bind Hushed.lift fun _ _ _ => .bind Hushed.lift fun _ _ _ => ?_)
  dsimp only
  split
  · exact .bind sendMsg fun _ _ _ => sendMsg
  · exact sendMsg

omit [NeZero n] in
theorem acceptPhase : Along (Hushed me) (f.acceptPhase me b) s :=
  .bind acceptMine fun _ _ _ => broadcastAccept

theorem broadcastCommit : Along (Hushed me) (PaxosFamily.broadcastCommit me) s :=
  Meets.get (Along.bind Hushed.lift fun _ _ _ => Hushed.priorityBroadcast)

theorem commitQuietly {fast : Bool} : Concludes me (f.commitQuietly v fast) s := by
  refine .get (.bind (Hushed.emit trivial) fun _ t _ => ?_)
  exact Lib.Turn.meets_bind.2 (advance_advanced.mono (fun _ _ hu => ⟨t, v, refl t, hu⟩)
    fun _ u hu => hu ▸ (refl t : Hushed me t t))

theorem onFast {quorum : Bool} : Concludes me (do
    let s ← get
    if s.roundState.swiftCanCommit f.cluster quorum then f.commitQuietly v true else return none) s := by
  refine .get ?_
  split
  · exact commitQuietly
  · exact .none

theorem clientAnswer {quorum : Option (Finset (Fin n))} :
    Concludes me (f.clientAnswer me src b rv quorum) s := by
  cases rv with
  | fastV proposer v => exact .bind .check fun _ _ _ => .bind Hushed.onRound fun _ _ _ => onFast
  | paxosV a v => exact .throw

theorem clientPrepare : Concludes me (f.clientPrepare me src b rv) s := by
  rw [PaxosFamily.clientPrepare]
  split
  · exact .none
  · split
    · exact clientAnswer
    · exact .throw

theorem clientVote : Concludes me (f.clientVote me src b v) s := by
  refine .bind acceptFrom fun _ t _ => .get ?_
  split
  · exact commitQuietly
  · exact .none

theorem clientAccept : Concludes me (f.clientAccept me src b v) s := by
  rw [PaxosFamily.clientAccept]
  split
  · exact .none
  · split
    · split
      · refine .bind Hushed.onRound fun _ t _ => .get ?_
        split
        · exact commitQuietly
        · exact clientVote
      · exact clientVote
    · exact .throw

theorem onFastAnswer : Concludes me (f.onFastAnswer me order src b rv) s := by
  cases rv with
  | fastV proposer v =>
    refine .bind Hushed.onRound fun _ t _ => .get ?_
    split
    · exact .bind broadcastCommit fun _ _ _ => commitQuietly
    · split
      · exact .bind .check fun _ _ _ => .bind changeRound fun _ _ _ => .of_along acceptPhase
      · exact .none
  | paxosV a v => exact .throw

theorem onPromise {wasPrepared : Bool} :
    Concludes me (f.onPromise me order src b rv wasPrepared) s := by
  refine .bind changeRound fun _ t _ => .get ?_
  split
  · split
    · exact clientPrepare
    · split
      · exact .of_along acceptPhase
      · exact .none
  · split
    · exact onFastAnswer
    · split
      · exact .of_along acceptPhase
      · exact .none

theorem onPrepare : Concludes me (f.onPrepare me order src b rv) s := by
  refine .bind changeRound fun _ t _ => .get ?_
  split
  · split
    · exact .none
    · exact .bind answerPrepare fun _ _ _ => .of_along .check
  · exact onPromise

theorem acceptQuorum : Concludes me (f.acceptQuorum me b v) s := by
  refine .get ?_
  split
  · refine .bind Hushed.leaveFastPath fun _ t _ => ?_
    split
    · exact .bind broadcastCommit fun _ _ _ => commitQuietly
    · split
      · split
        · exact .throw
        · split
          · exact .bind broadcastCommit fun _ _ _ => commitQuietly
          · exact commitQuietly
      · exact commitQuietly
  · exact .none

theorem onLeaderAccept : Concludes me (f.onLeaderAccept me src b v) s := by
  refine .bind answerAccept fun _ t _ => ?_
  split
  · split
    · refine .bind Hushed.onRound fun _ u _ => .get ?_
      split
      · exact commitQuietly
      · exact acceptQuorum
    · exact acceptQuorum
  · exact .none

theorem onAccept : Concludes me (f.onAccept me src b v) s := by
  have hrest : ∀ t : PaxosFamilyShard n, Concludes me (do
      f.acceptFrom me src b v
      if me ≠ b.leader then
        if src = f.delegateOrLeader me b none then f.onLeaderAccept me src b v
        else
          check (f.amCommitter me v) .failed
          f.acceptQuorum me b v
      else f.acceptQuorum me b v) t := by
    refine fun t => .bind acceptFrom fun _ u _ => ?_
    split
    · split
      · exact onLeaderAccept
      · exact .bind .check fun _ _ _ => acceptQuorum
    · exact acceptQuorum
  rw [PaxosFamily.onAccept]
  split
  · exact hrest s
  · exact .bind Hushed.leaveFastPath fun _ t _ => hrest t

omit [NeZero n] in
theorem enterRound {slot : Nat} : Along (Hushed me) (f.enterRound src slot b) s := by
  refine Meets.get ?_
  split
  · exact refl s
  · exact Along.bind changeRound fun _ _ _ => .bind .check fun _ _ _ => .bind .check fun _ t _ => refl t

omit [NeZero n] in
theorem noteOutranked {slot : Nat} :
    Concludes me (PaxosFamily.noteOutranked slot : PFTurn n (Option (CommandBatch n))) s := by
  refine .get ?_
  split
  · exact .of_along (Hushed.emit trivial)
  · exact .none

theorem processMessage {msg : ConsensusMessage n} : Concludes me (f.processMessage me order msg) s := by
  rw [PaxosFamily.processMessage]
  split
  · exact .none
  · split
    · exact .none
    · refine .bind enterRound fun entered t _ => ?_
      split
      · exact .none
      · split
        · exact onPrepare
        · exact clientPrepare
    · refine .bind enterRound fun entered t _ => ?_
      split
      · exact noteOutranked
      · split
        · exact onAccept
        · exact clientAccept
    · exact .throw

omit [NeZero n] in
theorem suggest : Meets (f.suggest me v) s (fun rv t => Hushed me s t ∧ rv.getV = v)
    (fun _ => Hushed me s) := by
  have hanswer : ∀ {g : PaxosFamilyRoundState n → Except Panic (PaxosFamilyRoundState n)},
      Meets (do
        onRound g
        return RoundV.fastV me v : PFTurn n (RoundV n)) s
        (fun rv t => Hushed me s t ∧ rv.getV = v) (fun _ => Hushed me s) := fun {g} =>
    Along.read Hushed.onRound (fun _ _ ht => ⟨ht, rfl⟩) fun _ _ => id
  rw [PaxosFamily.suggest]
  split
  · exact hanswer
  · exact hanswer
  · exact ⟨refl s, rfl⟩

theorem propose {withValue : Bool} {Q : Unit → PaxosFamilyShard n → Prop}
    {E : Panic → PaxosFamilyShard n → Prop}
    (hsay : ∀ (msg : PaxosMsg n) t, Hushed me s t → msg.getV = v →
      Meets (PaxosFamily.broadcastMsg me msg withValue) t Q E)
    (hfail : ∀ e t, Hushed me s t → E e t) : Meets (f.propose me v withValue) s Q E := by
  have hstep : ∀ {α : Type} {m : PFTurn n α} {k : α → PFTurn n Unit} {t : PaxosFamilyShard n},
      Hushed me s t → Along (Hushed me) m t →
      (∀ a u, Hushed me s u → Meets (k a) u Q E) → Meets (m >>= k) t Q E :=
    fun ht hm hk => hm.read (fun a u hu => hk a u (IsTrans.trans _ _ _ ht hu))
      fun e u hu => hfail e u (IsTrans.trans _ _ _ ht hu)
  refine Meets.get (hstep (refl s) .check fun _ t ht => hstep ht .check fun _ t ht =>
    hstep ht changeRound fun _ t ht => hstep ht .check fun _ t ht => ?_)
  split
  · exact hstep ht changeRound fun _ t ht => hstep ht acceptMine fun _ t ht => hsay _ t ht rfl
  · refine Lib.Turn.meets_bind.2 (suggest.mono (fun rv u hu => ?_) fun e u hu =>
      hfail e u (IsTrans.trans _ _ _ ht hu))
    exact hstep (IsTrans.trans _ _ _ ht hu.1) changeRound fun _ w hw => hsay _ w hw hu.2

theorem announce {value : CommandBatch n} (hvalue : s.queuedCommands.lookup v = some value) :
    Meets (f.propose me v true) s (fun _ => Announces me v value s)
      (fun _ => Announces me v value s) := by
  refine propose (fun msg t ht hv => Meets.get ?_) fun _ _ ht => ht.announces
  rw [if_pos rfl, hv, ht.commands, hvalue]
  exact Meets.get (ht.announced rfl (congrArg some hv) rfl)

theorem proposeStart {value : CommandBatch n} {contention : Bool} :
    Meets (f.proposeStart me value contention) s (fun _ => Introduced me s value)
      (fun _ t => Hushed me s t ∨ Introduced me s value t) := by
  have hforward : Meets (f.forward me value) s (fun _ => Introduced me s value)
      (fun _ t => Hushed me s t ∨ Introduced me s value t) := by
    have hstored : Hushed me (withCreated s (freshUid s value) value)
      (withCreated s (freshUid s value) value) := refl _
    exact hstored.announced rfl rfl rfl
  have hnew : Meets (f.proposeNew me value) s (fun _ => Introduced me s value)
      (fun _ t => Hushed me s t ∨ Introduced me s value t) := by
    have hfound : (withCreated s (freshUid s value) value).queuedCommands.lookup (freshUid s value) =
        some value := AList.lookup_insert _
    exact (announce hfound).mono (fun _ _ => id) fun _ _ => Or.inr
  rw [PaxosFamily.proposeStart]
  split
  · exact hforward
  · split
    · refine Lib.Turn.meets_bind.2 (meets_lift.2 ⟨fun lead _ => ?_, fun _ _ => Or.inl (refl s)⟩)
      split
      · exact hnew
      · exact hforward
    · exact hnew

theorem frugal : Frugal me (f.algorithm me order) where
  processMessage := processMessage
  commitSlot {s v} := by
    have hadvance : Meets (f.commitSlot v) s (Advanced s v) (fun _ t => t = s) := advance_advanced
    exact hadvance
  proposeStart := proposeStart
  reproposeStart := propose (fun _ _ ht _ => Meets.get (Hushed.priorityBroadcast.mono
    (fun _ _ hu => IsTrans.trans _ _ _ ht hu) fun _ _ hu => IsTrans.trans _ _ _ ht hu)) fun _ _ ht => ht
  forwards _ := rfl

end Hushes

end PaxosFamily

end KCensus.Slots

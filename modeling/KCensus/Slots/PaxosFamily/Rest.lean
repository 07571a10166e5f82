import KCensus.Slots.PaxosFamily.Conduct
import KCensus.Slots.Rest

namespace KCensus.Slots

open Lib.Turn (Meets Along)
open Turn Rest

variable {n : Nat} [NeZero n]

namespace PaxosFamily

def Speaks : ConsensusMsg n → Bool → Prop
  | .kcensusM _, _ => False
  | _, _ => True

variable (f : PaxosFamily n) (me : Fin n)

def rest : Rest me (PaxosFamilyRoundState n) where
  follows := f.mode.isSwift && !f.replica me
  readQuorum := f.cluster.majority
  speaks := Speaks
  fit _ := True
  valued r := r.getV.isSome = true
  idle := f.newRoundState

variable {f me} {src : Fin n} {order : HashOrder n} {s t : PaxosFamilyShard n}

namespace Rests

open PaxosFamilyRoundState (Stays)

theorem proper {msg : PaxosMsg n} {value : Option (CommandBatch n)} {lastV : Option Nat} :
    (f.rest me).Proper ⟨⟨.paxosM msg, me, lastV⟩, value⟩ :=
  ⟨rfl, fun hread => (by cases hread), trivial⟩

theorem sendMsg {msg : PaxosMsg n} {dest : Fin n} : (f.rest me).Keeps (f.sendMsg me msg dest) s :=
  Keeps.send fun _ => proper

theorem broadcastMsg {msg : PaxosMsg n} {withValue : Bool} :
    (f.rest me).Keeps (PaxosFamily.broadcastMsg me msg withValue) s := by
  refine Keeps.get ?_
  split
  · split
    · exact Keeps.priorityBroadcast fun _ => proper
    · exact .throw _
  · exact Keeps.priorityBroadcast fun _ => proper

theorem changeRound {g : PaxosFamilyRoundState n → PaxosFamilyRoundState n}
    (hg : Stays False s.roundState (g s.roundState)) :
    (f.rest me).Keeps (PaxosFamily.changeRound g) s := Keeps.changeRound id hg.value

theorem onRound {g : PaxosFamilyRoundState n → Except Panic (PaxosFamilyRoundState n)}
    (hg : ∀ r, g s.roundState = .ok r → Stays False s.roundState r) :
    (f.rest me).Keeps (Turn.onRound g) s := Keeps.onRound (fun _ _ => id) fun r hr => (hg r hr).value

theorem answerPrepare {dest : Fin n} : (f.rest me).Keeps (f.answerPrepare me dest) s :=
  Keeps.get (.bind Keeps.lift fun _ _ _ => .bind Keeps.lift fun _ _ _ => sendMsg)

theorem castVote {round : PaxosRound n} {v : Nat} :
    (f.rest me).Keeps (f.castVote me round v) s := by
  refine Keeps.get ?_
  split
  · exact Keeps.emit trivial rfl
  · exact .pure _

theorem broadcastAccept : (f.rest me).Keeps (f.broadcastAccept me) s := by
  have hsay : ∀ t, (f.rest me).Keeps (do
      let s ← get
      let round ← lift PaxosFamily.roundOf
      let v ← lift PaxosFamily.valueOf
      PaxosFamily.broadcastMsg me (.accept s.slot round v) false) t := fun t =>
    Keeps.get (.bind Keeps.lift fun _ _ _ => .bind Keeps.lift fun _ _ _ => broadcastMsg)
  rw [PaxosFamily.broadcastAccept]
  split
  · exact hsay s
  · exact .bind Keeps.leaveFastPath fun _ t _ => hsay t

theorem answerAccept : (f.rest me).Keeps (f.answerAccept me) s := by
  refine Keeps.get (.bind Keeps.lift fun round _ _ => .bind Keeps.lift fun v _ _ => ?_)
  dsimp only
  split
  · exact .bind sendMsg fun _ _ _ => sendMsg
  · exact sendMsg

theorem broadcastCommit : (f.rest me).Keeps (PaxosFamily.broadcastCommit me) s :=
  Keeps.get (.bind Keeps.lift fun _ _ _ => Keeps.priorityBroadcast fun _ =>
    ⟨rfl, fun hread => (by cases hread), trivial⟩)

theorem acceptMine {round : PaxosRound n} : (f.rest me).Keeps (f.acceptMine me round) s := by
  refine .bind (onRound fun r hr => ?_) fun _ _ _ => .bind Keeps.lift fun _ _ _ => castVote
  exact ⟨False.elim, fun _ => (PaxosFamilyRoundState.selfAccept_getV hr).2⟩

theorem acceptPhase {round : PaxosRound n} : (f.rest me).Keeps (f.acceptPhase me round) s :=
  .bind acceptMine fun _ _ _ => broadcastAccept

theorem acceptFrom {round : PaxosRound n} {v : Nat} :
    Meets (f.acceptFrom me src round v) s
      (fun _ t => (f.rest me).Kept s t ∧ t.roundState.getV.isSome = true)
      (fun _ => (f.rest me).Kept s) := by
  rw [PaxosFamily.acceptFrom, Lib.Turn.meets_bind, meets_onRound]
  refine ⟨fun r hr => ?_, fun _ _ => refl s⟩
  have hv : r.getV.isSome = true := (PaxosFamilyRoundState.receiveAccept_getV hr).2 ▸ rfl
  have ht : (f.rest me).Kept s { s with roundState := r } :=
    ⟨rfl, rfl, fun _ => id, id, fun _ => hv, .of_eq rfl⟩
  refine Meets.mono (castVote (f := f)) (fun _ u hu => ?_) fun _ _ => IsTrans.trans _ _ _ ht
  exact ⟨IsTrans.trans _ _ _ ht hu, hu.valued hv⟩

theorem suggest {v : Nat} : (f.rest me).Keeps (f.suggest me v) s := by
  rw [PaxosFamily.suggest]
  split
  · exact .bind (onRound fun r hr => .epaxosAnswered hr) fun _ _ _ => .pure _
  · exact .bind (onRound fun r hr => .swiftProposeV hr) fun _ _ _ => .pure _
  · exact .pure _

theorem propose {v : Nat} {withValue : Bool} :
    (f.rest me).Keeps (f.propose me v withValue) s := by
  refine Keeps.get (.bind .check fun _ _ _ => .bind .check fun _ _ _ => ?_)
  refine .bind (changeRound ⟨False.elim, id⟩) fun _ _ _ => .bind .check fun _ _ _ => ?_
  split
  · refine .bind (changeRound .receivePromise) fun _ _ _ => ?_
    exact .bind acceptMine fun _ _ _ => broadcastMsg
  · refine .bind suggest fun rv _ _ => .bind (changeRound .receivePromise) fun _ _ _ => ?_
    exact broadcastMsg

theorem storing {value : CommandBatch n} {next : Nat → PFTurn n Unit}
    (hnext : ∀ v t, (f.rest me).Keeps (next v) t) :
    Meets (storeNewCommand value >>= next) s
      (fun _ t => (f.rest me).Kept s t ∧ ∃ v, v ∈ t.queuedCommands)
      (fun _ => (f.rest me).Kept s) := by
  rw [Lib.Turn.meets_bind]
  refine Keeps.storeNewCommand.mono (fun v t ht => ?_) fun _ _ => id
  refine Meets.mono (hnext v t) (fun _ u hu => ?_) fun _ _ => IsTrans.trans _ _ _ ht.1
  exact ⟨IsTrans.trans _ _ _ ht.1 hu, v, hu.held v ht.2⟩

theorem proposeStart {value : CommandBatch n} {contention : Bool} :
    Meets (f.proposeStart me value contention) s
      (fun _ t => (f.rest me).Kept s t ∧ ∃ v, v ∈ t.queuedCommands)
      (fun _ => (f.rest me).Kept s) := by
  have hforward : ∀ {s}, Meets (f.forward me value) s
      (fun _ t => (f.rest me).Kept s t ∧ ∃ v, v ∈ t.queuedCommands)
      (fun _ => (f.rest me).Kept s) :=
    storing fun _ _ => Keeps.get (Keeps.priorityBroadcast fun _ => proper)
  have hnew : ∀ {s}, Meets (f.proposeNew me value) s
      (fun _ t => (f.rest me).Kept s t ∧ ∃ v, v ∈ t.queuedCommands)
      (fun _ => (f.rest me).Kept s) := storing fun _ _ => propose
  rw [PaxosFamily.proposeStart]
  split
  · exact hforward
  · split
    · rw [Lib.Turn.meets_bind, meets_lift]
      refine ⟨fun lead _ => ?_, fun _ _ => refl s⟩
      split
      · exact hnew
      · exact hforward
    · exact hnew

theorem commitSlot {v : Nat} : Meets (f.commitSlot v) s
    (fun value => (f.rest me).Ended s (some value)) (fun _ => (f.rest me).Kept s) :=
  Keeps.advance fun _ _ => rfl

theorem commitQuietly {v : Nat} {fast : Bool} :
    Meets (f.commitQuietly v fast) s ((f.rest me).Ended s) (fun _ => (f.rest me).Kept s) := by
  have hemit : (f.rest me).Keeps (emit (.decided s.slot v fast)) s := Keeps.emit trivial rfl
  exact Meets.get (Keeps.hand hemit fun _ _ _ => Lib.Turn.meets_bind.2 commitSlot)

theorem clientAnswer {round : PaxosRound n} {rv : RoundV n} {quorum : Option (Finset (Fin n))} :
    Meets (f.clientAnswer me src round rv quorum) s ((f.rest me).Ended s)
      (fun _ => (f.rest me).Kept s) := by
  cases rv with
  | fastV proposer v =>
    refine Keeps.hand .check fun _ _ _ => ?_
    refine Keeps.hand (onRound fun r hr => .swiftAnswered hr) fun _ t _ => Meets.get ?_
    split
    · exact commitQuietly
    · exact refl t
  | paxosV acceptRound v => exact refl s

theorem clientPrepare {round : PaxosRound n} {rv : RoundV n} :
    Meets (f.clientPrepare me src round rv) s ((f.rest me).Ended s)
      (fun _ => (f.rest me).Kept s) := by
  rw [PaxosFamily.clientPrepare]
  split
  · exact refl s
  · split
    · exact clientAnswer
    · exact refl s

theorem clientVote {round : PaxosRound n} {v : Nat} :
    Meets (f.clientVote me src round v) s ((f.rest me).Ended s)
      (fun _ => (f.rest me).Kept s) := by
  rw [PaxosFamily.clientVote, Lib.Turn.meets_bind]
  refine acceptFrom.mono (fun _ t ht => ht.1.hand (Meets.get ?_)) fun _ _ => id
  split
  · exact commitQuietly
  · exact refl t

theorem clientAccept {round : PaxosRound n} {v : Nat} :
    Meets (f.clientAccept me src round v) s ((f.rest me).Ended s)
      (fun _ => (f.rest me).Kept s) := by
  rw [PaxosFamily.clientAccept]
  split
  · exact refl s
  · split
    · split
      · refine Keeps.hand (onRound fun r hr => .swiftAnswered hr) fun _ t _ => Meets.get ?_
        split
        · exact commitQuietly
        · exact clientVote
      · exact clientVote
    · exact refl s

theorem onFastAnswer {round : PaxosRound n} {rv : RoundV n} :
    Meets (f.onFastAnswer me order src round rv) s ((f.rest me).Ended s)
      (fun _ => (f.rest me).Kept s) := by
  cases rv with
  | fastV proposer v =>
    refine Keeps.hand (onRound fun r hr => .epaxosAnswered hr) fun _ t _ => Meets.get ?_
    split
    · exact Keeps.hand broadcastCommit fun _ _ _ => commitQuietly
    · split
      · refine Keeps.hand .check fun _ _ _ => ?_
        refine Keeps.hand (changeRound ⟨False.elim, fun _ => rfl⟩) fun _ _ _ => ?_
        exact acceptPhase.read (fun _ _ hu => hu) fun _ _ => id
      · exact refl t
  | paxosV acceptRound v => exact refl s

theorem onPromise {round : PaxosRound n} {rv : RoundV n} {wasPrepared : Bool} :
    Meets (f.onPromise me order src round rv wasPrepared) s ((f.rest me).Ended s)
      (fun _ => (f.rest me).Kept s) := by
  refine Keeps.hand (changeRound .receivePromise) fun _ t _ => Meets.get ?_
  have hphase : Meets (do
      f.acceptPhase me round
      return none) t ((f.rest me).Ended t) (fun _ => (f.rest me).Kept t) :=
    acceptPhase.read (fun _ _ hu => hu) fun _ _ => id
  split
  · split
    · exact clientPrepare
    · split
      · exact hphase
      · exact refl t
  · split
    · exact onFastAnswer
    · split
      · exact hphase
      · exact refl t

theorem acceptQuorum {round : PaxosRound n} {v : Nat} :
    Meets (f.acceptQuorum me round v) s ((f.rest me).Ended s)
      (fun _ => (f.rest me).Kept s) := by
  refine Meets.get ?_
  split
  · refine Keeps.hand Keeps.leaveFastPath fun _ t _ => ?_
    split
    · exact Keeps.hand broadcastCommit fun _ _ _ => commitQuietly
    · split
      · split
        · exact refl t
        · split
          · exact Keeps.hand broadcastCommit fun _ _ _ => commitQuietly
          · exact commitQuietly
      · exact commitQuietly
  · exact refl s

theorem onLeaderAccept {round : PaxosRound n} {v : Nat} :
    Meets (f.onLeaderAccept me src round v) s ((f.rest me).Ended s)
      (fun _ => (f.rest me).Kept s) := by
  refine Keeps.hand answerAccept fun _ t _ => ?_
  split
  · split
    · refine Keeps.hand (onRound fun r hr => .swiftAnswered hr) fun _ u _ => Meets.get ?_
      split
      · exact commitQuietly
      · exact acceptQuorum
    · exact acceptQuorum
  · exact refl t

theorem valuing {m : PFTurn n (Option (CommandBatch n))} (h : (f.rest me).Kept s t)
    (hv : t.roundState.getV.isSome = true)
    (hm : Meets m t ((f.rest me).Ended t) (fun _ => (f.rest me).Kept t)) :
    Meets m t (fun r u => (f.rest me).Ended s r u ∧ (r = none → u.roundState.getV.isSome = true))
      (fun _ => (f.rest me).Kept s) := by
  refine hm.mono (fun r u hu => ⟨h.ended hu, ?_⟩) fun _ _ => IsTrans.trans _ _ _ h
  rintro rfl
  exact hu.valued hv

theorem onPrepare {round : PaxosRound n} {rv : RoundV n} :
    Meets (f.onPrepare me order src round rv) s
      (fun r t => (f.rest me).Ended s r t ∧ (r = none → t.roundState.getV.isSome = true))
      (fun _ => (f.rest me).Kept s) := by
  rw [PaxosFamily.onPrepare]
  set g : PaxosFamilyRoundState n → PaxosFamilyRoundState n :=
    fun r => if r.getV.isNone then r.paxosProposeV f.cluster me rv else r with hg
  have hvalue : (g s.roundState).getV.isSome = true := by
    rw [hg]
    dsimp only
    split
    · rename_i hnone
      have hmax : s.roundState.maxRv = none := by simpa [PaxosFamilyRoundState.getV] using hnone
      simp [PaxosFamilyRoundState.getV, PaxosFamilyRoundState.paxosProposeV,
        PaxosFamilyRoundState.receivePromise, hmax]
    · rename_i hsome
      exact Option.isSome_iff_ne_none.2 fun hn => hsome (hn ▸ rfl)
  have ht : (f.rest me).Kept s { s with roundState := g s.roundState } :=
    ⟨rfl, rfl, fun _ => id, id, fun _ => hvalue, .of_eq rfl⟩
  rw [PaxosFamily.changeRound, Lib.Turn.meets_bind, Lib.Turn.meets_modify]
  refine valuing ht hvalue (Meets.get ?_)
  split
  · split
    · exact refl (r := (f.rest me).Kept) _
    · refine Keeps.hand answerPrepare fun _ _ _ => ?_
      exact Along.check.read (fun _ _ hu => hu) fun _ _ => id
  · exact onPromise

theorem onAccept {round : PaxosRound n} {v : Nat} :
    Meets (f.onAccept me src round v) s
      (fun r t => (f.rest me).Ended s r t ∧ (r = none → t.roundState.getV.isSome = true))
      (fun _ => (f.rest me).Kept s) := by
  have hrest : ∀ {t}, (f.rest me).Kept s t → Meets (do
        f.acceptFrom me src round v
        if me ≠ round.leader then
          if src = f.delegateOrLeader me round none then f.onLeaderAccept me src round v
          else
            check (f.amCommitter me v) .failed
            f.acceptQuorum me round v
        else f.acceptQuorum me round v) t
        (fun r u => (f.rest me).Ended s r u ∧ (r = none → u.roundState.getV.isSome = true))
        (fun _ => (f.rest me).Kept s) := by
    intro t ht
    rw [Lib.Turn.meets_bind]
    refine acceptFrom.mono (fun _ u hu => ?_) fun _ _ => IsTrans.trans _ _ _ ht
    refine valuing (IsTrans.trans _ _ _ ht hu.1) hu.2 ?_
    split
    · split
      · exact onLeaderAccept
      · exact Keeps.hand .check fun _ _ _ => acceptQuorum
    · exact acceptQuorum
  rw [PaxosFamily.onAccept]
  split
  · exact hrest (refl s)
  · have hleave : (f.rest me).Keeps (leaveFastPath : PFTurn n Unit) s := Keeps.leaveFastPath
    exact hleave.read (fun _ t ht => hrest ht) fun _ _ => id

theorem enterRound (f : PaxosFamily n) (me : Fin n) {slot : Nat} {round : PaxosRound n} :
    Meets (f.enterRound src slot round) s
      (fun entered t => (f.rest me).Kept s t ∧ (entered = false → t = s) ∧
        (entered = true → slot = s.slot))
      (fun _ => (f.rest me).Kept s) := by
  refine Meets.get ?_
  split
  · exact ⟨refl s, fun _ => rfl, fun hin => by cases hin⟩
  · refine (changeRound ?_).read (fun _ t ht => ?_) fun _ _ => id
    · split
      · exact ⟨False.elim, id⟩
      · exact .refl
    · rw [Lib.Turn.meets_bind, meets_check]
      refine ⟨fun hslot => ?_, fun _ => ht⟩
      rw [Lib.Turn.meets_bind, meets_check]
      exact ⟨fun _ => ⟨ht, fun hout => (by cases hout), fun _ => of_decide_eq_true hslot⟩, fun _ => ht⟩

theorem processMessage {msg : ConsensusMessage n} (hready : s.readyToProcess me msg = .ok true) :
    Meets (f.processMessage me order msg) s ((f.rest me).Replied msg s)
      (fun _ => (f.rest me).Kept s) := by
  obtain ⟨msg, src, lastV⟩ := msg
  rw [PaxosFamily.processMessage]
  split
  · exact ⟨refl s, fun _ => Or.inl rfl⟩
  · rename_i hturn
    have hfollows : ¬ f.replica me = true → (f.rest me).follows = true := fun hvotes => by
      rw [Bool.not_eq_true] at hvotes
      rw [hvotes, Bool.not_false, Bool.true_and, Bool.not_eq_true', Bool.not_eq_false] at hturn
      exact Bool.and_eq_true_iff.2 ⟨hturn, congrArg _ hvotes⟩
    have hclient : ∀ {t} {m : PFTurn n (Option (CommandBatch n))} {slot : Nat},
        (f.rest me).Kept s t → ConsensusMessage.getSlot ⟨msg, src, lastV⟩ = some slot →
        ConsensusMessage.getV ⟨msg, src, lastV⟩ ≠ none → slot = s.slot →
        ¬ f.replica me = true →
        Meets m t ((f.rest me).Ended t) (fun _ => (f.rest me).Kept t) →
        Meets m t ((f.rest me).Replied ⟨msg, src, lastV⟩ s) (fun _ => (f.rest me).Kept s) := by
      intro t m slot ht hslot hv hcurrent hvotes hm
      subst hcurrent
      refine hm.mono (fun r u hu => ⟨ht.ended hu, ?_⟩) fun _ _ => IsTrans.trans _ _ _ ht
      rintro rfl
      have hsu : (f.rest me).Kept s u := ht.ended hu
      rcases ConsensusShard.ready_cases hready with ⟨-, hvalue | ⟨hvalue, -⟩⟩ | hlow
      · obtain ⟨v, hv⟩ := Option.ne_none_iff_exists'.1 hv
        obtain ⟨value, hlookup, -⟩ := ConsensusShard.holds_of_valueReady hvalue hv
        exact Or.inr (Or.inl (Or.inl ⟨v, hsu.held v (Lib.HashMap.mem_of_lookup hlookup)⟩))
      · exact Or.inr (Or.inr ⟨hfollows hvotes, hvalue, hslot⟩)
      · exact absurd (hlow _ hslot) (lt_irrefl _)
    have hvoter : ∀ {t} {m : PFTurn n (Option (CommandBatch n))}, (f.rest me).Kept s t →
        Meets m t (fun r u => (f.rest me).Ended t r u ∧ (r = none → u.roundState.getV.isSome = true))
          (fun _ => (f.rest me).Kept t) →
        Meets m t ((f.rest me).Replied ⟨msg, src, lastV⟩ s) (fun _ => (f.rest me).Kept s) :=
      fun ht hm => hm.mono
        (fun r u hu => ⟨ht.ended hu.1, fun hr => Or.inr (Or.inl (Or.inr (hu.2 hr)))⟩)
        fun _ _ => IsTrans.trans _ _ _ ht
    cases msg with
    | paxosM msg =>
      cases msg with
      | forwardRequest v => exact ⟨refl s, fun _ => Or.inl rfl⟩
      | prepare slot round rv =>
        rw [Lib.Turn.meets_bind]
        refine (enterRound f me).mono ?_ fun _ _ => id
        rintro entered t ⟨ht, hout, hin⟩
        cases entered with
        | false =>
          obtain rfl := hout rfl
          exact ⟨ht, fun _ => Or.inl rfl⟩
        | true =>
          rw [if_neg (by decide)]
          split
          · exact hvoter ht onPrepare
          · exact hclient ht rfl (fun hv => by cases hv) (hin rfl) ‹_› clientPrepare
      | accept slot round v =>
        rw [Lib.Turn.meets_bind]
        refine (enterRound f me).mono ?_ fun _ _ => id
        rintro entered t ⟨ht, hout, hin⟩
        cases entered with
        | false =>
          obtain rfl := hout rfl
          rw [if_pos (by decide)]
          refine Meets.get ?_
          split
          · exact ⟨⟨rfl, rfl, fun _ => id, id, id, [_], rfl, fun e he =>
              List.mem_singleton.1 he ▸ ⟨trivial, rfl⟩⟩, fun _ => Or.inl rfl⟩
          · exact ⟨ht, fun _ => Or.inl rfl⟩
        | true =>
          rw [if_neg (by decide)]
          split
          · exact hvoter ht onAccept
          · exact hclient ht rfl (fun hv => by cases hv) (hin rfl) ‹_› clientAccept
    | _ => exact refl s

theorem stale {msg : ConsensusMessage n} {slot : Nat} (hslot : msg.getSlot = some slot)
    (hlow : slot < s.slot) (hspeaks : Speaks msg.msg false)
    (hcommit : ∀ slot v, msg.msg ≠ .commit slot v) (hanswer : msg.isReadResponse = false) :
    f.processMessage me order msg s = .ok none s := by
  obtain ⟨msg, src, lastV⟩ := msg
  have hout : ∀ round, f.enterRound src slot round s = .ok false s := by
    intro round
    change (ite (slot < s.slot ∨ _) _ _ : PFTurn n _) s = _
    rw [if_pos (Or.inl hlow)]
    rfl
  rw [PaxosFamily.processMessage]
  split
  · rfl
  · cases msg with
    | paxosM msg =>
      cases msg with
      | forwardRequest v => cases hslot
      | prepare slot' round rv =>
        cases hslot
        change EStateM.bind (f.enterRound src slot round) _ s = _
        rw [EStateM.bind, hout]
        rfl
      | accept slot' round v =>
        cases hslot
        change EStateM.bind (f.enterRound src slot round) _ s = _
        rw [EStateM.bind, hout]
        change PaxosFamily.noteOutranked slot s = _
        change (ite (slot = s.slot) _ _ : PFTurn n _) s = _
        rw [if_neg hlow.ne]
        rfl
    | kcensusM msg => exact hspeaks.elim
    | commit slot v => exact absurd rfl (hcommit slot v)
    | readRequest id => cases hslot
    | readResponse id slot => cases hanswer

theorem habitual : (f.rest me).Habitual (f.algorithm me order) where
  idle := trivial
  ongoing := id
  valued := fun _ => id
  speaks := by
    intro msg withValue hkcensus hpaxos
    cases msg with
    | kcensusM m => exact absurd rfl (hkcensus m)
    | _ => trivial
  processMessage := processMessage
  commitSlot := commitSlot
  proposeStart := proposeStart
  reproposeStart := propose
  stale := stale

end Rests

end PaxosFamily

end KCensus.Slots

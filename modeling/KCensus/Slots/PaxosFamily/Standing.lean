import KCensus.Slots.PaxosFamily.Records

namespace KCensus.Slots

open Lib.Turn (Meets Along)
open Turn Conduct PaxosFamilyRoundState

variable {n : Nat} [NeZero n]

namespace PaxosFamily

-- What does not depend on the slot that the shard is in.
structure Parting (f : PaxosFamily n) (past : List (Fin n × Event n)) (me : Fin n)
    (s : PaxosFamilyShard n) : Prop where
  recorded : f.Recorded (soFar past me s)
  later : ∀ slot, s.slot < slot → (ledger (soFar past me s) slot).Blank me
  messages : ∀ m ∈ s.queuedMessages, f.Vouched past m

structure Standing (f : PaxosFamily n) (past : List (Fin n × Event n)) (me : Fin n)
    (s : PaxosFamilyShard n) : Prop extends f.Parting past me s where
  fits : Fits f me (ledger (soFar past me s) s.slot) s.roundState

def upkeep (f : PaxosFamily n) (past : List (Fin n × Event n)) (me : Fin n) :
    Upkeep n (PaxosFamilyRoundState n) where
  good := f.Standing past me
  taken _ := f.Standing past me
  handing _ := f.Standing past me
  fair s := f.Recorded (soFar past me s)
  heard := f.Vouched past

variable {f : PaxosFamily n} {past : List (Fin n × Event n)} {me src : Fin n}
  {s t u : PaxosFamilyShard n} {e : Event n} {b : PaxosRound n} {v : Nat} {rv : RoundV n}
  {r : PaxosFamilyRoundState n} {α β : Type}

theorem Vouched.log {m : ConsensusMessage n} (h : f.Vouched past m) : f.Vouched (soFar past me s) m :=
  h.mono fun _ => ledger_mono (List.subset_append_left _ _)

structure Still (past : List (Fin n × Event n)) (me : Fin n) (s t : PaxosFamilyShard n) : Prop where
  slot : t.slot = s.slot
  round : t.roundState = s.roundState
  said : soFar past me s ⊆ soFar past me t

omit [NeZero n] in
theorem Still.refl : Still past me s s := ⟨rfl, rfl, List.Subset.refl _⟩

omit [NeZero n] in
theorem Still.trans (h : Still past me s t) (h' : Still past me t u) : Still past me s u :=
  ⟨h'.slot.trans h.slot, h'.round.trans h.round, List.Subset.trans h.said h'.said⟩

theorem Still.vouched (h : Still past me s t) {m : ConsensusMessage n}
    (hm : f.Vouched (soFar past me s) m) : f.Vouched (soFar past me t) m :=
  hm.mono fun _ => ledger_mono h.said

abbrev Says (f : PaxosFamily n) (past : List (Fin n × Event n)) (me : Fin n) (m : PFTurn n α)
    (s : PaxosFamilyShard n) : Prop :=
  Meets m s (fun _ t => f.Standing past me t ∧ Still past me s t)
    (fun _ t => f.Recorded (soFar past me t))

namespace Standing

theorem idles (h : f.Standing past me s) (ht : Idles me s t) : f.Standing past me t := by
  obtain ⟨said, hsaid, hidle⟩ := ht.said
  obtain ⟨hrecorded, hsame⟩ := h.recorded.idle hidle
  rw [← soFar_said hsaid] at hrecorded hsame
  refine ⟨⟨hrecorded, fun slot hslot => ?_, ht.messages ▸ h.messages⟩, ?_⟩
  · rw [hsame]
    exact h.later slot (ht.slot ▸ hslot)
  · rw [hsame, ht.slot, ht.round]
    exact h.fits

theorem extend (h : f.Standing past me s) (hapart : ∀ slot, slot ≠ s.slot → e.Apart slot)
    {L : Ledger n} (hL : ledger (soFar past me s ++ [(me, e)]) s.slot = L) (hfair : f.Fair L)
    (hfits : Fits f me L r)
    (hvouched : ∀ m, e.carried = some m → m.src = me ∧ f.Vouched (soFar past me s ++ [(me, e)]) m)
    (hcommitted : ∀ slot v, e ≠ .committed slot v) :
    f.Standing past me { s with roundState := r, sinks := s.sinks ++ [e] } := by
  have hlog : soFar past me { s with roundState := r, sinks := s.sinks ++ [e] } =
      soFar past me s ++ [(me, e)] := soFar_snoc rfl
  refine ⟨⟨?_, fun slot hslot => ?_, h.messages⟩, ?_⟩
  · rw [hlog]
    refine h.recorded.snoc (fun slot => ?_) hvouched fun slot v heq => absurd heq (hcommitted slot v)
    rcases eq_or_ne slot s.slot with rfl | hne
    · exact hL ▸ hfair
    · rw [ledger_apart (hapart slot hne)]
      exact h.recorded.fair slot
  · rw [hlog, ledger_apart (hapart slot (ne_of_gt hslot))]
    exact h.later slot hslot
  · rw [hlog]
    exact hL ▸ hfits

theorem emit (h : f.Standing past me s) (hapart : ∀ slot, e.Apart slot)
    (hvouched : ∀ m, e.carried = some m → m.src = me ∧ f.Vouched (soFar past me s) m)
    (hcommitted : ∀ slot v, e ≠ .committed slot v) :
    f.Standing past me { s with sinks := s.sinks ++ [e] } := by
  refine h.extend (fun slot _ => hapart slot) (ledger_apart (hapart s.slot)) (h.recorded.fair s.slot)
    h.fits (fun m hm => ⟨(hvouched m hm).1, (hvouched m hm).2.mono fun slot => ?_⟩) hcommitted
  exact ledger_mono (List.subset_append_left _ _)

theorem report (h : f.Standing past me s) (hround : s.roundState.round = b)
    (hmax : s.roundState.maxRv = some rv) (hme : me ∈ f.cluster.topology.aliveReplicas)
    (hsingle : f.mode.isMultiPaxos = false)
    (hheard : f.mode = .ePaxos → ∃ q rv', (ledger (soFar past me s) s.slot).promised q b rv')
    {m : ConsensusMessage n} (he : e.carried = some m) (hmsg : m.msg = .paxosM (.prepare s.slot b rv))
    (hsrc : m.src = me) : f.Standing past me { s with sinks := s.sinks ++ [e] } := by
  have hL : ledger (soFar past me s ++ [(me, e)]) s.slot =
      (ledger (soFar past me s) s.slot).promise me b rv := ledger_promise ⟨m, he, hmsg⟩
  have hfair := h.recorded.fair s.slot
  have hlast : s.roundState.lastAcceptedRound = rv.getAcceptRound := by
    rw [lastAcceptedRound, hmax]
  refine h.extend (fun slot hne => .of_carried he fun r rv' heq => ?_) hL
    (hfair.promised hme (hlast ▸ h.fits.closed b) (fun a w hrv => ?_) h.fits.unsettled hsingle
      fun hmode => h.fits.fastFair hmode (hfair.fast hmode) hround hmax (hheard hmode))
    (h.fits.promise hround hmax) (fun m' hm' => ?_) fun slot v heq => ?_
  · cases hmsg.symm.trans heq
    exact hne rfl
  · obtain ⟨hle, hopened⟩ := h.fits.value a w (hrv ▸ hmax)
    exact ⟨WithBot.coe_le_coe.1 (hround ▸ hle), hopened⟩
  · cases he.symm.trans hm'
    refine ⟨hsrc, ?_⟩
    rw [Vouched, hmsg]
    dsimp only
    rw [hL, hsrc]
    exact Or.inr ⟨rfl, rfl, rfl⟩
  · subst heq
    cases he

theorem vote (h : f.Standing past me s) (hround : s.roundState.round = b)
    (hok : s.roundState.receiveAccept f.cluster me src b v = .ok r)
    (hsrc : src = me ∨ src ∈ f.cluster.topology.aliveReplicas ∧
      (ledger (soFar past me s) s.slot).voted src b v)
    (hme : me ∈ f.cluster.topology.aliveReplicas)
    (hopens : ((f.ballots (ledger (soFar past me s) s.slot)).vote me b v).Opened b v ∧
      ((f.ballots (ledger (soFar past me s) s.slot)).vote me b v).Picked
        (fun r v => f.mode = .ePaxos → f.Adopted (ledger (soFar past me s) s.slot) r v) b v) :
    f.Standing past me { s with roundState := r, sinks := s.sinks ++ [.voted s.slot b v] } := by
  obtain ⟨hfits, -, -⟩ := h.fits.receiveAccept hround hok hsrc hme hopens.1
  refine h.extend (fun slot hne => ⟨fun r v heq => ?_, ?_, fun v heq => (by cases heq)⟩) ledger_vote
    ((h.recorded.fair s.slot).vote (fun hmulti => ?_) (fun b' hb' => ?_)
      (fun w hw => h.fits.vote_same hok hw) h.fits.unsettled hopens)
    hfits (fun m hm => by cases hm) (fun slot v heq => by cases heq)
  · cases heq
    exact hne rfl
  · rintro r rv ⟨m, hm, -⟩
    cases hm
  · exact (h.fits.floor hmulti).symm.trans hround
  · exact WithBot.coe_le_coe.1 (hround ▸ h.fits.entered b' hb')

end Standing

theorem Parting.commit (h : f.Parting past me s)
    (hv : f.Ratified (ledger (soFar past me s) s.slot) v) (hslot : t.slot = s.slot + 1)
    (hsinks : t.sinks = s.sinks ++ [.committed s.slot v])
    (hround : t.roundState = (s.roundState.gotoRound f.startingRound).fullClear)
    (hmessages : t.queuedMessages = s.queuedMessages) : f.Standing past me t := by
  refine ⟨⟨?_, fun slot hlow => ?_, hmessages ▸ h.messages⟩, ?_⟩
  · rw [soFar_snoc hsinks]
    refine h.recorded.apart (fun _ => .committed) (fun m hm => by cases hm) fun slot w heq => ?_
    cases heq
    exact hv
  · rw [soFar_snoc hsinks, ledger_apart .committed]
    exact h.later slot (by omega)
  · rw [soFar_snoc hsinks, ledger_apart .committed, hround, hslot]
    exact .fresh (h.later _ (Nat.lt_succ_self _)) s.roundState

end PaxosFamily

end KCensus.Slots

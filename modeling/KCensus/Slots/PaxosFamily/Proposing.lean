import KCensus.Slots.PaxosFamily.Deciding

namespace KCensus.Slots

open Lib.Turn (Meets Along)
open Turn Conduct PaxosFamilyRoundState

variable {n : Nat} [NeZero n]

namespace PaxosFamily

variable {f : PaxosFamily n} {past : List (Fin n × Event n)} {me : Fin n}
  {s : PaxosFamilyShard n} {b : PaxosRound n} {v : Nat} {r : PaxosFamilyRoundState n}
  {order : HashOrder n} {withValue : Bool}

omit [NeZero n] in
theorem receivePromise_none {c : Cluster n} {src : Fin n} {rv : RoundV n} (hmax : r.maxRv = none) :
    (r.receivePromise c me src rv).maxRv = some rv := if_pos (Or.inl hmax)

theorem proposedRound_leader (hswift : f.mode.isSwift = false) : (f.proposedRound me r).leader = me := by
  rw [proposedRound, hswift]
  rfl

theorem proposedRound_bot (hswift : f.mode.isSwift = false) (hround : r.round = ⊥) :
    f.proposedRound me r = ⟨0, me⟩ := by
  rw [proposedRound, hswift, hround]
  change PaxosRound.mk (if (0 : Fin n) ≤ me then 0 else 0 + 1) me = ⟨0, me⟩
  rw [if_pos (Fin.zero_le me)]

namespace Standing

-- The only round of a slot is opened without a report.
theorem proposeAccept (h : f.Standing past me s) (hmulti : f.mode.isMultiPaxos = true)
    (hround : s.roundState.round = b) (hleader : b.leader = me) (hfirst : f.startingRound = b)
    (hmax : s.roundState.maxRv = none) (hme : me ∈ f.cluster.topology.aliveReplicas) {slot : Nat}
    (hslot : slot = s.slot) :
    (f.upkeep past me).Keeps (do
      changeRound (·.paxosProposeV f.cluster me (.paxosV ⊥ v))
      f.acceptMine me b
      PaxosFamily.broadcastMsg me (.accept slot b v) withValue) s := by
  have hcoordinator : f.coordinator b = me := by
    rw [coordinator]
    split
    · rename_i hmode
      rw [hmode] at hmulti
      cases hmulti
    · exact hleader
  have hfits : Fits f me (ledger (soFar past me s) s.slot)
      (s.roundState.receivePromise f.cluster me me (.paxosV ⊥ v)) :=
    h.fits.receivePromise hround hme (Or.inl rfl) (fun a w heq => by cases heq)
      fun _ x w heq => by cases heq
  have hvalue : (s.roundState.receivePromise f.cluster me me (.paxosV ⊥ v)).maxRv =
      some (.paxosV ⊥ v) := receivePromise_none hmax
  refine Lib.Turn.meets_bind.2 (Lib.Turn.meets_modify.2 (Lib.Turn.meets_bind.2 ?_))
  refine ((h.restate hfits).acceptMine hround (fun _ => rfl) hme fun w hw => ?_).post ?_
  · refine ⟨Or.inr ⟨hcoordinator, rfl, rfl⟩, Or.inl ⟨⟨hmulti, hfirst⟩, fun hmode => ?_⟩⟩
    rw [hmode] at hmulti
    cases hmulti
  · rintro - t ⟨ht, hkept, w, hw, -, -, hvoted⟩
    rw [getV_of_max hvalue] at hw
    obtain rfl := Option.some.inj hw
    rw [hslot, ← hkept]
    exact (ht.broadcastMsg hvoted).post fun _ _ hu => hu.1

theorem proposePrepare (h : f.Standing past me s) (hswift : f.mode.isSwift = false)
    (hsingle : f.mode.isMultiPaxos = false) (hround : s.roundState.round = ⊥)
    (hmax : s.roundState.maxRv = none) (hme : me ∈ f.cluster.topology.aliveReplicas) {slot : Nat}
    (hslot : slot = s.slot) :
    (f.upkeep past me).Keeps (do
      let rv ← f.suggest me v
      changeRound (·.paxosProposeV f.cluster me rv)
      PaxosFamily.broadcastMsg me (.prepare slot ⟨0, me⟩ rv) withValue)
      { s with roundState := s.roundState.gotoRound (⟨0, me⟩ : PaxosRound n) } := by
  subst hslot
  have hsay : ∀ {r : PaxosFamilyRoundState n} {rv : RoundV n},
      (∀ e m, e.carried = some m → m.msg = .paxosM (.prepare s.slot ⟨0, me⟩ rv) → m.src = me →
        f.Standing past me { s with roundState := r, sinks := s.sinks ++ [e] }) →
      (f.upkeep past me).Keeps (PaxosFamily.broadcastMsg me (.prepare s.slot ⟨0, me⟩ rv) withValue)
        { s with roundState := r } := by
    intro r rv hsaid
    refine Meets.get ?_
    split
    · split
      · exact Meets.get (hsaid _ _ rfl rfl rfl)
      · exact h.recorded
    · exact Meets.get (hsaid _ _ rfl rfl rfl)
  have hentered := h.fits.enterRound (b := ⟨0, me⟩) (hround ▸ bot_le) fun hmulti => by
    rw [hsingle] at hmulti
    cases hmulti
  by_cases hmode : f.mode = .ePaxos
  · rw [suggest, hmode]
    refine Lib.Turn.meets_bind.2 (Lib.Turn.meets_bind.2 (meets_onRound.2 ⟨fun r hr => ?_,
      fun _ _ => h.recorded⟩))
    have hfair := h.recorded.fair s.slot
    obtain ⟨hfits, hfast⟩ := h.fits.proposal hmode (hfair.fast hmode) hround hmax hme hr
    refine Lib.Turn.meets_bind.2 (Lib.Turn.meets_modify.2 (hsay fun e m he hmsg hsrc => ?_))
    have hL : ledger (soFar past me s ++ [(me, e)]) s.slot =
        (ledger (soFar past me s) s.slot).promise me ⟨0, me⟩ (.fastV me v) := ledger_promise ⟨m, he, hmsg⟩
    have hclosed := h.fits.closed ⟨0, me⟩
    rw [Fits.last_of_none hmax] at hclosed
    refine h.extend (fun slot hne => .of_carried he fun r' rv' heq => ?_) hL
      (hfair.promised hme hclosed (fun a w heq => by cases heq) h.fits.unsettled hsingle fun _ => hfast)
      hfits (fun m' hm' => ?_) fun slot w heq => ?_
    · cases hmsg.symm.trans heq
      exact hne rfl
    · cases he.symm.trans hm'
      refine ⟨hsrc, ?_⟩
      rw [Vouched, hmsg]
      dsimp only
      rw [hL, hsrc]
      exact Or.inr ⟨rfl, rfl, rfl⟩
    · subst heq
      cases he
  · have hsuggest : f.suggest me v = pure (.paxosV ⊥ v) := by
      rw [suggest]
      split
      · exact absurd ‹_› hmode
      · rename_i hmode'
        rw [hmode'] at hswift
        cases hswift
      · rfl
    rw [hsuggest, pure_bind]
    refine Lib.Turn.meets_bind.2 (Lib.Turn.meets_modify.2 (hsay fun e m he hmsg hsrc => ?_))
    have hfits : Fits f me (ledger (soFar past me s) s.slot)
        ((s.roundState.gotoRound (⟨0, me⟩ : PaxosRound n)).receivePromise f.cluster me me (.paxosV ⊥ v)) :=
      hentered.receivePromise rfl hme (Or.inl rfl) (fun a w heq => by cases heq)
        fun _ x w heq => by cases heq
    exact (h.restate hfits).report rfl (receivePromise_none hmax) hme hsingle
      (fun hmode' => absurd hmode' hmode) he hmsg hsrc

theorem propose (h : f.Standing past me s) (hswift : f.mode.isSwift = false)
    (hme : me ∈ f.cluster.topology.aliveReplicas) :
    (f.upkeep past me).Keeps (f.propose me v withValue) s := by
  refine Meets.get (h.check_bind fun hstart => h.check_bind fun hnone => ?_)
  have hround := of_decide_eq_true hstart
  have hmax : s.roundState.maxRv = none := by
    rw [Option.isNone_iff_eq_none, getV, Option.map_eq_none_iff] at hnone
    exact hnone
  refine Lib.Turn.meets_bind.2 (Lib.Turn.meets_modify.2 (Lib.Turn.meets_bind.2
    (meets_check.2 ⟨fun hagree => ?_, fun _ => h.recorded⟩)))
  rw [beq_iff_eq] at hagree
  have hleads : f.leadsSwift me = false := by
    rw [leadsSwift, hswift, Bool.false_and]
  rw [hleads, Bool.or_false]
  cases hmulti : f.mode.isMultiPaxos with
  | true =>
    rw [hmulti] at hagree
    have hfirst := (of_decide_eq_true hagree.symm).symm
    rw [if_pos rfl]
    have hsame := hround.trans hfirst
    have hentered := h.fits.enterRound hsame.le fun _ => hfirst
    exact (h.restate hentered).proposeAccept hmulti rfl (proposedRound_leader hswift) hfirst hmax hme rfl
  | false =>
    rw [if_neg (by decide)]
    rw [startingRound, hmulti, if_neg (by decide)] at hround
    rw [proposedRound_bot hswift hround]
    exact h.proposePrepare hswift hmulti hround hmax hme rfl

theorem proposeStart (h : f.Standing past me s) (hswift : f.mode.isSwift = false)
    {value : CommandBatch n} {contention : Bool} :
    (f.upkeep past me).Keeps (f.proposeStart me value contention) s := by
  have hstore : Meets (Turn.storeNewCommand value) s (fun _ => f.Standing past me)
      fun _ t => f.Recorded (soFar past me t) :=
    Idles.storeNewCommand.mono (fun _ _ ht => h.idles ht) fun _ _ ht => (h.idles ht).recorded
  have hforward : (f.upkeep past me).Keeps (f.forward me value) s := by
    refine Upkeep.Keeps.bind (y := f.upkeep past me) hstore fun w t ht => Meets.get ?_
    refine (ht.priorityBroadcast (fun slot r rv heq => by cases heq) fun lastV => ?_).post fun _ _ hu => hu.1
    rw [Vouched]
    trivial
  have hnew : f.canPropose me = true → (f.upkeep past me).Keeps (f.proposeNew me value) s := by
    intro hcan
    rw [canPropose, hswift, Bool.or_false] at hcan
    exact Upkeep.Keeps.bind (y := f.upkeep past me) hstore fun w t ht =>
      ht.propose hswift (of_decide_eq_true hcan)
  rw [PaxosFamily.proposeStart]
  split
  · exact hforward
  · rename_i hcan
    have hcan : f.canPropose me = true := by
      rw [Bool.or_eq_true, not_or, Bool.not_eq_true', Bool.not_eq_false] at hcan
      exact hcan.1
    split
    · refine h.lift_bind fun lead _ => ?_
      split
      · exact hnew hcan
      · exact hforward
    · exact hnew hcan

theorem learn (h : f.Standing past me s) {msg : ConsensusMessage n} {slot : Nat}
    (hmsg : f.Vouched past msg) (hm : msg.msg = .commit slot v)
    (hready : s.readyToProcess me msg = .ok true) (hslot : ¬ slot < s.slot) :
    (f.upkeep past me).Keeps (f.commitSlot v) s := by
  have hnow : slot = s.slot := by
    rw [ConsensusShard.readyToProcess] at hready
    have hgetSlot : msg.getSlot = some slot := by rw [ConsensusMessage.getSlot, hm]
    rw [hgetSlot] at hready
    split at hready
    · exact Option.some.inj ‹_›
    · have hlow : slot < s.slot := by simpa using hready
      exact absurd hlow hslot
  have hv : f.Vouched (soFar past me s) msg := hmsg.log
  rw [Vouched, hm] at hv
  exact h.toParting.commitSlot (hnow ▸ hv)

end Standing

theorem shouldLead_replica (hswift : f.mode.isSwift = false) (h : f.shouldLead me s = .ok true) :
    me ∈ f.cluster.topology.aliveReplicas := by
  rw [shouldLead] at h
  split at h
  · rename_i hcan
    have hlead : me = f.getLeader s := by simpa using h
    rcases Bool.or_eq_true _ _ ▸ hcan with hne | hcan
    · exact absurd hlead (of_decide_eq_true hne)
    · rw [canPropose, hswift, Bool.or_false] at hcan
      exact of_decide_eq_true hcan
  · cases h

theorem upheld (hswift : f.mode.isSwift = false) :
    (f.upkeep past me).Upheld f.cluster me order (f.algorithm me order) :=
  Upkeep.Upheld.of_idles (fun _ _ => Iff.rfl) (fun _ _ => Iff.rfl) (fun h => h.recorded) Standing.idles
    (fun h hheard => ⟨⟨h.recorded, h.later, hheard⟩, h.fits⟩) (fun h => h.messages)
    (fun h hmsg hm hready hslot => h.learn hmsg hm hready hslot)
    (fun h hmsg _ => h.processMessage hswift hmsg) (fun h => h.proposeStart hswift)
    fun h hlead => h.propose hswift (shouldLead_replica hswift hlead)

end PaxosFamily

end KCensus.Slots

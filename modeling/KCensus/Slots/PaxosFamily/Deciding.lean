import KCensus.Slots.PaxosFamily.Standing

namespace KCensus.Slots

open Lib.Turn (Meets Along)
open Turn Conduct PaxosFamilyRoundState

variable {n : Nat} [NeZero n]

namespace PaxosFamily

variable {f : PaxosFamily n} {past : List (Fin n × Event n)} {me src dest : Fin n}
  {s t u : PaxosFamilyShard n} {b : PaxosRound n} {v : Nat} {rv : RoundV n}
  {r : PaxosFamilyRoundState n} {order : HashOrder n} {α β : Type}

omit [NeZero n] in
theorem roundOf_ok (h : roundOf s = .ok b) : s.roundState.round = b := by
  rw [roundOf] at h
  split at h
  · rename_i heq
    cases h
    exact heq
  · cases h

omit [NeZero n] in
theorem valueOf_ok (h : valueOf s = .ok v) : s.roundState.getV = some v := by
  rw [valueOf] at h
  split at h
  · rename_i heq
    cases h
    exact heq
  · cases h

omit [NeZero n] in
theorem rvOf_ok (h : rvOf s = .ok rv) : s.roundState.maxRv = some rv := by
  rw [rvOf] at h
  split at h
  · rename_i heq
    cases h
    exact heq
  · cases h

omit [NeZero n] in
theorem delegate_eq (hswift : f.mode.isSwift = false) {o : Option (RoundV n)} :
    f.delegateOrLeader me b o = f.coordinator b := by
  unfold delegateOrLeader coordinator
  cases hmode : f.mode with
  | swiftPaxos quorum => cases (congrArg PFModeSetting.isSwift hmode).symm.trans hswift
  | _ => rfl

omit [NeZero n] in
theorem getV_of_max (hmax : r.maxRv = some rv) : r.getV = some rv.getV := by
  rw [getV, hmax]
  rfl

omit [NeZero n] in
theorem receiveAccept_adopt {c : Cluster n} {w : Nat} (hlast : r.lastAcceptedRound = ⊥) :
    (r.adoptFromEpaxos w).receiveAccept c me src b v = r.receiveAccept c me src b v := by
  have hlow : r.lastAcceptedRound < b := hlast ▸ WithBot.bot_lt_coe b
  have hlow' : (r.adoptFromEpaxos w).lastAcceptedRound < b := WithBot.bot_lt_coe b
  simp only [receiveAccept]
  rw [if_pos (Or.inl hlow), if_pos (Or.inl hlow')]
  rfl

namespace Standing

theorem still (h : f.Standing past me s) : f.Standing past me s ∧ Still past me s s := ⟨h, .refl⟩

theorem bind {m : PFTurn n α} {k : α → PFTurn n β} {Q : β → PaxosFamilyShard n → Prop}
    (hm : f.Says past me m s) (hk : ∀ a t, f.Standing past me t → Still past me s t →
      Meets (k a) t Q fun _ t => f.Recorded (soFar past me t)) :
    Meets (m >>= k) s Q fun _ t => f.Recorded (soFar past me t) :=
  Lib.Turn.meets_bind.2 (hm.post fun a t ht => hk a t ht.1 ht.2)

theorem lift_bind (h : f.Standing past me s) {g : PaxosFamilyShard n → Except Panic α}
    {k : α → PFTurn n β} {Q : β → PaxosFamilyShard n → Prop}
    (hk : ∀ a, g s = .ok a → Meets (k a) s Q fun _ t => f.Recorded (soFar past me t)) :
    Meets (lift g >>= k) s Q fun _ t => f.Recorded (soFar past me t) :=
  Lib.Turn.meets_bind.2 (meets_lift.2 ⟨hk, fun _ _ => h.recorded⟩)

theorem check_bind (h : f.Standing past me s) {c : Bool} {e : Panic} {k : Unit → PFTurn n β}
    {Q : β → PaxosFamilyShard n → Prop}
    (hk : c = true → Meets (k ()) s Q fun _ t => f.Recorded (soFar past me t)) :
    Meets (check c e >>= k) s Q fun _ t => f.Recorded (soFar past me t) :=
  Lib.Turn.meets_bind.2 (meets_check.2 ⟨hk, fun _ => h.recorded⟩)

theorem leaveFastPath (h : f.Standing past me s) :
    f.Says past me (Turn.leaveFastPath : PFTurn n Unit) s :=
  ⟨⟨⟨h.recorded, h.later, h.messages⟩, h.fits⟩, rfl, rfl, List.Subset.refl _⟩

theorem say (h : f.Standing past me s) {e : Event n} {m : ConsensusMessage n}
    (he : e.carried = some m) (hsrc : m.src = me)
    (hmsg : ∀ slot r rv, m.msg ≠ .paxosM (.prepare slot r rv))
    (hv : f.Vouched (soFar past me s) m) : f.Says past me (Turn.emit e) s := by
  refine ⟨h.emit (fun slot => .of_carried he (hmsg slot)) (fun m' hm' => ?_) fun slot w heq => ?_,
    rfl, rfl, ?_⟩
  · cases he.symm.trans hm'
    exact ⟨hsrc, hv⟩
  · subst heq
    cases he
  · rw [soFar_snoc (t := { s with sinks := s.sinks ++ [e] }) rfl]
    exact List.subset_append_left _ _

theorem priorityBroadcast (h : f.Standing past me s) {msg : ConsensusMsg n}
    {value : Option (CommandBatch n)} {priority : Option (Fin n)}
    (hmsg : ∀ slot r rv, msg ≠ .paxosM (.prepare slot r rv))
    (hv : ∀ lastV, f.Vouched (soFar past me s) ⟨msg, me, lastV⟩) :
    f.Says past me (Turn.priorityBroadcast me msg value priority) s :=
  Meets.get (h.say rfl rfl hmsg (hv s.lastV))

theorem sendMsg (h : f.Standing past me s) {slot : Nat}
    (hv : (ledger (soFar past me s) slot).voted me b v) :
    f.Says past me (f.sendMsg me (.accept slot b v) dest) s :=
  Meets.get (h.check_bind fun _ =>
    h.say (m := ⟨.paxosM (.accept slot b v), me, s.lastV⟩) rfl rfl (fun slot r rv heq => by cases heq) hv)

theorem broadcastMsg (h : f.Standing past me s) {slot : Nat} {withValue : Bool}
    (hv : (ledger (soFar past me s) slot).voted me b v) :
    f.Says past me (PaxosFamily.broadcastMsg me (.accept slot b v) withValue) s := by
  refine Meets.get ?_
  split
  · split
    · exact h.priorityBroadcast (fun slot r rv heq => by cases heq) fun _ => hv
    · exact h.recorded
  · exact h.priorityBroadcast (fun slot r rv heq => by cases heq) fun _ => hv

theorem answerPrepare (h : f.Standing past me s) (hround : s.roundState.round = b)
    (hme : me ∈ f.cluster.topology.aliveReplicas) (hsingle : f.mode.isMultiPaxos = false)
    (hheard : f.mode = .ePaxos → ∃ q rv, (ledger (soFar past me s) s.slot).promised q b rv) :
    (f.upkeep past me).Keeps (f.answerPrepare me dest) s := by
  refine Meets.get (h.lift_bind fun b' hb' => h.lift_bind fun rv hrv => Meets.get ?_)
  obtain rfl : b = b' := WithBot.coe_injective (hround.symm.trans (roundOf_ok hb'))
  exact h.check_bind fun _ => h.report hround (rvOf_ok hrv) hme hsingle hheard rfl rfl rfl

theorem answerAccept (h : f.Standing past me s)
    (hv : ∀ b v, s.roundState.round = (b : PaxosRound n) → s.roundState.getV = some v →
      (ledger (soFar past me s) s.slot).voted me b v) : f.Says past me (f.answerAccept me) s := by
  refine Meets.get (h.lift_bind fun b hb => h.lift_bind fun v hvalue => ?_)
  have hvoted := hv b v (roundOf_ok hb) (valueOf_ok hvalue)
  dsimp only
  split
  · refine bind (h.sendMsg hvoted) fun _ t ht hst => ?_
    have hlater := (ledger_mono hst.said).voted me b v hvoted
    exact (ht.sendMsg hlater).post fun _ u hu => ⟨hu.1, hst.trans hu.2⟩
  · exact h.sendMsg hvoted

theorem broadcastAccept (h : f.Standing past me s)
    (hv : ∀ b v, s.roundState.round = (b : PaxosRound n) → s.roundState.getV = some v →
      (ledger (soFar past me s) s.slot).voted me b v) : f.Says past me (f.broadcastAccept me) s := by
  have hsay : ∀ t, f.Standing past me t → Still past me s t → Meets (do
      let s ← get
      let round ← lift PaxosFamily.roundOf
      let v ← lift PaxosFamily.valueOf
      PaxosFamily.broadcastMsg me (.accept s.slot round v) false) t
      (fun _ u => f.Standing past me u ∧ Still past me s u) fun _ u => f.Recorded (soFar past me u) := by
    refine fun t ht hst => Meets.get (ht.lift_bind fun b hb => ht.lift_bind fun v hvalue => ?_)
    have hround := (congrArg _ hst.round).symm.trans (roundOf_ok hb)
    have hgetV := (congrArg _ hst.round).symm.trans (valueOf_ok hvalue)
    have hvoted : (ledger (soFar past me t) t.slot).voted me b v := by
      rw [hst.slot]
      exact (ledger_mono hst.said).voted me b v (hv b v hround hgetV)
    exact (ht.broadcastMsg hvoted).post fun _ u hu => ⟨hu.1, hst.trans hu.2⟩
  rw [PaxosFamily.broadcastAccept]
  split
  · exact hsay s h .refl
  · exact bind h.leaveFastPath fun _ t ht hst => hsay t ht hst

theorem cast (h : f.Standing past me s) (hround : s.roundState.round = b)
    (hok : s.roundState.receiveAccept f.cluster me src b v = .ok r)
    (hsrc : src = me ∨ src ∈ f.cluster.topology.aliveReplicas ∧
      (ledger (soFar past me s) s.slot).voted src b v)
    (hme : me ∈ f.cluster.topology.aliveReplicas)
    (hopens : ((f.ballots (ledger (soFar past me s) s.slot)).vote me b v).Opened b v ∧
      ((f.ballots (ledger (soFar past me s) s.slot)).vote me b v).Picked
        (fun r v => f.mode = .ePaxos → f.Adopted (ledger (soFar past me s) s.slot) r v) b v) :
    Meets (f.castVote me b v) { s with roundState := r }
      (fun _ t => f.Standing past me t ∧ t.slot = s.slot ∧ t.roundState = r ∧
        r.round = b ∧ r.maxRv = some (.paxosV b v) ∧ (ledger (soFar past me t) t.slot).voted me b v)
      fun _ t => f.Recorded (soFar past me t) := by
  have hstand := h.vote hround hok hsrc hme hopens
  obtain ⟨-, hmax, hsame⟩ := h.fits.receiveAccept hround hok hsrc hme hopens.1
  have hreplica : f.replica me = true := decide_eq_true hme
  refine Meets.get ?_
  rw [if_pos hreplica, Turn.emit, Lib.Turn.meets_modify]
  refine ⟨hstand, rfl, rfl, hsame.trans hround, hmax, ?_⟩
  exact List.mem_append_right _ (List.mem_map_of_mem (List.mem_append_right _ List.mem_cons_self))

theorem acceptFrom (h : f.Standing past me s) (hround : s.roundState.round = b)
    (hsrc : src ∈ f.cluster.topology.aliveReplicas)
    (hv : (ledger (soFar past me s) s.slot).voted src b v)
    (hme : me ∈ f.cluster.topology.aliveReplicas) :
    Meets (f.acceptFrom me src b v) s
      (fun _ t => f.Standing past me t ∧ t.slot = s.slot ∧ t.roundState.round = b ∧
        t.roundState.maxRv = some (.paxosV b v) ∧ (ledger (soFar past me t) t.slot).voted me b v)
      fun _ t => f.Recorded (soFar past me t) := by
  have hsound := (h.recorded.fair s.slot).sound
  have hopens := hsound.opens_again (q := me)
    (fun b' hb' => WithBot.coe_le_coe.1 (hround ▸ h.fits.entered b' hb')) (hsound.follows _ _ _ hv)
  refine Lib.Turn.meets_bind.2 (meets_onRound.2 ⟨fun r hr => ?_, fun _ _ => h.recorded⟩)
  refine (h.cast hround hr (Or.inr ⟨hsrc, hv⟩) hme hopens).post fun _ t ht => ?_
  obtain ⟨hstand, hslot, hstate, hrest⟩ := ht
  exact ⟨hstand, hslot, hstate ▸ hrest⟩

-- The value of `s` may be another one than that of `h`, from which nothing was sent yet.
theorem acceptMine (h : f.Standing past me s) (hround : s.roundState.round = b)
    (hvote : ∀ v, r.receiveAccept f.cluster me me b v =
      s.roundState.receiveAccept f.cluster me me b v)
    (hme : me ∈ f.cluster.topology.aliveReplicas)
    (hopens : ∀ v, r.getV = some v →
      ((f.ballots (ledger (soFar past me s) s.slot)).vote me b v).Opened b v ∧
        ((f.ballots (ledger (soFar past me s) s.slot)).vote me b v).Picked
          (fun r v => f.mode = .ePaxos → f.Adopted (ledger (soFar past me s) s.slot) r v) b v) :
    Meets (f.acceptMine me b) { s with roundState := r }
      (fun _ t => f.Standing past me t ∧ t.slot = s.slot ∧ ∃ v, r.getV = some v ∧
        t.roundState.round = b ∧ t.roundState.maxRv = some (.paxosV b v) ∧
          (ledger (soFar past me t) t.slot).voted me b v)
      fun _ t => f.Recorded (soFar past me t) := by
  refine Lib.Turn.meets_bind.2 (meets_onRound.2 ⟨fun r' hr' => ?_, fun _ _ => h.recorded⟩)
  change r.selfAccept f.cluster me b = .ok r' at hr'
  rw [selfAccept] at hr'
  split at hr'
  · rename_i v hv
    split at hr'
    · rw [hvote] at hr'
      obtain ⟨-, hmax, -⟩ := h.fits.receiveAccept hround hr' (Or.inl rfl) hme (hopens v hv).1
      refine Lib.Turn.meets_bind.2 (meets_lift.2 ⟨fun w hw => ?_, fun _ _ => h.recorded⟩)
      obtain rfl : v = w := by
        have hgetV : r'.getV = some w := valueOf_ok hw
        rw [getV_of_max hmax] at hgetV
        exact Option.some.inj hgetV
      refine (h.cast hround hr' (Or.inl rfl) hme (hopens v hv)).post fun _ t ht => ?_
      obtain ⟨hstand, hslot, hstate, hrest⟩ := ht
      exact ⟨hstand, hslot, v, hv, hstate ▸ hrest⟩
    · cases hr'
  · cases hr'

theorem acceptPhase (h : f.Standing past me s) (hround : s.roundState.round = b)
    (hvote : ∀ v, r.receiveAccept f.cluster me me b v =
      s.roundState.receiveAccept f.cluster me me b v)
    (hme : me ∈ f.cluster.topology.aliveReplicas)
    (hopens : ∀ v, r.getV = some v →
      ((f.ballots (ledger (soFar past me s) s.slot)).vote me b v).Opened b v ∧
        ((f.ballots (ledger (soFar past me s) s.slot)).vote me b v).Picked
          (fun r v => f.mode = .ePaxos → f.Adopted (ledger (soFar past me s) s.slot) r v) b v) :
    (f.upkeep past me).Keeps (f.acceptPhase me b) { s with roundState := r } := by
  refine Lib.Turn.meets_bind.2 ((h.acceptMine hround hvote hme hopens).post fun _ t ht => ?_)
  obtain ⟨hstand, -, v, -, hb, hmax, hvoted⟩ := ht
  refine (hstand.broadcastAccept fun b' w hb' hw => ?_).post fun _ _ hu => hu.1
  obtain rfl : b = b' := WithBot.coe_injective (hb.symm.trans hb')
  rw [getV_of_max hmax] at hw
  exact Option.some.inj hw ▸ hvoted

end Standing

theorem Parting.commitSlot (h : f.Parting past me s) (hv : f.Ratified (ledger (soFar past me s) s.slot) v) :
    (f.upkeep past me).Keeps (f.commitSlot v) s := by
  simp only [Upkeep.Keeps, PaxosFamily.commitSlot, advance, removeCommand, purgeBatches,
    Lib.Turn.meets_bind, Lib.Turn.meets_get]
  split
  · exact h.commit hv rfl rfl rfl rfl
  · exact h.recorded

namespace Standing

theorem commitQuietly (h : f.Standing past me s)
    (hv : f.Ratified (ledger (soFar past me s) s.slot) v) :
    (f.upkeep past me).Keeps (f.commitQuietly v false) s := by
  have hdecided := h.emit (e := .decided s.slot v false) (fun _ => .decided)
    (fun m hm => by cases hm) fun slot w heq => by cases heq
  refine Meets.get ?_
  rw [Lib.Turn.meets_bind, Turn.emit, Lib.Turn.meets_modify]
  refine Upkeep.Keeps.bind (hdecided.toParting.commitSlot (hv.mono ?_)) fun _ _ ht => ht
  rw [soFar_snoc (t := { s with sinks := s.sinks ++ [.decided s.slot v false] }) rfl]
  exact ledger_mono (List.subset_append_left _ _)

theorem broadcastCommit (h : f.Standing past me s)
    (hv : ∀ v, s.roundState.getV = some v → f.Ratified (ledger (soFar past me s) s.slot) v) :
    f.Says past me (PaxosFamily.broadcastCommit me) s :=
  Meets.get (h.lift_bind fun v hvalue =>
    h.priorityBroadcast (fun slot r rv heq => by cases heq) fun _ => hv v (valueOf_ok hvalue))

theorem ratified (h : f.Standing past me s) (hmax : s.roundState.maxRv = some (.paxosV b v))
    (hcommit : s.roundState.paxosCanCommit f.cluster = true) :
    f.Ratified (ledger (soFar past me s) s.slot) v := by
  refine Or.inl ⟨b, s.roundState.accepted.members, ⟨fun q hq => (h.fits.accepted q hq).1, ?_⟩,
    fun q hq => ?_⟩
  · rw [← s.roundState.accepted.count_eq]
    exact of_decide_eq_true hcommit
  · obtain ⟨-, b', w, hb', hmax', hvoted⟩ := h.fits.accepted q hq
    cases hmax.symm.trans hmax'
    exact hvoted

theorem acceptQuorum (h : f.Standing past me s) (hmax : s.roundState.maxRv = some (.paxosV b v)) :
    (f.upkeep past me).Keeps (f.acceptQuorum me b v) s := by
  have hquiet : ∀ {t}, f.Ratified (ledger (soFar past me s) s.slot) v → f.Standing past me t →
      Still past me s t → (f.upkeep past me).Keeps (f.commitQuietly v false) t := by
    intro t hv ht hst
    refine ht.commitQuietly ?_
    rw [hst.slot]
    exact hv.mono (ledger_mono hst.said)
  have htell : ∀ {t}, f.Ratified (ledger (soFar past me s) s.slot) v → f.Standing past me t →
      Still past me s t → (f.upkeep past me).Keeps (do
        PaxosFamily.broadcastCommit me
        f.commitQuietly v false) t := by
    intro t hv ht hst
    refine bind (ht.broadcastCommit fun w hw => ?_) fun _ u hu hsu => hquiet hv hu (hst.trans hsu)
    rw [hst.round, getV_of_max hmax] at hw
    obtain rfl := Option.some.inj hw
    rw [hst.slot]
    exact hv.mono (ledger_mono hst.said)
  refine Meets.get ?_
  split
  · rename_i hcommit
    have hv := h.ratified hmax hcommit
    refine bind h.leaveFastPath fun _ t ht hst => ?_
    split
    · exact htell hv ht hst
    · split
      · split
        · exact ht.recorded
        · split
          · exact htell hv ht hst
          · exact hquiet hv ht hst
      · exact hquiet hv ht hst
  · exact h

theorem onLeaderAccept (h : f.Standing past me s) (hswift : f.mode.isSwift = false)
    (hround : s.roundState.round = b) (hmax : s.roundState.maxRv = some (.paxosV b v))
    (hvoted : (ledger (soFar past me s) s.slot).voted me b v) :
    (f.upkeep past me).Keeps (f.onLeaderAccept me src b v) s := by
  refine bind (h.answerAccept fun b' w hb' hw => ?_) fun _ t ht hst => ?_
  · obtain rfl : b = b' := WithBot.coe_injective (hround.symm.trans hb')
    rw [getV_of_max hmax] at hw
    exact Option.some.inj hw ▸ hvoted
  · have hquorum := ht.acceptQuorum ((congrArg _ hst.round).trans hmax)
    split
    · split
      · rename_i quorum hmode
        rw [hmode] at hswift
        cases hswift
      · exact hquorum
    · exact ht

theorem onAccept (h : f.Standing past me s) (hswift : f.mode.isSwift = false)
    (hround : s.roundState.round = b) (hsrc : src ∈ f.cluster.topology.aliveReplicas)
    (hv : (ledger (soFar past me s) s.slot).voted src b v)
    (hme : me ∈ f.cluster.topology.aliveReplicas) :
    (f.upkeep past me).Keeps (f.onAccept me src b v) s := by
  rw [PaxosFamily.onAccept, hswift, if_neg (by decide)]
  refine bind h.leaveFastPath fun _ t ht hst => ?_
  have hvt : (ledger (soFar past me t) t.slot).voted src b v := by
    rw [hst.slot]
    exact (ledger_mono hst.said).voted src b v hv
  refine Lib.Turn.meets_bind.2 ((ht.acceptFrom ((congrArg _ hst.round).trans hround) hsrc hvt hme).post ?_)
  rintro _ u ⟨hu, -, hb, hmax, hvoted⟩
  split
  · split
    · exact hu.onLeaderAccept hswift hb hmax hvoted
    · exact hu.check_bind fun _ => hu.acceptQuorum hmax
  · exact hu.acceptQuorum hmax

-- The Commit is on its way before the decision is noted.
theorem fastCommit (h : f.Standing past me s) (hmode : f.mode = .ePaxos)
    (hv : f.Preaccepted (ledger (soFar past me s) s.slot) me v)
    (hvalue : ∀ w, s.roundState.getV = some w → w = v) :
    (f.upkeep past me).Keeps (do
      PaxosFamily.broadcastCommit me
      f.commitQuietly v true) s := by
  rw [Upkeep.Keeps, Lib.Turn.meets_bind]
  refine Meets.get (h.lift_bind fun w hw => Meets.get (Meets.get ?_))
  obtain rfl := hvalue w (valueOf_ok hw)
  set told : Event n := .broadcast ⟨⟨.commit s.slot w, me, s.lastV⟩, none⟩ (getRequester w) with htold
  set decided : Event n := .decided s.slot w true with hdecided
  set t : PaxosFamilyShard n := { s with sinks := s.sinks ++ [told] ++ [decided] } with ht
  have hlog : soFar past me t = soFar past me s ++ [(me, told)] ++ [(me, decided)] := by
    rw [soFar_snoc (s := { s with sinks := s.sinks ++ [told] }) rfl, soFar_snoc (s := s) rfl]
  have hapart : ∀ slot, told.Apart slot := fun slot =>
    .of_carried (m := ⟨.commit s.slot w, me, s.lastV⟩) rfl fun r rv heq => by cases heq
  have hsettled : f.Recorded (soFar past me s ++ [(me, decided)]) := by
    refine h.recorded.snoc (fun slot => ?_) (fun m hm => by cases hm) fun slot v heq =>
      (by cases hdecided.symm.trans heq)
    rcases eq_or_ne slot s.slot with rfl | hne
    · rw [hdecided, ledger_settle]
      exact (h.recorded.fair s.slot).settle hmode hv
    · rw [ledger_apart (.decidedFast hne)]
      exact h.recorded.fair slot
  have hboth : f.Recorded (soFar past me t) := by
    have hlater : f.Recorded (soFar past me s ++ [(me, decided)] ++ [(me, told)]) := by
      refine hsettled.apart hapart (fun m hm => ?_) fun slot v heq => (by cases htold.symm.trans heq)
      cases hm
      exact ⟨rfl, Or.inr ⟨me, List.mem_append_right _ List.mem_cons_self⟩⟩
    refine hlater.congr fun x => ?_
    rw [hlog]
    simp only [List.mem_append, List.mem_singleton, or_assoc, or_comm (a := x = (me, told))]
  have hparting : f.Parting past me t := by
    refine ⟨hboth, fun slot hslot => ?_, h.messages⟩
    rw [hlog, ledger_apart (.decidedFast (ne_of_gt hslot)), ledger_apart (hapart slot)]
    exact h.later slot hslot
  refine Lib.Turn.meets_modify.2 (Meets.get ?_)
  rw [Lib.Turn.meets_bind, Turn.emit, Lib.Turn.meets_modify]
  refine Upkeep.Keeps.bind (y := f.upkeep past me) (hparting.commitSlot (Or.inr ⟨me, ?_⟩)) fun _ _ hu => hu
  rw [hlog]
  exact List.mem_append_right _ List.mem_cons_self

theorem restate (h : f.Standing past me s) (hfits : Fits f me (ledger (soFar past me s) s.slot) r) :
    f.Standing past me { s with roundState := r } :=
  ⟨⟨h.recorded, h.later, h.messages⟩, hfits⟩

-- A fast answer to the proposal of `me`.
theorem onFastAnswer (h : f.Standing past me s) (hmode : f.mode = .ePaxos)
    (hround : s.roundState.round = b) (hleader : b.leader = me)
    (hlast : s.roundState.lastAcceptedRound = ⊥) (hme : me ∈ f.cluster.topology.aliveReplicas)
    (hp : (ledger (soFar past me s) s.slot).promised src b rv) :
    (f.upkeep past me).Keeps (f.onFastAnswer me order src b rv) s := by
  cases rv with
  | paxosV a v => exact h.recorded
  | fastV x v =>
    have hfair := h.recorded.fair s.slot
    have hfast := hfair.fast hmode
    obtain ⟨rfl, -⟩ := h.fits.mine hmode hfast hleader hp
    refine Lib.Turn.meets_bind.2 (meets_onRound.2 ⟨fun r hr => ?_, fun _ _ => h.recorded⟩)
    obtain ⟨hfits, hheard, hmax, hstay, -, -⟩ :=
      h.fits.epaxosAnswered hmode hr (hfair.member _ _ _ hp) hp
    have hanswered := h.restate hfits
    have hbottom : r.lastAcceptedRound = ⊥ := by
      rw [lastAcceptedRound, hmax]
      exact hlast
    refine Meets.get ?_
    split
    · rename_i hcommit
      have hpre := hfits.preaccepted hmode hfast (hstay.trans hround) hbottom hcommit hheard hp
      have hvalue := hfits.preaccepted_value hmode hfast hbottom hpre
      exact hanswered.fastCommit hmode hpre fun w hw => Option.some.inj (hw.symm.trans hvalue)
    · split
      · rename_i w hadopt
        have hadopted := hfits.adopted hmode hfast hadopt (hfits.mine hmode hfast rfl hp).2
        refine hanswered.check_bind fun _ => Lib.Turn.meets_bind.2 (Lib.Turn.meets_modify.2 ?_)
        refine Upkeep.Keeps.bind (hanswered.acceptPhase (hstay.trans hround) (fun u => ?_) hme
          fun u hu => ?_) fun _ _ ht => ht
        · exact receiveAccept_adopt hbottom
        · cases hu
          exact hfair.opens_adopted hmode hadopted
      · exact hanswered

theorem onPromise (h : f.Standing past me s) (hswift : f.mode.isSwift = false)
    (hround : s.roundState.round = b) (hcoordinator : f.coordinator b = me)
    (hme : me ∈ f.cluster.topology.aliveReplicas)
    (hp : (ledger (soFar past me s) s.slot).promised src b rv) {wasPrepared : Bool} :
    (f.upkeep past me).Keeps (f.onPromise me order src b rv wasPrepared) s := by
  have hfair := h.recorded.fair s.slot
  have hsrc := hfair.member _ _ _ hp
  have hfits := h.fits.receivePromise hround hsrc (Or.inr hp)
    (fun a v hrv => hfair.report _ _ _ _ (hrv ▸ hp)) fun hmode x v hrv =>
      (hfair.fast hmode).own _ _ _ _ (hrv ▸ hp)
  have hnext := h.restate hfits
  refine Lib.Turn.meets_bind.2 (Lib.Turn.meets_modify.2 (Meets.get ?_))
  rw [if_neg (Bool.eq_false_iff.1 hswift)]
  split
  · rename_i hfast
    refine hnext.onFastAnswer hfast.1 hround ?_ hfast.2 hme hp
    rw [← hcoordinator, coordinator_of_ePaxos hfast.1]
  · rename_i hslow
    split
    · rename_i hprepared
      rw [Bool.and_eq_true] at hprepared
      refine Upkeep.Keeps.bind (hnext.acceptPhase hround (fun v => rfl) hme fun v hv => ?_)
        fun _ _ ht => ht
      rw [getV, Option.map_eq_some_iff] at hv
      obtain ⟨rv', hmax, rfl⟩ := hv
      exact hfits.opens hfair hround hcoordinator hprepared.2 hmax
        fun hmode hlast => hslow ⟨hmode, hlast⟩
    · exact hnext

theorem onPrepare (h : f.Standing past me s) (hswift : f.mode.isSwift = false)
    (hround : s.roundState.round = b) (hme : me ∈ f.cluster.topology.aliveReplicas)
    (hp : (ledger (soFar past me s) s.slot).promised src b rv) :
    (f.upkeep past me).Keeps (f.onPrepare me order src b rv) s := by
  have hfair := h.recorded.fair s.slot
  have hsingle : f.mode.isMultiPaxos = false :=
    Bool.eq_false_iff.2 fun hmulti => (hfair.single hmulti).2 _ _ _ hp
  have hfits : Fits f me (ledger (soFar past me s) s.slot) (if s.roundState.getV.isNone then
      s.roundState.paxosProposeV f.cluster me rv else s.roundState) := by
    split
    · exact h.fits.receivePromise hround hme (Or.inl rfl)
        (fun a v hrv => hfair.report _ _ _ _ (hrv ▸ hp)) fun hmode x v hrv =>
          (hfair.fast hmode).own _ _ _ _ (hrv ▸ hp)
    · exact h.fits
  have hkept : (if s.roundState.getV.isNone then s.roundState.paxosProposeV f.cluster me rv
      else s.roundState).round = b := by
    split
    · exact hround
    · exact hround
  have hnext := h.restate hfits
  rw [PaxosFamily.onPrepare, delegate_eq hswift]
  refine Lib.Turn.meets_bind.2 (Lib.Turn.meets_modify.2 (Meets.get ?_))
  split
  · split
    · exact hnext
    · refine Upkeep.Keeps.bind (hnext.answerPrepare hkept hme hsingle fun _ => ⟨src, rv, hp⟩)
        fun _ t ht => ht.check_bind fun _ => ht
  · rename_i hmine
    exact hnext.onPromise hswift hkept (not_not.1 hmine) hme hp

-- The slot and the round of a message are those of the shard then.
theorem enterRound (h : f.Standing past me s) (hswift : f.mode.isSwift = false) {slot : Nat}
    (hmulti : f.mode.isMultiPaxos = true → f.startingRound = b) :
    Meets (f.enterRound src slot b) s
      (fun entered t => f.Standing past me t ∧ soFar past me t = soFar past me s ∧
        (entered = true → t.slot = slot ∧ t.roundState.round = b ∧
          src ∈ f.cluster.topology.aliveReplicas))
      fun _ t => f.Recorded (soFar past me t) := by
  refine Meets.get ?_
  split
  · exact ⟨h, rfl, fun heq => by cases heq⟩
  · rename_i hlow
    rw [not_or, not_lt, not_lt] at hlow
    have hround : (if s.roundState.round < b then s.roundState.gotoRound b else s.roundState).round = b := by
      split
      · rfl
      · exact le_antisymm hlow.2 (not_lt.1 ‹_›)
    have hnext := h.restate (r := if s.roundState.round < b then s.roundState.gotoRound b
      else s.roundState) (by
        split
        · exact h.fits.enterRound hlow.2 hmulti
        · exact h.fits)
    refine Lib.Turn.meets_bind.2 (Lib.Turn.meets_modify.2 ?_)
    refine hnext.check_bind fun hslot => hnext.check_bind fun hreplica => ?_
    rw [hswift, Bool.or_false] at hreplica
    exact ⟨hnext, rfl, fun _ => ⟨(of_decide_eq_true hslot).symm, hround, of_decide_eq_true hreplica⟩⟩

theorem processMessage (h : f.Standing past me s) (hswift : f.mode.isSwift = false)
    {msg : ConsensusMessage n} (hmsg : f.Vouched past msg) :
    (f.upkeep past me).Keeps (f.processMessage me order msg) s := by
  have hheard : f.Vouched (soFar past me s) msg := hmsg.log
  obtain ⟨msg, src, lastV⟩ := msg
  rw [PaxosFamily.processMessage, hswift]
  split
  · exact h
  · rename_i hvoter
    have hreplica : f.replica me = true := by simpa using hvoter
    have hme : me ∈ f.cluster.topology.aliveReplicas := of_decide_eq_true hreplica
    cases msg with
    | paxosM m =>
      cases m with
      | forwardRequest v => exact h
      | prepare slot b rv =>
        have hp : (ledger (soFar past me s) slot).promised src b rv := hheard
        refine Lib.Turn.meets_bind.2 ((h.enterRound hswift fun hmulti =>
          absurd hp (((h.recorded.fair slot).single hmulti).2 _ _ _)).post ?_)
        rintro entered t ⟨ht, hlog, hin⟩
        split
        · exact ht
        · rename_i hentered
          obtain ⟨rfl, hround, -⟩ := hin (by simpa using hentered)
          exact ht.onPrepare hswift hround hme (hlog ▸ hp)
      | accept slot b v =>
        have hv : (ledger (soFar past me s) slot).voted src b v := hheard
        refine Lib.Turn.meets_bind.2 ((h.enterRound hswift fun hmulti =>
          ((h.recorded.fair slot).single hmulti).1 _ _ _ hv).post ?_)
        rintro entered t ⟨ht, hlog, hin⟩
        split
        · refine Meets.get ?_
          split
          · exact ht.idles ⟨rfl, rfl, rfl, [_], rfl, fun e he => List.mem_singleton.1 he ▸ trivial⟩
          · exact ht
        · rename_i hentered
          obtain ⟨rfl, hround, hsrc⟩ := hin (by simpa using hentered)
          exact ht.onAccept hswift hround hsrc (hlog ▸ hv) hme
    | _ => exact h.recorded

end Standing

end PaxosFamily

end KCensus.Slots

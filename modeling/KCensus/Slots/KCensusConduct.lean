import KCensus.Slots.Conduct
import KCensus.Slots.KCensusFrames

namespace KCensus.Slots

open Lib.Turn (Meets)
open Census (RoundState)
open Propagation (MessageId KnowledgeState)
open Turn Conduct

variable {n : Nat} {k : KCensusSettings n} {order : HashOrder n}
  {y : Conduct n (RoundState n)} {s t : KCensusShard n}

namespace KCensusSettings

-- Nothing that is stored is given up, and a slot leaves the fast path for good; `may` says whether
-- it may leave it.
def conduct (me : Fin n) (heard : Fin n → Nat → Nat → Prop) (may : Prop) :
    Conduct n (RoundState n) where
  me := me
  phased := True
  heard := heard
  keeps s t := t.slot = s.slot ∧ (s.slotLeftFastPath = true → t.slotLeftFastPath = true) ∧
    (¬ may → t.slotLeftFastPath = s.slotLeftFastPath) ∧
    ∀ v ∈ s.queuedCommands, v ∈ t.queuedCommands
  refl _ := ⟨rfl, id, fun _ => rfl, fun _ => id⟩
  trans h h' := ⟨h'.1.trans h.1, fun hl => h'.2.1 (h.2.1 hl),
    fun hm => (h'.2.2.1 hm).trans (h.2.2.1 hm), fun v hv => h'.2.2.2 v (h.2.2.2 v hv)⟩
  emits _ _ := ⟨rfl, id, fun _ => rfl, fun _ => id⟩

def Stocked (s : KCensusShard n) : Prop := ∃ v, v ∈ s.queuedCommands

namespace Conducts

theorem valueForMsg {msg : KCensusMsg n} : y.Acts (KCensusSettings.valueForMsg msg) s := by
  refine .get ?_
  split
  · split
    · exact .pure _
    · exact .throw _
  · exact .pure _

theorem sendTo {msg : KCensusMsg n} {dest : Fin n} (hheard : y.phased → ∀ leader slot v,
    (ConsensusMsg.kcensusM msg).Accepts leader slot v → y.heard leader slot v) :
    y.Acts (k.sendTo y.me msg dest) s :=
  .bind valueForMsg fun _ _ _ => send rfl hheard

theorem broadcastPaxosAccept {v : Nat} {newValue : Bool} :
    y.Acts (KCensusSettings.broadcastPaxosAccept y.me v newValue) s := by
  refine .get (.bind valueForMsg fun _ _ _ => broadcast rfl ?_)
  exact fun _ leader slot w hw => hw.2.1.symm

theorem spreadOne {v : Nat} {proposer : Fin n} {newValue valueOnly : Bool} {msgId : MessageId n} :
    y.Acts (k.spreadOne y.me v proposer newValue valueOnly msgId) s := by
  refine .bind .check fun _ t _ => ?_
  dsimp only
  split
  · exact .pure _
  · refine .bind .check fun _ _ _ => .bind .check fun _ _ _ => ?_
    split
    · exact sendTo fun _ _ _ _ hw => hw.elim
    · exact .get (.bind .lift fun _ _ _ => sendTo fun _ _ _ _ hw => hw.elim)

theorem spreadAll {v : Nat} {proposer : Fin n} {newValue valueOnly : Bool}
    (msgIds : List (MessageId n)) :
    y.Acts (k.spreadAll y.me v proposer newValue valueOnly msgIds) s := by
  induction msgIds generalizing s with
  | nil => exact .pure _
  | cons msgId msgIds ih => exact .bind spreadOne fun _ _ _ => ih

theorem innerSpread {v : Nat} {proposer : Fin n} {stateId : Nat} {newValue valueOnly : Bool} :
    y.Acts (k.innerSpread y.me v proposer stateId newValue valueOnly) s :=
  .bind .lift fun _ _ _ => spreadAll _

theorem graphSpreadValueOnly {prevMsgId : MessageId n} {v : Nat} :
    y.Acts (k.graphSpreadValueOnly y.me prevMsgId v) s := by
  refine .get ?_
  split
  · exact innerSpread
  · exact .pure _

variable {me : Fin n} {heard : Fin n → Nat → Nat → Prop} {may : Prop}

theorem changeRound {g : RoundState n → RoundState n} :
    (conduct me heard may).Acts (KCensusSettings.changeRound g) s :=
  .update ⟨rfl, id, fun _ => rfl, fun _ => id⟩ rfl

theorem onRound {g : RoundState n → Except Panic (RoundState n)} :
    (conduct me heard may).Acts (Turn.onRound g) s :=
  .onRound fun _ _ => ⟨rfl, id, fun _ => rfl, fun _ => id⟩

theorem leaveFastPath :
    (conduct me heard True).Acts (Turn.leaveFastPath : KCTurn n Unit) s :=
  .update ⟨rfl, fun _ => rfl, fun hn => absurd trivial hn, fun _ => id⟩ rfl

theorem storeNewCommand {value : CommandBatch n} :
    (conduct me heard may).Acts (Turn.storeNewCommand value : KCTurn n Nat) s := by
  refine .get ?_
  simp only [Acts, Lib.Turn.meets_bind, Lib.Turn.meets_modify, Lib.Turn.meets_pure]
  refine ⟨⟨rfl, id, fun _ => rfl, fun v hv => (AList.mem_insert _).2 (Or.inr hv)⟩, [_], rfl, fun e he => ?_⟩
  exact List.mem_singleton.1 he ▸ trivial

theorem tryAccept {v : Nat} {proposer : Fin n} :
    (conduct me heard may).Acts (k.tryAccept v proposer) s :=
  .bind .lift fun _ _ _ => .bind changeRound fun _ _ _ => .pure _

theorem proposeAndSpread {v : Nat} {newValue : Bool} :
    (conduct me heard may).Acts (k.proposeAndSpread me v newValue) s :=
  .bind tryAccept fun _ _ _ => .bind .check fun _ _ _ => innerSpread

theorem followSchedule {v : Nat} {proposer : Fin n} {newValue conflict : Bool}
    (states : List (Nat × KnowledgeState n)) :
    (conduct me heard may).Acts (k.followSchedule me v proposer newValue conflict states) s := by
  induction states generalizing s with
  | nil => exact .pure _
  | cons state later ih =>
    refine .get ?_
    split
    · refine .bind changeRound fun _ _ _ => ?_
      dsimp only
      split
      · exact .bind innerSpread fun _ _ _ => ih
      · exact .bind onRound fun _ _ _ => .bind innerSpread fun _ _ _ => ih
    · exact .pure _

theorem adopted {v : Nat} : (conduct me heard may).Acts (k.adopted order v) s := by
  refine .bind .lift fun adoptedV _ _ => ?_
  cases adoptedV with
  | some adoptedV => exact .pure _
  | none =>
    refine .get ?_
    split
    · exact .bind storeNewCommand fun _ _ _ => .pure _
    · exact .pure _

theorem fallBack {v : Nat} {conflict : Bool} :
    (conduct me heard may).Acts (k.fallBack me order v conflict) s := by
  refine .get ?_
  split
  · refine .bind .check fun _ _ _ => .bind .check fun _ _ _ => ?_
    dsimp only
    split
    · refine .bind adopted fun adopted _ _ => ?_
      exact .bind broadcastPaxosAccept fun _ _ _ => changeRound
    · exact .pure _
  · exact .pure _

theorem settleConflict {explicitRemoteStates : Bool} :
    (conduct me heard True).Acts (KCensusSettings.settleConflict explicitRemoteStates) s := by
  refine .get ?_
  split
  · exact .bind leaveFastPath fun _ _ _ => .bind changeRound fun _ _ _ => .pure _
  · exact .bind .check fun _ _ _ => .pure _

theorem absorb {report : Census.Report n} : (conduct me heard True).Acts (k.absorb report) s := by
  refine .get (.bind onRound fun _ _ _ => .bind tryAccept fun _ _ _ => ?_)
  exact .bind .check fun _ _ _ => settleConflict

variable [NeZero n] in
theorem commitAndBroadcast {v : Nat} {fast : Bool} (h : (conduct me heard may).Goes s t)
    (hheard : fast = false → heard me s.slot v) :
    Meets (KCensusSettings.commitAndBroadcast me v fast) t
      (fun _ u => Told me True heard v fast s u ∧ u.slot = s.slot + 1 ∧
        u.slotLeftFastPath = t.slotLeftFastPath)
      (fun _ => Voiced me True heard s) := by
  have hsaid : Said (fun e => e.Plain me True heard) s t := h.said
  refine Meets.get ?_
  rw [Lib.Turn.meets_bind, meets_check, h.keeps.1]
  refine ⟨fun _ => ?_, fun _ => Or.inl hsaid⟩
  simp only [emit, priorityBroadcast, Lib.Turn.meets_bind, Lib.Turn.meets_get,
    Lib.Turn.meets_modify]
  set t' : KCensusShard n := { t with sinks := t.sinks ++ [.decided s.slot v fast] ++
    [.broadcast ⟨⟨.commit s.slot v, me, t.lastV⟩, none⟩ (getRequester v)] } with ht'
  have htold : Told me True heard v fast s t' := by
    refine ⟨(hsaid.mono fun _ => Or.inl).trans ⟨_, List.append_assoc .., fun e he => Or.inr ?_⟩,
      ?_, fun _ => hheard⟩
    · rcases List.mem_cons.1 he with rfl | he
      · exact ⟨rfl, rfl, rfl⟩
      · exact List.mem_singleton.1 he ▸ ⟨rfl, rfl, v, rfl, fun _ _ => rfl⟩
    · exact List.mem_append_left _ (List.mem_append_right _ (List.mem_singleton_self _))
  have hends : Meets (advance v RoundState.clear) t' _ _ := advance_ends
  refine hends.mono (fun _ u hu => ⟨htold.advance hu.2.2, ?_, hu.2.1⟩) ?_
  · exact hu.1.trans (congrArg (· + 1) h.keeps.1)
  · rintro _ _ rfl
    exact Or.inr ⟨v, fast, htold⟩

variable [NeZero n] in
theorem onSpread {report : Census.Report n} {newValue : Bool} :
    Meets (k.onSpread me order report newValue) s
      (fun r t => match r with
        | none => (conduct me heard True).Goes s t
        | some _ => Told me True heard report.v true s t ∧ t.slot = s.slot + 1)
      (fun _ => Voiced me True heard s) := by
  have hfail : ∀ (e : Panic) t, (conduct me heard True).Goes s t → Voiced me True heard s t :=
    fun _ _ ht => Or.inl ht.said
  rw [KCensusSettings.onSpread]
  refine absorb.read (fun conflict t ht => ?_) hfail
  refine onRound.read (fun _ u hu => Meets.get ?_) fun e u hu => hfail e u (ht.trans hu)
  have hsu := ht.trans hu
  refine (followSchedule _).read (fun reached w hw => ?_) fun e w hw => hfail e w (hsu.trans hw)
  have hsw := hsu.trans hw
  split
  · rw [Lib.Turn.meets_bind]
    have hcommit : Meets (KCensusSettings.commitAndBroadcast me report.v true) w _ _ :=
      commitAndBroadcast hsw fun hf => by cases hf
    exact hcommit.post fun _ _ hv => ⟨hv.1, hv.2.1⟩
  · refine fallBack.read (fun _ w' hw' => hsw.trans hw') fun e w' hw' => hfail e w' (hsw.trans hw')

variable [NeZero n] in
theorem onPaxosAccept {src leader : Fin n} {v : Nat} (hheard : heard leader s.slot v) :
    Meets (k.onPaxosAccept me src leader v) s
      (fun r t => match r with
        | none => (conduct me heard True).Goes s t ∧ t.slotLeftFastPath = true
        | some _ => Told me True heard v false s t ∧ t.slot = s.slot + 1 ∧
          t.slotLeftFastPath = true)
      (fun _ => Voiced me True heard s) := by
  have hfail : ∀ (e : Panic) t, (conduct me heard True).Goes s t → Voiced me True heard s t :=
    fun _ _ ht => Or.inl ht.said
  have hleft : ∀ {t u}, (conduct me heard True).Goes t u → t.slotLeftFastPath = true →
      u.slotLeftFastPath = true := fun ht => ht.keeps.2.1
  rw [KCensusSettings.onPaxosAccept, Turn.leaveFastPath, Lib.Turn.meets_bind, Lib.Turn.meets_modify]
  have hs : (conduct me heard True).Goes s { s with slotLeftFastPath := true } :=
    ⟨⟨rfl, fun _ => rfl, fun hn => absurd trivial hn, fun _ => id⟩, .of_eq rfl⟩
  refine changeRound.read (fun _ t ht => Meets.get ?_) fun e t ht => hfail e t (hs.trans ht)
  have hst := hs.trans ht
  have htrue := hleft ht rfl
  split
  · exact ⟨hst, htrue⟩
  · split
    · refine Acts.check.read (fun _ u hu => ?_) fun e u hu => hfail e u (hst.trans hu)
      refine changeRound.read (fun _ w hw => ?_) fun e w hw => hfail e w ((hst.trans hu).trans hw)
      have hsw := (hst.trans hu).trans hw
      have hsend : (conduct me heard True).Acts
          (k.sendTo me (.paxosAccept t.slot leader v false) leader) w := by
        refine sendTo ?_
        rintro - _ _ _ ⟨rfl, rfl, rfl⟩
        exact hst.keeps.1 ▸ hheard
      refine hsend.read (fun _ w' hw' => ?_) fun e w' hw' => hfail e w' (hsw.trans hw')
      exact ⟨hsw.trans hw', hleft hw' (hleft hw (hleft hu htrue))⟩
    · rename_i hme
      refine changeRound.read (fun _ u hu => Meets.get ?_) fun e u hu => hfail e u (hst.trans hu)
      split
      · rw [Lib.Turn.meets_bind]
        have hcommit : Meets (KCensusSettings.commitAndBroadcast me v false) u _ _ :=
          commitAndBroadcast (hst.trans hu) fun _ => Decidable.not_not.1 hme ▸ hheard
        exact hcommit.post fun _ _ hv => ⟨hv.1, hv.2.1, hv.2.2.trans (hleft hu htrue)⟩
      · exact ⟨hst.trans hu, hleft hu htrue⟩

theorem steady (h : (conduct me heard may).Goes s t) (hs : ¬ may ∨ Stocked s) :
    Steady Stocked s t := by
  refine ⟨h.keeps.1, h.keeps.2.1, fun hbusy hl => ?_⟩
  obtain ⟨v, hv⟩ : Stocked s := hs.elim (fun hm => hbusy ((h.keeps.2.2.1 hm).symm.trans hl)) id
  exact ⟨v, h.keeps.2.2.2 v hv⟩

theorem proposes {m : KCTurn n Unit} (hm : (conduct me (fun _ _ _ => False) False).Acts m s) :
    Meets m s (fun _ => Proposed me True Stocked s) (fun _ => Proposed me True Stocked s) :=
  Meets.mono hm (fun _ _ ht => ⟨steady ht (.inl id), ht.said⟩)
    fun _ _ ht => ⟨steady ht (.inl id), ht.said⟩

theorem proposeStart {value : CommandBatch n} {contention : Bool} :
    (conduct me (fun _ _ _ => False) False).Acts (k.proposeStart me value contention) s := by
  refine .bind storeNewCommand fun v t _ => ?_
  split
  · exact innerSpread
  · exact proposeAndSpread

variable [NeZero n] in
theorem processMessage {msg : ConsensusMessage n} (hready : s.readyToProcess me msg = .ok true) :
    Meets (k.processMessage me order msg) s
      (Answered me True (k.cluster.isReplica me = true) Stocked msg.msg s)
      (fun _ => Voiced me True msg.msg.Accepts s) := by
  obtain ⟨msg, src, lastV⟩ := msg
  have hstill : ∀ {m : KCTurn n Unit}, (∀ leader v, ¬ msg.Accepts leader s.slot v) →
      (conduct me msg.Accepts False).Acts m s → Meets (do
        m
        return none) s (Answered me True (k.cluster.isReplica me = true) Stocked msg s)
        (fun _ => Voiced me True msg.Accepts s) := by
    intro m hno hm
    refine hm.read (fun _ t ht => ⟨steady ht (.inl id), ht.said, ?_⟩) fun _ t ht => Or.inl ht.said
    exact fun _ _ leader v _ hv => absurd hv (hno leader v)
  cases msg with
  | kcensusM msg =>
    have hheld : msg.getSlot = some s.slot → Stocked s := by
      intro hslot
      rcases ConsensusShard.ready_cases hready with ⟨-, hvalue | ⟨-, hled⟩⟩ | hlow
      · obtain ⟨value, hlookup, -⟩ := ConsensusShard.holds_of_valueReady hvalue rfl
        exact ⟨_, Lib.HashMap.mem_of_lookup hlookup⟩
      · cases hled
      · exact absurd (hlow s.slot hslot) (lt_irrefl _)
    have hnothing : (∀ leader v, msg.getSlot = some s.slot →
        (ConsensusMsg.kcensusM msg).Accepts leader s.slot v → k.cluster.isReplica me ≠ true) →
        Answered me True (k.cluster.isReplica me = true) Stocked (.kcensusM msg) s none s :=
      fun hno => ⟨.refl, .refl, fun _ hvoter leader v _ hv =>
        absurd hvoter (hno leader v (hv.names (m := ⟨_, src, lastV⟩)).1 hv)⟩
    refine Meets.get ?_
    cases msg with
    | spread slot v msgId remoteStates withValue newValue =>
      dsimp only
      split
      · split
        · rw [Lib.Turn.meets_bind, meets_check]
          exact ⟨fun _ => hstill (fun _ _ => id) graphSpreadValueOnly, fun _ => Or.inl .refl⟩
        · exact hnothing fun _ _ _ => False.elim
      · rw [Lib.Turn.meets_bind, meets_check]
        refine ⟨fun hslot => ?_, fun _ => Or.inl .refl⟩
        have hstocked := hheld (congrArg some (of_decide_eq_true hslot))
        refine onSpread.post fun r t ht => ?_
        cases r with
        | none => exact ⟨steady ht (.inr hstocked), ht.said, fun _ _ _ _ _ => False.elim⟩
        | some value => exact ⟨v, true, ht.1, ht.2, fun hf => by cases hf⟩
    | spreadValueOnly v msgId => exact hstill (fun _ _ => id) graphSpreadValueOnly
    | paxosAccept slot leader v newValue =>
      dsimp only
      split
      · rename_i hskip
        refine hnothing fun _ _ hslot _ hvoter => ?_
        rcases hskip with hlow | hreplica
        · exact absurd (Option.some.inj hslot) hlow.ne
        · cases hvoter.symm.trans hreplica
      · rename_i hskip
        have hslot : slot = s.slot := by
          rcases ConsensusShard.ready_cases hready with ⟨hslot, -⟩ | hlow
          · exact Option.some.inj hslot
          · exact absurd (Or.inl (hlow slot rfl)) hskip
        refine (onPaxosAccept ⟨hslot, rfl, rfl⟩).post fun r t ht => ?_
        cases r with
        | none =>
          refine ⟨steady ht.1 (.inr (hheld (congrArg some hslot))), ht.1.said, ?_⟩
          exact fun _ _ _ _ _ _ => Or.inl ht.2
        | some value => exact ⟨v, false, ht.1, ht.2.1, fun _ => Or.inl ht.2.2⟩
  | _ => exact Or.inl .refl

variable [NeZero n] in
theorem candid : Candid me True (k.cluster.isReplica me = true) Stocked (k.algorithm me order) where
  processMessage := processMessage
  proposeStart := proposes proposeStart
  reproposeStart := proposes proposeAndSpread
  commitSlot := ⟨RoundState.clear, fun _ => rfl⟩
  restless := by
    rintro s ⟨v, hv⟩
    have hheld : s.hasQueuedCommands = true := by
      rw [ConsensusShard.hasQueuedCommands, Bool.not_eq_true', Bool.eq_false_iff, ne_eq,
        Lib.HashMap.isEmpty_iff]
      exact fun hempty => AList.notMem_empty v (hempty ▸ hv)
    rw [ConsensusShard.canSleep, hheld, Bool.not_true, Bool.and_false]
    rfl
  lasting := fun hheld _ ⟨v, hv⟩ => ⟨v, hheld v hv⟩

end Conducts

end KCensusSettings

end KCensus.Slots

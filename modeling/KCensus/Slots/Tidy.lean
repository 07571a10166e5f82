import KCensus.Slots.Rest

namespace KCensus.Slots

open Lib.Turn (Meets Along)
open Turn Watch Conduct ConsensusShard

variable {n : Nat} {R : Type} {me : Fin n} {y : Rest me R} {s t u : ConsensusShard n R}
  {algo : ConsensusShardTrait n R} {c : Cluster n} {order : HashOrder n} {msg : ConsensusMessage n}
  {α β : Type}

theorem ConsensusShard.exists_queued (h : s.hasQueuedCommands = true) :
    ∃ v, v ∈ s.queuedCommands := by
  rw [hasQueuedCommands, Bool.not_eq_true'] at h
  exact Lib.HashMap.exists_mem h

theorem ReadTracker.receiveReady_quorum (t : ReadTracker n) (id slot : Nat) (fast : Bool) :
    (t.receiveReady id slot fast).1.readQuorum = t.readQuorum := by
  rw [receiveReady]
  split
  · rfl
  · dsimp only
    split
    · rfl
    · rfl

theorem Strays.append {events said : List (Event n)} (h : Strays events)
    (hsaid : ∀ e ∈ said, e.isCommitted = false) : Strays (events ++ said) := by
  obtain ⟨v, before, after, rfl, hafter⟩ := h
  refine ⟨v, before, after ++ said, by simp, fun e he => ?_⟩
  exact (List.mem_append.1 he).elim (hafter e) (hsaid e)

theorem Strays.grown (h : Strays s.sinks) (hsaid : Said (fun e => e.isCommitted = false) s t) :
    Strays t.sinks := by
  obtain ⟨said, hsaid, hfits⟩ := hsaid
  exact hsaid ▸ h.append hfits

namespace Rest

theorem Kept.stocked (h : y.Kept s t) (hs : y.Stocked s) : y.Stocked t :=
  hs.imp (Exists.imp h.held) h.valued

namespace Tidy

theorem same (h : y.Tidy s) (hquorum : t.readTracker.readQuorum = s.readTracker.readQuorum)
    (hround : t.roundState = s.roundState) (hleft : t.slotLeftFastPath = s.slotLeftFastPath)
    (hheld : ∀ v ∈ s.queuedCommands, v ∈ t.queuedCommands)
    (hsaid : Said (fun e => e.isCommitted = false) s t) : y.Tidy t := by
  refine ⟨hquorum.trans h.quorum, hround ▸ h.fit, h.rest.imp ?_ (Or.imp ?_ ?_)⟩
  · exact Or.imp (Exists.imp hheld) fun hv => hround ▸ hv
  · exact fun hidle => ⟨hround.trans hidle.1, hleft.trans hidle.2⟩
  · exact fun hstray => ⟨hstray.1, hstray.2.grown hsaid⟩

theorem emit (h : y.Tidy s) {e : Event n} (he : e.isCommitted = false) :
    y.Tidy { s with sinks := s.sinks ++ [e] } :=
  h.same rfl rfl rfl (fun _ => id) ⟨[e], rfl, fun _ hm => List.mem_singleton.1 hm ▸ he⟩

theorem stocked (h : y.Tidy s) (ht : y.Kept s t) (hs : y.Stocked t) : y.Tidy t :=
  ⟨ht.tracker ▸ h.quorum, ht.fit h.fit, Or.inl hs⟩

theorem rested (h : y.Tidy s) (ht : y.Kept s t) (hr : y.Rested msg s t)
    (hnoted : s.valueReady msg = .ok false → msg.getSlot = some s.slot → Strays s.sinks) :
    y.Tidy t := by
  have hsaid : Said (fun e => e.isCommitted = false) s t := ht.said.mono fun _ he => he.2
  rcases hr with hsame | hstocked | ⟨hfollows, hvalue, hslot⟩
  · refine h.same ?_ ?_ ?_ ht.held hsaid
    · rw [hsame]
    · rw [hsame]
    · rw [hsame]
  · exact h.stocked ht hstocked
  · exact ⟨ht.tracker ▸ h.quorum, ht.fit h.fit,
      Or.inr (Or.inr ⟨hfollows, (hnoted hvalue hslot).grown hsaid⟩)⟩

end Tidy

-- A part of a turn leaves a tidy shard behind, unless it fails.
def Tends (y : Rest me R) (m : Turn n R α) (s : ConsensusShard n R) : Prop :=
  Meets m s (fun _ t => y.Tidy t ∧ Said y.Says s t) (fun _ => Said y.Says s)

namespace Tends

variable {m : Turn n R α} {f : α → Turn n R β}

theorem get {f : ConsensusShard n R → Turn n R β} (h : y.Tends (f s) s) :
    y.Tends (MonadState.get >>= f) s := h

theorem read (hm : y.Tends m s) {Q : β → ConsensusShard n R → Prop}
    {E : Panic → ConsensusShard n R → Prop}
    (hf : ∀ a t, y.Tidy t → Said y.Says s t → Meets (f a) t Q E)
    (he : ∀ e t, Said y.Says s t → E e t) : Meets (m >>= f) s Q E :=
  Lib.Turn.meets_bind.2 (Meets.mono hm (fun a t ht => hf a t ht.1 ht.2) he)

theorem after (h : Said y.Says s t) (hm : y.Tends m t) :
    Meets m t (fun _ u => y.Tidy u ∧ Said y.Says s u) (fun _ => Said y.Says s) :=
  Meets.mono hm (fun _ _ hu => ⟨hu.1, h.trans hu.2⟩) fun _ _ => h.trans

theorem bind (hm : y.Tends m s) (hf : ∀ a t, y.Tidy t → y.Tends (f a) t) :
    y.Tends (m >>= f) s :=
  hm.read (fun a t ht hsaid => after hsaid (hf a t ht)) fun _ _ => id

theorem pure (h : y.Tidy s) (a : α) : y.Tends (Pure.pure a) s := ⟨h, .refl⟩

theorem check (h : y.Tidy s) {b : Bool} {e : Panic} : y.Tends (Turn.check b e) s :=
  meets_check.2 ⟨fun _ => ⟨h, .refl⟩, fun _ => .refl⟩

theorem lift_bind {g : ConsensusShard n R → Except Panic α} (hf : ∀ a, g s = .ok a → y.Tends (f a) s) :
    y.Tends (Turn.lift g >>= f) s :=
  Lib.Turn.meets_bind.2 (meets_lift.2 ⟨hf, fun _ _ => .refl⟩)

theorem emit (h : y.Tidy s) {e : Event n} (he : y.Says e) (hc : e.isCommitted = false) :
    y.Tends (Turn.emit e) s :=
  ⟨h.emit hc, [e], rfl, fun _ hm => List.mem_singleton.1 hm ▸ he⟩

theorem stocked (h : y.Tidy s)
    (hm : Meets m s (fun _ t => y.Kept s t ∧ y.Stocked t) (fun _ => y.Kept s)) : y.Tends m s :=
  hm.mono (fun _ _ ht => ⟨h.stocked ht.1 ht.2, ht.1.proper⟩) fun _ _ ht => ht.proper

end Tends

-- The commit of a slot that the shard has left.
structure Handing (y : Rest me R) (s t : ConsensusShard n R) : Prop where
  round : t.roundState = s.roundState
  left : t.slotLeftFastPath = s.slotLeftFastPath
  quorum : t.readTracker.readQuorum = s.readTracker.readQuorum
  said : Said y.Says s t

instance : IsPreorder (ConsensusShard n R) y.Handing where
  refl _ := ⟨rfl, rfl, rfl, .refl⟩
  trans _ _ _ h h' := ⟨h'.round.trans h.round, h'.left.trans h.left, h'.quorum.trans h.quorum,
    h.said.trans h'.said⟩

namespace Handing

theorem emit {e : Event n} (he : y.Says e) : Along y.Handing (Turn.emit e) s :=
  ⟨rfl, rfl, rfl, [e], rfl, fun _ hm => List.mem_singleton.1 hm ▸ he⟩

theorem commitWrite {fast : Bool} {slot : Nat} {v : Option Nat} {command : Command n} :
    Along y.Handing (Turn.commitWrite me fast slot v command) s :=
  .bind .check fun _ _ _ => emit trivial

theorem commitEach {fast : Bool} {slot : Nat} (vs : List Nat) :
    Along y.Handing (Turn.commitEach me fast slot vs) s := by
  induction vs generalizing s with
  | nil => exact .pure _
  | cons v vs ih =>
    have hremove : Along y.Handing (removeCommand v) s := by
      simp only [Along, removeCommand, Lib.Turn.meets_bind, Lib.Turn.meets_get]
      split
      · exact ⟨rfl, rfl, rfl, .of_eq rfl⟩
      · exact refl s
    refine .bind hremove fun value _ _ => ?_
    cases value with
    | single command => exact .bind commitWrite fun _ _ _ => ih
    | batch slot vs => exact .throw _

theorem handReads (reads : List (Nat × Command n)) :
    Along y.Handing (Turn.handReads reads : Turn n R Unit) s := by
  induction reads generalizing s with
  | nil => exact .pure _
  | cons read reads ih => exact .bind (emit trivial) fun _ _ _ => .bind (emit trivial) fun _ _ _ => ih

theorem serveReads : Along y.Handing (Turn.serveReads : Turn n R Unit) s := by
  have hserved : y.Handing s { s with readTracker := (s.readTracker.commitSlot s.slot).1 } :=
    ⟨rfl, rfl, rfl, .of_eq rfl⟩
  refine Meets.get (Lib.Turn.meets_bind.2 ?_)
  exact Along.after hserved (handReads (s.readTracker.commitSlot s.slot).2)

end Handing

def Came (y : Rest me R) (slot : Nat) : Option (CommandBatch n) → ConsensusShard n R → Prop
  | none, t => y.Tidy t
  | some value, t => value.isRead = true ∧ y.Tidy t ∨
      t.slot = slot + 1 ∧ t.readTracker.readQuorum = y.readQuorum ∧ t.roundState = y.idle

theorem Ended.came {r : Option (CommandBatch n)} (hr : y.Ended s r t) (h : y.Tidy s)
    (htidy : r = none → y.Tidy t) : y.Came s.slot r t ∧ Said y.Says s t := by
  cases r with
  | none => exact ⟨htidy rfl, hr.proper⟩
  | some value => exact ⟨Or.inr ⟨hr.1, hr.2.1 ▸ h.quorum, hr.2.2.1 h.fit⟩, hr.2.2.2⟩

namespace Habitual

theorem commitWrites_tends (hy : y.Habitual algo) {batch : CommandBatch n}
    (hquorum : s.readTracker.readQuorum = y.readQuorum) (hround : s.roundState = y.idle) :
    y.Tends (commitWrites me algo batch) s := by
  have hwrites : Meets (Turn.commitWrites me algo batch) s
      (fun _ => y.Handing { s with slotLeftFastPath := false })
      (fun _ => y.Handing { s with slotLeftFastPath := false }) := by
    refine Meets.get (Lib.Turn.meets_bind.2 ?_)
    cases batch with
    | single command =>
      have hwork : Along y.Handing (do
          Turn.commitWrite me (algo.hasFastPath && !s.slotLeftFastPath) (s.slot - 1) s.lastV command
          Turn.serveReads) { s with slotLeftFastPath := false } :=
        .bind Handing.commitWrite fun _ _ _ => Handing.serveReads
      exact hwork
    | batch slot vs =>
      have hwork : Along y.Handing (do
          Turn.commitEach me (algo.hasFastPath && !s.slotLeftFastPath) (s.slot - 1) vs
          Turn.serveReads) { s with slotLeftFastPath := false } :=
        .bind (Handing.commitEach vs) fun _ _ _ => Handing.serveReads
      exact hwork
  refine hwrites.mono (fun _ t ht => ⟨⟨?_, ?_, ?_⟩, ht.said⟩) fun _ t ht => ht.said
  · exact ht.quorum.trans hquorum
  · exact (ht.round.trans hround) ▸ hy.idle
  · exact Or.inr (Or.inl ⟨ht.round.trans hround, ht.left⟩)

theorem commitCommands_tends (hy : y.Habitual algo) {r : Option (CommandBatch n)} {slot : Nat}
    (h : y.Came slot r s)
    (hread : ∀ value, r = some value → value.isRead = true → s.slot = slot) :
    y.Tends (commitCommands me algo r) s := by
  cases r with
  | none => exact .pure h _
  | some value =>
    rcases h with ⟨hisread, htidy⟩ | ⟨hslot, hquorum, hround⟩
    · cases value with
      | batch slot vs => cases hisread
      | single command =>
        rw [Turn.commitCommands, if_pos (show command.readOnly = true from hisread)]
        exact .bind (.emit htidy trivial rfl) fun _ _ ht => .pure ht _
    · have hwrite : value.isRead = false := by
        refine Bool.eq_false_of_not_eq_true fun hisread => ?_
        exact absurd ((hread value rfl hisread).symm.trans hslot).symm (Nat.succ_ne_self slot)
      cases value with
      | batch slot vs => exact .bind (hy.commitWrites_tends hquorum hround) fun _ _ ht => .pure ht _
      | single command =>
        rw [Turn.commitCommands, if_neg (Bool.eq_false_iff.1 (show command.readOnly = false from hwrite))]
        exact .bind (hy.commitWrites_tends hquorum hround) fun _ _ ht => .pure ht _

theorem receiveReady_tends {id : Nat} {fromQueue : Bool} (h : y.Tidy s) :
    y.Tends (Turn.receiveReady id fromQueue) s := by
  refine Meets.get ?_
  dsimp only
  set fast := !fromQueue && !s.queuedMessages.any (isAnswerTo id)
  have hquorum := ReadTracker.receiveReady_quorum s.readTracker id s.slot fast
  split
  · rename_i readTracker command heq
    rw [heq] at hquorum
    have hsaid : ∀ fits : Event n → Prop, fits (.readServed id command) →
        Said fits s { s with readTracker, sinks := s.sinks ++ [.readServed id command] } :=
      fun fits hfits => ⟨_, rfl, fun e he => List.mem_singleton.1 he ▸ hfits⟩
    exact ⟨h.same hquorum rfl rfl (fun _ hv => hv) (hsaid _ rfl), hsaid _ trivial⟩
  · rename_i readTracker heq
    rw [heq] at hquorum
    exact ⟨h.same hquorum rfl rfl (fun _ hv => hv) (.of_eq rfl), .of_eq rfl⟩

theorem sendWith_tends {m : ConsensusMsg n} {value : Option (CommandBatch n)} {lastV : Option Nat}
    {dest : Fin n} (h : y.Tidy s) (hp : y.Proper ⟨⟨m, me, lastV⟩, value⟩) :
    y.Tends (Turn.sendWith c me m value lastV dest) s :=
  .bind (.check h) fun _ _ ht => .emit ht hp rfl

theorem processMessage_came (hy : y.Habitual algo) (h : y.Tidy s)
    (hready : s.readyToProcess me msg = .ok true)
    (hnoted : s.valueReady msg = .ok false → msg.getSlot = some s.slot → Strays s.sinks) :
    Meets (algo.processMessage msg) s (fun r t => y.Came s.slot r t ∧ Said y.Says s t)
      (fun _ => Said y.Says s) := by
  refine (hy.processMessage hready).mono (fun r t ht => ht.1.came h fun hr => ?_) fun _ _ ht => ht.proper
  subst hr
  exact h.rested ht.1 (ht.2 rfl) hnoted

theorem fullProcessMessage_came (hy : y.Habitual algo) (h : y.Tidy s)
    (hready : s.readyToProcess me msg = .ok true)
    (hnoted : s.valueReady msg = .ok false → msg.getSlot = some s.slot → Strays s.sinks)
    {fromQueue : Bool} (hreads : ∀ id, Meets (Turn.receiveReady id fromQueue) s
      (fun r _ => ∀ value, r = some value → value.isRead = true) fun _ _ => True) :
    Meets (fullProcessMessage c me algo msg fromQueue) s
      (fun r t => y.Came s.slot r t ∧ Said y.Says s t) (fun _ => Said y.Says s) := by
  rw [fullProcessMessage]
  cases hmsg : msg.msg with
  | commit slot v =>
    refine Meets.get ?_
    split
    · exact ⟨h, .refl⟩
    · have hlearned := h.emit (e := .learned slot v msg.src) rfl
      have hsaid : Said y.Says s { s with sinks := s.sinks ++ [.learned slot v msg.src] } :=
        ⟨_, rfl, fun e he => List.mem_singleton.1 he ▸ trivial⟩
      rw [Lib.Turn.meets_bind, Turn.emit, Lib.Turn.meets_modify, Lib.Turn.meets_bind]
      refine hy.commitSlot.mono (fun value t ht => ?_) fun _ _ ht => hsaid.trans ht.proper
      have hcame := ht.came hlearned fun hr => by cases hr
      exact ⟨hcame.1, hsaid.trans hcame.2⟩
  | readRequest id =>
    refine Meets.get (Tends.read (y := y) ?_ (fun _ t ht hsaid => ⟨ht, hsaid⟩) fun _ _ ht => ht)
    exact sendWith_tends h ⟨rfl, fun _ => rfl,
      hy.speaks (fun _ hm => by cases hm) fun _ hm => by cases hm⟩
  | readResponse id slot =>
    refine ((receiveReady_tends h).and (hreads id)).mono (fun r t ht => ⟨?_, ht.1.2⟩) fun _ _ ht => ht.1
    cases r with
    | none => exact ht.1.1
    | some value => exact Or.inl ⟨ht.2 value rfl, ht.1.1⟩
  | kcensusM m => exact hy.processMessage_came h hready hnoted
  | paxosM m => exact hy.processMessage_came h hready hnoted

theorem noteUnready_tidy (h : y.Tidy s) :
    Meets (noteUnready msg : Turn n R Unit) s
      (fun _ t => y.Tidy t ∧ Said y.Says s t ∧ t = { s with sinks := t.sinks } ∧
        (s.valueReady msg = .ok false → msg.getSlot = some s.slot → Strays t.sinks))
      (fun _ => Said y.Says s) := by
  refine Meets.get ?_
  split
  · rename_i v hv hvalue
    split
    · refine ⟨h.emit rfl, ⟨_, rfl, fun e he => List.mem_singleton.1 he ▸ trivial⟩, rfl, fun _ _ => ?_⟩
      exact ⟨v, s.sinks, [], rfl, fun e he => absurd he List.not_mem_nil⟩
    · exact ⟨h, .refl, rfl, fun _ hslot => absurd hslot ‹_›⟩
  · rename_i hnot
    refine ⟨h, .refl, rfl, fun hvalue _ => ?_⟩
    cases hv : msg.getV with
    | none =>
      rw [valueReady, hv] at hvalue
      cases hvalue
    | some v => exact (hnot v hv hvalue).elim

theorem storeValue_tends {packet : Packet n} (h : y.Tidy s) : y.Tends (Turn.storeValue packet) s := by
  rw [Turn.storeValue]
  split
  · exact .pure h _
  · split
    · exact .refl
    · rename_i value _ v _
      rw [Tends, storeRemoteCommand, Lib.Turn.meets_modify]
      split
      · exact ⟨h, .refl⟩
      · exact ⟨h.same rfl rfl rfl (fun w hw => (AList.mem_insert _).2 (Or.inr hw)) (.of_eq rfl),
          .of_eq rfl⟩

theorem proposeStart_tends (hy : y.Habitual algo) (h : y.Tidy s) {value : CommandBatch n}
    {contention : Bool} : y.Tends (algo.proposeStart value contention) s :=
  .stocked h (hy.proposeStart.post fun _ _ ht => ⟨ht.1, Or.inl ht.2⟩)

theorem proposeNext_tends (hy : y.Habitual algo) (h : y.Tidy s) :
    y.Tends (Turn.proposeNext order algo) s := by
  refine .get ?_
  dsimp only
  split
  · rename_i hidle
    refine .lift_bind fun lead _ => ?_
    split
    · split
      · exact hy.proposeStart_tends h
      · refine .lift_bind fun v _ => .stocked h ?_
        have hstocked : y.Stocked s := by
          exact Or.inl (exists_queued (Bool.and_eq_true_iff.1 hidle).2)
        exact hy.reproposeStart.mono (fun _ _ ht => ⟨ht, ht.stocked hstocked⟩) fun _ _ => id
    · exact .pure h _
  · split
    · exact .pure h _
    · split
      · exact .pure h _
      · rename_i command rest _
        refine .bind (m := modify _) ⟨?_, .of_eq rfl⟩ fun _ _ ht =>
          .bind (.check ht) fun _ _ hu => hy.proposeStart_tends hu
        exact h.same rfl rfl rfl (fun _ hv => hv) (.of_eq rfl)

theorem takeCommand_tends (hy : y.Habitual algo) (h : y.Tidy s) {command : Command n} :
    y.Tends (Turn.takeCommand me algo command) s := by
  refine .get (.bind (.emit h trivial rfl) fun _ t ht => ?_)
  split
  · refine .get (.bind (m := modify _) ⟨ht.same rfl rfl rfl (fun _ hv => hv) ?_, ?_⟩ fun _ u hu => .get ?_)
    · exact ⟨[_], rfl, fun e he => List.mem_singleton.1 he ▸ rfl⟩
    · exact ⟨[_], rfl, fun e he => List.mem_singleton.1 he ▸ trivial⟩
    · exact .emit hu ⟨rfl, fun hread => (by cases hread),
        hy.speaks (fun _ hm => by cases hm) fun _ hm => by cases hm⟩ rfl
  · dsimp only
    split
    · exact hy.proposeStart_tends ht
    · exact ⟨ht.same rfl rfl rfl (fun _ hv => hv) (.of_eq rfl), .of_eq rfl⟩

theorem onCommand_tends (hy : y.Habitual algo) (h : y.Tidy s) {command : Command n} :
    y.Tends (Turn.onCommand me order algo command) s :=
  .bind (hy.takeCommand_tends h) fun _ _ ht => hy.proposeNext_tends ht

section packets

variable [NeZero n] {x : Watch n R} {y : Rest x.me R} {committer : Nat → Option (Fin n)}

theorem processAndCommit_tends (hy : y.Habitual algo)
    (hl : ∀ supplied, Lawful (x.supply supplied) c committer algo) (hs : x.Sound s)
    (hmsg : msg.msg.Tells (x.Knows s)) (h : y.Tidy s) (hready : s.readyToProcess x.me msg = .ok true)
    (fromQueue : Bool) : y.Tends (processAndCommit c x.me algo msg fromQueue) s := by
  rw [Tends, processAndCommit, Lib.Turn.meets_bind]
  refine ((noteUnready_tidy h).and (noteUnready_spec (x := x.supply True) hs.supply msg)).mono ?_
    fun _ _ ht => ht.1
  rintro - t ⟨⟨htidy, hsaid, hsame, hnoted⟩, hwithin, -⟩
  have hsound : x.Sound t := hwithin.sound.unsupply
  have hslot : t.slot = s.slot := hwithin.frame.slot
  have hvalue : t.valueReady msg = s.valueReady msg := by
    rw [hsame]
    rfl
  have hreadyt : t.readyToProcess x.me msg = .ok true := by
    rw [hsame]
    exact hready
  have htells : msg.msg.Tells (x.Knows t) := hmsg.mono fun v hv => hwithin.frame.unsupply.knows hv
  have hreads : ∀ id, Meets (receiveReady id fromQueue : Turn n R _) t
      (fun r _ => ∀ value, r = some value → value.isRead = true) fun _ _ => True := fun id =>
    (receiveReady_spec hsound).mono (fun _ _ hr => hr.2) fun _ _ _ => trivial
  have hcame := hy.fullProcessMessage_came (c := c) htidy hreadyt
    (fun hv hm => hnoted (hvalue ▸ hv) (hslot ▸ hm)) hreads
  rw [Lib.Turn.meets_bind]
  refine (hcame.and (fullProcessMessage_spec (hl False) hsound.supply htells hreadyt False.elim)).mono
    (fun r u hu => ?_) fun _ _ hu => hsaid.trans hu.1
  exact Tends.after (hsaid.trans hu.1.2)
    (hy.commitCommands_tends hu.1.1 fun value hr hread => (hu.2.read value hr hread).slot)

theorem scanQueue_tends (hy : y.Habitual algo)
    (hl : ∀ supplied, Lawful (x.supply supplied) c committer algo)
    {before : List (ConsensusMessage n)} (rest : List (ConsensusMessage n)) (hs : x.Sound s)
    (hq : s.queuedMessages = before ++ rest) (h : y.Tidy s) :
    Meets (scanQueue c x.me algo before rest) s
      (fun _ t => x.Sound t ∧ y.Tidy t ∧ Said y.Says s t) (fun _ => Said y.Says s) := by
  induction rest generalizing before s with
  | nil => exact ⟨hs, h, .refl⟩
  | cons msg rest ih =>
    rw [scanQueue, Lib.Turn.meets_bind, meets_lift]
    refine ⟨fun ready hready => ?_, fun e he => .refl⟩
    cases ready with
    | false => exact ih hs (by rw [hq, List.append_assoc]; rfl) h
    | true =>
      have hmsg := hs.messages msg (hq ▸ List.mem_append_right _ List.mem_cons_self)
      have hleft : ∀ m ∈ before ++ rest, m.msg.Tells (x.Knows s) := fun m hm =>
        hs.messages m (hq ▸ (List.sublist_cons_self msg rest).append_left before |>.subset hm)
      have hsound := sound_queue hs hleft
      rw [if_pos rfl, Lib.Turn.meets_bind, Lib.Turn.meets_modify, Lib.Turn.meets_bind]
      set s' : ConsensusShard n R := { s with queuedMessages := before ++ rest } with hs'
      have htidy : y.Tidy s' := h.same rfl rfl rfl (fun _ hv => hv) (.of_eq rfl)
      have htends := hy.processAndCommit_tends hl hsound hmsg htidy hready true
      refine (htends.and (processAndCommit_spec hl hsound hmsg hready)).mono ?_ fun _ _ ht => ht.1
      rintro committed t ⟨⟨htidyt, hsaid⟩, htaken, hmessages, -⟩
      cases committed with
      | true => exact ⟨htaken.sound, htidyt, hsaid⟩
      | false =>
        exact (ih htaken.sound hmessages htidyt).mono
          (fun _ u hu => ⟨hu.1, hu.2.1, hsaid.trans hu.2.2⟩) fun _ _ hu => hsaid.trans hu

theorem processQueue_tends (hy : y.Habitual algo)
    (hl : ∀ supplied, Lawful (x.supply supplied) c committer algo) (fuel : Nat) (hs : x.Sound s)
    (h : y.Tidy s) : y.Tends (processQueue c x.me algo fuel) s := by
  induction fuel generalizing s with
  | zero => exact ⟨h, .refl⟩
  | succ fuel ih =>
    refine .get (Lib.Turn.meets_bind.2 ?_)
    refine (hy.scanQueue_tends hl s.queuedMessages hs rfl h).mono ?_ fun _ _ ht => ht
    rintro restart t ⟨hsound, htidy, hsaid⟩
    cases restart with
    | false => exact ⟨htidy, hsaid⟩
    | true => exact Tends.after hsaid (ih hsound htidy)

theorem takeMessage_tends (hy : y.Habitual algo)
    (hl : ∀ supplied, Lawful (x.supply supplied) c committer algo) (hs : x.Sound s)
    {packet : Packet n} (hpacket : packet.Tells (x.Knows s)) (h : y.Tidy s) :
    y.Tends (takeMessage c x.me algo packet) s := by
  rw [Tends, takeMessage, Lib.Turn.meets_bind, emit, Lib.Turn.meets_modify, Lib.Turn.meets_bind]
  set s₁ : ConsensusShard n R :=
    { s with sinks := s.sinks ++ [.received packet.msg.src packet] } with hs₁
  have hsound₁ : x.Sound s₁ :=
    (hs.within_emit (e := .received packet.msg.src packet) trivial fun _ hn => hn).sound
  have hsaid₁ : Said y.Says s s₁ := ⟨_, rfl, fun e he => List.mem_singleton.1 he ▸ trivial⟩
  have hspec : Meets (storeValue packet) s₁ (fun _ t => t = s₁.storing packet)
      (Crashed x committer s₁) := storeValue_spec hpacket
  refine ((storeValue_tends (h.emit rfl)).and hspec).mono ?_ fun _ _ ht => hsaid₁.trans ht.1
  rintro - _ ⟨⟨htidy, hstored⟩, rfl⟩
  have hsaid := hsaid₁.trans hstored
  have htaken : Taken x committer s₁ (s₁.storing packet) := storing_taken hsound₁ hpacket
  have hsound := htaken.sound
  have hmsg : packet.msg.msg.Tells (x.Knows (s₁.storing packet)) :=
    hpacket.msg.mono fun v hv => (knows_congr (storing_same s₁ packet).1).2 hv
  rw [Lib.Turn.meets_bind, meets_lift]
  refine ⟨fun ready hready => ?_, fun e he => hsaid⟩
  cases ready with
  | true =>
    rw [if_pos rfl, Lib.Turn.meets_bind]
    have htends := hy.processAndCommit_tends hl hsound hmsg htidy hready false
    refine (htends.and (processAndCommit_spec hl hsound hmsg hready)).mono ?_
      fun _ _ ht => hsaid.trans ht.1
    rintro committed t ⟨⟨htidyt, hsaidt⟩, htaken, -⟩
    split
    · refine Tends.after (hsaid.trans hsaidt) (.get (.bind ?_ fun _ _ hu => .pure hu _))
      exact hy.processQueue_tends hl _ htaken.sound htidyt
    · exact ⟨htidyt, hsaid.trans hsaidt⟩
  | false => exact ⟨htidy.same rfl rfl rfl (fun _ hv => hv) (.of_eq rfl), hsaid⟩

theorem onPacket_tends (hy : y.Habitual algo)
    (hl : ∀ supplied, Lawful (x.supply supplied) c committer algo) (hs : x.Sound s)
    {packet : Packet n} (hpacket : packet.Tells (x.Knows s)) (h : y.Tidy s) :
    y.Tends (onPacket c x.me order algo packet) s := by
  refine .bind (hy.takeMessage_tends hl hs hpacket h) fun mayPropose t ht => ?_
  split
  · exact hy.proposeNext_tends ht
  · exact .pure ht _

end packets

end Habitual

end Rest

end KCensus.Slots

import KCensus.Slots.Outlook

namespace KCensus.Slots

open Lib.Turn (Meets)
open Turn Watch Conduct ConsensusShard

variable {n : Nat} {R : Type} {me : Fin n} {s t u : ConsensusShard n R}
  {msg m : ConsensusMessage n}

-- A message that waits while another one of its slot, for the same uid, does not.
theorem ConsensusShard.HeldBack.absurd_of_ready (h : HeldBack me s m)
    (hslot : m.getSlot = some s.slot) (hv : m.getV = msg.getV)
    (hready : s.valueReady msg = .ok true) : False := by
  have hvalue : s.valueReady m = .ok true := by
    rw [← hready, valueReady, valueReady, hv]
  by_cases hlast : m.lastV = none ∨ m.lastV = s.lastV
  · refine h.1 ?_
    rw [readyToProcess, if_pos hslot, if_pos hlast, hvalue]
    rfl
  · exact h.2 (ready_lastV_iff.2 ⟨hslot, not_or.1 hlast⟩)

namespace Outlook

variable {o : Outlook me} {seen seen' : Fin n → List (ConsensusMessage n)}

-- A Commit that is handled while nothing is noted is that of a fast decision.
theorem Aware.learned_fast (h : o.Aware s seen) {slot v : Nat} (hmsg : msg.msg = .commit slot v)
    (hslot : slot = s.slot) (hready : s.valueReady msg = .ok true)
    (hground : Grounded o.phased o.hist msg)
    (hplace : ∃ b rest, seen msg.src = b ++ msg :: rest ∧ ∀ m ∈ b, HeldBack me s m)
    (hlog : o.log s ⊆ o.log t) (hmem : (me, .learned s.slot v msg.src) ∈ o.log t)
    (hleft : s.slotLeftFastPath = false) (hshown : Shown o.phased o.voter (o.log t) me s.slot) :
    FastFor (o.log t) me s.slot := by
  subst hslot
  by_cases hphased : o.phased
  · obtain ⟨u, fast, hdecided, hsame⟩ := hground.decided s.slot v hmsg
    cases fast with
    | true => exact ⟨msg.src, u, hist_subset hdecided, Or.inr ⟨v, hmem⟩⟩
    | false =>
      obtain rfl := hsame hphased rfl
      have hother : msg.src ≠ me := fun heq =>
        absurd (h.decided s.slot v false (hist_subset (heq ▸ hdecided))) (lt_irrefl _)
      rcases hshown.opened hphased with hvoter | hno
      · obtain ⟨b, rest, hb, hheld⟩ := hplace
        rcases (h.alert hphased hvoter).order msg.src s.slot v b msg rest hother hb rfl hmsg hdecided
          with (hlow | ⟨-, hl | hranked⟩) | ⟨m, hm, haccepts⟩
        · exact absurd hlow (lt_irrefl _)
        · cases hl.symm.trans hleft
        · exact absurd (hlog hranked) (hshown.ranked hphased)
        · obtain ⟨hmslot, hmv⟩ := haccepts.names
          have hv : m.getV = msg.getV := by rw [hmv, ConsensusMessage.getV, hmsg]
          exact ((hheld m hm).absurd_of_ready hmslot hv hready).elim
      · have hopened := o.opened hphased msg.src s.slot v hdecided
        exact absurd (hopened.mono hist_subset) (hno msg.src v hother)
  · exact absurd hmem (hshown.learned hphased v msg.src)

variable {busy : ConsensusShard n R → Prop} {algo : ConsensusShardTrait n R}

structure Minding (o : Outlook me) (busy : ConsensusShard n R → Prop) (s : ConsensusShard n R)
    (seen : Fin n → List (ConsensusMessage n)) : Prop extends o.Aware s seen where
  busy : s.slotLeftFastPath = true → busy s

-- What the handling of a message comes to; a slot that is decided is not handed over yet.
def Came (o : Outlook me) (busy : ConsensusShard n R → Prop)
    (seen : Fin n → List (ConsensusMessage n)) (slot : Nat) :
    Option (CommandBatch n) → ConsensusShard n R → Prop
  | none, t => o.Minding busy t seen
  | some value, t => value.isRead = true ∧ o.Minding busy t seen ∨
      o.Aware { t with slotLeftFastPath := false } seen ∧ t.slot = slot + 1 ∧
        (t.slotLeftFastPath = false → Shown o.phased o.voter (o.log t) me slot →
          FastFor (o.log t) me slot)

end Outlook

def Candid.conduct {phased voter : Prop} {busy : ConsensusShard n R → Prop}
    {algo : ConsensusShardTrait n R} (hc : Candid me phased voter busy algo)
    (heard : Fin n → Nat → Nat → Prop) : Conduct n R where
  me := me
  phased := phased
  heard := heard
  keeps := Steady busy
  refl _ := .refl
  trans := .trans
  emits s _ := ⟨rfl, id, fun hbusy hl => hc.lasting (s := s) (fun _ => id) rfl (hbusy hl)⟩

namespace Candid

open Outlook

variable {o : Outlook me} {seen seen' : Fin n → List (ConsensusMessage n)}
  {busy : ConsensusShard n R → Prop} {algo : ConsensusShardTrait n R} {c : Cluster n}
  {heard : Fin n → Nat → Nat → Prop}

theorem minding (hc : Candid me o.phased o.voter busy algo) (h : o.Minding busy s seen)
    (ht : (hc.conduct heard).Goes s t)
    (hheard : o.phased → ∀ leader slot v, heard leader slot v → Opened o.hist leader slot v) :
    o.Minding busy t seen :=
  ⟨h.toAware.plain ht.said hheard ht.keeps.slot ht.keeps.left, ht.keeps.busy h.busy⟩

theorem still (hc : Candid me o.phased o.voter busy algo) (h : o.Minding busy s seen)
    (ht : (hc.conduct fun _ _ _ => False).Goes s t) : o.Minding busy t seen :=
  hc.minding h ht fun _ _ _ _ => False.elim

theorem idles (hc : Candid me o.phased o.voter busy algo) (h : o.Minding busy s seen) {α : Type}
    {m : Turn n R α} (hm : (hc.conduct fun _ _ _ => False).Acts m s) :
    Meets m s (fun _ t => o.Minding busy t seen) (fun _ => o.Spoken) :=
  Meets.mono hm (fun _ _ => hc.still h)
    fun _ _ ht => h.toSpoken.plain ht.said fun _ _ _ _ => False.elim

theorem steady (hc : Candid me o.phased o.voter busy algo) (hslot : t.slot = s.slot)
    (hleft : t.slotLeftFastPath = s.slotLeftFastPath)
    (hcommands : ∀ v ∈ s.queuedCommands, v ∈ t.queuedCommands)
    (hround : t.roundState = s.roundState) : Steady busy s t :=
  ⟨hslot, hleft.trans, fun hbusy hl => hc.lasting hcommands hround (hbusy (hleft.symm.trans hl))⟩

theorem noteUnready_acts {y : Conduct n R} : y.Acts (noteUnready msg) s := by
  refine .get ?_
  split
  · split
    · exact .emit trivial
    · exact .pure _
  · exact .pure _

theorem storeValue_acts (hc : Candid me o.phased o.voter busy algo) {packet : Packet n} :
    (hc.conduct heard).Acts (storeValue packet) s := by
  rw [storeValue]
  split
  · exact .pure _
  · split
    · exact .throw _
    · rename_i v _
      refine .update ?_ ?_
      · split
        · exact .refl
        · refine hc.steady rfl rfl (fun w hw => ?_) rfl
          exact (AList.mem_insert _).2 (Or.inr hw)
      · split
        · rfl
        · rfl

theorem proposeNext_acts (hc : Candid me o.phased o.voter busy algo) {order : HashOrder n} :
    (hc.conduct fun _ _ _ => False).Acts (proposeNext order algo) s := by
  have hpropose : ∀ {t value contention},
      (hc.conduct fun _ _ _ => False).Acts (algo.proposeStart value contention) t :=
    Meets.mono hc.proposeStart (fun _ _ ht => ⟨ht.steady, ht.said⟩)
      fun _ _ ht => ⟨ht.steady, ht.said⟩
  refine .get ?_
  dsimp only
  split
  · refine .lift_bind fun lead _ => ?_
    split
    · split
      · exact hpropose
      · refine .lift_bind fun v _ => ?_
        exact Meets.mono hc.reproposeStart (fun _ _ ht => ⟨ht.steady, ht.said⟩)
          fun _ _ ht => ⟨ht.steady, ht.said⟩
    · exact .pure _
  · split
    · exact .pure _
    · split
      · exact .pure _
      · refine .bind (.update (hc.steady rfl rfl (fun _ hv => hv) rfl) rfl) fun _ t _ => ?_
        exact .bind .check fun _ _ _ => hpropose

theorem takeCommand_acts (hc : Candid me o.phased o.voter busy algo) {command : Command n} :
    (hc.conduct fun _ _ _ => False).Acts (takeCommand me algo command) s := by
  refine .get (.bind (.emit trivial) fun _ t _ => ?_)
  split
  · refine .get (.bind (m := modify _) ?_ fun _ _ _ => broadcast rfl fun _ _ _ _ => False.elim)
    refine ⟨hc.steady rfl rfl (fun _ hv => hv) rfl, [_], rfl, fun e he => ?_⟩
    exact List.mem_singleton.1 he ▸ trivial
  · dsimp only
    split
    · exact Meets.mono hc.proposeStart (fun _ _ ht => ⟨ht.steady, ht.said⟩)
        fun _ _ ht => ⟨ht.steady, ht.said⟩
    · exact .update (hc.steady rfl rfl (fun _ hv => hv) rfl) rfl

theorem receiveReady_acts (hc : Candid me o.phased o.voter busy algo) {id : Nat}
    {fromQueue : Bool} : (hc.conduct heard).Acts (receiveReady id fromQueue) s := by
  refine .get ?_
  dsimp only
  split
  · refine .bind (m := modify _) ⟨hc.steady rfl rfl (fun _ hv => hv) rfl, [_], rfl, ?_⟩
      fun _ t _ => .pure _
    exact fun e he => List.mem_singleton.1 he ▸ trivial
  · exact .bind (.update (hc.steady rfl rfl (fun _ hv => hv) rfl) rfl) fun _ t _ => .pure _

theorem processMessage_came (hc : Candid me o.phased o.voter busy algo)
    (h : o.Minding busy s seen) (hready : s.readyToProcess me msg = .ok true)
    (hground : Grounded o.phased o.hist msg) (hseen : ∀ q, Without msg (seen q) (seen' q)) :
    Meets (algo.processMessage msg) s (o.Came busy seen' s.slot) (fun _ => o.Spoken) := by
  refine (hc.processMessage hready).mono (fun r t ht => ?_) fun _ t ht => ?_
  · cases r with
    | none =>
      obtain ⟨hsteady, hsaid, hnoted⟩ := ht
      have haware := h.toAware.plain hsaid hground.opened hsteady.slot hsteady.left
      refine ⟨haware.handled hseen fun hphased hvoter q slot v hq hv => ?_, hsteady.busy h.busy⟩
      rcases ready_cases hready with ⟨hslot, -⟩ | hlow
      · obtain rfl := Option.some.inj (hv.names.1.symm.trans hslot)
        refine Or.inr ⟨hsteady.slot.symm, ?_⟩
        exact (hnoted hphased hvoter q v hq hv).imp id mem_log_of_said
      · exact Or.inl (hsteady.slot.symm ▸ hlow slot hv.names.1)
    | some value =>
      obtain ⟨v, fast, htold, hslot, hroute⟩ := ht
      have haware := h.toAware.decides htold hground.opened hslot
      refine Or.inr ⟨haware.handled hseen fun _ _ q slot w _ hw => Or.inl ?_, hslot, ?_⟩
      · rcases ready_cases hready with ⟨hcurrent, -⟩ | hlow
        · obtain rfl := Option.some.inj (hw.names.1.symm.trans hcurrent)
          exact Nat.lt_of_lt_of_eq (Nat.lt_succ_self _) hslot.symm
        · exact Nat.lt_of_lt_of_eq (Nat.lt_succ_of_lt (hlow slot hw.names.1)) hslot.symm
      · intro hleft hshown
        have hdecided := mem_log_of_said (o := o) htold.decided
        cases fast with
        | true => exact ⟨me, v, hdecided, Or.inl rfl⟩
        | false =>
          rcases hroute rfl with hl | ⟨hphased, hvoter⟩
          · cases hl.symm.trans hleft
          · exact absurd hdecided ((hshown.own hphased).resolve_left hvoter v)
  · exact h.toAware.voiced ht hground.opened

theorem commit_came (hc : Candid me o.phased o.voter busy algo) {slot v : Nat}
    (h : o.Minding busy s seen) (hmsg : msg.msg = .commit slot v)
    (hready : s.readyToProcess me msg = .ok true) (hground : Grounded o.phased o.hist msg)
    (hseen : ∀ q, Without msg (seen q) (seen' q))
    (hplace : ∃ b rest, seen msg.src = b ++ msg :: rest ∧ ∀ m ∈ b, HeldBack me s m)
    {fromQueue : Bool} :
    Meets (fullProcessMessage c me algo msg fromQueue) s (o.Came busy seen' s.slot)
      (fun _ => o.Spoken) := by
  have hnot : ∀ q slot v, ¬ msg.msg.Accepts q slot v := fun q slot' w => by
    rw [hmsg]
    exact id
  rw [fullProcessMessage, hmsg]
  refine Meets.get ?_
  split
  · exact ⟨h.toAware.handled hseen fun _ _ q slot w _ hw => absurd hw (hnot q slot w), h.busy⟩
  · rename_i hslot
    obtain ⟨hcurrent, hvalue⟩ : slot = s.slot ∧ s.valueReady msg = .ok true := by
      rcases ready_cases hready with ⟨hcurrent, hvalue⟩ | hlow
      · rw [ConsensusMessage.getSlot, hmsg] at hcurrent
        rw [ledByAnother, hmsg] at hvalue
        exact ⟨Option.some.inj hcurrent, hvalue.resolve_right fun hled => nomatch hled.2⟩
      · exact absurd (hlow slot (by rw [ConsensusMessage.getSlot, hmsg])) hslot
    obtain ⟨clear, hcommit⟩ := hc.commitSlot
    rw [Lib.Turn.meets_bind, emit, Lib.Turn.meets_modify, Lib.Turn.meets_bind, hcommit]
    refine (advance_ends (s := { s with sinks := s.sinks ++ [.learned slot v msg.src] })).mono
      (fun value t ht => Or.inr ?_) fun _ t ht => ?_
    · obtain ⟨hnext, hleft, hsinks⟩ := ht
      have hsaid : t.sinks = s.sinks ++ [.learned slot v msg.src, .committed s.slot v] := by
        rw [hsinks, List.append_assoc]
        rfl
      have hmem : (me, .learned s.slot v msg.src) ∈ o.log t :=
        (mem_log hsaid).2 (Or.inr ⟨rfl, hcurrent ▸ List.mem_cons_self⟩)
      have haware : o.Aware { t with slotLeftFastPath := false } seen := by
        refine h.toAware.grow (t := { t with slotLeftFastPath := false }) hsaid ?_ ?_ ?_ ?_
        · simp [Event.Backed]
        · simp
        · exact hnext ▸ Nat.le_succ s.slot
        · exact fun heq => absurd (hnext.symm.trans heq) (Nat.succ_ne_self _)
      refine ⟨haware.handled hseen fun _ _ q slot w _ hw => absurd hw (hnot q slot w), hnext, ?_⟩
      exact fun hl => h.toAware.learned_fast hmsg hcurrent hvalue hground hplace (log_subset hsaid)
        hmem (hleft.symm.trans hl)
    · subst ht
      have hsaid : s.sinks ++ [.learned slot v msg.src] = s.sinks ++ [.learned slot v msg.src] := rfl
      refine h.toSpoken.grow hsaid ?_ ?_ ?_
      · simp [Event.Backed]
      · simp
      · simp

variable [NeZero n] {x : Watch n R} {o : Outlook x.me} {committer : Nat → Option (Fin n)}

theorem fullProcessMessage_came (hc : Candid x.me o.phased o.voter busy algo) (hs : x.Sound s)
    (h : o.Minding busy s seen) (hready : s.readyToProcess x.me msg = .ok true)
    (hground : Grounded o.phased o.hist msg) (hseen : ∀ q, Without msg (seen q) (seen' q))
    (hplace : msg.msg.isCommit = true →
      ∃ b rest, seen msg.src = b ++ msg :: rest ∧ ∀ m ∈ b, HeldBack x.me s m)
    {fromQueue : Bool} :
    Meets (fullProcessMessage c x.me algo msg fromQueue) s (o.Came busy seen' s.slot)
      (fun _ => o.Spoken) := by
  have hstill : ∀ {t}, (∀ q slot v, ¬ msg.msg.Accepts q slot v) →
      (hc.conduct fun _ _ _ => False).Goes s t → o.Minding busy t seen' := by
    intro t hnot ht
    have hminding := hc.still h ht
    exact ⟨hminding.toAware.handled hseen fun _ _ q slot v _ hv => absurd hv (hnot q slot v),
      hminding.busy⟩
  have hfail : ∀ {t}, (hc.conduct fun _ _ _ => False).Goes s t → o.Spoken t :=
    fun ht => h.toSpoken.plain ht.said fun _ _ _ _ => False.elim
  cases hmsg : msg.msg with
  | commit slot v => exact hc.commit_came h hmsg hready hground hseen (hplace (hmsg ▸ rfl))
  | readRequest id =>
    have hnot : ∀ q slot v, ¬ msg.msg.Accepts q slot v := fun _ _ _ hv => by
      rw [hmsg] at hv
      exact hv
    rw [fullProcessMessage, hmsg]
    refine Meets.get (Acts.read (y := hc.conduct fun _ _ _ => False) ?_ ?_ fun _ t => hfail)
    · exact sendWith rfl nofun
    · exact fun _ t ht => hstill hnot ht
  | readResponse id slot =>
    have hnot : ∀ q slot v, ¬ msg.msg.Accepts q slot v := fun _ _ _ hv => by
      rw [hmsg] at hv
      exact hv
    rw [fullProcessMessage, hmsg]
    have hacts : (hc.conduct fun _ _ _ => False).Acts (receiveReady id fromQueue) s :=
      hc.receiveReady_acts
    refine (Meets.and hacts (receiveReady_spec hs)).mono (fun r t ht => ?_) fun _ t ht => hfail ht.1
    cases r with
    | none => exact hstill hnot ht.1
    | some value => exact Or.inl ⟨ht.2.2 value rfl, hstill hnot ht.1⟩
  | kcensusM m =>
    rw [fullProcessMessage, hmsg]
    exact hc.processMessage_came h hready hground hseen
  | paxosM m =>
    rw [fullProcessMessage, hmsg]
    exact hc.processMessage_came h hready hground hseen

omit [NeZero n] in
theorem commitCommands_minds (hc : Candid x.me o.phased o.voter busy algo)
    {r : Option (CommandBatch n)} {slot : Nat} (h : o.Came busy seen slot r t)
    (hread : ∀ value, r = some value → value.isRead = true → t.slot = slot) :
    Meets (commitCommands x.me algo r) t (fun _ u => o.Minding busy u seen)
      (fun _ => o.Spoken) := by
  have hwrites : ∀ batch, o.Aware { t with slotLeftFastPath := false } seen → t.slot = slot + 1 →
      (t.slotLeftFastPath = false → Shown o.phased o.voter (o.log t) x.me slot →
        FastFor (o.log t) x.me slot) →
      Meets (do
        commitWrites x.me algo batch
        return true) t (fun _ u => o.Minding busy u seen) (fun _ => o.Spoken) := by
    intro batch haware hslot hfast
    have hgo : ∀ {u}, Handing x.me (t.slot - 1) (algo.hasFastPath && !t.slotLeftFastPath)
        { t with slotLeftFastPath := false } u → o.Aware u seen := by
      intro u hu
      have hlast : t.slot - 1 = slot := Nat.pred_eq_of_eq_succ hslot
      rw [hlast] at hu
      refine haware.hands hu fun hflag => hfast ?_
      rw [Bool.and_eq_true, Bool.not_eq_true'] at hflag
      exact hflag.2
    rw [Lib.Turn.meets_bind]
    refine commitWrites_hands.mono (fun _ u hu => ?_) fun _ u hu => (hgo hu).toSpoken
    exact ⟨hgo hu, fun hl => nomatch hl.symm.trans hu.left⟩
  cases r with
  | none => exact h
  | some value =>
    rcases h with ⟨hisread, hminding⟩ | ⟨haware, hslot, hfast⟩
    · cases value with
      | batch slot' vs => cases hisread
      | single command =>
        rw [commitCommands, if_pos (show command.readOnly = true from hisread)]
        exact hc.idles hminding (.bind (.emit rfl) fun _ _ _ => .pure _)
    · have hwrite : value.isRead = false := by
        refine Bool.eq_false_of_not_eq_true fun hisread => ?_
        exact absurd ((hread value rfl hisread).symm.trans hslot).symm (Nat.succ_ne_self slot)
      cases value with
      | batch slot' vs => exact hwrites _ haware hslot hfast
      | single command =>
        rw [commitCommands, if_neg (Bool.eq_false_iff.1 (show command.readOnly = false from hwrite))]
        exact hwrites _ haware hslot hfast

theorem processAndCommit_minds (hc : Candid x.me o.phased o.voter busy algo)
    (hl : ∀ supplied, Lawful (x.supply supplied) c committer algo) (hs : x.Sound s)
    (hmsg : msg.msg.Tells (x.Knows s)) (h : o.Minding busy s seen)
    (hready : s.readyToProcess x.me msg = .ok true) (hground : Grounded o.phased o.hist msg)
    (hseen : ∀ q, Without msg (seen q) (seen' q))
    (hplace : msg.msg.isCommit = true →
      ∃ b rest, seen msg.src = b ++ msg :: rest ∧ ∀ m ∈ b, HeldBack x.me s m)
    (fromQueue : Bool) :
    Meets (processAndCommit c x.me algo msg fromQueue) s (fun _ t => o.Minding busy t seen')
      (fun _ => o.Spoken) := by
  have hacts : (Conduct.still x.me o.phased fun _ _ _ => False).Acts (noteUnready msg) s :=
    noteUnready_acts
  rw [processAndCommit, Lib.Turn.meets_bind]
  refine (Meets.and hacts (noteUnready_spec (x := x.supply True) hs.supply msg)).mono ?_ ?_
  · rintro - t ⟨⟨hsame, hsaid⟩, hwithin, -⟩
    have hsound : x.Sound t := hwithin.sound.unsupply
    obtain ⟨hslot, hleft, hcommands, hround, hnext⟩ : t.slot = s.slot ∧
        t.slotLeftFastPath = s.slotLeftFastPath ∧ t.queuedCommands = s.queuedCommands ∧
        t.roundState = s.roundState ∧ t.nextUid = s.nextUid := by
      rw [hsame]
      exact ⟨rfl, rfl, rfl, rfl, rfl⟩
    have hsameReady : ∀ m, t.readyToProcess x.me m = s.readyToProcess x.me m := fun m => by
      rw [hsame]
      rfl
    have hminding : o.Minding busy t seen :=
      hc.still h ⟨hc.steady hslot hleft (fun _ hv => hcommands.symm ▸ hv) hround, hsaid⟩
    have htells : msg.msg.Tells (x.Knows t) := hmsg.mono fun v hv => (knows_congr hnext).2 hv
    have hreadyt := (hsameReady msg).trans hready
    have hplacet : msg.msg.isCommit = true →
        ∃ b rest, seen msg.src = b ++ msg :: rest ∧ ∀ m ∈ b, HeldBack x.me t m := by
      intro hcommit
      obtain ⟨b, rest, hb, hheld⟩ := hplace hcommit
      refine ⟨b, rest, hb, fun m hm => ?_⟩
      rw [HeldBack, hsameReady]
      exact hheld m hm
    rw [Lib.Turn.meets_bind]
    refine ((hc.fullProcessMessage_came hsound hminding hreadyt hground hseen hplacet).and
      (fullProcessMessage_spec (hl False) hsound.supply htells hreadyt False.elim)).mono (fun r u hu => ?_) fun _ _ hu => hu.1
    exact hc.commitCommands_minds hu.1 fun value hr hread => (hu.2.read value hr hread).slot
  · exact fun _ t ht => h.toSpoken.plain ht.1.said fun _ _ _ _ => False.elim

theorem scanQueue_minds (hc : Candid x.me o.phased o.voter busy algo)
    (hl : ∀ supplied, Lawful (x.supply supplied) c committer algo)
    {before : List (ConsensusMessage n)} (rest : List (ConsensusMessage n)) (hs : x.Sound s)
    (hq : s.queuedMessages = before ++ rest) (hb : ∀ m ∈ before, HeldBack x.me s m)
    {away : Fin n → List (ConsensusMessage n)}
    (h : o.Minding busy s fun q => s.queuedMessages ++ away q) :
    Meets (scanQueue c x.me algo before rest) s
      (fun _ t => x.Sound t ∧ o.Minding busy t fun q => t.queuedMessages ++ away q)
      (fun _ => o.Spoken) := by
  induction rest generalizing before s with
  | nil => exact ⟨hs, h⟩
  | cons msg rest ih =>
    have hmem : msg ∈ s.queuedMessages := hq ▸ List.mem_append_right _ List.mem_cons_self
    rw [scanQueue, Lib.Turn.meets_bind, meets_lift]
    refine ⟨fun ready hready => ?_, fun e he => h.toSpoken⟩
    cases ready with
    | false =>
      refine ih hs (by rw [hq, List.append_assoc]; rfl) (fun m hm => ?_) h
      rcases List.mem_append.1 hm with hold | hnew
      · exact hb m hold
      · exact List.mem_singleton.1 hnew ▸ .of_unready hready
    | true =>
      have hleft : ∀ m ∈ before ++ rest, m.msg.Tells (x.Knows s) := fun m hm =>
        hs.messages m (hq ▸ (List.sublist_cons_self msg rest).append_left before |>.subset hm)
      have hsound := sound_queue hs hleft
      rw [if_pos rfl, Lib.Turn.meets_bind, Lib.Turn.meets_modify, Lib.Turn.meets_bind]
      set s' : ConsensusShard n R := { s with queuedMessages := before ++ rest } with hs'
      have hminding : o.Minding busy s' fun q => s.queuedMessages ++ away q :=
        hc.still h ⟨hc.steady rfl rfl (fun _ hv => hv) rfl, .of_eq rfl⟩
      have hwithout : ∀ q, Without msg (s.queuedMessages ++ away q) (before ++ rest ++ away q) :=
        fun q => Or.inr ⟨before, rest ++ away q, by simp [hq], by simp⟩
      have hminds := hc.processAndCommit_minds hl hsound (hs.messages msg hmem) hminding hready
        (h.grounded x.me msg (List.mem_append_left _ hmem)) hwithout
        (fun _ => ⟨before, rest ++ away msg.src, by simp [hq], hb⟩) true
      refine (hminds.and (processAndCommit_spec hl hsound (hs.messages msg hmem) hready)).mono ?_
        fun _ _ ht => ht.1
      rintro committed t ⟨hmind, htaken, hmessages, hframe⟩
      have hmind' : o.Minding busy t fun q => t.queuedMessages ++ away q := hmessages ▸ hmind
      cases committed with
      | true => exact ⟨htaken.sound, hmind'⟩
      | false =>
        refine ih htaken.sound hmessages (fun m hm => ?_) hmind'
        exact (hframe rfl).heldBack hsound (List.mem_append_left rest hm) (hb m hm)

theorem processQueue_minds (hc : Candid x.me o.phased o.voter busy algo)
    (hl : ∀ supplied, Lawful (x.supply supplied) c committer algo) (fuel : Nat) (hs : x.Sound s)
    {away : Fin n → List (ConsensusMessage n)}
    (h : o.Minding busy s fun q => s.queuedMessages ++ away q) :
    Meets (processQueue c x.me algo fuel) s
      (fun _ t => o.Minding busy t fun q => t.queuedMessages ++ away q) (fun _ => o.Spoken) := by
  induction fuel generalizing s with
  | zero => exact h
  | succ fuel ih =>
    refine Meets.get ?_
    rw [Lib.Turn.meets_bind]
    refine (hc.scanQueue_minds hl s.queuedMessages hs rfl
      (fun m hm => absurd hm List.not_mem_nil) h).mono ?_ fun _ _ => id
    rintro restart t ⟨hsound, hmind⟩
    cases restart with
    | false => exact hmind
    | true => exact ih hsound hmind

variable {order : HashOrder n}

theorem onCommand_minds (hc : Candid x.me o.phased o.voter busy algo)
    (hl : Lawful x c committer algo) (hs : x.Sound s) {command : Command n}
    {away : Fin n → List (ConsensusMessage n)}
    (h : o.Minding busy s fun q => s.queuedMessages ++ away q) :
    Meets (onCommand x.me order algo command) s
      (fun _ t => o.Minding busy t fun q => t.queuedMessages ++ away q) (fun _ => o.Spoken) := by
  have hacts : (hc.conduct fun _ _ _ => False).Acts (onCommand x.me order algo command) s :=
    .bind hc.takeCommand_acts fun _ _ _ => hc.proposeNext_acts
  refine (Meets.and (hc.idles h hacts) (onCommand_spec hl hs)).mono (fun _ t ht => ?_)
    fun _ _ ht => ht.1
  exact ht.2.frame.messages ▸ ht.1

theorem takeMessage_minds (hc : Candid x.me o.phased o.voter busy algo)
    (hl : ∀ supplied, Lawful (x.supply supplied) c committer algo) (hs : x.Sound s)
    (hcalm : Calm x.me s) {packet : Packet n} (hpacket : packet.Tells (x.Knows s))
    (hbare : packet.msg.msg.isCommit = true → packet.value = none)
    {away arriving : Fin n → List (ConsensusMessage n)}
    (hsrc : arriving packet.msg.src = packet.msg :: away packet.msg.src)
    (hothers : ∀ q, q ≠ packet.msg.src → arriving q = away q)
    (h : o.Minding busy s fun q => s.queuedMessages ++ arriving q) :
    Meets (takeMessage c x.me algo packet) s
      (fun _ t => x.Sound t ∧ o.Minding busy t fun q => t.queuedMessages ++ away q)
      (fun _ => o.Spoken) := by
  have hground : Grounded o.phased o.hist packet.msg :=
    h.grounded packet.msg.src packet.msg (List.mem_append_right _ (hsrc ▸ List.mem_cons_self))
  rw [takeMessage, Lib.Turn.meets_bind, emit, Lib.Turn.meets_modify, Lib.Turn.meets_bind]
  set s₁ : ConsensusShard n R :=
    { s with sinks := s.sinks ++ [.received packet.msg.src packet] } with hs₁
  have hsound₁ : x.Sound s₁ :=
    (hs.within_emit (e := .received packet.msg.src packet) trivial fun _ hn => hn).sound
  have hmind₁ : o.Minding busy s₁ fun q => s.queuedMessages ++ arriving q := by
    refine hc.still h ⟨hc.steady rfl rfl (fun _ hv => hv) rfl,
      [.received packet.msg.src packet], rfl, fun e he => ?_⟩
    exact List.mem_singleton.1 he ▸ trivial
  have hacts : (hc.conduct fun _ _ _ => False).Acts (storeValue packet) s₁ := hc.storeValue_acts
  have hspec : Meets (storeValue packet) s₁ (fun _ t => t = s₁.storing packet)
      (Crashed x committer s₁) := storeValue_spec hpacket
  refine (Meets.and (hc.idles hmind₁ hacts) hspec).mono ?_ fun _ _ ht => ht.1
  rintro - _ ⟨hmind, rfl⟩
  have hstored : Taken x committer s₁ (s₁.storing packet) := storing_taken hsound₁ hpacket
  have hsound := hstored.sound
  have hqueue : (s₁.storing packet).queuedMessages = s.queuedMessages := (storing_same s₁ packet).2.1
  have hmsg : packet.msg.msg.Tells (x.Knows (s₁.storing packet)) :=
    hpacket.msg.mono fun v hv => (knows_congr (storing_same s₁ packet).1).2 hv
  rw [Lib.Turn.meets_bind, meets_lift]
  refine ⟨fun ready hready => ?_, fun e he => hmind.toSpoken⟩
  cases ready with
  | true =>
    have hwithout : ∀ q, Without packet.msg (s.queuedMessages ++ arriving q)
        (s.queuedMessages ++ away q) := fun q => by
      rcases eq_or_ne q packet.msg.src with rfl | hne
      · exact Or.inr ⟨s.queuedMessages, away packet.msg.src, congrArg _ hsrc, rfl⟩
      · exact Or.inl (congrArg _ (hothers q hne))
    have hplace : packet.msg.msg.isCommit = true →
        ∃ b rest, s.queuedMessages ++ arriving packet.msg.src = b ++ packet.msg :: rest ∧
          ∀ m ∈ b, HeldBack x.me (s₁.storing packet) m := fun hcommit => by
      refine ⟨s.queuedMessages, away packet.msg.src, congrArg _ hsrc, fun m hm => ?_⟩
      rw [storing_of_none (hbare hcommit)]
      exact hcalm m hm
    have hminds := hc.processAndCommit_minds hl hsound hmsg hmind hready hground hwithout hplace
      false
    rw [if_pos rfl, Lib.Turn.meets_bind]
    refine (hminds.and (processAndCommit_spec hl hsound hmsg hready)).mono ?_ fun _ _ ht => ht.1
    rintro committed t ⟨hmind', htaken, hmessages, -⟩
    rw [← hqueue, ← hmessages] at hmind'
    split
    · have hrest := processQueue_spec hl (t.queuedMessages.length + 1) htaken.sound
        (Nat.lt_succ_self _)
      refine Meets.get ?_
      rw [Lib.Turn.meets_bind]
      refine ((hc.processQueue_minds hl _ htaken.sound hmind').and hrest).mono ?_ fun _ _ hu => hu.1
      exact fun _ u hu => ⟨hu.2.1.sound, hu.1⟩
    · exact ⟨htaken.sound, hmind'⟩
  | false =>
    rw [if_neg Bool.false_ne_true, Lib.Turn.meets_bind, Lib.Turn.meets_modify]
    have hall : ∀ m ∈ (s₁.storing packet).queuedMessages ++ [packet.msg],
        m.msg.Tells (x.Knows (s₁.storing packet)) := by
      intro m hm
      rcases List.mem_append.1 hm with hold | hnew
      · exact hsound.messages m hold
      · exact List.mem_singleton.1 hnew ▸ hmsg
    set t : ConsensusShard n R := { s₁.storing packet with
      queuedMessages := (s₁.storing packet).queuedMessages ++ [packet.msg] } with ht
    have hpushed : o.Minding busy t fun q => s.queuedMessages ++ arriving q :=
      hc.still hmind ⟨hc.steady rfl rfl (fun _ hv => hv) rfl, .of_eq rfl⟩
    have hlists : ∀ q, t.queuedMessages ++ away q = s.queuedMessages ++ packet.msg :: away q := by
      intro q
      rw [ht, hqueue, List.append_assoc]
      rfl
    refine ⟨sound_queue hsound hall, hpushed.toAware.queued hground (fun q => ?_) ?_, hpushed.busy⟩
    · rcases eq_or_ne q packet.msg.src with rfl | hne
      · exact Or.inl ((hlists packet.msg.src).trans (congrArg _ hsrc.symm))
      · exact Or.inr ⟨s.queuedMessages, away q, hlists q, congrArg _ (hothers q hne)⟩
    · exact (hlists packet.msg.src).trans (congrArg _ hsrc.symm)

theorem onPacket_minds (hc : Candid x.me o.phased o.voter busy algo)
    (hl : ∀ supplied, Lawful (x.supply supplied) c committer algo) (hs : x.Sound s)
    (hcalm : Calm x.me s) {packet : Packet n} (hpacket : packet.Tells (x.Knows s))
    (hbare : packet.msg.msg.isCommit = true → packet.value = none)
    {away arriving : Fin n → List (ConsensusMessage n)}
    (hsrc : arriving packet.msg.src = packet.msg :: away packet.msg.src)
    (hothers : ∀ q, q ≠ packet.msg.src → arriving q = away q)
    (h : o.Minding busy s fun q => s.queuedMessages ++ arriving q) :
    Meets (onPacket c x.me order algo packet) s
      (fun _ t => o.Minding busy t fun q => t.queuedMessages ++ away q) (fun _ => o.Spoken) := by
  rw [onPacket, Lib.Turn.meets_bind]
  refine (hc.takeMessage_minds hl hs hcalm hpacket hbare hsrc hothers h).mono ?_ fun _ _ => id
  rintro mayPropose t ⟨hsound, hmind⟩
  split
  · refine (Meets.and (hc.idles hmind hc.proposeNext_acts)
      (proposeNext_spec (hl True) hsound.supply)).mono (fun _ u hu => ?_) fun _ _ hu => hu.1
    exact hu.2.frame.messages ▸ hu.1
  · exact hmind

end Candid

end KCensus.Slots

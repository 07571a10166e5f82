import KCensus.Slots.Frames

namespace KCensus.Slots

open Lib (HashMap)
open Lib.Turn (Meets)
open Turn Watch ConsensusShard

variable {n : Nat} {R : Type}

namespace ConsensusShard

variable {me : Fin n} {s : ConsensusShard n R} {msg : ConsensusMessage n}

theorem holds_of_valueReady (h : s.valueReady msg = .ok true) {v : Nat} (hv : msg.getV = some v) :
    Holds s v := by
  simp only [valueReady, hv] at h
  cases hl : s.queuedCommands.lookup v with
  | none =>
    rw [hl] at h
    cases h
  | some value =>
    refine ⟨value, hl, fun w hw => ?_⟩
    cases value with
    | single command => exact absurd hw List.not_mem_nil
    | batch slot vs =>
      simp only [hl] at h
      split at h
      · exact of_decide_eq_true (List.all_eq_true.1 (Except.ok.inj h) w hw)
      · cases h

theorem ready_cases (h : s.readyToProcess me msg = .ok true) :
    (msg.getSlot = some s.slot ∧
      (s.valueReady msg = .ok true ∨ s.valueReady msg = .ok false ∧ ledByAnother me msg = true)) ∨
      ∀ slot, msg.getSlot = some slot → slot < s.slot := by
  rw [readyToProcess] at h
  split at h
  · split at h
    · refine Or.inl ⟨‹_›, ?_⟩
      cases hready : s.valueReady msg with
      | error e =>
        rw [hready] at h
        cases h
      | ok ready =>
        rw [hready] at h
        have hor : (ready || ledByAnother me msg) = true := Except.ok.inj h
        cases ready with
        | true => exact Or.inl rfl
        | false => exact Or.inr ⟨rfl, hor⟩
    · cases h
  · refine Or.inr fun slot hslot => ?_
    have hall := Except.ok.inj h
    rw [hslot] at hall
    exact of_decide_eq_true hall

theorem valueReady_harmless {e : Panic} (h : s.valueReady msg = .error e) : Harmless e := by
  rw [valueReady] at h
  split at h
  · cases h
  · split at h
    · cases h
    · cases h
    · split at h
      · cases h
      · cases h
        exact failed_harmless

theorem ready_harmless {e : Panic} (h : s.readyToProcess me msg = .error e) : Harmless e := by
  rw [readyToProcess] at h
  split at h
  · split at h
    · cases hready : s.valueReady msg with
      | error e' =>
        rw [hready] at h
        cases h
        exact valueReady_harmless hready
      | ok ready =>
        rw [hready] at h
        cases h
    · cases h
      exact fun _ hn => nomatch hn
  · cases h

-- A message that has to wait, and not because its slot came to another end elsewhere.
def HeldBack (me : Fin n) (s : ConsensusShard n R) (msg : ConsensusMessage n) : Prop :=
  s.readyToProcess me msg ≠ .ok true ∧ s.readyToProcess me msg ≠ .error .lastVDiffers

theorem HeldBack.of_unready (h : s.readyToProcess me msg = .ok false) : HeldBack me s msg := by
  rw [HeldBack, h]
  exact ⟨nofun, nofun⟩

theorem valueReady_lastV : s.valueReady msg ≠ .error .lastVDiffers := by
  rw [valueReady]
  split
  · exact nofun
  · split
    · exact nofun
    · exact nofun
    · split
      · exact nofun
      · exact nofun

theorem ready_lastV_iff : s.readyToProcess me msg = .error .lastVDiffers ↔
    msg.getSlot = some s.slot ∧ msg.lastV ≠ none ∧ msg.lastV ≠ s.lastV := by
  rw [readyToProcess]
  split
  · rename_i hslot
    split
    · rename_i hlast
      refine iff_of_false (fun he => ?_) fun hn => hlast.elim hn.2.1 hn.2.2
      cases hready : s.valueReady msg with
      | error e =>
        rw [hready] at he
        exact valueReady_lastV (hready.trans he)
      | ok ready =>
        rw [hready] at he
        cases he
    · rename_i hlast
      exact iff_of_true rfl ⟨hslot, not_or.1 hlast⟩
  · rename_i hslot
    exact iff_of_false nofun fun hn => hslot hn.1

-- What keeps a message of the queue from becoming ready.
theorem ready_congr {t : ConsensusShard n R} (hslot : t.slot = s.slot) (hlast : t.lastV = s.lastV)
    (hlookup : ∀ v, msg.getV = some v →
      t.queuedCommands.lookup v = s.queuedCommands.lookup v ∧
      ∀ value, s.queuedCommands.lookup v = some value →
        ∀ w ∈ value.parts, (w ∈ t.queuedCommands ↔ w ∈ s.queuedCommands)) :
    t.readyToProcess me msg = s.readyToProcess me msg := by
  have hvalue : t.valueReady msg = s.valueReady msg := by
    simp only [valueReady]
    cases hv : msg.getV with
    | none => rfl
    | some v =>
      obtain ⟨hsame, hparts⟩ := hlookup v hv
      simp only [hsame, hslot]
      cases hl : s.queuedCommands.lookup v with
      | none => rfl
      | some value =>
        cases value with
        | single command => rfl
        | batch slot vs =>
          have hall : (vs.all fun w => decide (w ∈ t.queuedCommands)) =
              vs.all fun w => decide (w ∈ s.queuedCommands) := by
            rw [Bool.eq_iff_iff, List.all_eq_true, List.all_eq_true]
            refine forall₂_congr fun w hw => ?_
            rw [decide_eq_true_iff, decide_eq_true_iff]
            exact hparts _ hl w hw
          simp only [hall]
  simp only [readyToProcess, hvalue, hslot, hlast]

-- The state once the value of an arriving message is stored.
def storing (packet : Packet n) (s : ConsensusShard n R) : ConsensusShard n R :=
  match packet.msg.getV, packet.value with
  | some v, some value =>
      if Turn.isStale s value then s
      else { s with queuedCommands := s.queuedCommands.insert v value }
  | _, _ => s

-- The message has to wait, and the value it brings is all that one in the queue was waiting for.
def Overtaken (me : Fin n) (s : ConsensusShard n R) (packet : Packet n) : Prop :=
  (s.storing packet).readyToProcess me packet.msg ≠ .ok true ∧
    ∃ m ∈ s.queuedMessages, s.readyToProcess me m ≠ .ok true ∧
      (s.storing packet).readyToProcess me m = .ok true

instance (me : Fin n) (s : ConsensusShard n R) (packet : Packet n) :
    Decidable (s.Overtaken me packet) :=
  inferInstanceAs (Decidable (_ ∧ ∃ m ∈ s.queuedMessages, _))

theorem storing_of_none {packet : Packet n} (h : packet.value = none) :
    s.storing packet = s := by
  rw [storing, h]
  split
  · cases ‹none = some _›
  · rfl

theorem storing_sinks (s : ConsensusShard n R) (packet : Packet n) (sinks : List (Event n)) :
    storing packet { s with sinks := sinks } = { s.storing packet with sinks := sinks } := by
  rw [storing, storing]
  split
  · split
    · exact (if_pos ‹_›).symm ▸ rfl
    · exact (if_neg ‹_›).symm ▸ rfl
  · rfl

theorem storing_same (s : ConsensusShard n R) (packet : Packet n) :
    (s.storing packet).nextUid = s.nextUid ∧
      (s.storing packet).queuedMessages = s.queuedMessages ∧
      (s.storing packet).slot = s.slot ∧ (s.storing packet).lastV = s.lastV := by
  rw [storing]
  split
  · split
    · exact ⟨rfl, rfl, rfl, rfl⟩
    · exact ⟨rfl, rfl, rfl, rfl⟩
  · exact ⟨rfl, rfl, rfl, rfl⟩

end ConsensusShard

variable [NeZero n] {x : Watch n R} {s t u : ConsensusShard n R} {c : Cluster n}
  {order : HashOrder n} {algo : ConsensusShardTrait n R} {committer : Nat → Option (Fin n)}

theorem Watch.Frame.ready (hf : x.Frame s t) (hs : x.Sound s) {msg : ConsensusMessage n}
    (hmsg : msg.msg.Tells (x.Knows s)) {me : Fin n} :
    t.readyToProcess me msg = s.readyToProcess me msg := by
  refine ready_congr hf.slot hf.lastV fun v hv => ⟨hf.commands v (hmsg.getV hv).1, ?_⟩
  exact fun value hvalue w hw => hf.mem ((hs.stored v value hvalue).known w hw).1

def Watch.supply (x : Watch n R) (supplied : Prop) : Watch n R := { x with supplied := supplied }

-- What the main loop relies on in an algorithm at `x.me`.
structure Lawful (x : Watch n R) (c : Cluster n) (committer : Nat → Option (Fin n))
    (algo : ConsensusShardTrait n R) : Prop where
  processMessage : ∀ {s : ConsensusShard n R} {msg : ConsensusMessage n}, x.Sound s →
    msg.msg.Tells (x.Knows s) → s.readyToProcess x.me msg = .ok true →
    (x.supplied → ∀ v, msg.getV = some v → msg.getSlot = some s.slot →
      Holds s v ∨ committer v ≠ some x.me) →
    Meets (algo.processMessage msg) s (x.Handled s) (x.Fault s)
  commitSlot : ∀ {s : ConsensusShard n R} {v : Nat}, x.Sound s → Holds s v →
    Meets (algo.commitSlot v) s (fun value => x.Handled s (some value)) (x.Fault s)
  proposeStart : ∀ {s : ConsensusShard n R} {value : CommandBatch n} {contention : Bool},
    x.Sound s → Proposable (x.Knows s) value →
    Meets (algo.proposeStart value contention) s (fun _ => x.Within s) (x.Fault s)
  reproposeStart : ∀ {s : ConsensusShard n R} {v : Nat}, x.Sound s → v ∈ s.queuedCommands →
    Meets (algo.reproposeStart v) s (fun _ => x.Within s) (x.Fault s)
  shouldLead : ∀ {s : ConsensusShard n R} {e : Panic}, algo.shouldLead s = .error e → Harmless e
  rests : ∀ {s : ConsensusShard n R}, x.Sound s → s.canSleep algo = true →
    ∀ K held, x.mentions K held s.roundState

-- What survives a commit.
structure Watch.Done (x : Watch n R) (s t : ConsensusShard n R) : Prop where
  sound : x.Sound t
  grown : Grown s t
  messages : t.queuedMessages = s.queuedMessages
  announced : x.supplied → ∀ slot, x.Announced s slot → x.Announced t slot

namespace Watch

theorem Done.refl (h : x.Sound s) : x.Done s s := ⟨h, ⟨List.prefix_rfl, le_rfl⟩, rfl, fun _ _ => id⟩

theorem Done.trans (h : x.Done s t) (h' : x.Done t u) : x.Done s u :=
  ⟨h'.sound, h.grown.trans h'.grown, h'.messages.trans h.messages,
    fun hx slot hs => h'.announced hx slot (h.announced hx slot hs)⟩

theorem Done.fault (h : x.Done s t) {e : Panic} (h' : x.Fault t e u) : x.Fault s e u :=
  ⟨h'.sound, h.grown.trans h'.grown, h'.harmless,
    fun hx slot hs => h'.announced hx slot (h.announced hx slot hs)⟩

theorem Done.fails (h : x.Done s t) {e : Panic} (he : x.supplied → Harmless e) : x.Fault s e t :=
  ⟨h.sound, h.grown, he, h.announced⟩

theorem Within.done (h : x.Within s t) : x.Done s t :=
  ⟨h.sound, h.grown, h.frame.messages, fun _ => h.announced⟩

theorem Handled.done {r : Option (CommandBatch n)} (h : x.Handled s r t) : x.Done s t :=
  ⟨h.sound, h.grown, h.messages, h.announced⟩

theorem Done.step {α β : Type} {m : Turn n R α} {f : α → Turn n R β}
    {Q : β → ConsensusShard n R → Prop} (h : x.Done s t)
    (hm : Meets m t (fun _ => x.Done t) (x.Fault t))
    (hf : ∀ a u, x.Done s u → Meets (f a) u Q (x.Fault s)) :
    Meets (m >>= f) t Q (x.Fault s) := by
  rw [Lib.Turn.meets_bind]
  exact hm.mono (fun a u hu => hf a u (h.trans hu)) fun _ _ => h.fault

theorem Done.finish {m : Turn n R Unit} (h : x.Done s t)
    (hm : Meets m t (fun _ => x.Done t) (x.Fault t)) : Meets m t (fun _ => x.Done s) (x.Fault s) :=
  hm.mono (fun _ _ => h.trans) fun _ _ => h.fault

end Watch

namespace Turn

theorem emit_spec (h : x.Sound s) {e : Event n} (he : e.Tells (x.Knows s))
    (hquiet : ∀ slot, ¬ AnnouncesSlot slot e) :
    Meets (emit e : Turn n R Unit) s (fun _ => x.Within s) (x.Fault s) := by
  rw [emit, Lib.Turn.meets_modify]
  exact h.within_emit he hquiet

theorem tracker_within (h : x.Sound s) {readTracker : ReadTracker n}
    (hreads : readTracker.ReadsOnly) : x.Within s { s with readTracker := readTracker } :=
  ⟨⟨h.counter, h.stored, h.messages, h.round, h.sent, hreads⟩, ⟨rfl, rfl, rfl, le_rfl, fun _ _ => rfl⟩,
    ⟨List.prefix_rfl, le_rfl⟩, fun _ _ he _ => he⟩

theorem handed_single (h : x.Within s t) (command : Command n) :
    x.Handled s (some (.single command)) t := by
  refine ⟨h.sound, h.grown, nofun, ?_, fun _ _ _ => h.frame, ?_, h.frame.messages,
    fun _ => h.announced⟩
  · rintro _ ⟨⟩ _
    exact ⟨List.nodup_nil, fun w hw => absurd hw List.not_mem_nil⟩
  · rintro _ ⟨⟩ hs
    cases hs

theorem receiveReady_spec (h : x.Sound s) {id : Nat} {fromQueue : Bool} :
    Meets (receiveReady id fromQueue : Turn n R _) s
      (fun r t => x.Handled s r t ∧ ∀ value, r = some value → value.isRead = true)
      (x.Fault s) := by
  refine Meets.get ?_
  dsimp only
  set fast := !fromQueue && !s.queuedMessages.any (isAnswerTo id)
  obtain ⟨hreads, hserved⟩ := h.reads.receiveReady id s.slot fast
  split
  · rename_i readTracker command heq
    rw [heq] at hreads hserved
    simp only [Lib.Turn.meets_bind, Lib.Turn.meets_modify, Lib.Turn.meets_pure]
    have ht := tracker_within h hreads
    have hu := ht.sound.within_emit (e := .readServed id command) trivial fun _ hn => hn
    refine ⟨handed_single (ht.trans hu) command, ?_⟩
    rintro _ ⟨⟩
    exact hserved command rfl
  · rename_i readTracker heq
    rw [heq] at hreads
    simp only [Lib.Turn.meets_bind, Lib.Turn.meets_modify, Lib.Turn.meets_pure]
    exact ⟨(tracker_within h hreads).nothing, fun _ hn => by cases hn⟩

theorem fullProcessMessage_spec (hl : Lawful x c committer algo) (h : x.Sound s)
    {msg : ConsensusMessage n} (hmsg : msg.msg.Tells (x.Knows s))
    (hready : s.readyToProcess x.me msg = .ok true)
    (hv : x.supplied → ∀ v, msg.getV = some v → msg.getSlot = some s.slot →
      Holds s v ∨ committer v ≠ some x.me) {fromQueue : Bool} :
    Meets (fullProcessMessage c x.me algo msg fromQueue) s (x.Handled s) (x.Fault s) := by
  obtain ⟨msg, src, lastV⟩ := msg
  cases msg with
  | commit slot v =>
    refine Meets.get ?_
    split
    · exact (Within.refl h).nothing
    · rename_i hslot
      have hlearned := h.within_emit (e := .learned slot v src) trivial fun _ hn => hn
      simp only [emit, Lib.Turn.meets_bind, Lib.Turn.meets_modify]
      refine (hl.commitSlot hlearned.sound ?_).mono (fun value t ht => hlearned.handled ht)
        fun _ _ => hlearned.fault
      rcases ready_cases hready with ⟨-, hvalue | ⟨-, hled⟩⟩ | hlow
      · exact holds_of_valueReady hvalue rfl
      · cases hled
      · exact absurd (hlow slot rfl) hslot
  | readRequest id =>
    refine Meets.get ((Within.refl h).step (sendPacket_spec h ⟨trivial, fun _ hn => by cases hn⟩) ?_)
    exact fun _ t ht _ => ht.nothing
  | readResponse id slot => exact (receiveReady_spec h).post fun _ _ ht => ht.1
  | kcensusM msg => exact hl.processMessage h hmsg hready hv
  | paxosM msg => exact hl.processMessage h hmsg hready hv

theorem commitWrite_spec (h : x.Sound s) {fast : Bool} {slot : Nat} {v : Option Nat}
    {command : Command n} :
    Meets (commitWrite x.me fast slot v command : Turn n R Unit) s
      (fun _ t => x.Done s t ∧ t.queuedCommands = s.queuedCommands ∧ t.roundState = s.roundState)
      (x.Fault s) := by
  refine (Within.refl h).check failed_harmless fun _ => ?_
  rw [emit, Lib.Turn.meets_modify]
  have ht := h.within_emit (e := .handed (v.map (slot, ·)) (stamp x.me fast slot command)) trivial
    fun _ hn => hn
  exact ⟨ht.done, rfl, rfl⟩

-- Taking `w` out leaves the other parts of a batch.
theorem removeCommand_spec (h : x.Sound s) (hblank : ∀ K held, x.mentions K held s.roundState)
    {w : Nat} (hw : x.supplied → w ∈ s.queuedCommands) :
    Meets (removeCommand w : Turn n R _) s
      (fun value t => x.Done s t ∧ s.queuedCommands.lookup w = some value ∧
        t = { s with queuedCommands := s.queuedCommands.erase w })
      (x.Fault s) := by
  refine Meets.get ?_
  split
  · rename_i value hvalue
    simp only [Lib.Turn.meets_bind, Lib.Turn.meets_modify, Lib.Turn.meets_pure]
    refine ⟨⟨⟨h.counter, fun v other hv => ?_, h.messages, hblank _ _, h.sent, h.reads⟩, ⟨List.prefix_rfl, le_rfl⟩,
      rfl, fun _ _ => id⟩, hvalue, trivial⟩
    rcases eq_or_ne v w with rfl | hne
    · rw [AList.lookup_erase] at hv
      cases hv
    · rw [AList.lookup_erase_ne hne] at hv
      exact h.stored v other hv
  · rename_i hmissing
    refine (Done.refl h).fails fun hx => ?_
    rw [← AList.lookup_isSome, hmissing] at hw
    cases hw hx

theorem commitEach_spec {fast : Bool} {slot : Nat} (vs : List Nat) (h : x.Sound s)
    (hblank : ∀ K held, x.mentions K held s.roundState)
    (hripe : x.supplied → vs.Nodup ∧ ∀ w ∈ vs, ∃ command,
      s.queuedCommands.lookup w = some (.single command)) :
    Meets (commitEach x.me fast slot vs : Turn n R Unit) s (fun _ => x.Done s) (x.Fault s) := by
  induction vs generalizing s with
  | nil => exact Done.refl h
  | cons w vs ih =>
    have hw : x.supplied → w ∈ s.queuedCommands := fun hx => by
      obtain ⟨command, hc⟩ := (hripe hx).2 w List.mem_cons_self
      exact HashMap.mem_of_lookup hc
    rw [commitEach, Lib.Turn.meets_bind]
    refine (removeCommand_spec h hblank hw).mono ?_ fun _ _ => id
    rintro value t ⟨ht, hvalue, rfl⟩
    cases value with
    | batch slot vs =>
      refine ht.fails fun hx => ?_
      exact fun _ hn => nomatch hn
    | single command =>
      rw [Lib.Turn.meets_bind]
      refine (commitWrite_spec ht.sound).mono ?_ fun _ _ => ht.fault
      rintro - u ⟨hu, hcommands, hround⟩
      refine (ht.trans hu).finish (ih hu.sound (hround ▸ hblank) fun hx => ?_)
      obtain ⟨hnodup, hsingle⟩ := hripe hx
      refine ⟨hnodup.of_cons, fun w' hw' => ?_⟩
      have hne : w' ≠ w := fun heq => (List.nodup_cons.1 hnodup).1 (heq ▸ hw')
      rw [hcommands, AList.lookup_erase_ne hne]
      exact hsingle w' (List.mem_cons_of_mem w hw')

theorem handReads_spec (reads : List (Nat × Command n)) (h : x.Sound s) :
    Meets (handReads reads : Turn n R Unit) s (fun _ => x.Done s) (x.Fault s) := by
  induction reads generalizing s with
  | nil => exact Done.refl h
  | cons read reads ih =>
    have hserved := h.within_emit (e := .readServed read.1 read.2) trivial fun _ hn => hn
    have hhanded := hserved.sound.within_emit (e := .handed none read.2) trivial fun _ hn => hn
    exact (hserved.trans hhanded).done.finish (ih hhanded.sound)

theorem serveReads_spec (h : x.Sound s) :
    Meets (serveReads : Turn n R Unit) s (fun _ => x.Done s) (x.Fault s) := by
  have ht := tracker_within h (h.reads.commitSlot s.slot)
  exact ht.done.finish (handReads_spec _ ht.sound)

theorem commitWrites_spec (h : x.Sound s) {batch : CommandBatch n}
    (hblank : batch.isSingle = false → ∀ K held, x.mentions K held s.roundState)
    (hripe : x.supplied → Ripe s batch) :
    Meets (commitWrites x.me algo batch) s (fun _ => x.Done s) (x.Fault s) := by
  have ht : x.Done s { s with slotLeftFastPath := false } :=
    ⟨⟨h.counter, h.stored, h.messages, h.round, h.sent, h.reads⟩, ⟨List.prefix_rfl, le_rfl⟩, rfl, fun _ _ => id⟩
  refine Meets.get ?_
  cases batch with
  | single command =>
    refine ht.step ((commitWrite_spec ht.sound).post fun _ u hu => hu.1) fun _ u hu => ?_
    exact hu.finish (serveReads_spec hu.sound)
  | batch slot vs =>
    refine ht.step (commitEach_spec vs ht.sound (hblank rfl) hripe) fun _ u hu => ?_
    exact hu.finish (serveReads_spec hu.sound)

theorem commitCommands_spec {r : Option (CommandBatch n)} (h : x.Handled s r t) :
    Meets (commitCommands x.me algo r) t
      (fun committed u => x.Done s u ∧ (committed = false → x.Frame s u)) (x.Fault s) := by
  have hwrites : ∀ batch, r = some batch → Meets (do
      commitWrites x.me algo batch
      return true) t (fun committed u => x.Done s u ∧ (committed = false → x.Frame s u))
      (x.Fault s) := by
    intro batch hr
    refine h.done.step (commitWrites_spec h.sound (h.blank batch hr) (h.ripe batch hr)) ?_
    exact fun _ u hu => ⟨hu, nofun⟩
  cases r with
  | none => exact ⟨h.done, fun _ => h.frame rfl⟩
  | some batch =>
    cases batch with
    | batch slot vs => exact hwrites _ rfl
    | single command =>
      rw [commitCommands]
      split
      · have ht := h.sound.within_emit (e := .handed none command) trivial fun _ hn => hn
        exact ⟨h.done.trans ht.done, nofun⟩
      · exact hwrites _ rfl

end Turn

-- No committer has handled a message of its slot without the payload.
def Clean (committer : Nat → Option (Fin n)) (me : Fin n) (s : ConsensusShard n R) : Prop :=
  ∀ v, .unready v ∈ s.sinks → committer v ≠ some me

omit [NeZero n] in
theorem Clean.of_grown {me : Fin n} (h : Clean committer me t) (hg : Grown s t) :
    Clean committer me s := fun v hv => h v (hg.sinks.subset hv)

-- What one part of a turn after another keeps.
structure Taken (x : Watch n R) (committer : Nat → Option (Fin n)) (s t : ConsensusShard n R) :
    Prop where
  sound : x.Sound t
  grown : Grown s t
  announced : Clean committer x.me t → ∀ slot, x.Announced s slot → x.Announced t slot

structure Crashed (x : Watch n R) (committer : Nat → Option (Fin n)) (s : ConsensusShard n R)
    (e : Panic) (t : ConsensusShard n R) : Prop extends Taken x committer s t where
  harmless : Clean committer x.me t → Harmless e

namespace Taken

theorem refl (h : x.Sound s) : Taken x committer s s := ⟨h, ⟨List.prefix_rfl, le_rfl⟩, fun _ _ => id⟩

theorem trans (h : Taken x committer s t) (h' : Taken x committer t u) : Taken x committer s u :=
  ⟨h'.sound, h.grown.trans h'.grown, fun hc slot hs =>
    h'.announced hc slot (h.announced (hc.of_grown h'.grown) slot hs)⟩

theorem crashed (h : Taken x committer s t) {e : Panic} (h' : Crashed x committer t e u) :
    Crashed x committer s e u := ⟨h.trans h'.toTaken, h'.harmless⟩

theorem fails (h : Taken x committer s t) {e : Panic} (he : Harmless e) :
    Crashed x committer s e t := ⟨h, fun _ => he⟩

end Taken

namespace Watch

theorem Sound.supply (h : x.Sound s) {supplied : Prop} : (x.supply supplied).Sound s :=
  ⟨h.counter, h.stored, h.messages, h.round, h.sent, h.reads⟩

theorem Sound.unsupply {supplied : Prop} (h : (x.supply supplied).Sound s) : x.Sound s :=
  ⟨h.counter, h.stored, h.messages, h.round, h.sent, h.reads⟩

theorem Frame.unsupply {supplied : Prop} (h : (x.supply supplied).Frame s t) : x.Frame s t :=
  ⟨h.slot, h.lastV, h.messages, h.nextUid, h.commands⟩

theorem Within.taken (h : (x.supply True).Within s t) : Taken x committer s t :=
  ⟨h.sound.unsupply, h.grown, fun _ => h.announced⟩

theorem Fault.always {e : Panic} (h : (x.supply True).Fault s e t) : Crashed x committer s e t :=
  ⟨⟨h.sound.unsupply, h.grown, fun _ => h.announced trivial⟩, fun _ => h.harmless trivial⟩

theorem Done.taken (h : (x.supply (Clean committer x.me s)).Done s t) : Taken x committer s t :=
  ⟨h.sound.unsupply, h.grown, fun hc => h.announced (hc.of_grown h.grown)⟩

theorem Fault.crashed {e : Panic} (h : (x.supply (Clean committer x.me s)).Fault s e t) :
    Crashed x committer s e t :=
  ⟨⟨h.sound.unsupply, h.grown, fun hc => h.announced (hc.of_grown h.grown)⟩,
    fun hc => h.harmless (hc.of_grown h.grown)⟩

end Watch

namespace Turn

theorem noteUnready_spec (h : x.Sound s) (msg : ConsensusMessage n) :
    Meets (noteUnready msg : Turn n R Unit) s
      (fun _ t => x.Within s t ∧ ∀ v, msg.getV = some v → s.valueReady msg = .ok false →
        msg.getSlot = some s.slot → .unready v ∈ t.sinks)
      (x.Fault s) := by
  refine Meets.get ?_
  cases hv : msg.getV with
  | none => exact ⟨.refl h, nofun⟩
  | some v =>
    cases hready : s.valueReady msg with
    | error e => exact ⟨.refl h, nofun⟩
    | ok ready =>
      cases ready with
      | true => exact ⟨.refl h, nofun⟩
      | false =>
        dsimp only
        split
        · have ht := h.within_emit (e := .unready v) trivial fun _ hn => hn
          refine ⟨ht, fun w hw _ _ => ?_⟩
          exact Option.some.inj hw ▸ List.mem_append_right _ (List.mem_singleton_self _)
        · exact ⟨.refl h, fun _ _ _ hn => absurd hn ‹_›⟩

theorem processAndCommit_spec (hl : ∀ supplied, Lawful (x.supply supplied) c committer algo)
    (h : x.Sound s) {msg : ConsensusMessage n} (hmsg : msg.msg.Tells (x.Knows s))
    (hready : s.readyToProcess x.me msg = .ok true) {fromQueue : Bool} :
    Meets (processAndCommit c x.me algo msg fromQueue) s
      (fun committed t => Taken x committer s t ∧ t.queuedMessages = s.queuedMessages ∧
        (committed = false → x.Frame s t))
      (Crashed x committer s) := by
  rw [processAndCommit, Lib.Turn.meets_bind]
  refine (noteUnready_spec (x := x.supply True) h.supply msg).mono ?_ ?_
  · rintro - t ⟨hst, hnoted⟩
    have hframe : x.Frame s t := hst.frame.unsupply
    have htaken : Taken x committer s t := hst.taken
    rw [Lib.Turn.meets_bind]
    refine (fullProcessMessage_spec (hl (Clean committer x.me t)) htaken.sound.supply ?_ ?_ ?_).mono
      ?_ fun e u hu => htaken.crashed hu.crashed
    · exact hmsg.mono fun _ => hframe.knows
    · exact (hframe.ready h hmsg).trans hready
    · intro hclean v hv hslot
      rcases ready_cases hready with ⟨-, hvalue | ⟨hvalue, -⟩⟩ | hlow
      · exact Or.inl (hframe.holds h (holds_of_valueReady hvalue hv))
      · exact Or.inr (hclean v (hnoted v hv hvalue (hslot.trans (by rw [hframe.slot]))))
      · have := hlow _ hslot
        rw [hframe.slot] at this
        exact absurd this (lt_irrefl _)
    · intro r u hu
      refine (commitCommands_spec hu).mono ?_ fun e u' hu' => htaken.crashed hu'.crashed
      rintro committed u' ⟨hdone, hsame⟩
      exact ⟨htaken.trans hdone.taken, hdone.messages.trans hframe.messages, fun hc =>
        hframe.trans (hsame hc).unsupply⟩
  · exact fun e t ht => ht.always

end Turn

def Settled (me : Fin n) (s : ConsensusShard n R) : Prop :=
  ∀ m ∈ s.queuedMessages, s.readyToProcess me m ≠ .ok true

def Calm (me : Fin n) (s : ConsensusShard n R) : Prop := ∀ m ∈ s.queuedMessages, HeldBack me s m

theorem Watch.Frame.heldBack (hf : x.Frame s t) (hs : x.Sound s) {me : Fin n}
    {m : ConsensusMessage n} (hm : m ∈ s.queuedMessages) (h : HeldBack me s m) :
    HeldBack me t m := by
  rw [HeldBack, hf.ready hs (hs.messages m hm)]
  exact h

theorem Watch.Frame.calm (hf : x.Frame s t) (hs : x.Sound s) {me : Fin n} (h : Calm me s) :
    Calm me t := by
  intro m hm
  rw [hf.messages] at hm
  exact hf.heldBack hs hm (h m hm)

namespace Turn

theorem sound_queue (h : x.Sound s) {queue : List (ConsensusMessage n)}
    (hq : ∀ m ∈ queue, m.msg.Tells (x.Knows s)) :
    x.Sound { s with queuedMessages := queue } :=
  ⟨h.counter, h.stored, hq, h.round, h.sent, h.reads⟩

theorem scanQueue_spec (hl : ∀ supplied, Lawful (x.supply supplied) c committer algo)
    {before : List (ConsensusMessage n)} (rest : List (ConsensusMessage n)) (h : x.Sound s)
    (hq : s.queuedMessages = before ++ rest)
    (hb : ∀ m ∈ before, HeldBack x.me s m) :
    Meets (scanQueue c x.me algo before rest) s
      (fun restart t => Taken x committer s t ∧ (restart = false → Calm x.me t) ∧
        (restart = true → t.queuedMessages.length < s.queuedMessages.length))
      (Crashed x committer s) := by
  induction rest generalizing before s with
  | nil =>
    rw [List.append_nil] at hq
    exact ⟨.refl h, fun _ m hm => hb m (hq ▸ hm), nofun⟩
  | cons msg rest ih =>
    have hall : ∀ m ∈ before ++ msg :: rest, m.msg.Tells (x.Knows s) := hq ▸ h.messages
    rw [scanQueue, Lib.Turn.meets_bind, meets_lift]
    refine ⟨fun ready hready => ?_, fun e he => (Taken.refl h).fails (ready_harmless he)⟩
    cases ready with
    | false =>
      refine ih h (by rw [hq, List.append_assoc]; rfl) fun m hm => ?_
      rcases List.mem_append.1 hm with hold | hnew
      · exact hb m hold
      · exact List.mem_singleton.1 hnew ▸ .of_unready hready
    | true =>
      have hleft : ∀ m ∈ before ++ rest, m.msg.Tells (x.Knows s) := fun m hm =>
        hall m (List.Sublist.subset ((List.sublist_cons_self msg rest).append_left before) hm)
      have hs := sound_queue h hleft
      have hlen : (before ++ rest).length < s.queuedMessages.length := by
        rw [hq, List.length_append, List.length_append, List.length_cons]
        omega
      have hpop : Taken x committer s { s with queuedMessages := before ++ rest } :=
        ⟨hs, ⟨List.prefix_rfl, le_rfl⟩, fun _ _ => id⟩
      rw [if_pos rfl, Lib.Turn.meets_bind, Lib.Turn.meets_modify, Lib.Turn.meets_bind]
      refine (processAndCommit_spec hl hs (hall msg (List.mem_append_right _ List.mem_cons_self))
        hready).mono ?_ fun _ _ => hpop.crashed
      rintro committed t ⟨ht, hmessages, hframe⟩
      have hst := hpop.trans ht
      cases committed with
      | true => exact ⟨hst, nofun, fun _ => hmessages ▸ hlen⟩
      | false =>
        refine (ih ht.sound hmessages fun m hm => ?_).mono ?_ fun _ _ => hst.crashed
        · exact (hframe rfl).heldBack hs (List.mem_append_left rest hm) (hb m hm)
        · rintro restart u ⟨hu, hcalm, hshort⟩
          exact ⟨hst.trans hu, hcalm, fun hr => (hshort hr).trans (hmessages ▸ hlen)⟩

theorem processQueue_spec (hl : ∀ supplied, Lawful (x.supply supplied) c committer algo)
    (fuel : Nat) (h : x.Sound s) (hfuel : s.queuedMessages.length < fuel) :
    Meets (processQueue c x.me algo fuel) s
      (fun _ t => Taken x committer s t ∧ Calm x.me t) (Crashed x committer s) := by
  induction fuel generalizing s with
  | zero => exact absurd hfuel (Nat.not_lt_zero _)
  | succ fuel ih =>
    refine Meets.get ?_
    rw [Lib.Turn.meets_bind]
    refine (scanQueue_spec hl s.queuedMessages h rfl fun m hm => absurd hm List.not_mem_nil).mono
      ?_ fun _ _ => id
    rintro restart t ⟨ht, hcalm, hshort⟩
    cases restart with
    | false => exact ⟨ht, hcalm rfl⟩
    | true =>
      refine (ih ht.sound (by have := hshort rfl; omega)).mono ?_ fun _ _ => ht.crashed
      exact fun _ u hu => ⟨ht.trans hu.1, hu.2⟩

theorem newBatch_proposable (h : x.Sound s) {batch : CommandBatch n}
    (hbatch : s.newBatchToPropose order = some batch) : Proposable (x.Knows s) batch := by
  have hsingle : ∀ v, s.holdsSingle v = true → v % 2 = 0 ∧ x.Knows s v := by
    intro v hv
    rw [holdsSingle, Option.any_eq_true] at hv
    obtain ⟨value, hvalue, hs⟩ := hv
    exact ⟨(h.stored v value hvalue).single.1 hs, (h.stored v value hvalue).uid⟩
  rw [newBatchToPropose] at hbatch
  split at hbatch
  · cases hbatch
  · dsimp only at hbatch
    split at hbatch
    · cases hbatch
    · cases hbatch
      have hnodup : (order.uids s.queuedCommands.keys).Nodup :=
        (order.uids_perm _).nodup_iff.2 s.queuedCommands.keys_nodup
      refine ⟨hnodup.filter _, fun w hw => ?_, fun w hw => ?_, rfl⟩
      · exact (hsingle w (List.mem_filter.1 hw).2).1
      · exact (hsingle w (List.mem_filter.1 hw).2).2

theorem vToRepropose_spec (h : x.Sound s) :
    Meets (lift vToRepropose) s (fun v t => x.Within s t ∧ v ∈ t.queuedCommands) (x.Fault s) := by
  rw [meets_lift]
  refine ⟨fun v hv => ⟨.refl h, ?_⟩, fun e he => (Within.refl h).fails ?_⟩
  · rw [vToRepropose] at hv
    split at hv
    · rename_i w hw
      cases hv
      exact AList.mem_keys.1 (List.mem_filter.1 (List.min?_mem hw)).1
    · cases hv
  · rw [vToRepropose] at he
    split at he
    · cases he
    · cases he
      exact failed_harmless

theorem requeue_within (h : x.Sound s) (commands : List (Command n)) :
    x.Within s { s with myQueuedCommands := commands } :=
  ⟨⟨h.counter, h.stored, h.messages, h.round, h.sent, h.reads⟩, ⟨rfl, rfl, rfl, le_rfl, fun _ _ => rfl⟩,
    ⟨List.prefix_rfl, le_rfl⟩, fun _ _ he _ => he⟩

theorem proposeNext_spec (hl : Lawful x c committer algo) (h : x.Sound s) :
    Meets (proposeNext order algo) s (fun _ => x.Within s) (x.Fault s) := by
  refine Meets.get ?_
  dsimp only
  split
  · refine (Within.refl h).lift (fun e he => hl.shouldLead he) fun lead _ => ?_
    split
    · split
      · rename_i batch hbatch
        exact hl.proposeStart h (newBatch_proposable h hbatch)
      · refine (Within.refl h).read (vToRepropose_spec h) fun v t ht _ hv => ?_
        exact ht.finish (hl.reproposeStart ht.sound hv)
    · exact .refl h
  · split
    · exact .refl h
    · split
      · exact .refl h
      · rename_i command rest _
        have ht := requeue_within h rest
        rw [Lib.Turn.meets_bind, Lib.Turn.meets_modify]
        refine ht.check failed_harmless fun hwrite => ht.finish (hl.proposeStart ht.sound ?_)
        exact .single (Bool.not_eq_true' _ ▸ hwrite)

theorem startRead_spec (h : x.Sound s) {command : Command n} (hread : command.readOnly = true) :
    Meets (startRead x.me algo command) s (fun _ => x.Within s) (x.Fault s) := by
  refine Meets.get ?_
  have ht := tracker_within h (h.reads.insert hread (algo.getMyV s).isNone)
  have hu := ht.sound.within_emit (e := .readIssued s.readTracker.nextId command) trivial
    fun _ hn => hn
  rw [Lib.Turn.meets_bind, Lib.Turn.meets_modify]
  exact (ht.trans hu).finish (priorityBroadcast_spec hu.sound ⟨trivial, nofun⟩ nofun)

theorem takeCommand_spec (hl : Lawful x c committer algo) (h : x.Sound s) {command : Command n} :
    Meets (takeCommand x.me algo command) s (fun _ => x.Within s) (x.Fault s) := by
  refine Meets.get ((Within.refl h).step (emit_spec h trivial fun _ hn => hn) fun _ t ht _ => ?_)
  split
  · exact ht.finish (startRead_spec ht.sound ‹_›)
  · rename_i hwrite
    dsimp only
    split
    · exact ht.finish (hl.proposeStart ht.sound (.single (Bool.eq_false_of_not_eq_true hwrite)))
    · rw [Lib.Turn.meets_modify]
      exact ht.trans (requeue_within ht.sound _)

theorem onCommand_spec (hl : Lawful x c committer algo) (h : x.Sound s) {command : Command n} :
    Meets (onCommand x.me order algo command) s (fun _ => x.Within s) (x.Fault s) :=
  (Within.refl h).step (takeCommand_spec hl h) fun _ _ ht _ => ht.finish (proposeNext_spec hl ht.sound)

end Turn

theorem Watch.knows_congr (h : t.nextUid = s.nextUid) {v : Nat} :
    x.Knows t v ↔ x.Knows s v := by
  rw [Knows, Knows, Old, Old, h]

namespace Turn

theorem storing_taken (h : x.Sound s) {packet : Packet n} (hpacket : packet.Tells (x.Knows s)) :
    Taken x committer s (s.storing packet) := by
  rw [storing]
  split
  · rename_i v value hv hvalue
    split
    · exact .refl h
    · obtain ⟨w, hw, hstored⟩ := hpacket.value value hvalue
      rw [hv] at hw
      cases hw
      refine ⟨⟨h.counter, fun u other hu => ?_, h.messages, ?_, h.sent, h.reads⟩, ⟨List.prefix_rfl, le_rfl⟩,
        fun _ _ => id⟩
      · rcases eq_or_ne u v with rfl | hne
        · rw [AList.lookup_insert] at hu
          exact Option.some.inj hu ▸ hstored
        · exact h.stored u other ((AList.lookup_insert_ne hne).symm.trans hu)
      · exact x.mono (fun _ => id) (fun u hu => (AList.mem_insert _).2 (Or.inr hu)) h.round
  · exact .refl h

theorem storeValue_spec {packet : Packet n} (hpacket : packet.Tells (x.Knows s)) :
    Meets (storeValue packet : Turn n R Unit) s (fun _ t => t = s.storing packet)
      (Crashed x committer s) := by
  rw [storeValue]
  split
  · exact (storing_of_none ‹_›).symm
  · rename_i value hvalue
    obtain ⟨v, hv, -⟩ := hpacket.value value hvalue
    simp only [hv, storeRemoteCommand, Lib.Turn.meets_modify, storing, hvalue]

theorem takeMessage_spec (hl : ∀ supplied, Lawful (x.supply supplied) c committer algo)
    (h : x.Sound s) {packet : Packet n} (hpacket : packet.Tells (x.Knows s)) :
    Meets (takeMessage c x.me algo packet) s
      (fun _ t => Taken x committer s t ∧
        (Calm x.me s → ¬ Overtaken x.me s packet → Calm x.me t))
      (Crashed x committer s) := by
  rw [takeMessage, Lib.Turn.meets_bind, emit, Lib.Turn.meets_modify, Lib.Turn.meets_bind]
  set s₁ : ConsensusShard n R :=
    { s with sinks := s.sinks ++ [.received packet.msg.src packet] } with hs₁
  have hreceived : Taken x committer s s₁ :=
    Within.taken (h.supply.within_emit (e := .received packet.msg.src packet) trivial
      fun _ hn => hn)
  refine (storeValue_spec (s := s₁) hpacket).mono ?_ fun _ _ => hreceived.crashed
  rintro - _ rfl
  have hstored : Taken x committer s (s₁.storing packet) :=
    hreceived.trans (storing_taken hreceived.sound hpacket)
  have hmsg : packet.msg.msg.Tells (x.Knows (s₁.storing packet)) :=
    hpacket.msg.mono fun v hv => (knows_congr (storing_same s₁ packet).1).2 hv
  rw [Lib.Turn.meets_bind, meets_lift]
  refine ⟨fun ready hready => ?_, fun e he => hstored.fails (ready_harmless he)⟩
  cases ready with
  | true =>
    rw [if_pos rfl, Lib.Turn.meets_bind]
    refine (processAndCommit_spec hl hstored.sound hmsg hready).mono ?_ fun _ _ => hstored.crashed
    rintro committed t ⟨ht, hmessages, hframe⟩
    have hst := hstored.trans ht
    split
    · refine Meets.get ?_
      rw [Lib.Turn.meets_bind]
      refine (processQueue_spec hl _ hst.sound (Nat.lt_succ_self _)).mono ?_ fun _ _ => hst.crashed
      exact fun _ u hu => ⟨hst.trans hu.1, fun _ _ => hu.2⟩
    · rename_i hquiet
      simp only [Bool.or_eq_true, not_or, Bool.not_eq_true, Option.isSome_eq_false_iff,
        Option.isNone_iff_eq_none] at hquiet
      refine ⟨hst, fun hcalm _ => (hframe hquiet.1).calm hstored.sound ?_⟩
      rw [storing_of_none hquiet.2]
      exact hcalm
  | false =>
    rw [if_neg Bool.false_ne_true, Lib.Turn.meets_bind, Lib.Turn.meets_modify]
    have hqueue : ∀ m ∈ (s₁.storing packet).queuedMessages ++ [packet.msg],
        m.msg.Tells (x.Knows (s₁.storing packet)) := by
      intro m hm
      rcases List.mem_append.1 hm with hold | hnew
      · exact hstored.sound.messages m hold
      · exact List.mem_singleton.1 hnew ▸ hmsg
    refine ⟨⟨sound_queue hstored.sound hqueue, ⟨hstored.grown.1, hstored.grown.2⟩,
      hstored.announced⟩, ?_⟩
    intro hcalm hnot m hm
    rw [hs₁, storing_sinks] at hready hm ⊢
    rcases List.mem_append.1 hm with hold | hnew
    · have hmem : m ∈ s.queuedMessages := (storing_same s packet).2.1 ▸ hold
      refine ⟨fun hmready => hnot ⟨fun hok => ?_, m, hmem, (hcalm m hmem).1, hmready⟩, fun he => ?_⟩
      · cases hready.symm.trans hok
      · have hdiffers := ready_lastV_iff.1 he
        simp only [(storing_same s packet).2.2.1, (storing_same s packet).2.2.2] at hdiffers
        exact (hcalm m hmem).2 (ready_lastV_iff.2 hdiffers)
    · obtain rfl := List.mem_singleton.1 hnew
      exact .of_unready hready

theorem onPacket_spec (hl : ∀ supplied, Lawful (x.supply supplied) c committer algo)
    (h : x.Sound s) {packet : Packet n} (hpacket : packet.Tells (x.Knows s)) :
    Meets (onPacket c x.me order algo packet) s
      (fun _ t => Taken x committer s t ∧
        (Calm x.me s → ¬ Overtaken x.me s packet → Calm x.me t))
      (Crashed x committer s) := by
  rw [onPacket, Lib.Turn.meets_bind]
  refine (takeMessage_spec hl h hpacket).mono ?_ fun _ _ => id
  rintro mayPropose t ⟨ht, hcalm⟩
  split
  · refine (proposeNext_spec (hl True) ht.sound.supply).mono ?_ fun e u hu => ht.crashed hu.always
    intro _ u hu
    exact ⟨ht.trans hu.taken, fun hs hn => hu.frame.unsupply.calm ht.sound (hcalm hs hn)⟩
  · exact ⟨ht, hcalm⟩

end Turn

end KCensus.Slots

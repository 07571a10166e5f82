import KCensus.Slots.Consensus
import KCensus.Slots.Uids

namespace KCensus.Slots

open Lib (HashMap)
open Lib.Turn (Meets)

variable {n : Nat} {R : Type}

namespace Turn

variable {α : Type} {s : ConsensusShard n R} {E : Panic → ConsensusShard n R → Prop}

theorem meets_check {b : Bool} {e : Panic} {Q : Unit → ConsensusShard n R → Prop} :
    Meets (check b e) s Q E ↔ (b = true → Q () s) ∧ (b = false → E e s) := Lib.Turn.meets_check

theorem meets_lift {f : ConsensusShard n R → Except Panic α}
    {Q : α → ConsensusShard n R → Prop} :
    Meets (lift f) s Q E ↔
      (∀ a, f s = .ok a → Q a s) ∧ ∀ e, f s = .error e → E e s := by
  rw [Meets, lift]
  cases f s with
  | ok a => simp
  | error e => simp

theorem meets_onRound {f : R → Except Panic R} {Q : Unit → ConsensusShard n R → Prop} :
    Meets (onRound f) s Q E ↔
      (∀ r, f s.roundState = .ok r → Q () { s with roundState := r }) ∧
        ∀ e, f s.roundState = .error e → E e s := by
  rw [Meets, onRound]
  cases f s.roundState with
  | ok a => simp
  | error e => simp

end Turn

variable [NeZero n]

-- One process at work: the uids that others have handed out, when a round state mentions only some
-- uids (the second set is of those whose values are stored), whether payloads are at hand, and
-- whether a Commit names what its process decides by what the process itself knows.
structure Watch (n : Nat) (R : Type) where
  me : Fin n
  others : Nat → Prop
  mentions : (Nat → Prop) → (Nat → Prop) → R → Prop
  supplied : Prop
  named : Prop
  mono : ∀ {K K' held held' : Nat → Prop} {r : R}, (∀ v, K v → K' v) → (∀ v, held v → held' v) →
    mentions K held r → mentions K' held' r

variable {x : Watch n R} {s t u : ConsensusShard n R}

namespace Watch

def Old (x : Watch n R) (s : ConsensusShard n R) (v : Nat) : Prop :=
  uidOwner v = x.me → v < s.nextUid

def Knows (x : Watch n R) (s : ConsensusShard n R) (v : Nat) : Prop :=
  x.Old s v ∧ (uidOwner v ≠ x.me → x.others v)

structure Sound (x : Watch n R) (s : ConsensusShard n R) : Prop where
  counter : CounterOf x.me s.nextUid
  stored : ∀ v value, s.queuedCommands.lookup v = some value → Stored (x.Knows s) v value
  messages : ∀ m ∈ s.queuedMessages, m.msg.Tells (x.Knows s)
  round : x.mentions (x.Knows s) (· ∈ s.queuedCommands) s.roundState
  sent : ∀ e ∈ s.sinks, e.Tells (x.Knows s)
  reads : s.readTracker.ReadsOnly

-- Nothing but uids of its own that are new has come in.
structure Frame (x : Watch n R) (s t : ConsensusShard n R) : Prop where
  slot : t.slot = s.slot
  lastV : t.lastV = s.lastV
  messages : t.queuedMessages = s.queuedMessages
  nextUid : s.nextUid ≤ t.nextUid
  commands : ∀ v, x.Old s v → t.queuedCommands.lookup v = s.queuedCommands.lookup v

structure Grown (s t : ConsensusShard n R) : Prop where
  sinks : s.sinks <+: t.sinks
  nextUid : s.nextUid ≤ t.nextUid

omit [NeZero n] in
theorem Grown.trans (h : Grown s t) (h' : Grown t u) : Grown s u :=
  ⟨h.sinks.trans h'.sinks, h.nextUid.trans h'.nextUid⟩

def AnnouncesSlot (slot : Nat) : Event n → Prop
  | .broadcast packet _ => ∃ v, packet.msg.msg = .commit slot v
  | _ => False

def AnnouncesValue (slot v : Nat) : Event n → Prop
  | .broadcast packet _ => packet.msg.msg = .commit slot v
  | _ => False

omit [NeZero n] in
theorem AnnouncesValue.slot {slot v : Nat} {e : Event n} (h : AnnouncesValue slot v e) :
    AnnouncesSlot slot e := by
  cases e with
  | broadcast packet _ => exact ⟨v, h⟩
  | _ => exact h

def Announced (x : Watch n R) (s : ConsensusShard n R) (slot : Nat) : Prop :=
  ∀ v, ∀ e ∈ s.sinks, AnnouncesValue slot v e →
    ∃ u, .committed slot u ∈ s.sinks ∧ (x.named → u = v)

structure Within (x : Watch n R) (s t : ConsensusShard n R) : Prop where
  sound : x.Sound t
  frame : x.Frame s t
  grown : Grown s t
  quiet : ∀ slot, ∀ e ∈ t.sinks, AnnouncesSlot slot e → e ∈ s.sinks

-- As `Within`, but for a Commit of `v` that is on its way out.
structure Near (x : Watch n R) (v : Nat) (s t : ConsensusShard n R) : Prop where
  sound : x.Sound t
  frame : x.Frame s t
  grown : Grown s t
  said : ∀ slot u, ∀ e ∈ t.sinks, AnnouncesValue slot u e →
    e ∈ s.sinks ∨ slot = s.slot ∧ (x.named → u = v)

def Harmless (e : Panic) : Prop := ∀ v, e ≠ .removingMissing v

structure Fault (x : Watch n R) (s : ConsensusShard n R) (e : Panic) (t : ConsensusShard n R) :
    Prop where
  sound : x.Sound t
  grown : Grown s t
  harmless : x.supplied → Harmless e
  announced : x.supplied → ∀ slot, x.Announced s slot → x.Announced t slot

-- Every payload that the commit of `v` takes out.
def Holds (s : ConsensusShard n R) (v : Nat) : Prop :=
  ∃ value, s.queuedCommands.lookup v = some value ∧ ∀ w ∈ value.parts, w ∈ s.queuedCommands

def Ripe (s : ConsensusShard n R) (value : CommandBatch n) : Prop :=
  value.parts.Nodup ∧ ∀ w ∈ value.parts, ∃ command, s.queuedCommands.lookup w = some (.single command)

-- What the handling of a message comes to: `none` commits nothing.
structure Handled (x : Watch n R) (s : ConsensusShard n R) (r : Option (CommandBatch n))
    (t : ConsensusShard n R) : Prop where
  sound : x.Sound t
  grown : Grown s t
  frame : r = none → x.Frame s t
  ripe : ∀ value, r = some value → x.supplied → Ripe t value
  read : ∀ value, r = some value → value.isRead = true → x.Frame s t
  blank : ∀ value, r = some value → value.isSingle = false → ∀ K held, x.mentions K held t.roundState
  messages : t.queuedMessages = s.queuedMessages
  announced : x.supplied → ∀ slot, x.Announced s slot → x.Announced t slot

theorem failed_harmless : Harmless .failed := fun _ h => nomatch h

namespace Frame

theorem refl : x.Frame s s := ⟨rfl, rfl, rfl, le_rfl, fun _ _ => rfl⟩

theorem old (h : x.Frame s t) {v : Nat} (hv : x.Old s v) : x.Old t v :=
  fun ho => (hv ho).trans_le h.nextUid

theorem knows (h : x.Frame s t) {v : Nat} (hv : x.Knows s v) : x.Knows t v := ⟨h.old hv.1, hv.2⟩

theorem trans (h : x.Frame s t) (h' : x.Frame t u) : x.Frame s u :=
  ⟨h'.slot.trans h.slot, h'.lastV.trans h.lastV, h'.messages.trans h.messages,
    h.nextUid.trans h'.nextUid, fun v hv => (h'.commands v (h.old hv)).trans (h.commands v hv)⟩

theorem mem (h : x.Frame s t) {v : Nat} (hv : x.Old s v) :
    v ∈ t.queuedCommands ↔ v ∈ s.queuedCommands := by
  rw [← AList.lookup_isSome, ← AList.lookup_isSome, h.commands v hv]

theorem holds (h : x.Frame s t) (hs : x.Sound s) {v : Nat} (hv : Holds s v) : Holds t v := by
  obtain ⟨value, hvalue, hparts⟩ := hv
  have hstored := hs.stored v value hvalue
  refine ⟨value, ?_, fun w hw => (h.mem (hstored.known w hw).1).2 (hparts w hw)⟩
  rw [h.commands v hstored.uid.1]
  exact hvalue

end Frame

namespace Within

theorem refl (h : x.Sound s) : x.Within s s :=
  ⟨h, .refl, ⟨List.prefix_rfl, le_rfl⟩, fun _ _ he _ => he⟩

theorem trans (h : x.Within s t) (h' : x.Within t u) : x.Within s u :=
  ⟨h'.sound, h.frame.trans h'.frame, h.grown.trans h'.grown,
    fun slot e he ha => h.quiet slot e (h'.quiet slot e he ha) ha⟩

theorem announced (h : x.Within s t) (slot : Nat) (hs : x.Announced s slot) :
    x.Announced t slot := by
  intro v e he ha
  obtain ⟨u, hu, hnamed⟩ := hs v e (h.quiet slot e he ha.slot) ha
  exact ⟨u, h.grown.sinks.subset hu, hnamed⟩

theorem fault (h : x.Within s t) {e : Panic} (h' : x.Fault t e u) : x.Fault s e u :=
  ⟨h'.sound, h.grown.trans h'.grown, h'.harmless,
    fun hx slot hs => h'.announced hx slot (h.announced slot hs)⟩

theorem fails (h : x.Within s t) {e : Panic} (he : Harmless e) : x.Fault s e t :=
  ⟨h.sound, h.grown, fun _ => he, fun _ => h.announced⟩

theorem handled (h : x.Within s t) {r : Option (CommandBatch n)} (h' : x.Handled t r u) :
    x.Handled s r u :=
  ⟨h'.sound, h.grown.trans h'.grown, fun hr => h.frame.trans (h'.frame hr), h'.ripe,
    fun value hr hread => h.frame.trans (h'.read value hr hread), h'.blank,
    h'.messages.trans h.frame.messages,
    fun hx slot hs => h'.announced hx slot (h.announced slot hs)⟩

theorem nothing (h : x.Within s t) : x.Handled s none t :=
  ⟨h.sound, h.grown, fun _ => h.frame, nofun, nofun, nofun, h.frame.messages, fun _ => h.announced⟩

theorem near (h : x.Within s t) (v : Nat) : x.Near v s t :=
  ⟨h.sound, h.frame, h.grown, fun slot _ e he ha => Or.inl (h.quiet slot e he ha.slot)⟩

theorem knows (h : x.Within s t) {v : Nat} (hv : x.Knows s v) : x.Knows t v := h.frame.knows hv

end Within

theorem Near.before {v : Nat} (h : x.Near v s t) (h' : x.Within t u) : x.Near v s u :=
  ⟨h'.sound, h.frame.trans h'.frame, h.grown.trans h'.grown,
    fun slot w e he ha => h.said slot w e (h'.quiet slot e he ha.slot) ha⟩

theorem Near.after {v : Nat} (h' : x.Near v t u) (h : x.Within s t) : x.Near v s u :=
  ⟨h'.sound, h.frame.trans h'.frame, h.grown.trans h'.grown, fun slot w e he ha =>
    (h'.said slot w e he ha).imp (fun hold => h.quiet slot e hold ha.slot)
      fun hnew => ⟨hnew.1.trans h.frame.slot, hnew.2⟩⟩

namespace Sound

theorem emit (h : x.Sound s) {e : Event n} (he : e.Tells (x.Knows s)) :
    x.Sound { s with sinks := s.sinks ++ [e] } :=
  ⟨h.counter, h.stored, h.messages, h.round, fun e' he' =>
    (List.mem_append.1 he').elim (h.sent e') fun hm => List.mem_singleton.1 hm ▸ he, h.reads⟩

theorem near_emit (h : x.Sound s) {e : Event n} (he : e.Tells (x.Knows s)) {v : Nat}
    (hnames : ∀ slot u, AnnouncesValue slot u e → slot = s.slot ∧ (x.named → u = v)) :
    x.Near v s { s with sinks := s.sinks ++ [e] } := by
  refine ⟨h.emit he, ⟨rfl, rfl, rfl, le_rfl, fun _ _ => rfl⟩, ⟨List.prefix_append _ _, le_rfl⟩, ?_⟩
  intro slot u e' he' ha
  rcases List.mem_append.1 he' with hold | hnew
  · exact Or.inl hold
  · cases List.mem_singleton.1 hnew
    exact Or.inr (hnames slot u ha)

theorem within_emit (h : x.Sound s) {e : Event n} (he : e.Tells (x.Knows s))
    (hquiet : ∀ slot, ¬ AnnouncesSlot slot e) : x.Within s { s with sinks := s.sinks ++ [e] } := by
  refine ⟨h.emit he, ⟨rfl, rfl, rfl, le_rfl, fun _ _ => rfl⟩, ⟨List.prefix_append _ _, le_rfl⟩, ?_⟩
  intro slot e' he' ha
  rcases List.mem_append.1 he' with hold | hnew
  · exact hold
  · exact absurd (List.mem_singleton.1 hnew ▸ ha) (hquiet slot)

theorem within_round (h : x.Sound s) {r : R}
    (hr : x.mentions (x.Knows s) (· ∈ s.queuedCommands) r) :
    x.Within s { s with roundState := r } :=
  ⟨⟨h.counter, h.stored, h.messages, hr, h.sent, h.reads⟩, ⟨rfl, rfl, rfl, le_rfl, fun _ _ => rfl⟩,
    ⟨List.prefix_rfl, le_rfl⟩, fun _ _ he _ => he⟩

end Sound

-- The rules that follow a program from `s` on; it has come to `t`.
namespace Within

open Lib.Turn

variable {α β : Type} {m : Turn n R α} {f : α → Turn n R β} {P : α → ConsensusShard n R → Prop}
  {Q : β → ConsensusShard n R → Prop}

theorem read (h : x.Within s t) (hm : Meets m t (fun a u => x.Within t u ∧ P a u) (x.Fault t))
    (hf : ∀ a u, x.Within s u → x.Within t u → P a u → Meets (f a) u Q (x.Fault s)) :
    Meets (m >>= f) t Q (x.Fault s) := by
  rw [meets_bind]
  exact hm.mono (fun a u hu => hf a u (h.trans hu.1) hu.1 hu.2) fun _ _ => h.fault

theorem step (h : x.Within s t) (hm : Meets m t (fun _ => x.Within t) (x.Fault t))
    (hf : ∀ a u, x.Within s u → x.Within t u → Meets (f a) u Q (x.Fault s)) :
    Meets (m >>= f) t Q (x.Fault s) := by
  rw [meets_bind]
  exact hm.mono (fun a u hu => hf a u (h.trans hu) hu) fun _ _ => h.fault

theorem finish (h : x.Within s t) (hm : Meets m t (fun _ => x.Within t) (x.Fault t)) :
    Meets m t (fun _ => x.Within s) (x.Fault s) :=
  hm.mono (fun _ _ => h.trans) fun _ _ => h.fault

theorem hand {m : Turn n R (Option (CommandBatch n))} (h : x.Within s t)
    (hm : Meets m t (x.Handled t) (x.Fault t)) : Meets m t (x.Handled s) (x.Fault s) :=
  hm.mono (fun _ _ => h.handled) fun _ _ => h.fault

theorem check {f : Unit → Turn n R β} (h : x.Within s t) {b : Bool} {e : Panic} (he : Harmless e)
    (hf : b = true → Meets (f ()) t Q (x.Fault s)) :
    Meets (Turn.check b e >>= f) t Q (x.Fault s) := by
  rw [meets_bind, Turn.meets_check]
  exact ⟨hf, fun _ => h.fails he⟩

theorem lift (h : x.Within s t) {g : ConsensusShard n R → Except Panic α}
    (he : ∀ e, g t = .error e → Harmless e)
    (hf : ∀ a, g t = .ok a → Meets (f a) t Q (x.Fault s)) :
    Meets (Turn.lift g >>= f) t Q (x.Fault s) := by
  rw [meets_bind, Turn.meets_lift]
  exact ⟨hf, fun e hge => h.fails (he e hge)⟩

end Within

end Watch

namespace Turn

open Lib.Turn Watch

variable {c : Cluster n}

theorem leaveFastPath_spec (h : x.Sound s) :
    Meets (leaveFastPath : Turn n R Unit) s (fun _ => x.Within s) (x.Fault s) := by
  simp only [leaveFastPath, meets_modify]
  exact ⟨⟨h.counter, h.stored, h.messages, h.round, h.sent, h.reads⟩,
    ⟨rfl, rfl, rfl, le_rfl, fun _ _ => rfl⟩, ⟨List.prefix_rfl, le_rfl⟩, fun _ _ he _ => he⟩

theorem priorityBroadcast_spec (h : x.Sound s) {msg : ConsensusMsg n}
    {value : Option (CommandBatch n)} {priority : Option (Fin n)}
    (hmsg : Packet.Tells (x.Knows s) ⟨⟨msg, x.me, s.lastV⟩, value⟩)
    (hquiet : ∀ slot v, msg ≠ .commit slot v) :
    Meets (priorityBroadcast x.me msg value priority : Turn n R Unit) s (fun _ => x.Within s)
      (x.Fault s) := by
  simp only [priorityBroadcast, emit, meets_bind, meets_get, meets_modify]
  refine h.within_emit hmsg fun slot ha => ?_
  obtain ⟨v, hv⟩ := ha
  exact hquiet slot v hv

theorem sendPacket_spec (h : x.Sound s) {packet : Packet n} {dest : Fin n}
    (hpacket : packet.Tells (x.Knows s)) :
    Meets (sendPacket c x.me packet dest : Turn n R Unit) s (fun _ => x.Within s) (x.Fault s) := by
  simp only [sendPacket, emit, meets_bind, meets_check, meets_modify]
  exact ⟨fun _ => h.within_emit hpacket fun _ => id, fun _ => (Within.refl h).fails fun _ he => (by cases he)⟩

theorem send_spec (h : x.Sound s) {msg : ConsensusMsg n} {value : Option (CommandBatch n)}
    {dest : Fin n} (hmsg : Packet.Tells (x.Knows s) ⟨⟨msg, x.me, s.lastV⟩, value⟩) :
    Meets (Turn.send c x.me msg value dest : Turn n R Unit) s (fun _ => x.Within s)
      (x.Fault s) := by
  simp only [Turn.send, sendWith, meets_bind, meets_get]
  exact sendPacket_spec h hmsg

theorem storeNewCommand_spec (h : x.Sound s) {value : CommandBatch n}
    (hvalue : Proposable (x.Knows s) value) :
    Meets (storeNewCommand value : Turn n R Nat) s
      (fun v t => x.Within s t ∧ x.Knows t v ∧ t.queuedCommands.lookup v = some value)
      (x.Fault s) := by
  simp only [storeNewCommand, meets_bind, meets_get, meets_modify, meets_pure]
  set v := if value.isSingle then s.nextUid else s.nextUid + 1 with hv
  set t : ConsensusShard n R :=
    { s with
      nextUid := s.nextUid + 2 * n
      queuedCommands := s.queuedCommands.insert v value
      sinks := s.sinks ++ [.created v value] } with ht
  have hn : 0 < n := Nat.pos_of_neZero n
  have heven := h.counter.even
  have hpar : value.isSingle = true ↔ v % 2 = 0 := by
    rw [hv]
    split
    · simp [*]
    · simp [*]
      omega
  have howner : uidOwner v = x.me := h.counter.owner_of (by rw [hv]; split <;> omega)
  have hnew : ¬ x.Old s v := fun ho => by
    have := ho howner
    rw [hv] at this
    split at this <;> omega
  have hknown : x.Knows t v := by
    refine ⟨fun _ => ?_, fun hne => absurd howner hne⟩
    change v < s.nextUid + 2 * n
    rw [hv]
    split <;> omega
  have hframe : x.Frame s t := by
    refine ⟨rfl, rfl, rfl, Nat.le_add_right _ _, fun w hw => ?_⟩
    exact AList.lookup_insert_ne fun heq => hnew (heq ▸ hw)
  have hsound : x.Sound t := by
    refine ⟨h.counter.next, fun w value' hw => ?_, fun m hm => ?_, ?_, fun e he => ?_, h.reads⟩
    · rcases eq_or_ne w v with heq | hne
      · rw [heq, ht, AList.lookup_insert] at hw
        rw [heq, ← Option.some.inj hw]
        exact ⟨hvalue.mono fun _ => hframe.knows, hknown, hpar⟩
      · exact (h.stored w value' ((AList.lookup_insert_ne hne).symm.trans hw)).mono
          fun _ => hframe.knows
    · exact (h.messages m hm).mono fun _ => hframe.knows
    · exact x.mono (fun _ => hframe.knows) (fun w hw => (AList.mem_insert _).2 (Or.inr hw)) h.round
    · rcases List.mem_append.1 he with hold | hnew
      · exact (h.sent e hold).mono fun _ => hframe.knows
      · exact List.mem_singleton.1 hnew ▸ trivial
  refine ⟨⟨hsound, hframe, ⟨List.prefix_append _ _, hframe.nextUid⟩, fun slot e he ha => ?_⟩, hknown,
    AList.lookup_insert _⟩
  rcases List.mem_append.1 he with hold | hnew
  · exact hold
  · rw [List.mem_singleton.1 hnew] at ha
    exact ha.elim

def advanced (v : Nat) (clear : R → R) (s : ConsensusShard n R) : ConsensusShard n R :=
  { s with
    queuedCommands := HashMap.retain (fun _ value => outlives s.slot value)
      (s.queuedCommands.erase v)
    lastV := some v
    slot := s.slot + 1
    roundState := clear s.roundState
    sinks := s.sinks ++ [.committed s.slot v] }

omit [NeZero n] in
theorem lookup_advanced {v w : Nat} {clear : R → R} {value : CommandBatch n} :
    (advanced v clear s).queuedCommands.lookup w = some value ↔
      w ≠ v ∧ s.queuedCommands.lookup w = some value ∧ outlives s.slot value = true := by
  rw [advanced, HashMap.lookup_retain]
  rcases eq_or_ne w v with rfl | hne
  · simp [AList.lookup_erase]
  · simp [AList.lookup_erase_ne hne, hne]

theorem Sound.advanced {v : Nat} {clear : R → R} (h : x.Sound s)
    (hclear : ∀ r K held, x.mentions K held (clear r)) : x.Sound (advanced v clear s) := by
  refine ⟨h.counter, fun w value hw => ?_, h.messages, hclear _ _ _, fun e he => ?_, h.reads⟩
  · exact h.stored w value (lookup_advanced.1 hw).2.1
  · exact (List.mem_append.1 he).elim (h.sent e) fun hm => List.mem_singleton.1 hm ▸ trivial

theorem advance_spec {v : Nat} (h : x.Near v s t) (hs : x.Sound s) (hv : x.supplied → Holds s v)
    {clear : R → R} (hclear : ∀ r K held, x.mentions K held (clear r)) :
    Meets (advance v clear) t (fun value => x.Handled s (some value)) (x.Fault s) := by
  simp only [advance, removeCommand, purgeBatches, meets_bind, meets_get]
  cases hvalue : t.queuedCommands.lookup v with
  | none =>
    have hmissing : ¬ x.supplied := fun hx => by
      obtain ⟨value, hlookup, -⟩ := h.frame.holds hs (hv hx)
      rw [hvalue] at hlookup
      cases hlookup
    simp only [meets_throw]
    exact ⟨h.sound, h.grown, fun hx => absurd hx hmissing, fun hx => absurd hx hmissing⟩
  | some value =>
    simp only [meets_bind, meets_modify, meets_pure]
    change x.Handled s (some value) (advanced v clear t)
    have hstored := h.sound.stored v value hvalue
    refine ⟨Sound.advanced h.sound hclear, h.grown.trans ⟨List.prefix_append _ _, le_rfl⟩,
      fun hn => (by cases hn), ?_, ?_, ?_, h.frame.messages, ?_⟩
    · rintro _ ⟨⟩ hx
      refine ⟨hstored.nodup, fun w hw => ?_⟩
      obtain ⟨value', hlookup, hparts⟩ := h.frame.holds hs (hv hx)
      have heq : value' = value := Option.some.inj (hlookup.symm.trans hvalue)
      subst heq
      obtain ⟨part, hpart⟩ := HashMap.exists_lookup (hparts w hw)
      have hsingle := (h.sound.stored w part hpart).single.2 (hstored.even w hw)
      obtain ⟨command, rfl⟩ : ∃ command, part = .single command := by
        cases part with
        | single command => exact ⟨command, rfl⟩
        | batch slot vs => cases hsingle
      have hne : w ≠ v := by
        rintro rfl
        have := hstored.single.2 (hstored.even w hw)
        cases value' with
        | single command => exact absurd hw List.not_mem_nil
        | batch slot vs => cases this
      exact ⟨command, lookup_advanced.2 ⟨hne, hpart, rfl⟩⟩
    · rintro _ ⟨⟩ hread
      cases hstored.write.symm.trans hread
    · exact fun _ _ _ => hclear _
    · intro _ slot hbefore u e he ha
      have htold : e ∈ t.sinks := by
        rcases List.mem_append.1 he with hold | hnew
        · exact hold
        · rw [List.mem_singleton.1 hnew] at ha
          exact ha.elim
      rcases h.said slot u e htold ha with hold | ⟨rfl, hnamed⟩
      · obtain ⟨w, hw, hsame⟩ := hbefore u e hold ha
        exact ⟨w, List.mem_append_left _ (h.grown.sinks.subset hw), hsame⟩
      · exact ⟨v, List.mem_append_right _ (h.frame.slot ▸ List.mem_singleton_self _),
          fun hx => (hnamed hx).symm⟩

end Turn

end KCensus.Slots

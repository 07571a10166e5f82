import KCensus.Slots.Conduct

namespace KCensus.Slots

open Lib.Turn (Meets)
open Turn Conduct ConsensusShard

variable {n : Nat} {R : Type}

-- `leader` has opened the accept phase of `slot` for `v`.
def Opened (hist : List (Fin n × Event n)) (leader : Fin n) (slot v : Nat) : Prop :=
  ∃ packet priority, (leader, .broadcast packet priority) ∈ hist ∧
    packet.msg.msg.Accepts leader slot v

-- What has come before a message.
structure Grounded (phased : Prop) (hist : List (Fin n × Event n)) (m : ConsensusMessage n) :
    Prop where
  opened : phased → ∀ leader slot v, m.msg.Accepts leader slot v → Opened hist leader slot v
  decided : ∀ slot u, m.msg = .commit slot u →
    ∃ v fast, (m.src, .decided slot v fast) ∈ hist ∧ (phased → fast = false → u = v)

-- Where a fallback is an accept phase, the process had the means to see it; elsewhere, it neither
-- took the slot over from another process nor decided it by an accept majority.
structure Shown (phased voter : Prop) (hist : List (Fin n × Event n)) (p : Fin n) (slot : Nat) :
    Prop where
  opened : phased → voter ∨ ∀ q v, q ≠ p → ¬ Opened hist q slot v
  ranked : phased → (p, .outranked slot) ∉ hist
  learned : ¬ phased → ∀ v q, (p, .learned slot v q) ∉ hist
  own : ¬ phased → voter ∨ ∀ v, (p, .decided slot v false) ∉ hist

-- Whoever decided the slot for `p` decided it by the fast route.
def FastFor (hist : List (Fin n × Event n)) (p : Fin n) (slot : Nat) : Prop :=
  ∃ q v, (q, .decided slot v true) ∈ hist ∧ (q = p ∨ ∃ u, (p, .learned slot u q) ∈ hist)

structure Packet.Backed (phased : Prop) (hist : List (Fin n × Event n)) (p : Fin n)
    (packet : Packet n) : Prop where
  src : packet.msg.src = p
  grounded : Grounded phased hist packet.msg
  bare : packet.msg.msg.isCommit = true → packet.value = none

def Event.Backed (phased voter : Prop) (hist : List (Fin n × Event n)) (p : Fin n) :
    Event n → Prop
  | .broadcast packet _ => packet.Backed phased hist p
  | .send packet _ => packet.Backed phased hist p
  | .decided slot v fast => phased → fast = false → Opened hist p slot v
  | .handed write command => ∀ slot u waited, write = some (slot, u) → command.requester = p →
      command.report = some ⟨true, waited⟩ → Shown phased voter hist p slot → FastFor hist p slot
  | _ => True

section histories

variable {phased voter : Prop} {hist hist' : List (Fin n × Event n)} {p : Fin n}

theorem Opened.mono {leader : Fin n} {slot v : Nat} (h : Opened hist leader slot v)
    (hsub : hist ⊆ hist') : Opened hist' leader slot v := by
  obtain ⟨packet, priority, hmem, haccepts⟩ := h
  exact ⟨packet, priority, hsub hmem, haccepts⟩

theorem Grounded.mono {m : ConsensusMessage n} (h : Grounded phased hist m)
    (hsub : hist ⊆ hist') : Grounded phased hist' m := by
  refine ⟨fun hphased leader slot v hv => (h.opened hphased leader slot v hv).mono hsub, ?_⟩
  intro slot u hm
  obtain ⟨v, fast, hmem, hsame⟩ := h.decided slot u hm
  exact ⟨v, fast, hsub hmem, hsame⟩

theorem Shown.anti {slot : Nat} (h : Shown phased voter hist' p slot) (hsub : hist ⊆ hist') :
    Shown phased voter hist p slot where
  opened hphased := (h.opened hphased).imp id fun hno q v hq hv => hno q v hq (hv.mono hsub)
  ranked hphased hmem := h.ranked hphased (hsub hmem)
  learned hphased v q hmem := h.learned hphased v q (hsub hmem)
  own hphased := (h.own hphased).imp id fun hno v hmem => hno v (hsub hmem)

theorem FastFor.mono {slot : Nat} (h : FastFor hist p slot) (hsub : hist ⊆ hist') :
    FastFor hist' p slot := by
  obtain ⟨q, v, hmem, hq⟩ := h
  exact ⟨q, v, hsub hmem, hq.imp id fun ⟨u, hu⟩ => ⟨u, hsub hu⟩⟩

theorem Packet.Backed.mono {packet : Packet n} (h : packet.Backed phased hist p)
    (hsub : hist ⊆ hist') : packet.Backed phased hist' p :=
  ⟨h.src, h.grounded.mono hsub, h.bare⟩

theorem Event.Backed.mono {e : Event n} (h : e.Backed phased voter hist p)
    (hsub : hist ⊆ hist') : e.Backed phased voter hist' p := by
  cases e with
  | broadcast packet priority => exact Packet.Backed.mono h hsub
  | send packet dest => exact Packet.Backed.mono h hsub
  | decided slot v fast => exact fun hphased hfast => (h hphased hfast).mono hsub
  | handed write command =>
    exact fun slot u waited hw hc hr hs => (h slot u waited hw hc hr (hs.anti hsub)).mono hsub
  | _ => trivial

theorem Grounded.of_plain {packet : Packet n} (hcommit : packet.msg.msg.isCommit = false)
    (hopened : phased → ∀ leader slot v, packet.msg.msg.Accepts leader slot v →
      Opened hist leader slot v) : Grounded phased hist packet.msg := by
  refine ⟨hopened, fun slot u hm => ?_⟩
  rw [hm] at hcommit
  cases hcommit

theorem Event.Plain.backed {e : Event n} {heard : Fin n → Nat → Nat → Prop}
    (h : e.Plain p phased heard) (hmem : (p, e) ∈ hist)
    (hheard : phased → ∀ leader slot v, heard leader slot v → Opened hist leader slot v) :
    e.Backed phased voter hist p := by
  cases e with
  | broadcast packet priority =>
    obtain ⟨hsrc, hcommit, hown⟩ := h
    refine ⟨hsrc, .of_plain hcommit fun hphased leader slot v hv => ?_, fun hc => ?_⟩
    · obtain rfl := hown hphased leader slot v hv
      exact ⟨packet, priority, hmem, hv⟩
    · cases hc.symm.trans hcommit
  | send packet dest =>
    obtain ⟨hsrc, hcommit, hvoted⟩ := h
    refine ⟨hsrc, .of_plain hcommit fun hphased leader slot v hv => ?_, fun hc => ?_⟩
    · exact hheard hphased leader slot v (hvoted hphased leader slot v hv)
    · cases hc.symm.trans hcommit
  | decided slot v fast => exact h.elim
  | handed write command =>
    intro slot u waited hw
    cases (show write = none from h).symm.trans hw
  | _ => trivial

end histories

-- `l'` is `l`, or `l` without one of its messages, `msg`.
def Without (msg : ConsensusMessage n) (l l' : List (ConsensusMessage n)) : Prop :=
  l = l' ∨ ∃ pre post, l = pre ++ msg :: post ∧ l' = pre ++ post

theorem Without.before {msg m : ConsensusMessage n} {l l' b' rest' : List (ConsensusMessage n)}
    (h : Without msg l l') (hl' : l' = b' ++ m :: rest') :
    ∃ b rest, l = b ++ m :: rest ∧ ∀ x ∈ b, x = msg ∨ x ∈ b' := by
  rcases h with rfl | ⟨pre, post, rfl, rfl⟩
  · exact ⟨b', rest', hl', fun _ => Or.inr⟩
  · rcases List.append_eq_append_iff.1 hl' with ⟨mid, rfl, rfl⟩ | ⟨mid, rfl, hmid⟩
    · refine ⟨pre ++ msg :: mid, rest', by simp, fun x hx => ?_⟩
      rcases List.mem_append.1 hx with hpre | hx
      · exact Or.inr (List.mem_append_left _ hpre)
      · exact (List.mem_cons.1 hx).imp id (List.mem_append_right _)
    · cases mid with
      | nil =>
        obtain rfl : m :: rest' = post := hmid
        refine ⟨b' ++ [msg], rest', by simp, fun x hx => ?_⟩
        exact (List.mem_append.1 hx).elim Or.inr fun hx => Or.inl (List.mem_singleton.1 hx)
      | cons m' mid =>
        obtain ⟨rfl, rfl⟩ := List.cons.inj hmid
        exact ⟨b', mid ++ msg :: post, by simp, fun _ => Or.inr⟩

theorem Without.insert {msg m : ConsensusMessage n} {l l' b rest : List (ConsensusMessage n)}
    (h : Without msg l l') (hl : l = b ++ m :: rest) (hne : m ≠ msg) :
    ∃ b' rest', l' = b' ++ m :: rest' ∧ b' ⊆ b := by
  rcases h with rfl | ⟨pre, post, rfl, rfl⟩
  · exact ⟨b, rest, hl, List.Subset.refl b⟩
  · rcases List.append_eq_append_iff.1 hl with ⟨mid, rfl, hmid⟩ | ⟨mid, rfl, hmid⟩
    · cases mid with
      | nil => exact absurd (List.cons.inj hmid).1.symm hne
      | cons m' mid =>
        obtain ⟨rfl, rfl⟩ := List.cons.inj hmid
        refine ⟨pre ++ mid, rest, by simp, fun x hx => ?_⟩
        exact (List.mem_append.1 hx).elim (List.mem_append_left _)
          fun hx => List.mem_append_right _ (List.mem_cons_of_mem _ hx)
    · cases mid with
      | nil => exact absurd (List.cons.inj hmid).1 hne
      | cons m' mid =>
        obtain ⟨rfl, rfl⟩ := List.cons.inj hmid
        exact ⟨b, mid ++ post, by simp, List.Subset.refl b⟩

theorem Without.mem {msg m : ConsensusMessage n} {l l' : List (ConsensusMessage n)}
    (h : Without msg l l') (hm : m ∈ l') : m ∈ l := by
  rcases h with rfl | ⟨pre, post, rfl, rfl⟩
  · exact hm
  · exact (List.mem_append.1 hm).elim (List.mem_append_left _)
      fun hpost => List.mem_append_right _ (List.mem_cons_of_mem _ hpost)

theorem Without.mem_or {msg m : ConsensusMessage n} {l l' : List (ConsensusMessage n)}
    (h : Without msg l l') (hm : m ∈ l) : m = msg ∨ m ∈ l' := by
  rcases h with rfl | ⟨pre, post, rfl, rfl⟩
  · exact Or.inr hm
  · rcases List.mem_append.1 hm with hpre | hm
    · exact Or.inr (List.mem_append_left _ hpre)
    · exact (List.mem_cons.1 hm).imp id (List.mem_append_right _)

-- What a process goes by in its turn: the run until then.
structure Outlook (me : Fin n) where
  phased : Prop
  voter : Prop
  hist : List (Fin n × Event n)
  opened : phased → ∀ q slot v, (q, .decided slot v false) ∈ hist → Opened hist q slot v

namespace Outlook

variable {me : Fin n} (o : Outlook me)

def log (s : ConsensusShard n R) : List (Fin n × Event n) :=
  o.hist ++ s.sinks.map (Prod.mk me)

structure Spoken (s : ConsensusShard n R) : Prop where
  backed : ∀ e ∈ s.sinks, e.Backed o.phased o.voter (o.log s) me
  opened : o.phased → ∀ slot v, .decided slot v false ∈ s.sinks → Opened o.hist me slot v
  once : ∀ slot v fast v' fast', (me, .decided slot v fast) ∈ o.log s →
    (me, .decided slot v' fast') ∈ o.log s → fast = fast'

def Noted (s : ConsensusShard n R) (slot : Nat) : Prop :=
  slot < s.slot ∨ slot = s.slot ∧
    (s.slotLeftFastPath = true ∨ (me, .outranked slot) ∈ o.log s)

def Covered (s : ConsensusShard n R) (b : List (ConsensusMessage n)) (q : Fin n) (slot v : Nat) :
    Prop :=
  o.Noted s slot ∨ ∃ m ∈ b, m.msg.Accepts q slot v

-- `seen q` is what is still to be handled, up to the end of the link from `q`. An accept phase of
-- `q` is in it, and before the Commit that it leads to, or has been noted.
structure Alert (s : ConsensusShard n R) (seen : Fin n → List (ConsensusMessage n)) : Prop where
  await : ∀ q slot v, q ≠ me → Opened o.hist q slot v → o.Covered s (seen q) q slot v
  order : ∀ q slot u b m rest, q ≠ me → seen q = b ++ m :: rest → m.src = q →
    m.msg = .commit slot u → (q, .decided slot u false) ∈ o.hist → o.Covered s b q slot u

structure Aware (s : ConsensusShard n R) (seen : Fin n → List (ConsensusMessage n)) : Prop
    extends o.Spoken s where
  decided : ∀ slot v fast, (me, .decided slot v fast) ∈ o.log s → slot < s.slot
  grounded : ∀ q, ∀ m ∈ seen q, Grounded o.phased o.hist m
  alert : o.phased → o.voter → o.Alert s seen

variable {o} {s t : ConsensusShard n R} {seen seen' : Fin n → List (ConsensusMessage n)}
  {said : List (Event n)}

theorem log_subset (h : t.sinks = s.sinks ++ said) : o.log s ⊆ o.log t := by
  rw [log, log, h, List.map_append, ← List.append_assoc]
  exact List.subset_append_left _ _

theorem mem_log (h : t.sinks = s.sinks ++ said) {q : Fin n} {e : Event n} :
    (q, e) ∈ o.log t ↔ (q, e) ∈ o.log s ∨ q = me ∧ e ∈ said := by
  rw [log, log, h, List.map_append, ← List.append_assoc, List.mem_append (t := said.map _)]
  refine or_congr_right ?_
  rw [List.mem_map]
  constructor
  · rintro ⟨e', he', heq⟩
    cases heq
    exact ⟨rfl, he'⟩
  · rintro ⟨rfl, he⟩
    exact ⟨e, he, rfl⟩

theorem mem_log_of_said {e : Event n} (h : e ∈ s.sinks) : (me, e) ∈ o.log s :=
  List.mem_append_right _ (List.mem_map_of_mem h)

theorem hist_subset : o.hist ⊆ o.log s := List.subset_append_left _ _

theorem Noted.forward {slot : Nat} (h : o.Noted s slot) (hlog : o.log s ⊆ o.log t)
    (hslot : s.slot ≤ t.slot)
    (hleft : t.slot = s.slot → s.slotLeftFastPath = true → t.slotLeftFastPath = true) :
    o.Noted t slot := by
  rcases h with hlow | ⟨rfl, hnoted⟩
  · exact Or.inl (hlow.trans_le hslot)
  · rcases hslot.lt_or_eq with hlt | heq
    · exact Or.inl hlt
    · exact Or.inr ⟨heq, hnoted.imp (hleft heq.symm) fun hmem => hlog hmem⟩

theorem Alert.forward (h : o.Alert s seen) (hlog : o.log s ⊆ o.log t) (hslot : s.slot ≤ t.slot)
    (hleft : t.slot = s.slot → s.slotLeftFastPath = true → t.slotLeftFastPath = true) :
    o.Alert t seen where
  await q slot v hq hv := (h.await q slot v hq hv).imp (·.forward hlog hslot hleft) id
  order q slot u b m rest hq hseen hsrc hm hu :=
    (h.order q slot u b m rest hq hseen hsrc hm hu).imp (·.forward hlog hslot hleft) id

theorem Spoken.grow (h : o.Spoken s) (hsinks : t.sinks = s.sinks ++ said)
    (hbacked : ∀ e ∈ said, e.Backed o.phased o.voter (o.log t) me)
    (hopened : o.phased → ∀ slot v, .decided slot v false ∈ said → Opened o.hist me slot v)
    (honce : ∀ slot v fast v' fast', .decided slot v fast ∈ said →
      (me, .decided slot v' fast') ∈ o.log t → fast = fast') : o.Spoken t where
  backed e he := by
    rw [hsinks] at he
    rcases List.mem_append.1 he with hold | hnew
    · exact (h.backed e hold).mono (log_subset hsinks)
    · exact hbacked e hnew
  opened hphased slot v he := by
    rw [hsinks] at he
    exact (List.mem_append.1 he).elim (h.opened hphased slot v) (hopened hphased slot v)
  once slot v fast v' fast' he he' := by
    rcases (mem_log hsinks).1 he with hold | ⟨-, hnew⟩
    · rcases (mem_log hsinks).1 he' with hold' | ⟨-, hnew'⟩
      · exact h.once slot v fast v' fast' hold hold'
      · exact (honce slot v' fast' v fast hnew' he).symm
    · exact honce slot v fast v' fast' hnew he'

-- Saying things that decide nothing.
theorem Aware.grow (h : o.Aware s seen) (hsinks : t.sinks = s.sinks ++ said)
    (hbacked : ∀ e ∈ said, e.Backed o.phased o.voter (o.log t) me)
    (hnone : ∀ slot v fast, .decided slot v fast ∉ said) (hslot : s.slot ≤ t.slot)
    (hleft : t.slot = s.slot → s.slotLeftFastPath = true → t.slotLeftFastPath = true) :
    o.Aware t seen where
  toSpoken := h.toSpoken.grow hsinks hbacked (fun _ slot v he => absurd he (hnone slot v false))
    fun slot v fast _ _ he => absurd he (hnone slot v fast)
  decided slot v fast he := by
    rcases (mem_log hsinks).1 he with hold | ⟨-, hnew⟩
    · exact (h.decided slot v fast hold).trans_le hslot
    · exact absurd hnew (hnone slot v fast)
  grounded := h.grounded
  alert hphased hvoter := (h.alert hphased hvoter).forward (log_subset hsinks) hslot hleft

theorem Aware.congr (h : o.Aware s seen) (hsinks : t.sinks = s.sinks) (hslot : t.slot = s.slot)
    (hleft : t.slotLeftFastPath = s.slotLeftFastPath) : o.Aware t seen :=
  h.grow (show t.sinks = s.sinks ++ [] by rw [hsinks, List.append_nil])
    (fun _ he => absurd he List.not_mem_nil) (fun _ _ _ => List.not_mem_nil) hslot.ge
    fun _ => hleft.trans

theorem Aware.handled {msg : ConsensusMessage n} (h : o.Aware s seen)
    (hseen : ∀ q, Without msg (seen q) (seen' q))
    (hnoted : o.phased → o.voter → ∀ q slot v, q ≠ me → msg.msg.Accepts q slot v →
      o.Noted s slot) : o.Aware s seen' where
  toSpoken := h.toSpoken
  decided := h.decided
  grounded q m hm := h.grounded q m ((hseen q).mem hm)
  alert hphased hvoter := by
    have halert := h.alert hphased hvoter
    constructor
    · intro q slot v hq hv
      rcases halert.await q slot v hq hv with hdone | ⟨m, hm, haccepts⟩
      · exact Or.inl hdone
      · rcases (hseen q).mem_or hm with rfl | hm'
        · exact Or.inl (hnoted hphased hvoter q slot v hq haccepts)
        · exact Or.inr ⟨m, hm', haccepts⟩
    · intro q slot u b m rest hq hb hsrc hm hu
      obtain ⟨b₀, rest₀, hb₀, hsub⟩ := (hseen q).before hb
      rcases halert.order q slot u b₀ m rest₀ hq hb₀ hsrc hm hu with hdone | ⟨m', hm', haccepts⟩
      · exact Or.inl hdone
      · rcases hsub m' hm' with rfl | hmem
        · exact Or.inl (hnoted hphased hvoter q slot u hq haccepts)
        · exact Or.inr ⟨m', hmem, haccepts⟩

theorem Aware.queued {msg : ConsensusMessage n} (h : o.Aware s seen)
    (hmsg : Grounded o.phased o.hist msg) (hseen : ∀ q, Without msg (seen' q) (seen q))
    (hsame : seen' msg.src = seen msg.src) : o.Aware s seen' where
  toSpoken := h.toSpoken
  decided := h.decided
  grounded q m hm := ((hseen q).mem_or hm).elim (fun heq => heq ▸ hmsg) (h.grounded q m)
  alert hphased hvoter := by
    have halert := h.alert hphased hvoter
    constructor
    · intro q slot v hq hv
      exact (halert.await q slot v hq hv).imp id fun ⟨m, hm, haccepts⟩ =>
        ⟨m, (hseen q).mem hm, haccepts⟩
    · intro q slot u b m rest hq hb hsrc hm hu
      rcases eq_or_ne q msg.src with rfl | hne
      · exact halert.order msg.src slot u b m rest hq (hsame ▸ hb) hsrc hm hu
      · obtain ⟨b₀, rest₀, hb₀, hsub⟩ := (hseen q).insert hb fun heq => hne (heq ▸ hsrc.symm)
        exact (halert.order q slot u b₀ m rest₀ hq hb₀ hsrc hm hu).imp id
          fun ⟨m', hm', haccepts⟩ => ⟨m', hsub hm', haccepts⟩

section said

variable {heard : Fin n → Nat → Nat → Prop}

theorem Spoken.plain (h : o.Spoken s) (hsaid : Said (fun e => e.Plain me o.phased heard) s t)
    (hheard : o.phased → ∀ leader slot v, heard leader slot v → Opened o.hist leader slot v) :
    o.Spoken t := by
  obtain ⟨said, hsinks, hplain⟩ := hsaid
  refine h.grow hsinks (fun e he => ?_) (fun _ slot v he => (hplain _ he).elim)
    fun slot v fast _ _ he => (hplain _ he).elim
  exact (hplain e he).backed ((mem_log hsinks).2 (Or.inr ⟨rfl, he⟩))
    fun hphased leader slot v hv => (hheard hphased leader slot v hv).mono hist_subset

theorem Aware.plain (h : o.Aware s seen) (hsaid : Said (fun e => e.Plain me o.phased heard) s t)
    (hheard : o.phased → ∀ leader slot v, heard leader slot v → Opened o.hist leader slot v)
    (hslot : t.slot = s.slot) (hleft : s.slotLeftFastPath = true → t.slotLeftFastPath = true) :
    o.Aware t seen := by
  obtain ⟨said, hsinks, hplain⟩ := hsaid
  refine h.grow hsinks (fun e he => ?_) (fun slot v fast he => (hplain _ he).elim) hslot.ge
    fun _ => hleft
  exact (hplain e he).backed ((mem_log hsinks).2 (Or.inr ⟨rfl, he⟩))
    fun hphased leader slot v hv => (hheard hphased leader slot v hv).mono hist_subset

theorem Aware.told (h : o.Aware s seen) {v : Nat} {fast : Bool}
    (htold : Told me o.phased heard v fast s t)
    (hheard : o.phased → ∀ leader slot v, heard leader slot v → Opened o.hist leader slot v) :
    o.Spoken t := by
  obtain ⟨⟨said, hsinks, hevents⟩, hdecided, hfall⟩ := htold
  have hthis : ∀ {slot v' fast'}, .decided slot v' fast' ∈ said →
      slot = s.slot ∧ v' = v ∧ fast' = fast := fun he => (hevents _ he).elim False.elim id
  have hopened : o.phased → fast = false → Opened o.hist me s.slot v :=
    fun hphased hfast => hheard hphased me s.slot v (hfall hphased hfast)
  refine h.toSpoken.grow hsinks (fun e he => ?_) (fun hphased slot v' he => ?_) ?_
  · rcases hevents e he with hplain | hdecides
    · exact hplain.backed ((mem_log hsinks).2 (Or.inr ⟨rfl, he⟩))
        fun hphased leader slot v hv => (hheard hphased leader slot v hv).mono hist_subset
    · cases e with
      | broadcast packet priority =>
        obtain ⟨hsrc, hbare, u, hmsg, hsame⟩ := hdecides
        refine ⟨hsrc, ⟨fun _ leader slot v' hv => ?_, fun slot u' hm => ?_⟩, fun _ => hbare⟩
        · rw [hmsg] at hv
          exact hv.elim
        · cases hmsg.symm.trans hm
          exact ⟨v, fast, hsrc.symm ▸ mem_log_of_said hdecided, hsame⟩
      | decided slot v' fast' =>
        obtain ⟨rfl, rfl, rfl⟩ := hdecides
        exact fun hphased hfast => (hopened hphased hfast).mono hist_subset
      | _ => exact hdecides.elim
  · obtain ⟨rfl, rfl, hfast⟩ := hthis he
    exact hopened hphased hfast.symm
  · intro slot v' fast' v'' fast'' he he'
    obtain ⟨rfl, -, rfl⟩ := hthis he
    rcases (mem_log hsinks).1 he' with hold | ⟨-, hnew⟩
    · exact absurd (h.decided s.slot v'' fast'' hold) (lt_irrefl _)
    · exact (hthis hnew).2.2.symm

theorem Aware.voiced (h : o.Aware s seen) (hvoiced : Voiced me o.phased heard s t)
    (hheard : o.phased → ∀ leader slot v, heard leader slot v → Opened o.hist leader slot v) :
    o.Spoken t :=
  hvoiced.elim (fun hsaid => h.toSpoken.plain hsaid hheard) fun ⟨_, _, htold⟩ => h.told htold hheard

theorem Aware.decides (h : o.Aware s seen) {v : Nat} {fast : Bool}
    (htold : Told me o.phased heard v fast s t)
    (hheard : o.phased → ∀ leader slot v, heard leader slot v → Opened o.hist leader slot v)
    (hslot : t.slot = s.slot + 1) : o.Aware { t with slotLeftFastPath := false } seen := by
  have hspoken := h.told htold hheard
  obtain ⟨said, hsinks, hevents⟩ := htold.said
  refine ⟨⟨hspoken.backed, hspoken.opened, hspoken.once⟩, fun slot v' fast' he => ?_, h.grounded, ?_⟩
  · refine Nat.lt_of_lt_of_eq (Nat.lt_succ_of_le ?_) hslot.symm
    rcases (mem_log hsinks).1 he with hold | ⟨-, hnew⟩
    · exact (h.decided slot v' fast' hold).le
    · exact (hevents _ hnew).elim False.elim fun heq => heq.1.le
  · refine fun hphased hvoter => (h.alert hphased hvoter).forward (log_subset hsinks) ?_ ?_
    · exact hslot ▸ Nat.le_succ s.slot
    · exact fun heq => absurd (hslot.symm.trans heq) (Nat.succ_ne_self _)

end said

end Outlook

def Event.Hands (me : Fin n) (slot : Nat) (fast : Bool) : Event n → Prop
  | .handed write command => ∀ slot' u, write = some (slot', u) → slot' = slot ∧
      ∀ report, command.requester = me → command.report = some report → report.fast = fast
  | .readServed _ _ => True
  | _ => False

structure Handing (me : Fin n) (slot : Nat) (fast : Bool) (s t : ConsensusShard n R) : Prop where
  same : t.slot = s.slot
  left : t.slotLeftFastPath = s.slotLeftFastPath
  said : Said (Event.Hands me slot fast) s t

def HandsOver (me : Fin n) (slot : Nat) (fast : Bool) {α : Type} (m : Turn n R α) : Prop :=
  ∀ s, Meets m s (fun _ => Handing me slot fast s) (fun _ => Handing me slot fast s)

theorem Handing.refl {me : Fin n} {slot : Nat} {fast : Bool} {s : ConsensusShard n R} :
    Handing me slot fast s s := ⟨rfl, rfl, .refl⟩

theorem Handing.trans {me : Fin n} {slot : Nat} {fast : Bool} {s t u : ConsensusShard n R}
    (h : Handing me slot fast s t) (h' : Handing me slot fast t u) : Handing me slot fast s u :=
  ⟨h'.same.trans h.same, h'.left.trans h.left, h.said.trans h'.said⟩

namespace HandsOver

variable {me : Fin n} {slot : Nat} {fast : Bool} {α β : Type} {m : Turn n R α} {f : α → Turn n R β}

theorem bind (hm : HandsOver me slot fast m) (hf : ∀ a, HandsOver me slot fast (f a)) :
    HandsOver me slot fast (m >>= f) := by
  intro s
  rw [Lib.Turn.meets_bind]
  exact (hm s).mono (fun a t ht => (hf a t).mono (fun _ _ => ht.trans) fun _ _ => ht.trans)
    fun _ _ => id

theorem get {f : ConsensusShard n R → Turn n R β} (hf : ∀ s, HandsOver me slot fast (f s)) :
    HandsOver me slot fast (MonadState.get >>= f) := fun s => hf s s

theorem pure {a : α} : HandsOver me slot fast (Pure.pure a : Turn n R α) := fun _ => .refl

theorem throw {e : Panic} : HandsOver me slot fast (MonadExcept.throw e : Turn n R α) :=
  fun _ => .refl

theorem emit {e : Event n} (he : e.Hands me slot fast) :
    HandsOver me slot fast (Turn.emit e : Turn n R Unit) := fun _ =>
  ⟨rfl, rfl, [e], rfl, fun _ hm => List.mem_singleton.1 hm ▸ he⟩

theorem check {b : Bool} {e : Panic} : HandsOver me slot fast (Turn.check b e : Turn n R Unit) := by
  intro s
  rw [meets_check]
  exact ⟨fun _ => .refl, fun _ => .refl⟩

theorem commitWrite {v : Option Nat} {command : Command n} :
    HandsOver me slot fast (commitWrite me fast slot v command : Turn n R Unit) := by
  refine .bind check fun _ => emit fun slot' u hw => ⟨?_, fun report hme hreport => ?_⟩
  · obtain ⟨w, -, hw⟩ := Option.map_eq_some_iff.1 hw
    exact (Prod.mk.inj hw).1.symm
  · rw [stamp] at hme hreport
    split at hme
    · rw [if_pos ‹_›] at hreport
      exact Option.some.inj hreport ▸ rfl
    · exact absurd hme ‹_›

theorem removeCommand {v : Nat} :
    HandsOver me slot fast (removeCommand v : Turn n R (CommandBatch n)) := by
  refine .get fun s => ?_
  split
  · exact fun _ => ⟨rfl, rfl, .of_eq rfl⟩
  · exact .throw

theorem commitEach (vs : List Nat) :
    HandsOver me slot fast (commitEach me fast slot vs : Turn n R Unit) := by
  induction vs with
  | nil => exact .pure
  | cons v vs ih =>
    refine removeCommand.bind fun value => ?_
    cases value with
    | single command => exact commitWrite.bind fun _ => ih
    | batch slot' vs => exact .throw

theorem handReads (reads : List (Nat × Command n)) :
    HandsOver me slot fast (handReads reads : Turn n R Unit) := by
  induction reads with
  | nil => exact .pure
  | cons read reads ih => exact .bind (emit trivial) fun _ => .bind (emit nofun) fun _ => ih

theorem serveReads : HandsOver me slot fast (serveReads : Turn n R Unit) :=
  .get fun _ => .bind (fun _ => ⟨rfl, rfl, .of_eq rfl⟩) fun _ => handReads _

end HandsOver

theorem commitWrites_hands {me : Fin n} {algo : ConsensusShardTrait n R} {batch : CommandBatch n}
    {s : ConsensusShard n R} :
    Meets (commitWrites me algo batch) s
      (fun _ => Handing me (s.slot - 1) (algo.hasFastPath && !s.slotLeftFastPath)
        { s with slotLeftFastPath := false })
      (fun _ => Handing me (s.slot - 1) (algo.hasFastPath && !s.slotLeftFastPath)
        { s with slotLeftFastPath := false }) := by
  refine Meets.get ?_
  rw [Lib.Turn.meets_bind, Lib.Turn.meets_modify]
  cases batch with
  | single command => exact (HandsOver.commitWrite.bind fun _ => .serveReads) _
  | batch slot vs => exact ((HandsOver.commitEach vs).bind fun _ => .serveReads) _

namespace Outlook

variable {me : Fin n} {o : Outlook me} {s t : ConsensusShard n R}
  {seen : Fin n → List (ConsensusMessage n)} {slot : Nat} {fast : Bool}

theorem Aware.hands (h : o.Aware s seen) (ht : Handing me slot fast s t)
    (hfast : fast = true → Shown o.phased o.voter (o.log s) me slot → FastFor (o.log s) me slot) :
    o.Aware t seen := by
  obtain ⟨hslot, hleft, said, hsinks, hands⟩ := ht
  refine h.grow hsinks (fun e he => ?_) (fun _ _ _ he => (hands _ he).elim) hslot.ge
    fun _ => hleft.trans
  have he' := hands e he
  cases e with
  | handed write command =>
    intro slot' u waited hw hme hreport hshown
    obtain ⟨rfl, hreports⟩ := he' slot' u hw
    have htrue : fast = true := (hreports _ hme hreport).symm
    exact (hfast htrue (hshown.anti (log_subset hsinks))).mono (log_subset hsinks)
  | readServed id command => trivial
  | _ => exact he'.elim

end Outlook

end KCensus.Slots

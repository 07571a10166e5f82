import KCensus.Slots.Reporting
import KCensus.Slots.Wakeups

namespace KCensus.Slots

open Lib.Turn (Meets)
open Turn Conduct ConsensusShard Outlook

variable {n : Nat} {R : Type} {d : Deployment n R} {phased : Prop}
  {busy : ConsensusShard n R → Prop} {w w' : World n R} {p q : Fin n} {s t : ConsensusShard n R}

namespace World

def arriving (w : World n R) (p q : Fin n) : List (ConsensusMessage n) :=
  (w.links q p).map Packet.msg

structure Credible (d : Deployment n R) (phased : Prop) (w : World n R) : Prop where
  said : ∀ p e, (p, e) ∈ w.hist → e.Backed phased (d.cluster.isReplica p = true) w.hist p
  once : ∀ p slot v fast v' fast', (p, .decided slot v fast) ∈ w.hist →
    (p, .decided slot v' fast') ∈ w.hist → fast = fast'
  links : ∀ src p, ∀ packet ∈ w.links src p, packet.Backed phased w.hist src

def Credible.outlook (h : w.Credible d phased) (p : Fin n) : Outlook p where
  phased := phased
  voter := d.cluster.isReplica p = true
  hist := w.hist
  opened hphased q _ _ hv := h.said q _ hv hphased rfl

structure Honest (d : Deployment n R) (phased : Prop) (busy : ConsensusShard n R → Prop)
    (w : World n R) : Prop extends w.Credible d phased where
  minding : ∀ p, w.crashed p = none → (toCredible.outlook p).Minding busy (w.meet (pristine d p) p)
    fun q => (w.meet (pristine d p) p).queuedMessages ++ w.arriving p q

theorem Credible.init : (World.init : World n R).Credible d phased where
  said _ _ h := absurd h List.not_mem_nil
  once _ _ _ _ _ _ h := absurd h List.not_mem_nil
  links _ _ _ h := absurd h List.not_mem_nil

theorem Honest.init : (World.init : World n R).Honest d phased busy where
  toCredible := .init
  minding p _ := by
    refine ⟨⟨⟨fun _ he => absurd he List.not_mem_nil, fun _ _ _ he => absurd he List.not_mem_nil,
      fun _ _ _ _ _ he => absurd he List.not_mem_nil⟩, fun _ _ _ he => absurd he List.not_mem_nil,
      fun q m hm => absurd hm List.not_mem_nil, fun _ _ => ⟨?_, ?_⟩⟩, fun hl => nomatch hl⟩
    · rintro q slot v - ⟨packet, priority, hmem, -⟩
      exact absurd hmem List.not_mem_nil
    · intro q slot u b m rest _ _ _ _ hu
      exact absurd hu List.not_mem_nil

end World

theorem Packet.Backed.of_said {voter : Prop} {hist : List (Fin n × Event n)} {c : Cluster n}
    {e : Event n} (h : e.Backed phased voter hist p) {packet : Packet n}
    (hp : packet ∈ e.packetsTo c p q) : packet.Backed phased hist p := by
  have hreceived : ∀ {sent : Packet n}, sent.Backed phased hist p →
      sent.received.Backed phased hist p := fun hsent =>
    ⟨hsent.src, hsent.grounded, fun hcommit => congrArg (Option.map _) (hsent.bare hcommit)⟩
  cases e with
  | broadcast sent priority =>
    rw [Event.packetsTo] at hp
    split at hp
    · exact List.mem_singleton.1 hp ▸ hreceived h
    · cases hp
  | send sent target =>
    rw [Event.packetsTo] at hp
    split at hp
    · exact List.mem_singleton.1 hp ▸ hreceived h
    · cases hp
  | _ => cases hp

-- A replica gets all that others open.
theorem Cluster.broadcast_reaches {c : Cluster n} {packet : Packet n} {priority : Option (Fin n)}
    (hq : c.isReplica q = true) (hne : q ≠ p) :
    Event.packetsTo c p q (.broadcast packet priority) = [packet.received] := by
  rw [Event.packetsTo, hq, Bool.not_true, Bool.and_false]
  exact if_pos ⟨hne, Or.inr rfl⟩

namespace World

theorem Credible.extend (h : w.Credible d phased) {said : List (Event n)}
    (hhist : w'.hist = w.hist ++ said.map (Prod.mk p))
    (hspoken : ∃ s : ConsensusShard n R, s.sinks = said ∧ (h.outlook p).Spoken s)
    (hlinks : ∀ src dest, ∀ packet ∈ w'.links src dest, packet ∈ w.links src dest ∨
      src = p ∧ ∃ e ∈ said, packet ∈ e.packetsTo d.cluster p dest) : w'.Credible d phased := by
  obtain ⟨s, rfl, hspoken⟩ := hspoken
  have hsub : w.hist ⊆ w'.hist := hhist ▸ List.subset_append_left _ _
  have hsame : (h.outlook p).log s = w'.hist := hhist.symm
  have hmem : ∀ {q e}, (q, e) ∈ w'.hist → (q, e) ∈ w.hist ∨ q = p ∧ e ∈ s.sinks := by
    intro q e he
    rw [hhist] at he
    refine (List.mem_append.1 he).imp id fun hnew => ?_
    obtain ⟨e', he', heq⟩ := List.mem_map.1 hnew
    cases heq
    exact ⟨rfl, he'⟩
  refine ⟨fun q e he => ?_, fun q slot v fast v' fast' he he' => ?_, fun src dest packet hp => ?_⟩
  · rcases hmem he with hold | ⟨rfl, hnew⟩
    · exact (h.said q e hold).mono hsub
    · exact hsame ▸ hspoken.backed e hnew
  · rcases eq_or_ne q p with rfl | hne
    · exact hspoken.once slot v fast v' fast' (hsame.symm ▸ he) (hsame.symm ▸ he')
    · exact h.once q slot v fast v' fast' ((hmem he).resolve_right fun hp => hne hp.1)
        ((hmem he').resolve_right fun hp => hne hp.1)
  · rcases hlinks src dest packet hp with hold | ⟨rfl, e, he, hpacket⟩
    · exact (h.links src dest packet hold).mono hsub
    · exact .of_said (hsame ▸ hspoken.backed e he) hpacket

end World

-- A deployment whose algorithm keeps to what its messages promise.
structure Forthright (d : Deployment n R) (phased : Prop) (busy : ConsensusShard n R → Prop) :
    Prop where
  candid : ∀ p order,
    Candid p phased (d.cluster.isReplica p = true) busy (d.algorithm p order)

theorem Outlook.Noted.rebase {o o' : Outlook p} {slot : Nat} (h : o.Noted s slot)
    (hslot : t.slot = s.slot) (hleft : t.slotLeftFastPath = s.slotLeftFastPath)
    (hhist : o.log s ⊆ o'.hist) : o'.Noted t slot := by
  rw [Noted, hslot, hleft]
  exact h.imp id fun hnoted => hnoted.imp id fun hnoted => hnoted.imp id fun hmem =>
    hist_subset (hhist hmem)

namespace World

variable {seen seen' : Fin n → List (ConsensusMessage n)}

-- The process that has just spoken begins anew.
theorem Credible.refresh (hf : Forthright d phased busy) (h : w.Credible d phased)
    (h' : w'.Credible d phased) (hhist : w'.hist = (h.outlook p).log t)
    (hmind : (h.outlook p).Minding busy t seen) (hseen : ∀ q, q ≠ p → seen' q = seen q)
    (hground : ∀ q, ∀ m ∈ seen' q, Grounded phased w'.hist m) :
    (h'.outlook p).Minding busy { t with sinks := [] } seen' := by
  have hlog : (h'.outlook p).log { t with sinks := [] } = w'.hist := List.append_nil _
  have hlast : (h.outlook p).log t ⊆ w'.hist := hhist ▸ List.Subset.refl w'.hist
  have hold : ∀ {q e}, q ≠ p → (q, e) ∈ w'.hist → (q, e) ∈ w.hist := by
    intro q e hq he
    rw [hhist] at he
    refine (List.mem_append.1 he).resolve_right fun hnew => ?_
    obtain ⟨e', -, heq⟩ := List.mem_map.1 hnew
    cases heq
    exact hq rfl
  refine ⟨⟨⟨fun _ he => absurd he List.not_mem_nil, fun _ _ _ he => absurd he List.not_mem_nil, ?_⟩,
    ?_, hground, fun hphased hvoter => ?_⟩, fun hl => ?_⟩
  · rw [hlog]
    exact h'.once p
  · rw [hlog, hhist]
    exact hmind.decided
  · have halert := hmind.alert hphased hvoter
    constructor
    · rintro q slot v hq ⟨packet, priority, hmem, haccepts⟩
      refine (halert.await q slot v hq ⟨packet, priority, hold hq hmem, haccepts⟩).imp
        (·.rebase rfl rfl hlast) ?_
      rw [hseen q hq]
      exact id
    · intro q slot u b m rest hq hb hsrc hm hu
      rw [hseen q hq] at hb
      exact (halert.order q slot u b m rest hq hb hsrc hm (hold hq hu)).imp
        (·.rebase rfl rfl hlast) id
  · exact (hf.candid p .same).lasting (s := t) (fun _ hv => hv) rfl (hmind.busy hl)

theorem Credible.overhear (h : w.Credible d phased) (h' : w'.Credible d phased) (hne : q ≠ p)
    (hhist : w'.hist = (h.outlook p).log t) (hspoken : (h.outlook p).Spoken t)
    (hmind : (h.outlook q).Minding busy s seen) (hsinks : s.sinks = [])
    (hseen : ∀ q', q' ≠ p → seen' q' = seen q')
    (hnew : seen' p =
      seen p ++ (t.sinks.flatMap (Event.packetsTo d.cluster p q)).map Packet.msg)
    (hground : ∀ q', ∀ m ∈ seen' q', Grounded phased w'.hist m) :
    (h'.outlook q).Minding busy s seen' := by
  have hsub : w.hist ⊆ w'.hist := hhist ▸ List.subset_append_left _ _
  have hmem : ∀ {q' e}, (q', e) ∈ w'.hist → (q', e) ∈ w.hist ∨ q' = p ∧ e ∈ t.sinks := by
    intro q' e he
    rw [hhist] at he
    refine (List.mem_append.1 he).imp id fun hnew => ?_
    obtain ⟨e', he', heq⟩ := List.mem_map.1 hnew
    cases heq
    exact ⟨rfl, he'⟩
  have hlog : (h.outlook q).log s = w.hist := by
    rw [Outlook.log, hsinks]
    exact List.append_nil _
  have hlog' : (h'.outlook q).log s = w'.hist := by
    rw [Outlook.log, hsinks]
    exact List.append_nil _
  have hnoted : ∀ {slot}, (h.outlook q).Noted s slot → (h'.outlook q).Noted s slot :=
    fun hn => hn.rebase rfl rfl (hlog ▸ hsub)
  refine ⟨⟨⟨?_, ?_, ?_⟩, ?_, hground, fun hphased hvoter => ?_⟩, hmind.busy⟩
  · exact fun e he => absurd (hsinks ▸ he) List.not_mem_nil
  · exact fun _ _ _ he => absurd (hsinks ▸ he) List.not_mem_nil
  · rw [hlog']
    exact h'.once q
  · intro slot v fast he
    rw [hlog'] at he
    exact hmind.decided slot v fast (hlog ▸ (hmem he).resolve_right fun hp => hne hp.1)
  · have halert := hmind.alert hphased hvoter
    constructor
    · rintro q' slot v hq' ⟨packet, priority, hpacket, haccepts⟩
      rcases hmem hpacket with hold | ⟨rfl, hsaid⟩
      · refine (halert.await q' slot v hq' ⟨packet, priority, hold, haccepts⟩).imp hnoted ?_
        rintro ⟨m, hm, hmv⟩
        refine ⟨m, ?_, hmv⟩
        rcases eq_or_ne q' p with rfl | hq'p
        · exact hnew ▸ List.mem_append_left _ hm
        · exact hseen q' hq'p ▸ hm
      · refine Or.inr ⟨packet.msg, ?_, haccepts⟩
        rw [hnew]
        refine List.mem_append_right _ (List.mem_map.2 ⟨packet.received, ?_, rfl⟩)
        refine List.mem_flatMap.2 ⟨_, hsaid, ?_⟩
        rw [Cluster.broadcast_reaches hvoter hne]
        exact List.mem_singleton_self _
    · intro q' slot u b m rest hq' hb hsrc hm hu
      rcases eq_or_ne q' p with rfl | hq'p
      · have hopened : Opened w.hist q' slot u := (hmem hu).elim
          (h.said q' _ · hphased rfl) fun hsaid => hspoken.opened hphased slot u hsaid.2
        have hlate : seen q' ⊆ b → (h'.outlook q).Covered s b q' slot u := fun hsubset =>
          (halert.await q' slot u hq' hopened).imp hnoted
            (Exists.imp fun _ hm' => ⟨hsubset hm'.1, hm'.2⟩)
        rw [hnew] at hb
        rcases List.append_eq_append_iff.1 hb with ⟨mid, rfl, -⟩ | ⟨mid, hmid, hrest⟩
        · exact hlate (List.subset_append_left _ _)
        · cases mid with
          | nil => exact hlate (by rw [hmid, List.append_nil]; exact List.Subset.refl b)
          | cons m' mid =>
            obtain ⟨rfl, -⟩ := List.cons.inj hrest
            have hold := hmind.grounded q' m (hmid ▸ List.mem_append_right _ List.mem_cons_self)
            obtain ⟨v, fast, hdecided, hsame⟩ := hold.decided slot u hm
            rw [hsrc] at hdecided
            obtain rfl := h'.once q' slot v fast u false (hsub hdecided) hu
            obtain rfl := hsame hphased rfl
            exact (halert.order q' slot u b m mid hq' hmid hsrc hm hdecided).imp hnoted id
      · rw [hseen q' hq'p] at hb
        have hu' := (hmem hu).resolve_right fun hp => hq'p hp.1
        exact (halert.order q' slot u b m rest hq' hb hsrc hm hu').imp hnoted id

theorem meet_congr (h : w'.places p = w.places p) : w'.meet s p = w.meet s p := by
  rw [World.meet, World.meet, h]

theorem Credible.grounded (h : w.Credible d phased) {m : ConsensusMessage n}
    (hm : m ∈ w.arriving p q) : Grounded phased w.hist m := by
  obtain ⟨packet, hp, rfl⟩ := List.mem_map.1 hm
  exact (h.links q p packet hp).grounded

theorem Credible.settle (hf : Forthright d phased busy) (h : w.Credible d phased) {α : Type}
    {m : Turn n R α} (hsinks : ∀ q, (w.meet (pristine d q) q).sinks = [])
    (hothers : ∀ q, q ≠ p → w.crashed q = none →
      (h.outlook q).Minding busy (w.meet (pristine d q) q)
        fun q' => (w.meet (pristine d q) q).queuedMessages ++ w.arriving q q')
    (hm : Meets m s (fun _ t => (h.outlook p).Minding busy t
      fun q => t.queuedMessages ++ w.arriving p q) fun _ => (h.outlook p).Spoken) :
    (w.settle d p (m s)).Honest d phased busy := by
  rw [Meets] at hm
  generalize m s = r at hm ⊢
  have hspoken : (h.outlook p).Spoken (Lib.Turn.state r) := by
    cases r with
    | ok a t => exact hm.toSpoken
    | error e t => exact hm
  set w' := w.settle d p r with hw'
  have hlinks : ∀ dest, w'.links p dest = w.links p dest ++
      (Lib.Turn.state r).sinks.flatMap (Event.packetsTo d.cluster p dest) := fun dest => by
    simp only [hw', World.settle, Function.update_self]
  have hlinks' : ∀ src, src ≠ p → ∀ dest, w'.links src dest = w.links src dest :=
    fun src hsrc dest => by simp only [hw', World.settle, Function.update_of_ne hsrc]
  have hsub : w.hist ⊆ w'.hist := List.subset_append_left _ _
  have h' : w'.Credible d phased := by
    refine h.extend rfl ⟨Lib.Turn.state r, rfl, hspoken⟩ ?_
    intro src dest packet hp
    rcases eq_or_ne src p with rfl | hne
    · rw [hlinks] at hp
      exact (List.mem_append.1 hp).imp id fun hnew => ⟨rfl, List.mem_flatMap.1 hnew⟩
    · exact Or.inl (hlinks' src hne dest ▸ hp)
  refine ⟨h', fun q hcrash => ?_⟩
  rcases eq_or_ne q p with rfl | hne
  · have hfail : failure r = none := (Function.update_self q _ _).symm.trans hcrash
    cases r with
    | error e t => cases hfail
    | ok a t =>
      have hmind : (h.outlook q).Minding busy t fun q' => t.queuedMessages ++ w.arriving q q' := hm
      have hmeet : w'.meet (pristine d q) q = { t with sinks := [] } := by
        simp only [World.meet, hw', World.settle, Function.update_self, Lib.Turn.state]
      rw [hmeet]
      refine h.refresh hf h' rfl hmind (fun q' hq' => ?_) fun q' m hm => ?_
      · exact congrArg (t.queuedMessages ++ List.map Packet.msg ·) (hlinks' q' hq' q)
      · rcases List.mem_append.1 hm with hqueue | hlink
        · exact (hmind.grounded q' m (List.mem_append_left _ hqueue)).mono hsub
        · exact h'.grounded hlink
  · have hplace : w'.places q = w.places q := Function.update_of_ne hne ..
    have hmind := hothers q hne ((Function.update_of_ne hne ..).symm.trans hcrash)
    rw [meet_congr hplace]
    refine h.overhear h' hne rfl hspoken hmind (hsinks q) (fun q' hq' => ?_) ?_ fun q' m hm => ?_
    · rw [arriving, arriving, hlinks' q' hq' q]
    · rw [arriving, arriving, hlinks, List.map_append, List.append_assoc]
    · rcases List.mem_append.1 hm with hqueue | hlink
      · exact (hmind.grounded q' m (List.mem_append_left _ hqueue)).mono hsub
      · exact h'.grounded hlink

theorem Credible.popLink (h : w.Credible d phased) (src p : Fin n) :
    (w.popLink src p).Credible d phased := by
  refine ⟨h.said, h.once, fun src' dest packet hp => h.links src' dest packet ?_⟩
  simp only [World.popLink] at hp
  rcases eq_or_ne src' src with rfl | hne
  · simp only [Function.update_self] at hp
    rcases eq_or_ne dest p with rfl | hne
    · rw [Function.update_self] at hp
      exact List.mem_of_mem_tail hp
    · rwa [Function.update_of_ne hne] at hp
  · rwa [Function.update_of_ne hne] at hp

theorem arriving_popLink {src : Fin n} (hne : q ≠ p) {q' : Fin n} :
    (w.popLink src p).arriving q q' = w.arriving q q' := by
  simp only [World.arriving, World.popLink]
  rcases eq_or_ne q' src with rfl | hsrc
  · rw [Function.update_self, Function.update_of_ne hne]
  · rw [Function.update_of_ne hsrc]

theorem arriving_popLink_ne {src q' : Fin n} (hne : q' ≠ src) :
    (w.popLink src p).arriving p q' = w.arriving p q' := by
  simp only [World.arriving, World.popLink, Function.update_of_ne hne]

theorem arriving_popLink_self {src : Fin n} {packet : Packet n} {rest : List (Packet n)}
    (hlink : w.links src p = packet :: rest) :
    w.arriving p src = packet.msg :: (w.popLink src p).arriving p src := by
  simp only [World.arriving, World.popLink, Function.update_self, hlink, List.map_cons,
    List.tail_cons]

variable [NeZero n] {mentions : (Nat → Prop) → (Nat → Prop) → R → Prop}
  {committer : Nat → Option (Fin n)} {named : Prop}

omit [NeZero n] in
theorem Honest.meet (h : w.Honest d phased busy) (hcrash : w.crashed p = none)
    (hempty : Empty mentions s) :
    (h.outlook p).Minding busy (w.meet s p)
      fun q => (w.meet s p).queuedMessages ++ w.arriving p q := by
  have hmind := h.minding p hcrash
  rw [World.meet] at hmind ⊢
  cases hplace : w.places p with
  | awake shard =>
    simp only [hplace] at hmind
    exact hmind
  | asleep state =>
    simp only [hplace] at hmind
    have hqueue : (wakeUp state s).queuedMessages = (wakeUp state (pristine d p)).queuedMessages :=
      hempty.messages
    dsimp only
    rw [hqueue]
    exact ⟨hmind.toAware.congr hempty.sinks rfl rfl, fun hl => (by cases hl)⟩

-- A process that sleeps lets a message go that comes too late for it.
omit [NeZero n] in
theorem Honest.skip (hf : Forthright d phased busy) (h : w.Honest d phased busy)
    {packet : Packet n} {rest : List (Packet n)} (hcrash : w.crashed p = none)
    (hsinks : ∀ q, (w.meet (pristine d q) q).sinks = [])
    (hlink : w.links packet.msg.src p = packet :: rest)
    (hnoop : (w.places p).isNoop packet = true) :
    ((w.popLink packet.msg.src p).note p (.received packet.msg.src packet)).Honest d phased busy := by
  set w₁ := w.popLink packet.msg.src p with hw₁
  have h₁ : w₁.Credible d phased := h.toCredible.popLink packet.msg.src p
  cases hplace : w.places p with
  | awake shard =>
    rw [hplace] at hnoop
    cases hnoop
  | asleep state =>
    rw [hplace, Place.isNoop, SleepingShard.isNoop, Bool.and_eq_true, Bool.or_eq_true,
      Option.any_eq_true] at hnoop
    set s : ConsensusShard n R := wakeUp state (pristine d p) with hs
    have hmeet : w₁.meet (pristine d p) p = s := by
      rw [World.meet, show w₁.places p = .asleep state from hplace]
    have hmind : (h₁.outlook p).Minding busy s fun q => s.queuedMessages ++ w.arriving p q := by
      have := h.minding p hcrash
      rwa [show w.meet (pristine d p) p = s from hmeet] at this
    have hlate : ∀ q slot v, packet.msg.msg.Accepts q slot v → slot < s.slot := by
      intro q slot v haccepts
      rcases hnoop.2 with hresponse | ⟨slot', hslot, hlow⟩
      · rw [ConsensusMessage.isReadResponse] at hresponse
        split at hresponse
        · rename_i hmsg
          rw [hmsg] at haccepts
          exact haccepts.elim
        · cases hresponse
      · cases haccepts.names.1.symm.trans hslot
        exact of_decide_eq_true hlow
    have hpopped : (h₁.outlook p).Minding busy s fun q => s.queuedMessages ++ w₁.arriving p q := by
      refine ⟨hmind.toAware.handled (fun q => ?_) fun _ _ q slot v _ hv => Or.inl (hlate q slot v hv),
        hmind.busy⟩
      rcases eq_or_ne q packet.msg.src with rfl | hne
      · exact Or.inr ⟨s.queuedMessages, _, congrArg _ (arriving_popLink_self hlink), rfl⟩
      · exact Or.inl (congrArg _ (arriving_popLink_ne hne).symm)
    set t : ConsensusShard n R := { s with sinks := [.received packet.msg.src packet] } with ht
    have hmindt : (h₁.outlook p).Minding busy t fun q => s.queuedMessages ++ w₁.arriving p q := by
      refine (hf.candid p .same).still hpopped
        ⟨(hf.candid p .same).steady (o := h₁.outlook p) rfl rfl (fun _ hv => hv) rfl,
          [.received packet.msg.src packet], rfl, fun e he => ?_⟩
      exact List.mem_singleton.1 he ▸ trivial
    have h' : (w₁.note p (.received packet.msg.src packet)).Credible d phased :=
      h₁.extend rfl ⟨t, rfl, hmindt.toSpoken⟩ fun _ _ _ hp => Or.inl hp
    have hground : ∀ {q q' : Fin n} {s' : ConsensusShard n R}, (h₁.outlook q).Minding busy s'
        (fun q' => s'.queuedMessages ++ w₁.arriving q q') →
        ∀ m ∈ s'.queuedMessages ++ w₁.arriving q q', Grounded phased
          (w₁.note p (.received packet.msg.src packet)).hist m := fun hm m hmem =>
      (hm.grounded _ m hmem).mono (List.subset_append_left _ _)
    refine ⟨h', fun q hc => ?_⟩
    rcases eq_or_ne q p with rfl | hne
    · rw [show World.meet (pristine d q) q (w₁.note q (.received packet.msg.src packet)) =
        { t with sinks := [] } from hmeet]
      exact h₁.refresh hf h' rfl hmindt (fun _ _ => rfl) fun q' => hground hpopped
    · have hother : (h₁.outlook q).Minding busy (w₁.meet (pristine d q) q)
          fun q' => (w₁.meet (pristine d q) q).queuedMessages ++ w₁.arriving q q' := by
        simp only [hw₁, arriving_popLink hne]
        exact h.minding q hc
      refine h₁.overhear h' hne rfl hmindt.toSpoken hother (hsinks q) (fun _ _ => rfl) ?_
        fun q' => hground hother
      exact (List.append_nil _).symm

theorem Honest.step (hf : Forthright d phased busy) (hd : Regular d mentions committer named)
    (hs : Sound hd w) (hcalm : w.Calm) (h : w.Honest d phased busy) {l : Label n}
    (hempty : Empty mentions s) (hstep : w.step d s l = some w') : w'.Honest d phased busy := by
  have hfresh : ∀ q, Empty mentions (pristine d q) :=
    fun q => ⟨rfl, rfl, rfl, rfl, fun K held => hd.fresh q K held⟩
  have hsinks : ∀ q, (w.meet (pristine d q) q).sinks = [] := fun q => (hs.meet (hfresh q)).2.1
  cases l with
  | submit p command order =>
    rw [World.step] at hstep
    split at hstep
    · rename_i hcrash
      cases hstep
      refine h.toCredible.settle hf hsinks (fun q _ => h.minding q) ?_
      exact (hf.candid p order).onCommand_minds (x := (hd.watch w p).supply True)
        (o := h.outlook p) (Regular.supplied hd order p w True) (hs.meet hempty).1.supply
        (h.meet hcrash hempty)
    · cases hstep
  | receive src p order =>
    rw [World.step] at hstep
    split at hstep
    · cases hstep
    · rename_i packet rest hlink
      split at hstep
      · rename_i hcrash
        have hbacked := h.links src p packet (hlink ▸ List.mem_cons_self)
        obtain rfl := hbacked.src
        have hothers : ∀ q, q ≠ p → w.crashed q = none →
            ((h.toCredible.popLink packet.msg.src p).outlook q).Minding busy
              (w.meet (pristine d q) q) fun q' => (w.meet (pristine d q) q).queuedMessages ++
                (w.popLink packet.msg.src p).arriving q q' := fun q hne hc => by
          simp only [arriving_popLink hne]
          exact h.minding q hc
        dsimp only at hstep
        split at hstep
        · rename_i hnoop
          cases hstep
          exact h.skip hf hcrash hsinks hlink hnoop
        · cases hstep
          have hs' := hs.popLink packet.msg.src p
          refine (h.toCredible.popLink packet.msg.src p).settle hf hsinks hothers ?_
          exact (hf.candid p order).onPacket_minds
            (x := hd.watch (w.popLink packet.msg.src p) p)
            (o := (h.toCredible.popLink packet.msg.src p).outlook p)
            (Regular.supplied hd order p _) (hs'.meet hempty).1 (hcalm.meet hcrash hempty)
            (hs'.tells hempty (hs.links _ p packet (hlink ▸ List.mem_cons_self))) hbacked.bare
            (arriving_popLink_self hlink) (fun q hq => (arriving_popLink_ne hq).symm) (h.meet hcrash hempty)
      · cases hstep
  | sleep p =>
    rw [World.step] at hstep
    split at hstep
    · cases hstep
    · rename_i shard hplace
      split at hstep
      · rename_i hcrash
        cases hstep
        refine ⟨⟨h.said, h.once, h.links⟩, fun q hc => ?_⟩
        rcases eq_or_ne q p with rfl | hne
        · have hmind := h.minding q hc
          simp only [World.meet, hplace] at hmind
          have hqueue : shard.queuedMessages = [] := by
            have := hcrash.2
            simp only [Deployment.canSleep, canSleep, Bool.and_eq_true, List.isEmpty_iff] at this
            exact this.1.1.2
          have hleft : shard.slotLeftFastPath = false := by
            refine Bool.eq_false_of_not_eq_true fun hl => ?_
            have hbusy := (hf.candid q .same).restless (hmind.busy hl)
            cases hbusy.symm.trans hcrash.2
          have hmeet : World.meet (pristine d q) q { w with
              places := Function.update w.places q (.asleep shard.fallAsleep) } =
              wakeUp shard.fallAsleep (pristine d q) := by
            simp only [World.meet, Function.update_self]
          rw [hmeet]
          rw [hqueue] at hmind
          refine ⟨hmind.toAware.congr ?_ rfl hleft.symm, fun hl => (by cases hl)⟩
          exact (hs.awake q shard hplace).2.symm
        · have hsame : World.meet (pristine d q) q { w with
              places := Function.update w.places p (.asleep shard.fallAsleep) } =
              w.meet (pristine d q) q := meet_congr (Function.update_of_ne hne _ _)
          rw [hsame]
          exact h.minding q hc
      · cases hstep

end World

end KCensus.Slots

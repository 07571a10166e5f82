import KCensus.Slots.Accounts
import KCensus.Slots.FastReports
import KCensus.Slots.PaxosFamily.Frugal
import Mathlib.Data.List.Perm.Subperm

namespace KCensus.Slots

open Lib (journal)
open Lib.Turn (Meets)
open Turn Conduct ConsensusShard

variable {n : Nat} {R : Type}

section counting

variable {hist : List (Fin n × Event n)} {c : Cluster n} {p q src : Fin n} {v : Nat}

def Packet.payloadUid (packet : Packet n) : Option Nat := packet.value.bind fun _ => packet.msg.getV

theorem sentTo_sublist
    (hunsent : ∀ packet dest, (src, .send packet dest) ∈ hist → packet.value = none) :
    ((sentTo c src p hist).filterMap Packet.payloadUid).Sublist (journal Event.dispatch src hist) := by
  induction hist with
  | nil => exact .slnil
  | cons x hist ih =>
    obtain ⟨q, e⟩ := x
    have hrest := ih fun packet dest he => hunsent packet dest (List.mem_cons_of_mem _ he)
    have hsent : sentTo c src p ((q, e) :: hist) =
        (if q = src then e.packetsTo c src p else []) ++ sentTo c src p hist := rfl
    have hdispatch : journal Event.dispatch src ((q, e) :: hist) =
        (if q = src then e.dispatch.toList else []) ++ journal Event.dispatch src hist := by
      rw [← List.singleton_append, Lib.journal_append]
      refine congrArg (· ++ _) ?_
      split
      · rename_i heq
        subst heq
        exact (Lib.journal_snoc : journal Event.dispatch q ([] ++ [(q, e)]) = _)
      · rename_i hne
        exact (Lib.journal_snoc_other hne : journal Event.dispatch src ([] ++ [(q, e)]) = _)
    rw [hsent, hdispatch, List.filterMap_append]
    refine List.Sublist.append ?_ hrest
    split
    · rename_i heq
      subst heq
      cases e with
      | broadcast packet priority =>
        rw [Event.packetsTo]
        split
        · have huid : packet.received.payloadUid = packet.payloadUid := Option.bind_map
          rw [List.filterMap_cons, huid]
          exact List.Sublist.refl _
        · exact List.nil_sublist _
      | send packet dest =>
        rw [Event.packetsTo]
        split
        · have hnone : packet.received.payloadUid = none := by
            rw [Packet.payloadUid, Packet.received, hunsent packet dest List.mem_cons_self]
            rfl
          rw [List.filterMap_cons, hnone]
          exact List.nil_sublist _
        · exact List.nil_sublist _
      | _ => exact List.nil_sublist _
    · exact List.Sublist.slnil

theorem takenFrom_journal : (takenFrom src p hist).filterMap Packet.payloadUid =
    journal (fun e => e.receipt.bind fun r => if r.1 = src then r.2.payloadUid else none) p hist := by
  rw [takenFrom, receiptsFrom, List.filterMap_filterMap, List.filterMap_filterMap]
  refine List.filterMap_congr fun x _ => ?_
  dsimp only
  split
  · cases x.2.receipt with
    | none => rfl
    | some r =>
      rw [Option.bind_some, Option.bind_some]
      split
      · rfl
      · rfl
  · rfl

end counting

theorem request_of_received {command asked : Command n}
    (h : (CommandBatch.single command).received = (CommandBatch.single asked).received) :
    command.request = asked.request := by
  injection h with h
  injection h with hrequester hshard hcommand hread
  rw [Command.request, Command.request, hrequester, hshard, hcommand, hread]

theorem Genuine.issued {hist : List (Fin n × Event n)} {v : Nat} {command : Command n}
    (h : Genuine hist v (.single command)) :
    ∃ q value, (q, .created v value) ∈ hist ∧ (v, command.request) ∈ journal Event.issue q hist := by
  obtain ⟨q, created, hcreated, hsame⟩ := h
  cases created with
  | batch slot vs => cases hsame
  | single asked =>
    have hissue : Event.issue (.created v (.single asked)) = some (v, command.request) :=
      congrArg (fun r => some (v, r)) (request_of_received hsame).symm
    exact ⟨q, _, hcreated, Lib.mem_journal.2 ⟨_, hcreated, hissue⟩⟩

variable [NeZero n]

theorem Accounts.arriving {hist : List (Fin n × Event n)} (h : Accounts hist) {c : Cluster n}
    {q p : Fin n} {e : Event n} {packet : Packet n} (he : (q, e) ∈ hist)
    (hp : packet ∈ e.packetsTo c q p) {value : CommandBatch n} (hvalue : packet.value = some value) :
    p ≠ q ∧ ∃ v, packet.msg.getV = some v ∧ uidOwner v = q ∧ Genuine hist v value := by
  cases e with
  | broadcast sent priority =>
    rw [Event.packetsTo] at hp
    split at hp
    · rename_i hcond
      cases List.mem_singleton.1 hp
      obtain ⟨value', hsent, rfl⟩ := Option.map_eq_some_iff.1 hvalue
      obtain ⟨v, hv, hcreated⟩ := h.sent q sent priority he value' hsent
      have hagain : value'.received.received = value'.received := by
        cases value' with
        | single command => rfl
        | batch slot vs => rfl
      exact ⟨hcond.1, v, hv, (h.owner q v value' hcreated).1, q, value', hcreated, hagain⟩
    · cases hp
  | send sent target =>
    rw [Event.packetsTo] at hp
    split at hp
    · cases List.mem_singleton.1 hp
      rw [Packet.received, h.unsent q sent target he] at hvalue
      cases hvalue
    · cases hp
  | _ => cases hp

namespace World

variable {d : Deployment n R} {mentions : (Nat → Prop) → (Nat → Prop) → R → Prop}
  {committer : Nat → Option (Fin n)} {named : Prop} {w : World n R} {p q : Fin n} {v : Nat}

theorem books_lasting (hfrugal : ∀ p order, Frugal p (d.algorithm p order))
    (hr : Regular d mentions committer named) : Lasting d books Accounts where
  upheld past p order := books_upheld d.cluster order (hfrugal p order)
  ended h := h
  start := .nil
  fresh p := by
    have hempty : ∀ v, v ∉ (wakeUp (SleepingShard.new p) (pristine d p)).queuedCommands := fun v hv =>
      AList.notMem_empty v hv
    refine ⟨.nil, .first, fun v hv => absurd hv List.not_mem_nil, fun v => ?_, fun v value hv => ?_, rfl,
      rfl, fun entry he => absurd he List.not_mem_nil⟩
    · rw [held, if_neg (hempty v)]
      exact le_rfl
    · exact absurd (Lib.HashMap.mem_of_lookup hv) (hempty v)
  flush h := h.flush
  others hne haccounts hsinks h := h.others hne hsinks haccounts
  heard _ _ _ := trivial
  arrive {past p q s e packet} h he hp := by
    have hnone : ∀ {t : ConsensusShard n R}, packet.value = none →
        t = { s with sinks := s.sinks ++ [.received packet.msg.src packet] } → Books past p [] [] t := by
      rintro t hvalue rfl
      refine Books.mute h rfl rfl rfl h.reads ⟨[_], rfl, fun e he => List.mem_singleton.1 he ▸
        ⟨rfl, rfl, rfl, ?_, rfl, fun _ _ he => (by cases he), fun _ _ he => (by cases he)⟩⟩
      rw [Event.gain, hvalue]
      rfl
    rw [Upkeep.Keeps, Lib.Turn.meets_bind, emit, Lib.Turn.meets_modify, storeValue]
    split
    · exact hnone ‹_› rfl
    · rename_i value hvalue
      have hbooks : Books past p [] [] s := h
      obtain ⟨-, v, hv, -, hgenuine⟩ := hbooks.accounts.arriving (List.mem_append_left _ he) hp hvalue
      rw [hv]
      change Books past p [] [] _
      dsimp only
      split
      · exact hbooks.gained hv hvalue hgenuine (Or.inl rfl) rfl rfl rfl rfl
      · exact hbooks.gained hv hvalue hgenuine (Or.inr rfl) rfl rfl rfl rfl
  drop h hvalue := Books.mute h rfl rfl rfl h.reads ⟨[_], rfl, fun e he => List.mem_singleton.1 he ▸
    ⟨rfl, rfl, rfl, by rw [Event.gain, hvalue]; rfl, rfl, fun _ _ he => (by cases he),
      fun _ _ he => (by cases he)⟩⟩
  wake {past p state spare other} ho hs h := by
    have hempty := (ho.sound hr).spare hs
    refine Books.same h hempty.sinks (fun v value hv => ?_) rfl hs.mine fun entry he => ?_
    · change spare.queuedCommands.lookup v = some value at hv
      rw [hempty.commands] at hv
      cases hv
    · change entry ∈ spare.readTracker.readCommands at he
      rw [hempty.reads] at he
      exact absurd he List.not_mem_nil
  doze {past p s w} hw hc hplace hsleep h := by
    refine Books.same h ((hw.sound hr).awake p s hplace).2.symm (fun v value hv => ?_) rfl rfl
      fun entry he => absurd he List.not_mem_nil
    cases hv

theorem Reachable.accounts (hfrugal : ∀ p order, Frugal p (d.algorithm p order))
    (hr : Regular d mentions committer named) (h : Reachable d w) : Accounts w.hist :=
  (h.lasts (books_lasting hfrugal hr) hr).base

theorem Reachable.gained_once (hfrugal : ∀ p order, Frugal p (d.algorithm p order))
    (hr : Regular d mentions committer named) (h : Reachable d w) :
    (journal Event.gain p w.hist).count v ≤ 1 := by
  have haccounts := h.accounts hfrugal hr
  have hdelivers := h.delivers hfrugal hr
  have hcreated : ∀ q, (createdBy q w.hist).count v ≤ 1 := fun q =>
    List.nodup_iff_count_le_one.1 (haccounts.lone q) v
  have hfirst : ∀ src, takenFrom src p w.hist <+: sentTo d.cluster src p w.hist := fun src =>
    ⟨w.links src p, hdelivers.fifo src p⟩
  have hreceived : ∀ src packet, (p, .received src packet) ∈ w.hist → packet.payloadUid = some v →
      p ≠ src ∧ uidOwner v = src := by
    intro src packet he hv
    have htaken : packet ∈ takenFrom src p w.hist :=
      List.mem_filterMap.2 ⟨(src, packet), List.mem_filterMap.2 ⟨_, he, if_pos rfl⟩, if_pos rfl⟩
    obtain ⟨x, hx, hpacket⟩ := List.mem_flatMap.1 ((hfirst src).subset htaken)
    split at hpacket
    · rename_i hsrc
      obtain ⟨value, hvalue, hgetV⟩ := Option.bind_eq_some_iff.1 hv
      obtain ⟨hne, v', hv', howner, -⟩ := haccounts.arriving (q := src) (hsrc ▸ hx) hpacket hvalue
      cases hv'.symm.trans hgetV
      exact ⟨hne, howner⟩
    · cases hpacket
  rcases eq_or_ne (uidOwner v) p with rfl | hne
  · refine (Lib.journal_count_le fun e he hv => ?_).trans (hcreated (uidOwner v))
    cases e with
    | created u value => exact hv
    | received src packet => exact absurd (hreceived src packet he hv).2 (hreceived src packet he hv).1
    | _ => cases hv
  · calc (journal Event.gain p w.hist).count v
        ≤ ((takenFrom (uidOwner v) p w.hist).filterMap Packet.payloadUid).count v := by
          rw [takenFrom_journal]
          refine Lib.journal_count_le fun e he hv => ?_
          cases e with
          | created u value =>
            cases hv
            exact absurd (haccounts.owner p v value he).1 hne
          | received src packet =>
            exact (if_pos (hreceived src packet he hv).2.symm).trans hv
          | _ => cases hv
      _ ≤ ((sentTo d.cluster (uidOwner v) p w.hist).filterMap Packet.payloadUid).count v :=
          ((hfirst (uidOwner v)).sublist.filterMap _).count_le v
      _ ≤ (journal Event.dispatch (uidOwner v) w.hist).count v :=
          (sentTo_sublist fun packet dest => haccounts.unsent _ packet dest).count_le v
      _ ≤ (createdBy (uidOwner v) w.hist).count v := haccounts.paid _ v
      _ ≤ 1 := hcreated _

theorem Reachable.handed_nodup (hfrugal : ∀ p order, Frugal p (d.algorithm p order))
    (hr : Regular d mentions committer named) (h : Reachable d w) : (handedAt p w.hist).Nodup :=
  List.nodup_iff_count_le_one.2 fun v =>
    ((h.accounts hfrugal hr).stock p v).trans (h.gained_once hfrugal hr)

end World

-- No process hands a write over twice.
theorem writes_handed_once (f : PaxosFamily n) {w : World n (PaxosFamilyRoundState n)}
    (h : World.Reachable f.deployment w) (p : Fin n) : (handedAt p w.hist).Nodup :=
  h.handed_nodup (fun _ _ => PaxosFamily.Hushes.frugal) (SlotAlgorithm.paxosFamily f).regular

-- The write of 1, which lost the first slot, gets the second one.
def ePaxosFour.twoSlots : List (Label 4) :=
  fallback ++ [receive 1 0, receive 0 1, receive 1 0, receive 0 1]

theorem writes_handed_once_ePaxosFour : ∃ w, World.Reachable ePaxosFour.deployment w ∧
    handedAt 1 w.hist = [6, 2] ∧ (handedAt 1 w.hist).Nodup := by
  have hrun : (World.init.follow ePaxosFour.deployment ePaxosFour.twoSlots).any (fun w =>
      decide (handedAt 1 w.hist = [6, 2])) = true := by decide +kernel
  obtain ⟨w, hw, hchecks⟩ := (Option.any_eq_true _ _).1 hrun
  have h : World.Reachable ePaxosFour.deployment w := .follow (fun _ => rfl) .init hw
  exact ⟨w, h, of_decide_eq_true hchecks, writes_handed_once ePaxosFour h 1⟩

-- What a process hands over of the owner of a uid is among what that one was given to submit.
theorem writes_as_submitted (f : PaxosFamily n) {w : World n (PaxosFamilyRoundState n)}
    (h : World.Reachable f.deployment w) (p q : Fin n) :
    (((journal Event.delivery p w.hist).filter fun d => uidOwner d.2.1 = q).map fun d => d.2.2).Subperm
      (journal Event.submission q w.hist) := by
  have hfrugal : ∀ p order, Frugal p (f.deployment.algorithm p order) := fun _ _ =>
    PaxosFamily.Hushes.frugal
  have hr := (SlotAlgorithm.paxosFamily f).regular
  have haccounts := h.accounts hfrugal hr
  set writes := (journal Event.delivery p w.hist).filter fun d => uidOwner d.2.1 = q
  have hnodup : (writes.map Prod.snd).Nodup := by
    have honce : (handedAt p w.hist).Nodup := h.handed_nodup hfrugal hr
    rw [handedAt_eq] at honce
    have huids : ((writes.map Prod.snd).map Prod.fst).Nodup := by
      rw [List.map_map]
      exact (List.filter_sublist.map _).nodup honce
    exact huids.of_map Prod.fst
  have hsub : writes.map Prod.snd ⊆ journal Event.issue q w.hist := by
    intro x hx
    obtain ⟨d, hd, rfl⟩ := List.mem_map.1 hx
    obtain ⟨hd, howner⟩ := List.mem_filter.1 hd
    obtain ⟨e, he, hdelivery⟩ := Lib.mem_journal.1 hd
    rw [decide_eq_true_eq] at howner
    cases e with
    | handed write command =>
      cases write with
      | none => cases hdelivery
      | some write =>
        cases hdelivery
        obtain ⟨q', value, hcreated, hissue⟩ := (haccounts.handed p _ _ command he).issued
        cases (haccounts.owner q' _ value hcreated).1.symm.trans howner
        exact hissue
    | _ => cases hdelivery
  have hissued : ((journal Event.issue q w.hist).map Prod.snd).Sublist
      (journal Event.submission q w.hist) := (haccounts.issued q).sublist
  have hrequests : writes.map (fun d => d.2.2) = (writes.map Prod.snd).map Prod.snd := by
    rw [List.map_map]
    rfl
  obtain ⟨chosen, hperm, hchosen⟩ := List.subperm_of_subset hnodup hsub
  rw [hrequests]
  exact ⟨chosen.map Prod.snd, hperm.map Prod.snd, (hchosen.map Prod.snd).trans hissued⟩

-- Both of 1 and of the client hand the client's write over, and 1 has its own to come.
theorem writes_as_submitted_ePaxosFour : ∃ w, World.Reachable ePaxosFour.deployment w ∧
    (journal Event.delivery 1 w.hist).map Prod.fst = [0] ∧
    (((journal Event.delivery 1 w.hist).filter fun d => uidOwner d.2.1 = (3 : Fin 4)).map
      fun d => d.2.2).Subperm
      (journal Event.submission 3 w.hist) := by
  have hrun : (World.init.follow ePaxosFour.deployment ePaxosFour.fallback).any (fun w =>
      decide ((journal Event.delivery 1 w.hist).map Prod.fst = [0])) = true := by
    decide +kernel
  obtain ⟨w, hw, hchecks⟩ := (Option.any_eq_true _ _).1 hrun
  have h : World.Reachable ePaxosFour.deployment w := .follow (fun _ => rfl) .init hw
  exact ⟨w, h, of_decide_eq_true hchecks, writes_as_submitted ePaxosFour h 1 3⟩

end KCensus.Slots

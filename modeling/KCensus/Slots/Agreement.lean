import KCensus.Slots.Lasting
import KCensus.Slots.PaxosFamily.Proposing
import KCensus.Slots.Sleeping

namespace KCensus.Slots

open Lib.Turn (Meets)
open Turn ConsensusShard

variable {n : Nat} [NeZero n]

namespace World

variable {R : Type} {d : Deployment n R} {w : World n R}

omit [NeZero n] in
theorem Reachable.serving (h : Reachable d w) :
    ∃ labels, Serving d (fun _ _ _ => True) labels w := by
  induction h with
  | init => exact ⟨[], .init⟩
  | step hw ho hs hstep ih iho =>
    obtain ⟨labels, hserving⟩ := ih
    obtain ⟨others, hothers⟩ := iho
    exact ⟨_, hserving.step hothers hs hstep trivial⟩

end World

namespace PaxosFamily

variable {f : PaxosFamily n} {past : List (Fin n × Event n)} {me p q : Fin n}
  {s : PaxosFamilyShard n} {w : World n (PaxosFamilyRoundState n)}

theorem tidy (hswift : f.mode.isSwift = false) (h : World.Reachable f.deployment w) :
    w.Tidy f.deployment fun p => f.rest p := by
  obtain ⟨labels, hserving⟩ := h.serving
  refine hserving.tidy (SlotAlgorithm.paxosFamily f).accustomed (SlotAlgorithm.paxosFamily f).regular
    fun w l w' _ hdrifts => ?_
  have hfollows : (f.mode.isSwift && !f.replica l.pid) = true := hdrifts.1
  rw [hswift, Bool.false_and] at hfollows
  cases hfollows

namespace Standing

theorem flush (h : f.Standing past me s) :
    f.Standing (soFar past me s) me { s with sinks := [] } := by
  have hlog : soFar (soFar past me s) me { s with sinks := [] } = soFar past me s := soFar_flushed rfl
  refine ⟨⟨?_, fun slot hslot => ?_, fun m hm => (h.messages m hm).log⟩, ?_⟩
  · rw [hlog]
    exact h.recorded
  · rw [hlog]
    exact h.later slot hslot
  · rw [hlog]
    exact h.fits

theorem others (h : f.Standing past q s) (hne : q ≠ p) (hsinks : s.sinks = []) {said : List (Event n)}
    (hrecorded : f.Recorded (past ++ said.map (Prod.mk p))) :
    f.Standing (past ++ said.map (Prod.mk p)) q s := by
  have hown : ∀ e, (q, e) ∈ past ++ said.map (Prod.mk p) → (q, e) ∈ past := fun e he => by
    refine (List.mem_append.1 he).resolve_right fun hnew => ?_
    obtain ⟨e', -, heq⟩ := List.mem_map.1 hnew
    cases heq
    exact hne rfl
  have hpromised : ∀ slot r rv, (ledger (past ++ said.map (Prod.mk p)) slot).promised q r rv →
      (ledger past slot).promised q r rv := fun slot r rv hp => by
    obtain ⟨e, he, hprepares⟩ := hp
    exact ⟨e, hown e he, hprepares⟩
  have hgrows : ∀ slot, (ledger past slot).Grows (ledger (past ++ said.map (Prod.mk p)) slot) :=
    fun slot => ledger_mono (List.subset_append_left _ _)
  obtain ⟨⟨-, hlater, hmessages⟩, hfits⟩ := h
  rw [soFar_flushed hsinks] at hlater hfits
  refine ⟨⟨?_, fun slot hslot => ?_, fun m hm => (hmessages m hm).mono hgrows⟩, ?_⟩
  · rwa [soFar_flushed hsinks]
  · rw [soFar_flushed hsinks]
    have hblank := hlater slot hslot
    exact ⟨fun r v hv => hblank.voted r v (hown _ hv),
      fun r rv hp => hblank.promised r rv (hpromised slot r rv hp),
      fun v hs => hblank.settled v (hown _ hs)⟩
  · rw [soFar_flushed hsinks]
    exact hfits.grows (hgrows s.slot) (fun b v => hown _) (hpromised s.slot) fun v => hown _

end Standing

theorem lasting (hswift : f.mode.isSwift = false) :
    Lasting f.deployment f.upkeep f.Recorded where
  upheld past p order := upheld hswift
  ended h := h
  start := .nil
  fresh p := by
    have hblank : ∀ slot, (ledger ([] : List (Fin n × Event n)) slot).Blank p := fun slot => by
      refine ⟨fun r v hv => absurd hv List.not_mem_nil, ?_, fun v hs => absurd hs List.not_mem_nil⟩
      rintro r rv ⟨e, he, -⟩
      exact absurd he List.not_mem_nil
    exact ⟨⟨.nil, fun slot _ => hblank slot, fun m hm => absurd hm List.not_mem_nil⟩,
      .fresh (hblank 0) (.new ⊥)⟩
  flush := Standing.flush
  others hne hrecorded hsinks h := h.others hne hsinks hrecorded
  heard hrecorded he hp := (hrecorded.vouched _ _ _ he (Event.carried_of_packetsTo hp)).2
  arrive {past p q s e packet} h _ _ := by
    have hidles : Lib.Turn.Along (Idles p) (do
        emit (.received packet.msg.src packet)
        storeValue packet) s :=
      .bind (Idles.emit trivial) fun _ _ _ => Idles.storeValue
    exact hidles.mono (fun _ _ ht => h.idles ht) fun _ _ ht => (h.idles ht).recorded
  drop h _ := h.idles ⟨rfl, rfl, rfl, [_], rfl, fun e he => List.mem_singleton.1 he ▸ trivial⟩
  wake {past p state spare other} ho hs h := by
    have hsame : wakeUp state spare = wakeUp state (World.pristine f.deployment p) :=
      (tidy hswift ho).spare (SlotAlgorithm.paxosFamily f).accustomed hs state
    rwa [hsame]
  doze {past p s w} hw hc hplace hsleep h := by
    obtain ⟨htidy, hsinks⟩ := (tidy hswift hw).awake p s hplace hc
    have haccustomed := (SlotAlgorithm.paxosFamily f).accustomed
    have hslept : s = wakeUp s.fallAsleep (World.pristine f.deployment p) :=
      htidy.slept (haccustomed.habitual p .same) hsinks hsleep (haccustomed.quorum p)
    rwa [← hslept]

theorem recorded (hswift : f.mode.isSwift = false) (h : World.Reachable f.deployment w) :
    f.Recorded w.hist :=
  (h.lasts (lasting hswift) (SlotAlgorithm.paxosFamily f).regular).base

theorem Recorded.agreement {hist : List (Fin n × Event n)} (h : f.Recorded hist) {slot v v' : Nat}
    (hp : (p, .committed slot v) ∈ hist) (hq : (q, .committed slot v') ∈ hist) : v = v' :=
  (h.fair slot).agreement (h.committed p slot v hp) (h.committed q slot v' hq)

theorem Recorded.announced {hist : List (Fin n × Event n)} (h : f.Recorded hist) {slot v v' : Nat}
    {e : Event n} {m : ConsensusMessage n} (hp : (p, .committed slot v) ∈ hist) (he : (q, e) ∈ hist)
    (hm : e.carried = some m) (hcommit : m.msg = .commit slot v') : v = v' := by
  have hvouched := (h.vouched q e m he hm).2
  rw [Vouched, hcommit] at hvouched
  exact (h.fair slot).agreement (h.committed p slot v hp) hvouched

end PaxosFamily

-- No two processes commit different uids in one slot.
theorem slot_agreement (f : PaxosFamily n) (hswift : f.mode.isSwift = false)
    {w : World n (PaxosFamilyRoundState n)} (h : World.Reachable f.deployment w) {p q : Fin n}
    {slot v v' : Nat} (hp : (p, .committed slot v) ∈ w.hist) (hq : (q, .committed slot v') ∈ w.hist) :
    v = v' :=
  (PaxosFamily.recorded hswift h).agreement hp hq

-- Of two proposals the one of the client is adopted; the client learns of it by the Commit of 1.
theorem slot_agreement_ePaxosFour : ∃ w v v', World.Reachable ePaxosFour.deployment w ∧
    (1, .committed 0 v) ∈ w.hist ∧ (3, .committed 0 v') ∈ w.hist ∧ v = v' := by
  have hrun : (World.init.follow ePaxosFour.deployment ePaxosFour.fallback).any (fun w =>
      decide ((1, .committed 0 6) ∈ w.hist) && decide ((3, .committed 0 6) ∈ w.hist)) = true := by
    decide +kernel
  obtain ⟨w, hw, hchecks⟩ := (Option.any_eq_true _ _).1 hrun
  rw [Bool.and_eq_true, decide_eq_true_eq, decide_eq_true_eq] at hchecks
  have h : World.Reachable ePaxosFour.deployment w := .follow (fun _ => rfl) .init hw
  exact ⟨w, 6, 6, h, hchecks.1, hchecks.2, slot_agreement ePaxosFour rfl h hchecks.1 hchecks.2⟩

end KCensus.Slots

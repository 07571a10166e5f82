import KCensus.Delay.Delayer
import Mathlib.Data.List.Forall2

namespace KCensus.Delay

variable {n : Nat} {C A : Type}

def MsgWithSource.isFrom (src : Fin n) (msg : MsgWithSource n C A) : Bool :=
  msg.msg.isConsensusMsg && decide (msg.src = src)

theorem MsgWithSource.isFrom_iff {src : Fin n} {msg : MsgWithSource n C A} :
    msg.isFrom src ↔ msg.msg.isConsensusMsg ∧ msg.src = src := by
  simp [isFrom]

theorem MsgWithSource.isFrom_of_ne {src other : Fin n} {msg : MsgWithSource n C A}
    (h : msg.isFrom src) (ho : other ≠ src) : msg.isFrom other = false := by
  rw [isFrom_iff] at h
  simp [isFrom, h.2, ho.symm]

structure Arrival (n : Nat) (C A : Type) where
  msg : MsgWithSource n C A
  due : Nat

def arrival (setup : Setup n) (now : Nat) : Event n C A → List (Arrival n C A)
  | .next msg jitter =>
      [⟨msg, now + jitter (setup.topology.linkLatency msg.src setup.myPid / setup.speedup)⟩]
  | _ => []

def arrivals (setup : Setup n) (now : Nat) : List (Nat × Event n C A) → List (Arrival n C A)
  | [] => []
  | (elapsed, event) :: events =>
      arrival setup (now + elapsed) event ++ arrivals setup (now + elapsed) events

def arrivalsFrom (src : Fin n) (arrived : List (Arrival n C A)) : List (Arrival n C A) :=
  arrived.filter (·.msg.isFrom src)

theorem arrivalsFrom_concat (src : Fin n) (arrived : List (Arrival n C A)) (a : Arrival n C A) :
    arrivalsFrom src (arrived ++ [a]) =
      arrivalsFrom src arrived ++ if a.msg.isFrom src then [a] else [] := by
  simp [arrivalsFrom, List.filter_append, List.filter_cons]

namespace Delayer

def forwardedFrom (d : Delayer n C A) (src : Fin n) : List (Forwarded n C A) :=
  d.forwarded.filter (·.msg.isFrom src)

-- What was accepted from `src`, in order: first what was forwarded, then what still waits.
def accepted (d : Delayer n C A) (src : Fin n) : List (MsgWithSource n C A × Option Nat) :=
  (d.forwardedFrom src).map (fun f => (f.msg, f.deadline)) ++
    (d.queues src).map fun m => (m.msg, some m.deadline)

def deadlines (d : Delayer n C A) (src : Fin n) : List Nat := (d.accepted src).filterMap (·.2)

@[simp] theorem queues_setQueue_self (d : Delayer n C A) (src : Fin n) (queue) :
    (d.setQueue src queue).queues src = queue := by
  simp [setQueue]

theorem queues_setQueue_of_ne (d : Delayer n C A) {src other : Fin n} (h : other ≠ src) (queue) :
    (d.setQueue src queue).queues other = d.queues other := by
  simp [setQueue, h]

theorem deadlines_eq (d : Delayer n C A) (src : Fin n) : d.deadlines src =
    (d.forwardedFrom src).filterMap (·.deadline) ++ (d.queues src).map (·.deadline) := by
  simp [deadlines, accepted, List.filterMap_map]

theorem accepted_setQueue_of_ne (d : Delayer n C A) {src other : Fin n} (h : other ≠ src) (queue) :
    (d.setQueue src queue).accepted other = d.accepted other := by
  simp only [accepted, queues_setQueue_of_ne d h]
  rfl

theorem send_present {d : Delayer n C A} (h : d.receiver = true) (msg : MsgWithSource n C A)
    (deadline : Option Nat) :
    d.send msg deadline = { d with forwarded := d.forwarded ++ [⟨msg, deadline, d.now⟩] } := by
  simp [send, h]

theorem accepted_send {d : Delayer n C A} (h : d.receiver = true) (msg : MsgWithSource n C A)
    (deadline : Option Nat) (src : Fin n) :
    (d.send msg deadline).accepted src =
      (d.forwardedFrom src).map (fun f => (f.msg, f.deadline)) ++
        ((if msg.isFrom src then [(msg, deadline)] else []) ++
          (d.queues src).map fun m => (m.msg, some m.deadline)) := by
  rw [send_present h]
  cases hm : msg.isFrom src <;>
    simp [accepted, forwardedFrom, List.filter_append, hm]

theorem accepted_send_other {d : Delayer n C A} (h : d.receiver = true) {msg : MsgWithSource n C A}
    {src : Fin n} (hm : msg.isFrom src = false) (deadline : Option Nat) :
    (d.send msg deadline).accepted src = d.accepted src := by
  rw [accepted_send h, hm]
  rfl

theorem isEmpty_iff {d : Delayer n C A} (h : d.consumerGone = false) :
    d.isEmpty ↔ ∀ src, d.queues src = [] := by
  simp [isEmpty, optDeadline, h, List.min?_eq_none_iff]

end Delayer

-- How an accepted message answers to its arrival.
def OnTime (setup : Setup n) (arrival : Arrival n C A) (taken : MsgWithSource n C A × Option Nat) :
    Prop :=
  taken.1 = arrival.msg ∧
    if setup.simulateDelays then ∃ deadline, taken.2 = some deadline ∧ arrival.due ≤ deadline
    else taken.2 = none

structure Served (setup : Setup n) (arrived : List (Arrival n C A)) (now : Nat)
    (d : Delayer n C A) : Prop where
  receiver : d.receiver = true
  present : d.consumerGone = false
  clock : d.now = now
  queued : ∀ src, ∀ m ∈ d.queues src, m.msg.isFrom src
  undelayed : setup.simulateDelays = false → ∀ src, d.queues src = []
  order : ∀ src, List.Forall₂ (OnTime setup) (arrivalsFrom src arrived) (d.accepted src)
  past : ∀ f ∈ d.forwarded, f.time ≤ now
  late : ∀ f ∈ d.forwarded, ∀ deadline ∈ f.deadline, deadline < f.time
  sorted : ∀ src, (d.deadlines src).Pairwise (· ≤ ·)

namespace Served

variable {setup : Setup n} {arrived : List (Arrival n C A)} {now : Nat} {d : Delayer n C A}

theorem new (setup : Setup n) : Served setup [] 0 (Delayer.new : Delayer n C A) where
  receiver := rfl
  present := rfl
  clock := rfl
  queued := by simp [Delayer.new]
  undelayed := fun _ _ => rfl
  order := fun _ => .nil
  past := by simp [Delayer.new]
  late := by simp [Delayer.new]
  sorted := fun _ => .nil

theorem wait (h : Served setup arrived now d) (elapsed : Nat) :
    Served setup arrived (now + elapsed) { d with now := d.now + elapsed } where
  receiver := h.receiver
  present := h.present
  clock := by simp [h.clock]
  queued := h.queued
  undelayed := h.undelayed
  order := h.order
  past := fun f hf => (h.past f hf).trans (Nat.le_add_right ..)
  late := h.late
  sorted := h.sorted

theorem arrive_other (h : Served setup arrived now d) {a : Arrival n C A}
    (ha : a.msg.msg.isConsensusMsg = false) : Served setup (arrived ++ [a]) now d where
  __ := h
  order := by
    intro src
    rw [arrivalsFrom_concat, if_neg (by simp [MsgWithSource.isFrom, ha]), List.append_nil]
    exact h.order src

theorem send (h : Served setup arrived now d) {queues : Fin n → List (MsgWithDeadline n C A)}
    (hq : ∀ src, queues src ⊆ d.queues src) {msg : MsgWithSource n C A} {deadline : Option Nat}
    (hd : ∀ deadline' ∈ deadline, deadline' < now) {arrived' : List (Arrival n C A)}
    (order : ∀ src, List.Forall₂ (OnTime setup) (arrivalsFrom src arrived')
      ((Delayer.send { d with queues } msg deadline).accepted src))
    (sorted : ∀ src, ((Delayer.send { d with queues } msg deadline).deadlines src).Pairwise (· ≤ ·)) :
    Served setup arrived' now (Delayer.send { d with queues } msg deadline) := by
  have heq := Delayer.send_present (d := { d with queues }) h.receiver msg deadline
  have hmem : ∀ f ∈ (Delayer.send { d with queues } msg deadline).forwarded,
      f ∈ d.forwarded ∨ f = ⟨msg, deadline, d.now⟩ := by
    rw [heq]
    simp
  exact {
    receiver := by rw [heq]; exact h.receiver
    present := by rw [heq]; exact h.present
    clock := by rw [heq]; exact h.clock
    queued := by
      rw [heq]
      exact fun src m hm => h.queued src m (hq src hm)
    undelayed := by
      rw [heq]
      exact fun hs src => List.subset_nil.mp (h.undelayed hs src ▸ hq src)
    order := order
    past := by
      intro f hf
      rcases hmem f hf with hf | rfl
      · exact h.past f hf
      · exact h.clock.le
    late := by
      intro f hf
      rcases hmem f hf with hf | rfl
      · exact h.late f hf
      · exact h.clock ▸ hd
    sorted := sorted }

theorem send_other (h : Served setup arrived now d) {msg : MsgWithSource n C A}
    (hm : msg.msg.isConsensusMsg = false) : Served setup arrived now (d.send msg none) := by
  have hacc (src : Fin n) : (d.send msg none).accepted src = d.accepted src :=
    Delayer.accepted_send_other h.receiver (by simp [MsgWithSource.isFrom, hm]) none
  apply h.send (fun _ => List.Subset.refl _) (by simp)
  · intro src
    rw [hacc]
    exact h.order src
  · intro src
    rw [Delayer.deadlines, hacc]
    exact h.sorted src

theorem send_undelayed (h : Served setup arrived now d) (hs : setup.simulateDelays = false)
    (a : Arrival n C A) : Served setup (arrived ++ [a]) now (d.send a.msg none) := by
  have hacc (src : Fin n) : (d.send a.msg none).accepted src =
      d.accepted src ++ if a.msg.isFrom src then [(a.msg, none)] else [] := by
    rw [Delayer.accepted_send h.receiver, Delayer.accepted, h.undelayed hs src]
    simp
  apply h.send (fun _ => List.Subset.refl _) (by simp)
  · intro src
    rw [hacc, arrivalsFrom_concat]
    apply List.rel_append (h.order src)
    cases hm : a.msg.isFrom src with
    | false => exact .nil
    | true => exact .cons ⟨rfl, by simp [hs]⟩ .nil
  · intro src
    have hnone : (if a.msg.isFrom src then [(a.msg, (none : Option Nat))] else []).filterMap (·.2) =
        [] := by
      split <;> rfl
    rw [Delayer.deadlines, hacc, List.filterMap_append, hnone, List.append_nil]
    exact h.sorted src

theorem pop (h : Served setup arrived now d) {src : Fin n} {m : MsgWithDeadline n C A}
    {queue : List (MsgWithDeadline n C A)} (hq : d.queues src = m :: queue)
    (hm : m.deadline < now) :
    Served setup arrived now ((d.setQueue src queue).send m.msg (some m.deadline)) := by
  have hfrom : m.msg.isFrom src := h.queued src m (by simp [hq])
  have hr : (d.setQueue src queue).receiver = true := h.receiver
  have hacc (other : Fin n) :
      ((d.setQueue src queue).send m.msg (some m.deadline)).accepted other = d.accepted other := by
    by_cases ho : other = src
    · subst ho
      rw [Delayer.accepted_send hr, if_pos hfrom, Delayer.accepted, hq]
      simp [Delayer.forwardedFrom, Delayer.setQueue]
    · rw [Delayer.accepted_send_other hr (MsgWithSource.isFrom_of_ne hfrom ho),
        Delayer.accepted_setQueue_of_ne d ho]
  apply h.send
  · intro other
    by_cases ho : other = src
    · subst ho
      simp [hq]
    · simp [ho]
  · simpa using hm
  · intro other
    change List.Forall₂ _ _ (((d.setQueue src queue).send m.msg (some m.deadline)).accepted other)
    rw [hacc]
    exact h.order other
  · intro other
    change ((((d.setQueue src queue).send m.msg (some m.deadline)).accepted other).filterMap
      (·.2)).Pairwise (· ≤ ·)
    rw [hacc]
    exact h.sorted other

theorem le_of_forwarded (h : Served setup arrived now d) {src : Fin n} {deadline : Nat}
    (hd : deadline ∈ (d.forwardedFrom src).filterMap (·.deadline)) : deadline ≤ now := by
  obtain ⟨f, hf, hd⟩ := List.mem_filterMap.mp hd
  have hf : f ∈ d.forwarded := List.mem_of_mem_filter hf
  exact (h.late f hf deadline hd).le.trans (h.past f hf)

-- A new deadline is not before any earlier one of its source.
theorem enqueue_eq (h : Served setup arrived now d) (msg : MsgWithSource n C A)
    (jitter : Nat → Nat) :
    ∃ deadline, d.enqueue setup msg jitter =
        d.setQueue msg.src (d.queues msg.src ++ [⟨msg, deadline⟩]) ∧
      now + jitter (setup.topology.linkLatency msg.src setup.myPid / setup.speedup) ≤ deadline ∧
      ∀ earlier ∈ d.deadlines msg.src, earlier ≤ deadline := by
  refine ⟨_, rfl, ?_, ?_⟩
  · rw [h.clock]
    split
    · exact Nat.le_max_left ..
    · exact Nat.le_refl _
  · intro earlier he
    have hs := h.sorted msg.src
    rw [Delayer.deadlines_eq] at he hs
    cases hl : (d.queues msg.src).getLast? with
    | none =>
      rw [List.getLast?_eq_none_iff.mp hl, List.map_nil, List.append_nil] at he
      rw [h.clock]
      exact (h.le_of_forwarded he).trans (Nat.le_add_right ..)
    | some last =>
      obtain ⟨queue, hqueue⟩ := List.getLast?_eq_some_iff.mp hl
      rw [hqueue, List.map_append, ← List.append_assoc] at he hs
      have hlast : earlier ≤ last.deadline := by
        rcases List.mem_append.mp he with he | he
        · exact (List.pairwise_append.mp hs).2.2 earlier he last.deadline (by simp)
        · exact (List.mem_singleton.mp he).le
      exact hlast.trans (Nat.le_max_right ..)

theorem enqueue (h : Served setup arrived now d) (hs : setup.simulateDelays = true)
    {msg : MsgWithSource n C A} (hm : msg.msg.isConsensusMsg) (jitter : Nat → Nat) :
    Served setup
      (arrived ++ [⟨msg, now + jitter (setup.topology.linkLatency msg.src setup.myPid / setup.speedup)⟩])
      now (d.enqueue setup msg jitter) := by
  obtain ⟨deadline, heq, hdue, hlast⟩ := h.enqueue_eq msg jitter
  have hfrom : msg.isFrom msg.src := by simp [MsgWithSource.isFrom, hm]
  rw [heq]
  have hself : (d.setQueue msg.src (d.queues msg.src ++ [⟨msg, deadline⟩])).accepted msg.src =
      d.accepted msg.src ++ [(msg, some deadline)] := by
    simp [Delayer.accepted, Delayer.forwardedFrom, Delayer.setQueue]
  exact {
    receiver := h.receiver
    present := h.present
    clock := h.clock
    queued := by
      intro src m hm
      by_cases hsrc : src = msg.src
      · subst hsrc
        rw [Delayer.queues_setQueue_self] at hm
        rcases List.mem_append.mp hm with hm | hm
        · exact h.queued _ m hm
        · obtain rfl := List.mem_singleton.mp hm
          exact hfrom
      · rw [Delayer.queues_setQueue_of_ne d hsrc] at hm
        exact h.queued src m hm
    undelayed := fun hs' => absurd (hs.symm.trans hs') (by decide)
    order := by
      intro src
      rw [arrivalsFrom_concat]
      by_cases hsrc : src = msg.src
      · subst hsrc
        rw [hself, if_pos hfrom]
        exact List.rel_append (h.order _) (.cons ⟨rfl, by simp [hs, hdue]⟩ .nil)
      · rw [Delayer.accepted_setQueue_of_ne d hsrc, MsgWithSource.isFrom_of_ne hfrom hsrc]
        simpa using h.order src
    past := h.past
    late := h.late
    sorted := by
      intro src
      by_cases hsrc : src = msg.src
      · subst hsrc
        rw [Delayer.deadlines, hself, List.filterMap_append]
        apply List.pairwise_append.mpr
        exact ⟨h.sorted _, List.pairwise_singleton .., by simpa [Delayer.deadlines] using hlast⟩
      · rw [Delayer.deadlines, Delayer.accepted_setQueue_of_ne d hsrc]
        exact h.sorted src }

theorem releaseFrom (src : Fin n) {queue : List (MsgWithDeadline n C A)}
    (h : Served setup arrived now d) (hq : d.queues src = queue) :
    Served setup arrived now (d.releaseFrom src queue).1 ∧ (d.releaseFrom src queue).2 = false := by
  induction queue generalizing d with
  | nil => exact ⟨h, rfl⟩
  | cons m queue ih =>
    rw [Delayer.releaseFrom]
    split
    case isTrue hm =>
      have hp := h.pop hq (h.clock ▸ hm)
      have hrest : ((d.setQueue src queue).send m.msg (some m.deadline)).queues src = queue := by
        rw [Delayer.send_present (d := d.setQueue src queue) h.receiver]
        exact d.queues_setQueue_self src queue
      rw [if_neg (by simp [hp.present])]
      exact ih hp hrest
    case isFalse => exact ⟨h, rfl⟩

theorem release {srcs : List (Fin n)} (h : Served setup arrived now d) :
    Served setup arrived now (d.release srcs) := by
  induction srcs generalizing d with
  | nil => exact h
  | cons src srcs ih =>
    obtain ⟨hr, hb⟩ := h.releaseFrom src rfl
    rw [Delayer.release]
    split
    case h_1 d' heq => simp [heq] at hb
    case h_2 d' heq =>
      rw [heq] at hr
      exact ih hr

theorem handle (h : Served setup arrived now d) {event : Event n C A} {d' : Delayer n C A}
    (hpresent : event ≠ .receiverDropped) (hd : d.handle setup event = some d') :
    Served setup (arrived ++ arrival setup now event) now d' := by
  cases event with
  | next msg jitter =>
    simp only [Delayer.handle, h.present, Option.ite_none_left_eq_some, Bool.false_eq_true,
      if_false] at hd
    replace hd := hd.2
    split at hd
    case isTrue hm =>
      obtain rfl := Option.some_inj.mp hd
      have hm : msg.msg.isConsensusMsg = false := by simpa using hm
      exact (h.arrive_other hm).send_other hm
    case isFalse hm =>
      split at hd <;> obtain rfl := Option.some_inj.mp hd
      case isTrue hs => exact h.enqueue hs (by simpa using hm) jitter
      case isFalse hs => exact h.send_undelayed (by simpa using hs) _
  | streamEnd =>
    simp only [Delayer.handle, Option.ite_none_left_eq_some] at hd
    obtain rfl := Option.some_inj.mp hd.2
    simp only [arrival, List.append_nil]
    exact { h with }
  | timer =>
    simp only [Delayer.handle, Option.ite_none_left_eq_some] at hd
    obtain rfl := Option.some_inj.mp hd.2
    simp only [arrival, List.append_nil]
    exact h.release
  | closed => simp [Delayer.handle, h.receiver] at hd
  | receiverDropped => exact absurd rfl hpresent

theorem run {events : List (Nat × Event n C A)} {d' : Delayer n C A}
    (h : Served setup arrived now d) (hpresent : ∀ event ∈ events, event.2 ≠ .receiverDropped)
    (hd : events.foldlM (Delayer.step setup) d = some d') :
    ∃ now', Served setup (arrived ++ arrivals setup now events) now' d' := by
  induction events generalizing arrived now d with
  | nil =>
    obtain rfl := Option.some_inj.mp hd
    exact ⟨now, by simpa [arrivals] using h⟩
  | cons event events ih =>
    obtain ⟨elapsed, event⟩ := event
    rw [List.foldlM_cons, Option.bind_eq_bind, Option.bind_eq_some_iff] at hd
    obtain ⟨d₁, hstep, hrest⟩ := hd
    have h₁ := (h.wait elapsed).handle (hpresent _ (by simp)) hstep
    have := ih h₁ (fun event he => hpresent event (by simp [he])) hrest
    rwa [List.append_assoc] at this

theorem queues_of_ended (h : Served setup arrived now d) (hd : d.ended) (src : Fin n) :
    d.queues src = [] := by
  rw [Delayer.ended, Bool.and_eq_true] at hd
  exact (Delayer.isEmpty_iff h.present).mp hd.1 src

theorem msgs_eq (h : Served setup arrived now d) (src : Fin n) :
    (d.forwardedFrom src).map (·.msg) ++ (d.queues src).map (·.msg) =
      (arrivalsFrom src arrived).map (·.msg) := by
  have hmap : (d.accepted src).map (·.1) = (arrivalsFrom src arrived).map (·.msg) := by
    apply Eq.symm
    rw [← List.forall₂_eq_eq_eq, List.forall₂_map_left_iff, List.forall₂_map_right_iff]
    exact (h.order src).imp fun _ _ ht => ht.1.symm
  simpa [Delayer.accepted, Function.comp_def] using hmap

end Served

-- While the consumer is there: each source in order and exactly once, nothing before its deadline,
-- deadlines in order, and nothing left behind.
theorem fifo_per_source (setup : Setup n) {events : List (Nat × Event n C A)}
    (hpresent : ∀ event ∈ events, event.2 ≠ .receiverDropped) {d : Delayer n C A}
    (hd : Delayer.run setup events = some d) :
    (∀ src, (d.forwardedFrom src).map (·.msg) ++ (d.queues src).map (·.msg) =
      (arrivalsFrom src (arrivals setup 0 events)).map (·.msg)) ∧
    (∀ src, List.Forall₂ (OnTime setup) (arrivalsFrom src (arrivals setup 0 events))
      (d.accepted src)) ∧
    (∀ f ∈ d.forwarded, ∀ deadline ∈ f.deadline, deadline < f.time) ∧
    (∀ src, (d.deadlines src).Pairwise (· ≤ ·)) ∧
    (d.ended → ∀ src, d.queues src = []) := by
  obtain ⟨now, h⟩ := (Served.new setup).run hpresent hd
  rw [List.nil_append] at h
  exact ⟨h.msgs_eq, h.order, h.late, h.sorted, h.queues_of_ended⟩

def nearbyLink : Setup 2 where
  topology := ⟨{0, 1}, {0, 1}, fun _ _ => 4, by decide⟩
  speedup := 2
  speedup_pos := by decide
  myPid := 1
  simulateDelays := true

-- The second message has the shorter latency and is kept back for the first.
def overtaking : List (Nat × Event 2 Nat Unit) :=
  [(1, .next ⟨.consensusM 7, 0⟩ (· * 5)), (1, .next ⟨.hello 0, 0⟩ id),
    (1, .next ⟨.consensusM 8, 0⟩ id), (1, .streamEnd), (9, .timer)]

theorem fifo_per_source_overtaking :
    ∃ d, Delayer.run nearbyLink overtaking = some d ∧ d.ended ∧
      (d.forwardedFrom 0).map (fun f => (f.deadline, f.time)) = [(some 11, 13), (some 11, 13)] ∧
      (d.forwardedFrom 0).map (·.msg) ++ (d.queues 0).map (·.msg) =
        (arrivalsFrom 0 (arrivals nearbyLink 0 overtaking)).map (·.msg) :=
  ⟨_, rfl, by decide, by decide, (fifo_per_source nearbyLink (by simp [overtaking]) rfl).1 0⟩

end KCensus.Delay

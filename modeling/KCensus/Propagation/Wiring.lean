import KCensus.Propagation.Building
import Mathlib.Logic.Relation

namespace KCensus.Propagation

open Lib (Timeline first? last?)

variable {n : Nat}

namespace Draft

variable (draft : Draft n)

def Has (node : Fin n) (time : Nat) : Prop := time ∈ (draft.states node).times

def state (node : Fin n) (time : Nat) : KnowledgeState n := (draft.states node).value time

def posted (msg : MessageId n) (valueOnly : Bool) : Draft n where
  messageTimes :=
    Function.update draft.messageTimes msg.src
      (Function.update (draft.messageTimes msg.src) msg.dest
        (insert msg.time (draft.messageTimes msg.src msg.dest)))
  shouldIncludeValue :=
    if valueOnly then insert msg draft.shouldIncludeValue else draft.shouldIncludeValue
  states :=
    Function.update draft.states msg.src ((draft.states msg.src).set msg.time
      { draft.state msg.src msg.time with
        neededBy := (draft.state msg.src msg.time).neededBy ++ [msg] })

def added (dest : Fin n) (time prev : Nat) : Draft n :=
  { draft with
    states := Function.update draft.states dest ((draft.states dest).set time
      ((draft.state dest prev).arriving dest time)) }

def informed (msg : MessageId n) (arrival : Nat) : KnowledgeState n :=
  ((draft.state msg.dest arrival).learn msg ((draft.state msg.src msg.time).knowledge msg.src)).merge
    (draft.state msg.src msg.time)

def delivered (msg : MessageId n) (arrival : Nat) : Draft n :=
  { draft with
    states := Function.update draft.states msg.dest
      (((draft.states msg.dest).set arrival (draft.informed msg arrival)).mapAfter arrival
        (·.merge (draft.informed msg arrival))) }

variable {draft} {draft' : Draft n} {msg m : MessageId n} {valueOnly : Bool} {node dest src i r : Fin n}
  {time t prev arrival : Nat}

theorem post_ok (h : draft.post msg valueOnly = .ok draft') :
    msg.time ∉ draft.messageTimes msg.src msg.dest ∧ draft.Has msg.src msg.time ∧
      draft' = draft.posted msg valueOnly := by
  unfold post at h
  split at h
  · cases h
  · rename_i hnew
    cases hget : (draft.states msg.src).get? msg.time with
    | none =>
        rw [hget] at h
        cases h
    | some state =>
        rw [hget] at h
        obtain ⟨hhas, rfl⟩ := Timeline.get?_eq_some.mp hget
        cases h
        exact ⟨hnew, hhas, rfl⟩

theorem addState_ok (h : draft.addState dest time = .ok draft') :
    ∃ prev, draft.Has dest prev ∧ prev < time ∧ (∀ t, draft.Has dest t → t < time → t ≤ prev) ∧
      draft' = draft.added dest time prev := by
  unfold addState at h
  split at h
  · cases h
  · rename_i prev hlast
    obtain ⟨hmem, hle⟩ := Lib.mem_last? hlast
    obtain ⟨hhas, hlt⟩ := Finset.mem_filter.mp hmem
    cases h
    exact ⟨prev, hhas, hlt, fun t ht hlt => hle t (Finset.mem_filter.mpr ⟨ht, hlt⟩), rfl⟩

theorem deliver_ok (h : draft.deliver msg arrival = .ok draft') :
    msg.src ≠ msg.dest ∧ draft.Has msg.dest arrival ∧ draft.Has msg.src msg.time ∧
      draft' = draft.delivered msg arrival := by
  unfold deliver at h
  split at h
  · cases h
  · rename_i hne
    cases hdest : (draft.states msg.dest).get? arrival with
    | none =>
        rw [hdest] at h
        cases h
    | some state =>
        cases hsrc : (draft.states msg.src).get? msg.time with
        | none =>
            rw [hdest, hsrc] at h
            cases h
        | some srcState =>
            rw [hdest, hsrc] at h
            obtain ⟨hhas, rfl⟩ := Timeline.get?_eq_some.mp hdest
            obtain ⟨hhas', rfl⟩ := Timeline.get?_eq_some.mp hsrc
            cases h
            exact ⟨hne, hhas, hhas', rfl⟩

section posted

theorem has_posted (h : draft.Has msg.src msg.time) :
    (draft.posted msg valueOnly).Has node t ↔ draft.Has node t := by
  rcases eq_or_ne node msg.src with rfl | hne
  · simp only [Has, posted, Function.update_self, Timeline.set_times, Finset.mem_insert]
    exact ⟨fun ht => ht.elim (fun heq => heq ▸ h) id, Or.inr⟩
  · simp only [Has, posted, Function.update_of_ne hne]

theorem state_posted : (draft.posted msg valueOnly).state node t =
    if node = msg.src ∧ t = msg.time then
      { draft.state node t with neededBy := (draft.state node t).neededBy ++ [msg] }
    else draft.state node t := by
  rcases eq_or_ne node msg.src with rfl | hne
  · rcases eq_or_ne t msg.time with rfl | ht
    · simp only [state, posted, Function.update_self, Timeline.set_value_self, and_self, if_true]
    · simp only [state, posted, Function.update_self, Timeline.set_value_of_ne ht, ht, and_false,
        if_false]
  · simp only [state, posted, Function.update_of_ne hne, hne, false_and, if_false]

@[simp] theorem knowledge_posted :
    ((draft.posted msg valueOnly).state node t).knowledge = (draft.state node t).knowledge := by
  rw [state_posted]
  split <;> rfl

@[simp] theorem remoteStates_posted :
    ((draft.posted msg valueOnly).state node t).remoteStates = (draft.state node t).remoteStates := by
  rw [state_posted]
  split <;> rfl

@[simp] theorem dependencies_posted :
    ((draft.posted msg valueOnly).state node t).dependencies = (draft.state node t).dependencies := by
  rw [state_posted]
  split <;> rfl

theorem mem_neededBy_posted : m ∈ ((draft.posted msg valueOnly).state node t).neededBy ↔
    m ∈ (draft.state node t).neededBy ∨ m = msg ∧ node = msg.src ∧ t = msg.time := by
  rw [state_posted]
  split
  · rename_i h
    simp [h]
  · rename_i h
    simp only [h, and_false, or_false]

theorem mem_messageTimes_posted :
    t ∈ (draft.posted msg valueOnly).messageTimes src dest ↔
      t ∈ draft.messageTimes src dest ∨ src = msg.src ∧ dest = msg.dest ∧ t = msg.time := by
  rcases eq_or_ne src msg.src with rfl | hsrc
  · rcases eq_or_ne dest msg.dest with rfl | hdest
    · simp only [posted, Function.update_self, Finset.mem_insert, true_and]
      exact or_comm
    · simp only [posted, Function.update_self, Function.update_of_ne hdest, hdest, false_and,
        and_false, or_false]
  · simp only [posted, Function.update_of_ne hsrc, hsrc, false_and, or_false]

end posted

section added

theorem has_added : (draft.added dest time prev).Has node t ↔
    draft.Has node t ∨ node = dest ∧ t = time := by
  rcases eq_or_ne node dest with rfl | hne
  · simp only [Has, added, Function.update_self, Timeline.set_times, Finset.mem_insert, true_and]
    exact or_comm
  · simp only [Has, added, Function.update_of_ne hne, hne, false_and, or_false]

theorem state_added_self : (draft.added dest time prev).state dest time =
    (draft.state dest prev).arriving dest time := by
  simp only [state, added, Function.update_self, Timeline.set_value_self]

theorem state_added_of_ne (h : ¬ (node = dest ∧ t = time)) :
    (draft.added dest time prev).state node t = draft.state node t := by
  rcases eq_or_ne node dest with rfl | hne
  · have ht : t ≠ time := fun heq => h ⟨rfl, heq⟩
    simp only [state, added, Function.update_self, Timeline.set_value_of_ne ht]
  · simp only [state, added, Function.update_of_ne hne]

end added

section delivered

theorem has_delivered (h : draft.Has msg.dest arrival) :
    (draft.delivered msg arrival).Has node t ↔ draft.Has node t := by
  rcases eq_or_ne node msg.dest with rfl | hne
  · simp only [Has, delivered, Function.update_self, Timeline.mapAfter_times, Timeline.set_times,
      Finset.mem_insert]
    exact ⟨fun ht => ht.elim (fun heq => heq ▸ h) id, Or.inr⟩
  · simp only [Has, delivered, Function.update_of_ne hne]

theorem mem_informed : r ∈ (draft.informed msg arrival).knowledge i ↔
    r ∈ (draft.state msg.dest arrival).knowledge i ∨
      i = msg.dest ∧ r ∈ (draft.state msg.src msg.time).knowledge msg.src ∨
        r ∈ (draft.state msg.src msg.time).knowledge i := by
  rcases eq_or_ne i msg.dest with rfl | hne
  · simp only [informed, KnowledgeState.merge, KnowledgeState.learn, Function.update_self,
      Finset.mem_union, true_and, or_assoc]
  · simp only [informed, KnowledgeState.merge, KnowledgeState.learn, Function.update_of_ne hne,
      Finset.mem_union, hne, false_and, false_or]

theorem state_delivered : (draft.delivered msg arrival).state node t =
    if node = msg.dest then
      if t = arrival then draft.informed msg arrival
      else if arrival < t then (draft.state node t).merge (draft.informed msg arrival)
      else draft.state node t
    else draft.state node t := by
  rcases eq_or_ne node msg.dest with rfl | hne
  · simp only [if_true]
    rcases eq_or_ne t arrival with rfl | ht
    · simp only [state, delivered, Function.update_self, Timeline.mapAfter_value_of_le le_rfl,
        Timeline.set_value_self, if_true]
    · rw [if_neg ht]
      split
      · rename_i hlt
        simp only [state, delivered, Function.update_self, Timeline.mapAfter_value_of_lt hlt,
          Timeline.set_value_of_ne ht]
      · rename_i hge
        simp only [state, delivered, Function.update_self,
          Timeline.mapAfter_value_of_le (not_lt.mp hge), Timeline.set_value_of_ne ht]
  · simp only [state, delivered, Function.update_of_ne hne, hne, if_false]

-- From its arrival on, what `msg` brings is known at the destination, and nothing else changes.
theorem mem_knowledge_delivered : r ∈ ((draft.delivered msg arrival).state node t).knowledge i ↔
    r ∈ (draft.state node t).knowledge i ∨
      node = msg.dest ∧ arrival ≤ t ∧ r ∈ (draft.informed msg arrival).knowledge i := by
  rw [state_delivered]
  split
  · rename_i hnode
    subst hnode
    split
    · rename_i ht
      subst ht
      rw [mem_informed]
      simp only [le_refl, true_and]
      tauto
    · rename_i ht
      split
      · rename_i hlt
        simp only [KnowledgeState.merge, Finset.mem_union, hlt.le, true_and]
      · rename_i hge
        have : ¬ arrival ≤ t := by omega
        simp only [this, false_and, and_false, or_false]
  · rename_i hnode
    simp only [hnode, false_and, or_false]

theorem remoteStates_delivered :
    ((draft.delivered msg arrival).state node t).remoteStates i =
      if node = msg.dest ∧ arrival ≤ t then
        max ((draft.state node t).remoteStates i) ((draft.informed msg arrival).remoteStates i)
      else (draft.state node t).remoteStates i := by
  rw [state_delivered]
  split
  · rename_i hnode
    subst hnode
    split
    · rename_i ht
      subst ht
      simp only [le_refl, and_self, if_true, informed, KnowledgeState.merge, KnowledgeState.learn]
      omega
    · rename_i ht
      split
      · rename_i hlt
        simp only [KnowledgeState.merge, hlt.le, and_self, if_true]
      · rename_i hge
        have : ¬ arrival ≤ t := by omega
        simp only [this, and_false, if_false]
  · rename_i hnode
    simp only [hnode, false_and, if_false]

theorem mem_dependencies_delivered :
    m ∈ ((draft.delivered msg arrival).state node t).dependencies ↔
      m ∈ (draft.state node t).dependencies ∨ m = msg ∧ node = msg.dest ∧ t = arrival := by
  rw [state_delivered]
  split
  · rename_i hnode
    subst hnode
    split
    · rename_i ht
      subst ht
      simp only [informed, KnowledgeState.merge, KnowledgeState.learn, Finset.mem_insert, and_true]
      exact or_comm
    · rename_i ht
      simp only [ht, and_false, or_false]
      split <;> rfl
  · rename_i hnode
    simp only [hnode, false_and, and_false, or_false]

@[simp] theorem neededBy_delivered :
    ((draft.delivered msg arrival).state node t).neededBy = (draft.state node t).neededBy := by
  rw [state_delivered]
  split
  · rename_i hnode
    subst hnode
    split
    · rename_i ht
      subst ht
      rfl
    · split <;> rfl
  · rfl

end delivered

-- What a state comes right after: an earlier one of the same process, or what sent it a message.
inductive Leads (draft : Draft n) : Fin n × Nat → Fin n × Nat → Prop
  | later {node : Fin n} {t t' : Nat} (hhas : draft.Has node t') (hle : t ≤ t') :
      Leads draft (node, t) (node, t')
  | message {m : MessageId n} {arrival : Nat} (hhas : draft.Has m.dest arrival)
      (hm : m ∈ (draft.state m.dest arrival).dependencies) :
      Leads draft (m.src, m.time) (m.dest, arrival)

abbrev Precedes (draft : Draft n) : Fin n × Nat → Fin n × Nat → Prop :=
  Relation.ReflTransGen draft.Leads

theorem Precedes.mono {draft draft' : Draft n} (hhas : ∀ {node t}, draft.Has node t → draft'.Has node t)
    (hdeps : ∀ {node t}, draft.Has node t →
      (draft.state node t).dependencies ⊆ (draft'.state node t).dependencies)
    {a b : Fin n × Nat} (h : draft.Precedes a b) : draft'.Precedes a b := by
  refine Relation.ReflTransGen.mono (fun x y hxy => ?_) a b h
  cases hxy with
  | later hthere hle => exact .later (hhas hthere) hle
  | message hthere hm => exact .message (hhas hthere) (hdeps hthere hm)

end Draft

-- Messages, the states that send them and the states that wait for them belong together; those of
-- `pending` are yet to arrive.
structure Wired (topology : Topology n) (proposer : Fin n) (pending : MessageId n → Prop)
    (draft : Draft n) : Prop where
  zero : ∀ node, draft.Has node 0
  sent : ∀ {node t m}, draft.Has node t → m ∈ (draft.state node t).neededBy →
    m.proposer = proposer ∧ m.src = node ∧ m.time = t ∧ t ∈ draft.messageTimes node m.dest
  posted : ∀ {m : MessageId n}, m.proposer = proposer → m.time ∈ draft.messageTimes m.src m.dest →
    m.src ≠ m.dest ∧ draft.Has m.src m.time ∧ m ∈ (draft.state m.src m.time).neededBy
  arrives : ∀ {m : MessageId n}, m.proposer = proposer → m.time ∈ draft.messageTimes m.src m.dest →
    ¬ pending m → draft.Has m.dest (m.time + topology.linkLatency m.src m.dest) ∧
      m ∈ (draft.state m.dest (m.time + topology.linkLatency m.src m.dest)).dependencies
  awaited : ∀ {node t m}, draft.Has node t → m ∈ (draft.state node t).dependencies →
    m.proposer = proposer ∧ m.dest = node ∧ t = m.time + topology.linkLatency m.src node ∧
      m.time ∈ draft.messageTimes m.src node
  waits : ∀ {node t}, draft.Has node t → t ≠ 0 → (draft.state node t).dependencies.Nonempty ∨
    ∃ m, pending m ∧ node = m.dest ∧ t = m.time + topology.linkLatency m.src m.dest
  once : ∀ {node t}, draft.Has node t → (draft.state node t).neededBy.Nodup
  valued : ∀ {m}, m ∈ draft.shouldIncludeValue →
    m.proposer = proposer ∧ m.time ∈ draft.messageTimes m.src m.dest

namespace Wired

variable {topology : Topology n} {proposer : Fin n} {pending : MessageId n → Prop} {draft : Draft n}
  {msg : MessageId n} {prev : Nat}

theorem start : Wired topology proposer (fun _ => False) (.start proposer) where
  zero _ := Finset.mem_singleton_self 0
  sent _ hm := absurd hm List.not_mem_nil
  posted _ hm := absurd hm (Finset.notMem_empty _)
  arrives _ hm := absurd hm (Finset.notMem_empty _)
  awaited _ hm := absurd hm (Finset.notMem_empty _)
  waits ht hne := absurd (Finset.mem_singleton.mp ht) hne
  once _ := List.nodup_nil
  valued hm := absurd hm (Finset.notMem_empty _)

theorem mono {pending' : MessageId n → Prop} (h : Wired topology proposer pending draft)
    (hle : ∀ m, pending m → pending' m) : Wired topology proposer pending' draft :=
  { h with
    arrives := fun hp hm hno => h.arrives hp hm fun hpending => hno (hle _ hpending)
    waits := fun ht hne => (h.waits ht hne).imp id fun ⟨m, hm, h'⟩ => ⟨m, hle m hm, h'⟩ }

theorem post (h : Wired topology proposer (fun _ => False) draft) (hp : msg.proposer = proposer)
    (hne : msg.src ≠ msg.dest) (hhas : draft.Has msg.src msg.time)
    (hnew : msg.time ∉ draft.messageTimes msg.src msg.dest) (valueOnly : Bool) :
    Wired topology proposer (· = msg) (draft.posted msg valueOnly) where
  zero node := (Draft.has_posted hhas).mpr (h.zero node)
  sent ht hm := by
    have ht := (Draft.has_posted hhas).mp ht
    rcases Draft.mem_neededBy_posted.mp hm with hm | ⟨rfl, rfl, rfl⟩
    · obtain ⟨h1, h2, h3, h4⟩ := h.sent ht hm
      exact ⟨h1, h2, h3, Draft.mem_messageTimes_posted.mpr (Or.inl h4)⟩
    · exact ⟨hp, rfl, rfl, Draft.mem_messageTimes_posted.mpr (Or.inr ⟨rfl, rfl, rfl⟩)⟩
  posted {m} hm ht := by
    rcases Draft.mem_messageTimes_posted.mp ht with ht | ⟨hsrc, hdest, htime⟩
    · obtain ⟨h1, h2, h3⟩ := h.posted hm ht
      exact ⟨h1, (Draft.has_posted hhas).mpr h2, Draft.mem_neededBy_posted.mpr (Or.inl h3)⟩
    · have hsame : m = msg := by
        cases m
        cases msg
        simp_all
      subst hsame
      exact ⟨hne, (Draft.has_posted hhas).mpr hhas,
        Draft.mem_neededBy_posted.mpr (Or.inr ⟨rfl, rfl, rfl⟩)⟩
  arrives {m} hm ht hother := by
    rcases Draft.mem_messageTimes_posted.mp ht with ht | ⟨hsrc, hdest, htime⟩
    · obtain ⟨h1, h2⟩ := h.arrives hm ht id
      rw [Draft.dependencies_posted]
      exact ⟨(Draft.has_posted hhas).mpr h1, h2⟩
    · refine absurd ?_ hother
      cases m
      cases msg
      simp_all
  awaited ht hm := by
    rw [Draft.dependencies_posted] at hm
    obtain ⟨h1, h2, h3, h4⟩ := h.awaited ((Draft.has_posted hhas).mp ht) hm
    exact ⟨h1, h2, h3, Draft.mem_messageTimes_posted.mpr (Or.inl h4)⟩
  waits ht hpos := by
    rw [Draft.dependencies_posted]
    refine Or.inl ((h.waits ((Draft.has_posted hhas).mp ht) hpos).resolve_right ?_)
    rintro ⟨m, hm, -⟩
    exact hm
  once {node t} ht := by
    have ht := (Draft.has_posted hhas).mp ht
    rw [Draft.state_posted]
    split
    · rename_i hhere
      obtain ⟨rfl, rfl⟩ := hhere
      refine List.Nodup.append (h.once ht) (List.nodup_singleton _)
        (List.disjoint_singleton.mpr fun hm => hnew ?_)
      exact (h.sent ht hm).2.2.2
    · exact h.once ht
  valued {m} hm := by
    have hold : m ∈ draft.shouldIncludeValue →
        m.proposer = proposer ∧ m.time ∈ (draft.posted msg valueOnly).messageTimes m.src m.dest :=
      fun hm => ⟨(h.valued hm).1, Draft.mem_messageTimes_posted.mpr (Or.inl (h.valued hm).2)⟩
    cases valueOnly with
    | false => exact hold hm
    | true =>
        rcases Finset.mem_insert.mp hm with rfl | hm
        · exact ⟨hp, Draft.mem_messageTimes_posted.mpr (Or.inr ⟨rfl, rfl, rfl⟩)⟩
        · exact hold hm

theorem add (h : Wired topology proposer (· = msg) draft)
    (hnew : ¬ draft.Has msg.dest (msg.time + topology.linkLatency msg.src msg.dest)) :
    Wired topology proposer (· = msg)
      (draft.added msg.dest (msg.time + topology.linkLatency msg.src msg.dest) prev) := by
  have hold : ∀ {node t}, draft.Has node t →
      (draft.added msg.dest (msg.time + topology.linkLatency msg.src msg.dest) prev).state node t =
        draft.state node t := fun {node t} ht => Draft.state_added_of_ne fun heq => by
    obtain ⟨rfl, rfl⟩ := heq
    exact hnew ht
  refine ⟨fun node => Draft.has_added.mpr (Or.inl (h.zero node)), fun {node t m} ht hm => ?_,
    fun {m} hm ht => ?_, fun {m} hm ht hother => ?_, fun {node t m} ht hm => ?_,
    fun {node t} ht hpos => ?_, fun {node t} ht => ?_, h.valued⟩
  · rcases Draft.has_added.mp ht with ht | ⟨rfl, rfl⟩
    · rw [hold ht] at hm
      exact h.sent ht hm
    · rw [Draft.state_added_self] at hm
      exact absurd hm List.not_mem_nil
  · obtain ⟨h1, h2, h3⟩ := h.posted hm ht
    rw [hold h2]
    exact ⟨h1, Draft.has_added.mpr (Or.inl h2), h3⟩
  · obtain ⟨h1, h2⟩ := h.arrives hm ht hother
    rw [hold h1]
    exact ⟨Draft.has_added.mpr (Or.inl h1), h2⟩
  · rcases Draft.has_added.mp ht with ht | ⟨rfl, rfl⟩
    · rw [hold ht] at hm
      exact h.awaited ht hm
    · rw [Draft.state_added_self] at hm
      exact absurd hm (Finset.notMem_empty _)
  · rcases Draft.has_added.mp ht with ht | ⟨rfl, rfl⟩
    · rw [hold ht]
      exact h.waits ht hpos
    · exact Or.inr ⟨msg, rfl, rfl, rfl⟩
  · rcases Draft.has_added.mp ht with ht | ⟨rfl, rfl⟩
    · rw [hold ht]
      exact h.once ht
    · rw [Draft.state_added_self]
      exact List.nodup_nil

theorem deliver (h : Wired topology proposer (· = msg) draft) (hp : msg.proposer = proposer)
    (hposted : msg.time ∈ draft.messageTimes msg.src msg.dest)
    (hhas : draft.Has msg.dest (msg.time + topology.linkLatency msg.src msg.dest)) :
    Wired topology proposer (fun _ => False)
      (draft.delivered msg (msg.time + topology.linkLatency msg.src msg.dest)) where
  zero node := (Draft.has_delivered hhas).mpr (h.zero node)
  sent ht hm := by
    rw [Draft.neededBy_delivered] at hm
    exact h.sent ((Draft.has_delivered hhas).mp ht) hm
  posted hm ht := by
    rw [Draft.neededBy_delivered]
    obtain ⟨h1, h2, h3⟩ := h.posted hm ht
    exact ⟨h1, (Draft.has_delivered hhas).mpr h2, h3⟩
  arrives {m} hm ht _ := by
    rcases eq_or_ne m msg with rfl | hne
    · exact ⟨(Draft.has_delivered hhas).mpr hhas,
        Draft.mem_dependencies_delivered.mpr (Or.inr ⟨rfl, rfl, rfl⟩)⟩
    · obtain ⟨h1, h2⟩ := h.arrives hm ht hne
      exact ⟨(Draft.has_delivered hhas).mpr h1, Draft.mem_dependencies_delivered.mpr (Or.inl h2)⟩
  awaited ht hm := by
    rcases Draft.mem_dependencies_delivered.mp hm with hm | ⟨rfl, rfl, rfl⟩
    · exact h.awaited ((Draft.has_delivered hhas).mp ht) hm
    · exact ⟨hp, rfl, rfl, hposted⟩
  waits {node t} ht hpos := by
    refine Or.inl ?_
    rcases h.waits ((Draft.has_delivered hhas).mp ht) hpos with ⟨m, hm⟩ | ⟨m, rfl, rfl, rfl⟩
    · exact ⟨m, Draft.mem_dependencies_delivered.mpr (Or.inl hm)⟩
    · exact ⟨m, Draft.mem_dependencies_delivered.mpr (Or.inr ⟨rfl, rfl, rfl⟩)⟩
  once ht := by
    rw [Draft.neededBy_delivered]
    exact h.once ((Draft.has_delivered hhas).mp ht)
  valued := h.valued

end Wired

end KCensus.Propagation

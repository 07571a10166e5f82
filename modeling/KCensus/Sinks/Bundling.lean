import KCensus.Sinks.MultiSink
import Mathlib.Data.List.Perm.Basic

namespace KCensus.Sinks

open Deps (DepMsg)
open Lib (checkedSub checkedSub_of_le)

variable {n : Nat}

-- What one call of `queue_ack` was given, and the kind it was found to have.
structure QueuedAck (n : Nat) where
  ack : Ack n
  requester : Option (Fin n)
  kind : AckKind
  isKind : ackKind ack.2 = some kind

namespace QueuedAck

def call (queued : QueuedAck n) : MultiSink.Call n :=
  .queueAck queued.ack.1 queued.ack.2 queued.requester

def ofKind (kind : AckKind) (acks : List (QueuedAck n)) : List (Ack n) :=
  (acks.filter (·.kind = kind)).map ack

theorem ofKind_append (kind : AckKind) (acks more : List (QueuedAck n)) :
    ofKind kind (acks ++ more) = ofKind kind acks ++ ofKind kind more := by
  simp [ofKind]

theorem ofKind_singleton (kind : AckKind) (queued : QueuedAck n) :
    ofKind kind [queued] = if queued.kind = kind then [queued.ack] else [] := by
  simp only [ofKind, List.filter_singleton]
  split <;> simp_all

theorem ofKind_eq_filter (kind : AckKind) (acks : List (QueuedAck n)) :
    ofKind kind acks = (acks.map ack).filter (ackKind ·.2 = some kind) := by
  rw [ofKind, List.filter_map]
  refine congrArg _ (List.filter_congr fun queued _ => ?_)
  simp [queued.isKind]

theorem filter_ofKind (kind kind' : AckKind) (acks : List (QueuedAck n)) :
    (ofKind kind acks).filter (ackKind ·.2 = some kind') =
      if kind = kind' then ofKind kind acks else [] := by
  rw [ofKind_eq_filter, List.filter_filter]
  split
  · rename_i heq
    simp [heq]
  · rename_i hne
    refine List.filter_eq_nil_iff.mpr fun ack _ => ?_
    simp only [Bool.and_eq_true, decide_eq_true_eq, not_and]
    intro h h'
    exact hne (Option.some.inj (h'.symm.trans h))

theorem perm_kinds (acks : List (QueuedAck n)) :
    (ofKind .fast acks ++ ofKind .slow acks).Perm (acks.map ack) := by
  have hslow : acks.filter (·.kind = .slow) = acks.filter fun q => !decide (q.kind = .fast) := by
    refine List.filter_congr fun q _ => ?_
    cases q.kind <;> rfl
  rw [ofKind, ofKind, ← List.map_append, hslow]
  exact (List.filter_append_perm _ acks).map ack

end QueuedAck

def MultiSink.Call.queued : MultiSink.Call n → List (QueuedAck n)
  | .flushAcks => []
  | .queueAck shard msg requester =>
      match h : ackKind msg with
      | some kind => [⟨(shard, msg), requester, kind, h⟩]
      | none => []

def queuedBy (calls : List (MultiSink.Call n)) : List (QueuedAck n) :=
  calls.flatMap MultiSink.Call.queued

theorem QueuedAck.queued_call (queued : QueuedAck n) : queued.call.queued = [queued] := by
  obtain ⟨⟨shard, msg⟩, requester, kind, hkind⟩ := queued
  simp only [call, MultiSink.Call.queued]
  split
  · rename_i kind' hkind'
    obtain rfl : kind = kind' := Option.some.inj (hkind.symm.trans hkind')
    rfl
  · rename_i hnone
    cases hkind.symm.trans hnone

theorem MultiSink.Call.IsAck.cases {call : MultiSink.Call n} (h : call.IsAck) :
    call = .flushAcks ∨ ∃ queued : QueuedAck n, call = queued.call := by
  cases call with
  | flushAcks => exact Or.inl rfl
  | queueAck shard msg requester =>
      obtain ⟨kind, hkind⟩ := Option.isSome_iff_exists.mp h
      exact Or.inr ⟨⟨(shard, msg), requester, kind, hkind⟩, rfl⟩

namespace MultiSink

open QueuedAck (ofKind)

structure Holds (m : MultiSink n) (held : List (QueuedAck n)) : Prop where
  pending : ∀ kind, m.pending kind = ofKind kind held
  fast_count : m.pendingCounts.fast = m.pendingFast.length
  slow_count : m.pendingCounts.slow = m.pendingSlow.length
  recipients : ∀ dest, dest ∈ m.ackRecipients ↔ ∃ queued ∈ held, queued.requester = some dest

def Roomy (m : MultiSink n) : Prop := ∀ kind, (m.pending kind).length < ackBatchLimit

structure Carries (m : MultiSink n) (bundle : Bundle n) (held : List (QueuedAck n)) : Prop where
  acks : bundle.acks = ofKind .fast held ++ ofKind .slow held
  dests : ∀ dest, dest ∈ bundle.dests ↔ dest ∈ m.sinks ∧
    (dest ∈ m.aliveReplicas ∨ ∃ queued ∈ held, queued.requester = some dest)

-- From holding `held`, queuing `queued` has sent `bundles` and left `held'`.
structure Progress (m m' : MultiSink n) (held held' queued : List (QueuedAck n))
    (bundles : List (Bundle n)) : Prop where
  holds : m'.Holds held'
  roomy : m'.Roomy
  sinks : m'.sinks = m.sinks
  aliveReplicas : m'.aliveReplicas = m.aliveReplicas
  carried : ∃ segments, held ++ queued = segments.flatten ++ held' ∧
    List.Forall₂ m.Carries bundles segments

variable {m m' m'' : MultiSink n} {held held' held'' queued queued' : List (QueuedAck n)}
  {bundles bundles' : List (Bundle n)}

theorem holds_connected (myPid : Fin n) (aliveReplicas : Finset (Fin n)) :
    (connected myPid aliveReplicas).Holds [] where
  pending kind := by cases kind <;> rfl
  fast_count := rfl
  slow_count := rfl
  recipients dest := by simp [connected]

theorem roomy_connected (myPid : Fin n) (aliveReplicas : Finset (Fin n)) :
    (connected myPid aliveReplicas).Roomy := by
  intro kind
  cases kind <;> exact Nat.succ_pos 16

theorem Holds.any_iff (h : m.Holds held) : m.pendingCounts.any = true ↔ held ≠ [] := by
  have hlength : (ofKind .fast held).length + (ofKind .slow held).length = held.length := by
    rw [← List.length_append, (QueuedAck.perm_kinds held).length_eq, List.length_map]
  have hfast := h.pending .fast
  have hslow := h.pending .slow
  simp only [MultiSink.pending] at hfast hslow
  rw [PendingAcks.any, h.fast_count, h.slow_count, hfast, hslow, Bool.or_eq_true,
    decide_eq_true_eq, decide_eq_true_eq, ← List.length_pos_iff]
  omega

theorem Holds.flushAcks (h : m.Holds held) (hr : held = [] → m.Roomy) :
    ∃ held', Progress m m.flushAcks.1 held held' [] m.flushAcks.2 := by
  unfold MultiSink.flushAcks
  split
  · rename_i hany
    refine ⟨[], ⟨fun kind => ?_, rfl, rfl, fun dest => ?_⟩, fun kind => ?_, rfl, rfl,
      [held], ?_, ?_⟩
    · cases kind <;> rfl
    · simp
    · cases kind <;> exact Nat.succ_pos 16
    · simp
    · refine List.Forall₂.cons ⟨?_, fun dest => ?_⟩ List.Forall₂.nil
      · exact congrArg₂ _ (h.pending .fast) (h.pending .slow)
      · rw [← h.recipients dest]
        exact Finset.mem_filter
  · rename_i hany
    have hempty : held = [] := not_not.mp (mt h.any_iff.mpr hany)
    exact ⟨held, h, hr hempty, rfl, rfl, [], by simp, List.Forall₂.nil⟩

@[simp] theorem owe_pending (m : MultiSink n) (requester : Option (Fin n)) :
    (m.owe requester).pending = m.pending := by
  cases requester <;> rfl

@[simp] theorem owe_pendingFast (m : MultiSink n) (requester : Option (Fin n)) :
    (m.owe requester).pendingFast = m.pendingFast := by
  cases requester <;> rfl

@[simp] theorem owe_pendingSlow (m : MultiSink n) (requester : Option (Fin n)) :
    (m.owe requester).pendingSlow = m.pendingSlow := by
  cases requester <;> rfl

@[simp] theorem owe_pendingCounts (m : MultiSink n) (requester : Option (Fin n)) :
    (m.owe requester).pendingCounts = m.pendingCounts := by
  cases requester <;> rfl

@[simp] theorem owe_sinks (m : MultiSink n) (requester : Option (Fin n)) :
    (m.owe requester).sinks = m.sinks := by
  cases requester <;> rfl

@[simp] theorem owe_aliveReplicas (m : MultiSink n) (requester : Option (Fin n)) :
    (m.owe requester).aliveReplicas = m.aliveReplicas := by
  cases requester <;> rfl

theorem mem_owe (m : MultiSink n) (requester : Option (Fin n)) (dest : Fin n) :
    dest ∈ (m.owe requester).ackRecipients ↔ dest ∈ m.ackRecipients ∨ requester = some dest := by
  cases requester with
  | none => simp [owe]
  | some r => simp [owe, or_comm, eq_comm]

theorem push_pending (m : MultiSink n) (ack : Ack n) (kind kind' : AckKind) :
    (m.push ack kind).1.pending kind' =
      m.pending kind' ++ if kind = kind' then [ack] else [] := by
  cases kind <;> cases kind' <;> simp [push, pending]

theorem Holds.push (h : m.Holds held) (hr : m.Roomy) (queued : QueuedAck n) :
    let pushed := ((m.push queued.ack queued.kind).1).owe queued.requester
    pushed.Holds (held ++ [queued]) ∧
      (m.push queued.ack queued.kind).2 = (pushed.pending queued.kind).length ∧
      (∀ kind, kind ≠ queued.kind → (pushed.pending kind).length < ackBatchLimit) ∧
      pushed.sinks = m.sinks ∧ pushed.aliveReplicas = m.aliveReplicas := by
  have hcount : (m.push queued.ack queued.kind).2 =
      ((m.push queued.ack queued.kind).1.pending queued.kind).length := by
    rw [push_pending, if_pos rfl, List.length_append, List.length_singleton]
    cases queued.kind with
    | fast => exact congrArg (· + 1) h.fast_count
    | slow => exact congrArg (· + 1) h.slow_count
  refine ⟨⟨fun kind => ?_, ?_, ?_, fun dest => ?_⟩, by rwa [owe_pending], fun kind hne => ?_, ?_, ?_⟩
  · rw [owe_pending, push_pending, h.pending, QueuedAck.ofKind_append, QueuedAck.ofKind_singleton]
  · have hfast := h.fast_count
    cases queued.kind <;> simp [MultiSink.push, hfast]
  · have hslow := h.slow_count
    cases queued.kind <;> simp [MultiSink.push, hslow]
  · have hsame : (m.push queued.ack queued.kind).1.ackRecipients = m.ackRecipients := by
      cases queued.kind <;> rfl
    rw [mem_owe, hsame, h.recipients]
    simp only [List.mem_append, List.mem_singleton, or_and_right, exists_or, exists_eq_left]
  · rw [owe_pending, push_pending, if_neg hne.symm, List.append_nil]
    exact hr kind
  · rw [owe_sinks]
    cases queued.kind <;> rfl
  · rw [owe_aliveReplicas]
    cases queued.kind <;> rfl

theorem Progress.of_same {m₀ : MultiSink n} (h : Progress m m' held held' [] bundles)
    (hs : m.sinks = m₀.sinks) (ha : m.aliveReplicas = m₀.aliveReplicas)
    {held₀ queued₀ : List (QueuedAck n)} (hheld : held = held₀ ++ queued₀) :
    Progress m₀ m' held₀ held' queued₀ bundles := by
  obtain ⟨segments, hseg, hcarry⟩ := h.carried
  refine ⟨h.holds, h.roomy, h.sinks.trans hs, h.aliveReplicas.trans ha, segments, ?_, ?_⟩
  · rw [← hheld, ← hseg, List.append_nil]
  · refine hcarry.imp fun bundle segment hb => ⟨hb.acks, ?_⟩
    rw [← hs, ← ha]
    exact hb.dests

theorem perform_call (m : MultiSink n) (queued : QueuedAck n) :
    m.perform queued.call =
      if ackBatchLimit ≤ (m.push queued.ack queued.kind).2 then
        some (((m.push queued.ack queued.kind).1).owe queued.requester).flushAcks
      else some (((m.push queued.ack queued.kind).1).owe queued.requester, []) := by
  simp only [perform, QueuedAck.call, MultiSink.queueAck, queued.isKind]

theorem Holds.queueAck (h : m.Holds held) (hr : m.Roomy) (queued : QueuedAck n) :
    ∃ m' bundles held', m.perform queued.call = some (m', bundles) ∧
      Progress m m' held held' [queued] bundles := by
  obtain ⟨hholds, hcount, hother, hsinks, halive⟩ := h.push hr queued
  rw [perform_call, hcount]
  split
  · obtain ⟨held', hp⟩ := hholds.flushAcks fun hempty => by simp at hempty
    exact ⟨_, _, held', rfl, hp.of_same hsinks halive rfl⟩
  · rename_i hlt
    refine ⟨_, _, held ++ [queued], rfl, hholds, fun kind => ?_, hsinks, halive, [], by simp,
      List.Forall₂.nil⟩
    rcases eq_or_ne kind queued.kind with rfl | hne
    · exact Nat.not_le.mp hlt
    · exact hother kind hne

theorem Progress.trans (h : Progress m m' held held' queued bundles)
    (h' : Progress m' m'' held' held'' queued' bundles') :
    Progress m m'' held held'' (queued ++ queued') (bundles ++ bundles') := by
  obtain ⟨segments, hseg, hcarry⟩ := h.carried
  obtain ⟨segments', hseg', hcarry'⟩ := h'.carried
  refine ⟨h'.holds, h'.roomy, h'.sinks.trans h.sinks, h'.aliveReplicas.trans h.aliveReplicas,
    segments ++ segments', ?_, ?_⟩
  · rw [← List.append_assoc, hseg, List.append_assoc, hseg', List.flatten_append, List.append_assoc]
  · refine List.rel_append hcarry (hcarry'.imp fun bundle segment hb => ⟨hb.acks, ?_⟩)
    rw [← h.sinks, ← h.aliveReplicas]
    exact hb.dests

theorem Holds.perform (h : m.Holds held) (hr : m.Roomy) {call : Call n} (hack : call.IsAck) :
    ∃ m' bundles held', m.perform call = some (m', bundles) ∧
      Progress m m' held held' call.queued bundles := by
  obtain rfl | ⟨queued, rfl⟩ := hack.cases
  · obtain ⟨held', hp⟩ := h.flushAcks fun _ => hr
    exact ⟨_, _, held', rfl, hp⟩
  · rw [queued.queued_call]
    exact h.queueAck hr queued

theorem Holds.run (h : m.Holds held) (hr : m.Roomy) {calls : List (Call n)}
    (hacks : ∀ call ∈ calls, call.IsAck) :
    ∃ m' bundles held', m.run calls = some (m', bundles) ∧
      Progress m m' held held' (queuedBy calls) bundles := by
  induction calls generalizing m held with
  | nil =>
      exact ⟨m, [], held, rfl, h, hr, rfl, rfl, [], by simp [queuedBy], List.Forall₂.nil⟩
  | cons call calls ih =>
      obtain ⟨next, sent, heldNext, hstep, hp⟩ := h.perform hr (hacks call List.mem_cons_self)
      obtain ⟨last, bundles, held', hrun, hp'⟩ :=
        ih hp.holds hp.roomy fun c hc => hacks c (List.mem_cons_of_mem _ hc)
      refine ⟨last, sent ++ bundles, held', ?_, hp.trans hp'⟩
      simp only [MultiSink.run, hstep, hrun, Option.bind_eq_bind, Option.bind_some]

theorem Holds.length_eq (h : m.Holds held) :
    m.pendingCounts.fast + m.pendingCounts.slow = held.length := by
  have hfast := h.pending .fast
  have hslow := h.pending .slow
  simp only [MultiSink.pending] at hfast hslow
  rw [h.fast_count, h.slow_count, hfast, hslow, ← List.length_append,
    (QueuedAck.perm_kinds held).length_eq, List.length_map]

theorem Holds.counts_lt (h : m.Holds held) (hr : m.Roomy) :
    m.pendingCounts.fast < ackBatchLimit ∧ m.pendingCounts.slow < ackBatchLimit := by
  rw [h.fast_count, h.slow_count]
  exact ⟨hr .fast, hr .slow⟩

theorem Holds.room_eq (h : m.Holds held) (hr : m.Roomy) :
    m.pendingCounts.room = some (2 * ackBatchLimit - 1 - held.length) := by
  obtain ⟨hfast, hslow⟩ := h.counts_lt hr
  have hlength := h.length_eq
  simp only [PendingAcks.room, checkedSub_of_le hfast.le, checkedSub_of_le hslow.le,
    Option.bind_eq_bind, Option.bind_some]
  rw [checkedSub_of_le (by omega)]
  congr 1
  omega

-- The two queues cannot both stay short of full.
theorem Holds.flushes (h : m.Holds held) (hr : m.Roomy) {more : List (QueuedAck n)}
    (hlength : held.length + more.length = 2 * ackBatchLimit - 1) :
    ∃ m' sent, m.run (more.map QueuedAck.call) = some (m', sent) ∧ sent ≠ [] := by
  have hacks : ∀ call ∈ more.map QueuedAck.call, call.IsAck := by
    intro call hcall
    obtain ⟨queued, -, rfl⟩ := List.mem_map.mp hcall
    exact Option.isSome_iff_exists.mpr ⟨_, queued.isKind⟩
  have hqueued : queuedBy (more.map QueuedAck.call) = more := by
    simp only [queuedBy, List.flatMap_map, QueuedAck.queued_call, List.flatMap_singleton']
  obtain ⟨m', sent, held', hrun, hp⟩ := h.run hr hacks
  refine ⟨m', sent, hrun, fun hnone => ?_⟩
  obtain ⟨segments, hseg, hcarry⟩ := hp.carried
  subst hnone
  cases hcarry
  rw [hqueued, List.flatten_nil, List.nil_append] at hseg
  have hheld := hp.holds.length_eq
  obtain ⟨hfast, hslow⟩ := hp.holds.counts_lt hp.roomy
  rw [← hseg, List.length_append] at hheld
  omega

theorem Holds.queueAck_quiet (h : m.Holds held) (hr : m.Roomy) {queued : QueuedAck n}
    (hshort : (m.pending queued.kind).length + 1 < ackBatchLimit) :
    ∃ m', m.perform queued.call = some (m', []) ∧ m'.Holds (held ++ [queued]) ∧ m'.Roomy := by
  obtain ⟨hholds, hcount, hother, -, -⟩ := h.push hr queued
  have hlength := congrArg List.length (push_pending m queued.ack queued.kind queued.kind)
  rw [if_pos rfl, List.length_append, List.length_singleton] at hlength
  rw [owe_pending, hlength] at hcount
  refine ⟨_, by rw [perform_call, hcount, if_neg (by omega)], hholds, fun kind => ?_⟩
  rcases eq_or_ne kind queued.kind with rfl | hne
  · rw [owe_pending, hlength]
    exact hshort
  · exact hother kind hne

theorem Holds.run_quiet (h : m.Holds held) (hr : m.Roomy) {more : List (QueuedAck n)}
    (hshort : ∀ kind, (ofKind kind (held ++ more)).length < ackBatchLimit) :
    ∃ m', m.run (more.map QueuedAck.call) = some (m', []) := by
  induction more generalizing m held with
  | nil => exact ⟨m, rfl⟩
  | cons queued more ih =>
      have hone : (m.pending queued.kind).length + 1 < ackBatchLimit := by
        refine lt_of_le_of_lt ?_ (hshort queued.kind)
        rw [h.pending, ← List.singleton_append, QueuedAck.ofKind_append, QueuedAck.ofKind_append,
          QueuedAck.ofKind_singleton, if_pos rfl, List.length_append, List.length_append,
          List.length_singleton]
        omega
      obtain ⟨next, hstep, hholds, hroomy⟩ := h.queueAck_quiet hr hone
      obtain ⟨last, hrun⟩ := ih hholds hroomy (by simpa using hshort)
      exact ⟨last, by simp [MultiSink.run, hstep, hrun]⟩

theorem Progress.carried_perm (h : Progress m m' held held' queued bundles) :
    (bundles.flatMap (·.acks) ++ (m'.pendingFast ++ m'.pendingSlow)).Perm
      ((held ++ queued).map (·.ack)) := by
  obtain ⟨segments, hseg, hcarry⟩ := h.carried
  rw [hseg, List.map_append]
  refine List.Perm.append ?_ ?_
  · clear hseg h
    induction hcarry with
    | nil => exact List.Perm.nil
    | cons hb _ ih =>
        rw [List.flatMap_cons, List.flatten_cons, List.map_append, hb.acks]
        exact (QueuedAck.perm_kinds _).append ih
  · have hpending := QueuedAck.perm_kinds held'
    rwa [← h.holds.pending, ← h.holds.pending] at hpending

theorem Progress.kind_order (h : Progress m m' held held' queued bundles) (kind : AckKind) :
    (bundles.flatMap (·.acks)).filter (ackKind ·.2 = some kind) ++ m'.pending kind =
      ofKind kind (held ++ queued) := by
  obtain ⟨segments, hseg, hcarry⟩ := h.carried
  rw [hseg, QueuedAck.ofKind_append, h.holds.pending]
  refine congrArg (· ++ ofKind kind held') ?_
  clear hseg h
  induction hcarry with
  | nil => rfl
  | cons hb _ ih =>
      rw [List.flatMap_cons, List.filter_append, List.flatten_cons, QueuedAck.ofKind_append, ih,
        hb.acks, List.filter_append, QueuedAck.filter_ofKind, QueuedAck.filter_ofKind]
      cases kind <;> simp

end MultiSink

open MultiSink

def someAck (n : Nat) : AckKind → QueuedAck n
  | .fast => ⟨(0, .preAcceptOk ⟨0, rfl⟩ none), none, .fast, rfl⟩
  | .slow => ⟨(0, .acceptOk ⟨0, rfl⟩), none, .slow, rfl⟩

theorem length_replicate_someAck (kind kind' : AckKind) (count : Nat) :
    (QueuedAck.ofKind kind' (List.replicate count (someAck n kind))).length =
      if kind = kind' then count else 0 := by
  cases kind <;> cases kind' <;> simp [QueuedAck.ofKind, someAck]

-- As many acks of each kind as leave its queue one short.
theorem MultiSink.Holds.stays_short {m : MultiSink n} {held : List (QueuedAck n)} (h : m.Holds held)
    (hr : m.Roomy) :
    ∃ more : List (QueuedAck n), held.length + more.length = 2 * ackBatchLimit - 2 ∧
      ∃ m', m.run (more.map QueuedAck.call) = some (m', []) := by
  have hlength := h.length_eq
  obtain ⟨hfast, hslow⟩ := h.counts_lt hr
  refine ⟨List.replicate (ackBatchLimit - 1 - m.pendingCounts.fast) (someAck n .fast) ++
    List.replicate (ackBatchLimit - 1 - m.pendingCounts.slow) (someAck n .slow), ?_,
    h.run_quiet hr fun kind => ?_⟩
  · rw [List.length_append, List.length_replicate, List.length_replicate]
    omega
  · rw [QueuedAck.ofKind_append, QueuedAck.ofKind_append, List.length_append, List.length_append,
      length_replicate_someAck, length_replicate_someAck, ← h.pending]
    cases kind with
    | fast =>
        have hcount : m.pendingCounts.fast = (m.pending .fast).length := h.fast_count
        simp only [if_true, reduceCtorEq, if_false]
        omega
    | slow =>
        have hcount : m.pendingCounts.slow = (m.pending .slow).length := h.slow_count
        simp only [if_true, reduceCtorEq, if_false]
        omega

theorem acks_bundled (myPid : Fin n) (aliveReplicas : Finset (Fin n)) (calls : List (Call n))
    (hacks : ∀ call ∈ calls, call.IsAck) :
    ∃ m bundles, (connected myPid aliveReplicas).run calls = some (m, bundles) ∧
      (bundles.flatMap (·.acks) ++ (m.pendingFast ++ m.pendingSlow)).Perm
        ((queuedBy calls).map (·.ack)) ∧
      (∀ kind, (bundles.flatMap (·.acks)).filter (ackKind ·.2 = some kind) ++ m.pending kind =
        ((queuedBy calls).map (·.ack)).filter (ackKind ·.2 = some kind)) ∧
      (∃ segments held, queuedBy calls = segments.flatten ++ held ∧
        List.Forall₂ (fun bundle segment =>
          bundle.acks.Perm (segment.map (·.ack)) ∧
            ∀ dest, dest ∈ bundle.dests ↔ dest ≠ myPid ∧
              (dest ∈ aliveReplicas ∨ ∃ queued ∈ segment, queued.requester = some dest))
          bundles segments) ∧
      m.pendingCounts.fast = m.pendingFast.length ∧ m.pendingFast.length < ackBatchLimit ∧
      m.pendingCounts.slow = m.pendingSlow.length ∧ m.pendingSlow.length < ackBatchLimit ∧
      ∃ room, m.pendingCounts.room = some room ∧
        (∀ more : List (QueuedAck n), more.length = room →
          ∃ m' sent, m.run (more.map QueuedAck.call) = some (m', sent) ∧ sent ≠ []) ∧
        ∃ more : List (QueuedAck n), more.length = room - 1 ∧
          ∃ m', m.run (more.map QueuedAck.call) = some (m', []) := by
  obtain ⟨m, bundles, held, hrun, hp⟩ :=
    (holds_connected myPid aliveReplicas).run (roomy_connected myPid aliveReplicas) hacks
  refine ⟨m, bundles, hrun, hp.carried_perm, fun kind => ?_, ?_, hp.holds.fast_count, hp.roomy .fast,
    hp.holds.slow_count, hp.roomy .slow, _, hp.holds.room_eq hp.roomy, fun more hlength => ?_, ?_⟩
  · rw [hp.kind_order, QueuedAck.ofKind_eq_filter]
    rfl
  · obtain ⟨segments, hseg, hcarry⟩ := hp.carried
    refine ⟨segments, held, hseg, hcarry.imp fun bundle segment hb => ⟨?_, fun dest => ?_⟩⟩
    · rw [hb.acks]
      exact QueuedAck.perm_kinds segment
    · rw [hb.dests]
      simp [connected]
  · have hlt := hp.holds.length_eq
    obtain ⟨hfast, hslow⟩ := hp.holds.counts_lt hp.roomy
    exact hp.holds.flushes hp.roomy (by omega)
  · obtain ⟨more, hlength, hquiet⟩ := hp.holds.stays_short hp.roomy
    exact ⟨more, by omega, hquiet⟩

-- Seventeen fast acks fill a bundle, the last of them owed to a process that is no replica.
theorem acks_bundled_full :
    ∃ m bundles, (connected (0 : Fin 3) {0, 1}).run
        (List.replicate 16 (someAck 3 .fast).call ++
          [.queueAck 5 (.accept ⟨0, rfl⟩ (Deps.DepSet.new 3)) (some 2), (someAck 3 .slow).call]) =
        some (m, bundles) ∧ m.pendingFast.length < ackBatchLimit := by
  obtain ⟨m, bundles, hrun, h⟩ := acks_bundled (0 : Fin 3) {0, 1}
    (List.replicate 16 (someAck 3 .fast).call ++
      [.queueAck 5 (.accept ⟨0, rfl⟩ (Deps.DepSet.new 3)) (some 2), (someAck 3 .slow).call])
    (by
      intro call hcall
      rcases List.mem_append.mp hcall with hcall | hcall
      · rw [List.eq_of_mem_replicate hcall]
        rfl
      · simp only [List.mem_cons, List.not_mem_nil, or_false] at hcall
        rcases hcall with rfl | rfl
        · rfl
        · rfl)
  exact ⟨m, bundles, hrun, h.2.2.2.2.1⟩

end KCensus.Sinks

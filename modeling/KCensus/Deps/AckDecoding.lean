import KCensus.Deps.Backlog

namespace KCensus.Deps

variable {n : Nat} [NeZero n]

omit [NeZero n] in
theorem hasPreaccept_recordPreaccept (i : Instance n) (src : Fin n) (deps : DepSet n) :
    (i.recordPreaccept src deps).hasPreaccept src = true := by
  unfold Instance.recordPreaccept
  split
  · rename_i h
    exact h
  · simp [Instance.hasPreaccept]

-- A process counts its own vote for as long as it keeps the instance.
def OwnVote (c : Cluster n) (_ : List (Fin n × Event n)) (p : Fin n) (s : DepShard n) : Prop :=
  c.inFastQuorum p = true → ∀ id i, s.instances.get id = some i → i.hasPreaccept p = true

namespace OwnVote

variable {c : Cluster n} {hist : List (Fin n × Event n)} {p : Fin n} {s s' : DepShard n}

omit [NeZero n] in
theorem opened (hv : c.inFastQuorum p = true) (deps : DepSet n) (commands : List (Command n)) :
    (Instance.opened c p deps commands).hasPreaccept p = true := by
  have hown : ((Instance.new p (c.leader p) commands deps).recordPreaccept p deps).hasPreaccept p =
      true := hasPreaccept_recordPreaccept _ _ _
  unfold Instance.opened
  simp only [hv, if_true]
  split
  · exact hasPreaccept_recordPreaccept _ p deps
  · exact hown

omit [NeZero n] in
theorem voted (deps : DepSet n) (i : Instance n) : (i.voted c p deps).hasPreaccept p = true := by
  unfold Instance.voted
  split
  · exact hasPreaccept_recordPreaccept _ p deps
  · exact hasPreaccept_recordPreaccept _ p deps

omit [NeZero n] in
theorem preAccepted (hv : c.inFastQuorum p = true) (src : Fin n) (deps myDeps : DepSet n)
    {i : Instance n} (hs : i.isSettled = false) :
    (i.preAccepted c p src deps myDeps).hasPreaccept p = true := by
  unfold Instance.preAccepted
  simp only [Instance.settled_proposedBy, hs, hv, Bool.false_eq_true, if_false, if_true]
  exact voted _ _

theorem move (h : OwnVote c hist p s) {heard : Fin n → Packet n → Prop}
    (hm : DepShard.Move c p heard s s') : OwnVote c hist p s' := by
  intro hv id i' hi'
  cases hi : s.instances.get id with
  | none =>
    rcases hm.born hi hi' with ⟨commands, -, -, rfl⟩ | ⟨src, deps, commands, -, rfl⟩
    · exact opened hv _ _
    · exact preAccepted hv _ _ _ rfl
  | some i =>
    rcases hm.grown hi with ⟨j, hj, hg⟩ | ⟨-, rfl⟩
    · rw [hi'] at hj
      cases hj
      exact hg.votes _ (h hv id i hi)
    · rw [DepShard.execute, DepShard.withInstance_some hi] at hi'
      simp only [InstanceTable.get_remove, if_true] at hi'
      cases hi'

theorem kept : Kept c (OwnVote c) where
  new := fun p _ id i h => by simp [DepShard.new] at h
  clear := fun h => h
  other := fun _ h => h
  arrive := fun hsc _ _ _ ha _ => by
    obtain ⟨sinks, reads, rfl⟩ := ha.same
    exact hsc.own
  move := fun hsc hm _ => hsc.own.move hm

end OwnVote

namespace World

variable {c : Cluster n} {w : World n} {p src : Fin n} {id : Uid}

-- A message that has yet to be processed: on its link, or in the queue of the loop.
def Ahead (w : World n) (src p : Fin n) (msg : DepMsg n) : Prop :=
  (∃ value, ⟨msg, value⟩ ∈ w.link src p) ∨ (src, msg) ∈ w.queues p

theorem Reachable.said_of_ahead (h : Reachable c w) {msg : DepMsg n} (ha : w.Ahead src p msg) :
    ∃ value, saidTo w.hist src p ⟨msg, value⟩ := by
  rcases ha with ⟨value, hm⟩ | hm
  · exact ⟨value, (h.sound.sent src).links p _ hm⟩
  · obtain ⟨⟨value, hh⟩, -⟩ := h.sound.queued p _ hm
    exact ⟨value, (h.sound.arrived p src _ hh).2⟩

-- What the sender of an ack without a set has recorded is what the coordinator proposed.
theorem Reachable.echoed (h : Reachable c w) {value : Option (List (Command n))}
    (hs : said w.hist src ⟨.preAcceptOk id none, value⟩) :
    ∃ d, (src, Event.proposed id d) ∈ w.hist ∧ (requesterOf n id, Event.proposed id d) ∈ w.hist := by
  obtain ⟨-, d, hd, hor⟩ := (h.settled src).1.2.said _ hs
  rcases hor with heq | ⟨-, hc⟩
  · cases heq
  · exact ⟨d, hd, hc⟩

theorem onPreAcceptOk_none {s : DepShard n} {d : DepSet n}
    (hd : ∀ i, s.instances.get id = some i → i.coordinatorDeps = some d) :
    s.onPreAcceptOk c p src id none = s.onPreAcceptOk c p src id (some d) := by
  unfold DepShard.onPreAcceptOk
  cases hi : s.instances.get id with
  | none => rw [DepShard.withInstance_none hi, DepShard.withInstance_none hi]
  | some i =>
    rw [DepShard.withInstance_some hi, DepShard.withInstance_some hi, Option.none_or, hd i hi,
      Option.some_or]

theorem acks_decode (h : Reachable c w) (ha : w.Ahead src p (.preAcceptOk id none)) :
    ∃ d, (∀ d', (src, Event.proposed id d') ∈ w.hist ↔ d' = d) ∧
      (∀ i, (w.shard c src).instances.get id = some i → c.inFastQuorum src = true →
        i.preaccepts src = some d) ∧
      (∀ i, (w.shard c p).instances.get id = some i → i.coordinatorDeps = some d) ∧
      (∀ s : DepShard n, s.instances = (w.shard c p).instances →
        s.onPreAcceptOk c p src id none = s.onPreAcceptOk c p src id (some d)) ∧
      ((src, .preAcceptOk id none) ∈ w.queues p → ¬ (w.shard c p).executed.contains id →
        (w.shard c p).instances.get id ≠ none) := by
  obtain ⟨value, hsaid⟩ := h.said_of_ahead ha
  obtain ⟨d, hd, hcoord⟩ := h.echoed hsaid.said
  have hcr := (h.settled src).1.1
  have hoffer : ∀ i, (w.shard c p).instances.get id = some i → i.coordinatorDeps = some d := by
    intro i hi
    obtain ⟨d', hd'⟩ := Option.ne_none_iff_exists'.1 (h.offered hi)
    have hprop := ((h.settled p).1.2.instances id i hi).coordinatorDeps d' hd'
    rw [hd', (h.settled (requesterOf n id)).1.1.proposal_once id d' d hprop hcoord]
  refine ⟨d, fun d' => ⟨fun hd' => hcr.proposal_once id d' d hd' hd, fun heq => heq ▸ hd⟩,
    fun i hi hv => ?_, hoffer, fun s hs => onPreAcceptOk_none fun i hi => hoffer i (hs ▸ hi),
    fun hq hn => ?_⟩
  · obtain ⟨d', hd'⟩ := Option.isSome_iff_exists.1 (h.kept OwnVote.kept src hv id i hi)
    rw [hd', hcr.proposal_once id d' d (((h.settled src).1.2.instances id i hi).votes src d' hd').2 hd]
  · exact (((h.sound.sane p).known id).1 ((h.waits p).known _ hq id rfl)).resolve_left hn

-- A replica that has nothing to add to what the coordinator proposed.
def echoing : World 2 :=
  World.init.run DepShard.pair [.submit 0 [writeOf 0 0] false, .receive 0 1 false]

theorem acks_decode_echoing :
    ∃ d, ∀ i, (echoing.shard DepShard.pair 0).instances.get (uidAt 0 (0 : Fin 2)) = some i →
      i.coordinatorDeps = some d := by
  have hahead : echoing.Ahead 1 0 (.preAcceptOk (uidAt 0 (0 : Fin 2)) none) :=
    Or.inl ⟨none, by decide +kernel⟩
  obtain ⟨d, -, -, hd, -⟩ := acks_decode (c := DepShard.pair) (Reachable.init.run _) hahead
  exact ⟨d, hd⟩

end World

end KCensus.Deps

import KCensus.Deps.Creation
import Mathlib.Logic.Basic

namespace KCensus.Deps

variable {n : Nat} [NeZero n]

def HoldsPayload (hist : List (Fin n × Event n)) (p : Fin n) (id : Uid) : Prop :=
  (∃ deps commands priority,
    (p, Event.broadcast ⟨.preAccept id deps, some commands⟩ priority) ∈ hist) ∨
  ∃ src deps commands, heardBy hist p src ⟨.preAccept id deps, some commands⟩

omit [NeZero n] in
theorem HoldsPayload.mono {hist : List (Fin n × Event n)} {p : Fin n} {id : Uid}
    (h : HoldsPayload hist p id) (more : List (Fin n × Event n)) :
    HoldsPayload (hist ++ more) p id := by
  rcases h with ⟨deps, commands, priority, h⟩ | ⟨src, deps, commands, h⟩
  · exact Or.inl ⟨deps, commands, priority, List.mem_append_left _ h⟩
  · exact Or.inr ⟨src, deps, commands, heardBy_mono h⟩

omit [NeZero n] in
theorem openedId_of_founds {e : Event n} (h : e.founds = false) : e.openedId = none := by
  unfold Event.openedId
  split
  · cases h
  · rfl

theorem openedId_preAcceptEvents {c : Cluster n} {me src : Fin n} {id : Uid}
    {deps myDeps : DepSet n} {i : Instance n} {e : Event n}
    (he : e ∈ preAcceptEvents c me src id deps myDeps i) : e.openedId = none := by
  obtain ⟨-, rfl | ⟨-, -, rfl⟩ | ⟨_, -, ⟨-, -, rfl⟩ | ⟨-, -, rfl⟩⟩⟩ :=
    DepShard.mem_preAcceptEvents he
  · rfl
  · exact openedId_of_founds (DepShard.founds_ackEvent _ rfl)
  · exact openedId_of_founds (DepShard.founds_ackEvent _ rfl)
  · rfl

def firstOf (k : Nat) (r : Fin n) : List Uid := (List.range k).map (uidAt · r)

omit [NeZero n] in
theorem firstOf_succ (k : Nat) (r : Fin n) : firstOf (k + 1) r = firstOf k r ++ [uidAt k r] := by
  simp [firstOf, List.range_succ]

theorem mem_firstOf {k : Nat} {r : Fin n} {id : Uid} (hr : requesterOf n id = r) :
    id ∈ firstOf k r ↔ indexOf n id < k := by
  subst hr
  unfold firstOf
  rw [List.mem_map]
  constructor
  · rintro ⟨i, hi, hid⟩
    rw [← hid, indexOf_uidAt]
    exact List.mem_range.1 hi
  · intro h
    exact ⟨indexOf n id, List.mem_range.2 h, uidAt_indexOf id⟩

def Numbered (hist : List (Fin n × Event n)) (p : Fin n) (s : DepShard n) : Prop :=
  (logOf hist p).filterMap Event.openedId = firstOf (s.seen.marks p) p

namespace Numbered

variable {c : Cluster n} {hist : List (Fin n × Event n)} {p : Fin n} {s s' : DepShard n}
  {events : List (Event n)}

theorem quiet (h : Numbered hist p s) (hs : s'.seen.marks p = s.seen.marks p)
    (he : ∀ e ∈ events, e.openedId = none) :
    Numbered (hist ++ events.map (Prod.mk p)) p s' := by
  rw [Numbered, logOf_self, List.filterMap_append, List.filterMap_eq_nil_iff.2 he,
    List.append_nil, hs]
  exact h

theorem openedIds_openEvents (c : Cluster n) (p : Fin n) (id : Uid) (deps : DepSet n) (commands : List (Command n)) :
    (openEvents c p id deps commands).filterMap Event.openedId = [id] := by
  unfold openEvents
  split
  · rw [List.filterMap_append, List.filterMap_cons_none
      (openedId_of_founds (DepShard.founds_ackEvent id rfl))]
    rfl
  · rfl

theorem move (hsc : Scene c (fun _ _ _ => True) (fun hist p s => Numbered hist p s) hist p s)
    (hm : DepShard.Move c p (heardBy hist p) s s') (he : s'.sinks = s.sinks ++ events) :
    Numbered (hist ++ events.map (Prod.mk p)) p s' := by
  rcases hm.founds_or he with hf | ⟨hs, -, hq⟩
  · cases hf with
    | start commands _ =>
      rw [DepShard.openInstance_eq] at he ⊢
      rw [← List.append_cancel_left he, Numbered, logOf_self, List.filterMap_append,
        openedIds_openEvents, hsc.own, hsc.sane.nextUid]
      simp only [DepShard.noteSeen, DepSet.insert_marks, requesterOf_uidAt, indexOf_uidAt, if_true]
      rw [Nat.max_eq_right (Nat.le_succ _), firstOf_succ]
    | @learn src id deps commands _ hid hsrc =>
      rw [DepShard.learn_eq] at he ⊢
      rw [← List.append_cancel_left he]
      refine hsc.own.quiet ?_ fun e hmem => ?_
      · have hne : p ≠ requesterOf n id := by
          rw [hid, requesterOf_uidAt]
          exact hsrc.symm
        simp only [DepShard.noteSeen, DepSet.insert_marks, if_neg hne]
      · rcases List.mem_cons.1 hmem with rfl | hmem
        · rfl
        · exact openedId_preAcceptEvents hmem
  · exact hsc.own.quiet (congrArg (DepSet.marks · p) hs) fun e hmem =>
      openedId_of_founds (hq e hmem)

theorem kept : Kept c fun hist p s => Numbered hist p s where
  new := fun _ => rfl
  clear := fun h => h
  other := fun hq h => by
    rw [Numbered, show [(_, _)] = [_].map (Prod.mk _) from rfl, logOf_other hq]
    exact h
  arrive := fun hsc _ _ _ ha he => by
    obtain ⟨hs, -, hq⟩ := ha.founds he
    exact hsc.own.quiet (congrArg (DepSet.marks · _) hs) fun e hmem =>
      openedId_of_founds (hq e hmem)
  move := move

end Numbered

-- Nothing is counted whose payload is not at hand.
def Seen (hist : List (Fin n × Event n)) (p : Fin n) (s : DepShard n) : Prop :=
  ∀ id, s.seen.contains id → HoldsPayload hist p id

namespace Seen

variable {c : Cluster n} {hist : List (Fin n × Event n)} {p : Fin n} {s s' : DepShard n}
  {events : List (Event n)}

theorem quiet (h : Seen hist p s) (hs : s'.seen = s.seen) (more : List (Fin n × Event n)) :
    Seen (hist ++ more) p s' := fun id hid => (h id (hs ▸ hid)).mono more

theorem move (hsc : Scene c (fun _ _ _ => True) (fun hist p s => Seen hist p s) hist p s)
    (hm : DepShard.Move c p (heardBy hist p) s s') (he : s'.sinks = s.sinks ++ events) :
    Seen (hist ++ events.map (Prod.mk p)) p s' := by
  rcases hm.founds_or he with hf | ⟨hs, -, -⟩
  · cases hf with
    | start commands _ =>
      have hnext := hsc.sane.nextUid
      rw [DepShard.openInstance_eq] at he ⊢
      rw [← List.append_cancel_left he]
      intro id hid
      simp only [DepShard.noteSeen, hnext] at hid
      rcases (DepShard.seen_insert_next id).1 hid with hid | rfl
      · exact (hsc.own id hid).mono _
      · refine Or.inl ⟨s.depsFor c (keysOf commands), commands, none,
          List.mem_append_right _ (List.mem_map.2 ⟨_, ?_, rfl⟩)⟩
        rw [← hnext]
        simp [openEvents]
    | @learn src id deps commands hheard hid hsrc =>
      rw [DepShard.learn_eq] at he ⊢
      rw [← List.append_cancel_left he]
      intro id' hid'
      simp only [DepShard.noteSeen, hid] at hid'
      rcases (DepShard.seen_insert_next id').1 hid' with hid' | rfl
      · exact (hsc.own id' hid').mono _
      · exact Or.inr ⟨src, deps, commands, heardBy_mono (hid ▸ hheard)⟩
  · exact hsc.own.quiet hs _

theorem kept : Kept c fun hist p s => Seen hist p s where
  new := fun _ id hid => absurd hid (DepSet.not_contains_new id)
  clear := fun h => h
  other := fun _ h => h.quiet rfl _
  arrive := fun hsc _ _ _ ha he => hsc.own.quiet (ha.founds he).1 _
  move := move

end Seen

namespace World

variable {c : Cluster n} {w : World n} {p : Fin n}

theorem newId_goesTo {dest : Fin n} (hd : dest ≠ p) {e : Event n}
    (he : e.Valid c p ∨ ∃ src packet, e = .received src packet) :
    (e.goesTo c p dest).bind newId = e.openedId := by
  rw [← newId_sendsTo hd he]
  cases e with
  | queueAck msg requester =>
    have hack : msg.isAck = true := he.elim (fun h => h.2.1) fun ⟨_, _, h⟩ => nomatch h
    simp only [Event.goesTo, Event.sendsTo]
    split
    · cases msg <;> first | rfl | cases hack
    · rfl
  | _ => rfl

theorem Reachable.newIds_got (h : Reachable c w) {src : Fin n} (hne : src ≠ p) :
    (gotFrom w.hist p src).filterMap newId = firstOf ((w.shard c p).seen.marks src) src := by
  have hack : ∀ msg : DepMsg n, msg.isAck = true → newId ⟨msg, none⟩ = none := by
    intro msg hm
    cases msg <;> first | rfl | cases hm
  have hlane : Lane c p newId := .direct hack
  have hfifo := h.fifo hlane hne
  have hsent : (sentTo c w.hist src p).filterMap newId =
      firstOf ((w.shard c src).seen.marks src) src := by
    rw [← h.kept Numbered.kept src, sentTo, List.filterMap_filterMap]
    exact List.filterMap_congr fun e he =>
      newId_goesTo hne.symm (h.sound.valid src e (mem_logOf.1 he))
  obtain ⟨hle, hlink⟩ := h.sound.ordered src p hne
  have hway : (w.sinks src).onWay newId p = (w.link src p).filterMap newId := by
    rw [MultiSink.onWay, List.filterMap_eq_nil_iff.2 fun msg hm =>
      hack msg ((h.sound.acks src).fast msg hm), List.append_nil]
    rfl
  have hsplit : firstOf ((w.shard c src).seen.marks src) src =
      firstOf ((w.shard c p).seen.marks src) src ++ (w.link src p).filterMap newId := by
    have hrange := List.range'_append_1 (s := 0) (m := (w.shard c p).seen.marks src)
      (n := (w.shard c src).seen.marks src - (w.shard c p).seen.marks src)
    rw [Nat.zero_add, Nat.add_sub_cancel' hle] at hrange
    rw [hlink, firstOf, firstOf, ← List.map_append, List.range_eq_range', List.range_eq_range', hrange]
  rw [Fifo, hsent, hway, hsplit] at hfifo
  exact (List.append_cancel_right hfifo).symm

theorem Reachable.seen_iff (h : Reachable c w) (id : Uid) :
    (w.shard c p).seen.contains id ↔ HoldsPayload w.hist p id := by
  refine ⟨h.kept Seen.kept p id, ?_⟩
  rintro (⟨deps, commands, priority, hm⟩ | ⟨src, deps, commands, hheard⟩)
  · have hcreated := h.kept Created.kept p
    exact (hcreated.seen id).2 ⟨commands, (hcreated.offer id deps commands priority hm).1⟩
  · have hbase := h.sound.toBase
    obtain ⟨hne, hsaid⟩ := hbase.arrived p src _ hheard
    have hr : requesterOf n id = src := (hbase.faithful.packet hsaid.said).1
    have hmem : id ∈ (gotFrom w.hist p src).filterMap newId := by
      refine List.mem_filterMap.2 ⟨⟨.preAccept id deps, some commands⟩, ?_, rfl⟩
      exact List.mem_filterMap.2 ⟨_, mem_logOf.2 hheard, if_pos rfl⟩
    rw [h.newIds_got hne, mem_firstOf hr] at hmem
    rwa [DepSet.contains_iff, hr]

theorem seen_is_exact (h : Reachable c w) (p : Fin n) :
    (∀ id, (w.shard c p).seen.contains id ↔ HoldsPayload w.hist p id) ∧
    (∀ id, (w.shard c p).seen.contains id ↔
      Xor ((w.shard c p).executed.contains id) ((w.shard c p).instances.get id ≠ none)) ∧
    (∀ keys id, ((w.shard c p).depsFor c keys).contains id → HoldsPayload w.hist p id) ∧
    ∀ w' s₁ s' s, Turn c w w' p s₁ s' →
      DepShard.Moves c p (heardBy (w.hist ++ s₁.sinks.map (Prod.mk p)) p) s₁ s →
      ∀ keys id, (s.depsFor c keys).contains id →
        HoldsPayload (w.hist ++ s.sinks.map (Prod.mk p)) p id := by
  have hsane := h.sound.sane p
  refine ⟨fun id => h.seen_iff id, fun id => ?_, fun keys id hid => ?_,
    fun w' s₁ s' s ht hm keys id hid => ?_⟩
  · rw [hsane.known, xor_iff_or_and_not_and]
    refine (and_iff_left ?_).symm
    rintro ⟨he, hg⟩
    obtain ⟨i, hi⟩ := Option.ne_none_iff_exists'.1 hg
    exact hsane.live id i hi he
  · exact (h.seen_iff id).1 (DepShard.depsFor_le (fun key d hd => (hsane.conflicts key d hd).2)
      keys id hid)
  · have hsc := ht.scene h Seen.kept (fun q => h.kept Seen.kept q) hm
    exact hsc.own id (DepShard.depsFor_le (fun key d hd => (hsc.sane.conflicts key d hd).2)
      keys id hid)

-- A write that has run everywhere, and its coordinator gone to sleep.
def rested : World 2 :=
  World.init.run DepShard.pair
    [.submit 0 [⟨0, 0, [], false, 0, none⟩] false, .receive 0 1 false, .receive 1 0 false,
      .receive 0 1 false, .drain 0, .sleep 0]

example : (match rested.slots 0 with
    | .asleep state => decide (state.watermark.contains (uidAt 0 (0 : Fin 2)))
    | .awake _ => false) = true := by decide +kernel

theorem seen_is_exact_rested : HoldsPayload rested.hist 0 (uidAt 0 (0 : Fin 2)) ∧
    ¬ HoldsPayload rested.hist 0 (uidAt 1 (0 : Fin 2)) := by
  have hseen := (seen_is_exact (Reachable.init.run _ : Reachable DepShard.pair rested) 0).1
  refine ⟨(hseen _).1 ?_, fun h => ?_⟩
  · decide +kernel
  · have hcontains := (hseen _).2 h
    revert hcontains
    decide +kernel

end World

end KCensus.Deps

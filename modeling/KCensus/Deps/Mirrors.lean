import KCensus.Deps.Pooled

namespace KCensus.Deps

variable {n : Nat} [NeZero n] {c : Cluster n} {me : Fin n}

-- The shards touched in one event, but for some of those with nothing to hand over.
inductive Drops (dull : Finset Nat) : List Nat → List Nat → Prop where
  | nil : Drops dull [] []
  | keep {us ts : List Nat} (k : Nat) : Drops dull us ts → Drops dull (k :: us) (k :: ts)
  | drop {us ts : List Nat} {k : Nat} : k ∈ dull → Drops dull us ts → Drops dull (k :: us) ts

namespace Drops

variable {dull dull' : Finset Nat} {us ts : List Nat}

theorem mono (h : Drops dull us ts) (hd : dull ⊆ dull') : Drops dull' us ts := by
  induction h with
  | nil => exact .nil
  | keep k _ ih => exact .keep k ih
  | drop hk _ ih => exact .drop (hd hk) ih

theorem snoc (h : Drops dull us ts) (k : Nat) : Drops dull (us ++ [k]) (ts ++ [k]) := by
  induction h with
  | nil => exact .keep k .nil
  | keep j _ ih => exact .keep j ih
  | drop hj _ ih => exact .drop hj ih

theorem skip (h : Drops dull us ts) {k : Nat} (hk : k ∈ dull) : Drops dull (us ++ [k]) ts := by
  induction h with
  | nil => exact .drop hk .nil
  | keep j _ ih => exact .keep j ih
  | drop hj _ ih => exact .drop hj ih

end Drops

-- The tasks of a bundle of acks.
def Gentle (todo : List (Task n)) : Prop :=
  ∀ task ∈ todo, ∃ k src msg, task = .applyDepMsg k src ⟨msg, none⟩ ∧ DepMsg.isAck msg = true

-- A shard that an event has touched without leaving it anything to hand over.
structure Dull (q : DepConsensus n (Nat → DepShard n)) (k : Nat) : Prop where
  free : ∀ id, (q.pool k).instances.get id = none
  ready : (q.pool k).ready = []
  gentle : Gentle q.todo
  queue : q.serving = k → q.queue = []

-- A process with a pool against one whose shards never sleep, in the middle of one event.
structure Mirrors (c : Cluster n) (me : Fin n) (dull : Finset Nat) (p : DepConsensus n (DepPool n))
    (q : DepConsensus n (Nat → DepShard n)) : Prop where
  pool : PoolMirrors c me p.pool q.pool
  sinks : p.sinks = q.sinks
  busy : p.busy = q.busy
  todo : p.todo = q.todo
  queue : p.queue = q.queue
  serving : p.queue ≠ [] → p.serving = q.serving ∧ p.pool.active p.serving ≠ none
  awake : ∀ k ∈ p.touched, p.pool.active k ≠ none
  touched : Drops dull q.touched p.touched
  quiet : ∀ k ∈ dull, Dull q k
  idle : q.busy = false → dull = ∅

def Respects (f : DepShard n → DepShard n × List (Held n)) : Prop :=
  ∀ s s' : DepShard n, s.Alike s' → (f s).1.Alike (f s').1 ∧ (f s').2 = (f s).2

-- The pool at the end of a turn of the loop in `run`, which has drained the shards it touched and has
-- let those of `slept` fall asleep that can.
def DepConsensus.drowsy (c : Cluster n) (me : Fin n) (slept : List Nat)
    (p : DepConsensus n (DepPool n)) : DepPool n :=
  ((p.drainAll (ShardStore.pooled c me) c me p.touched).1.sleepAll (ShardStore.pooled c me) slept).pool

namespace Mirrors

variable {dull : Finset Nat} {p : DepConsensus n (DepPool n)}
  {q : DepConsensus n (Nat → DepShard n)} {f : DepShard n → DepShard n × List (Held n)} {k : Nat}

theorem wake (h : Mirrors c me dull p q) (k : Nat) :
    Mirrors c me dull (p.wake (ShardStore.pooled c me) k) (q.wake ShardStore.neverSleeping k) ∧
      (p.wake (ShardStore.pooled c me) k).pool.active k ≠ none := by
  obtain ⟨hpool, hk, hstay⟩ := h.pool.wake k
  refine ⟨⟨hpool, h.sinks, h.busy, h.todo, h.queue, fun hq => ?_, fun k' hk' => ?_,
    h.touched.snoc k, fun k' hk' => ?_, h.idle⟩, hk⟩
  · obtain ⟨heq, ha⟩ := h.serving hq
    exact ⟨heq, hstay _ ha⟩
  · rcases List.mem_append.1 hk' with hk' | hk'
    · exact hstay k' (h.awake k' hk')
    · rw [List.mem_singleton.1 hk']
      exact hk
  · have hd := h.quiet k' hk'
    exact ⟨hd.free, hd.ready, hd.gentle, hd.queue⟩

theorem turn (h : Mirrors c me dull p q) (hk : p.pool.active k ≠ none) (hf : Respects f)
    (hb : q.busy = true)
    (hdull : k ∈ dull → (∀ id, (f (q.pool k)).1.instances.get id = none) ∧
      (f (q.pool k)).1.ready = [] ∧ (f (q.pool k)).2 = []) :
    Mirrors c me dull (p.turn (ShardStore.pooled c me) c me k f).1
        (q.turn ShardStore.neverSleeping c me k f).1 ∧
      (p.turn (ShardStore.pooled c me) c me k f).2 =
        (q.turn ShardStore.neverSleeping c me k f).2 := by
  obtain ⟨⟨shardId, shard⟩, hp⟩ := h.pool.activeShard_of_active hk
  obtain ⟨hid, halike⟩ := h.pool.awake k _ hp
  obtain rfl : shardId = k := hid
  obtain ⟨hshard, hqueue⟩ := hf _ _ halike
  have hclean : ({ (f (q.pool shardId)).1 with sinks := [] } : DepShard n).Alike
      { (f shard).1 with sinks := [] } := by
    obtain ⟨t, ht, heq⟩ := hshard
    rw [heq]
    exact ⟨t, ht, rfl⟩
  obtain ⟨hpool, hactive⟩ := h.pool.writeBack hp hclean
  have hturn : p.turn (ShardStore.pooled c me) c me shardId f =
      ({ p with
          pool := (ShardStore.pooled c me).writeBack shardId
            ⟨shardId, { (f shard).1 with sinks := [] }⟩ p.pool
          sinks := (f shard).1.sinks.foldl (ProcessSink.apply c me shardId) p.sinks
          serving := shardId
          queue := (f shard).2 },
        (f shard).1.sinks.map (Prod.mk shardId)) := by
    have hactive : (ShardStore.pooled c me).activeShard shardId p.pool = some ⟨shardId, shard⟩ := hp
    simp only [DepConsensus.turn, hactive]
  rw [hturn, DepConsensus.turn_neverSleeping, hshard.sinks, h.sinks]
  refine ⟨⟨hpool, rfl, h.busy, h.todo, hqueue, fun _ => ⟨rfl, ?_⟩, fun k' hk' => ?_, h.touched,
    fun k' hk' => ?_, fun hb' => (by cases hb.symm.trans hb')⟩, rfl⟩
  · exact fun hn => hk ((hactive shardId).symm.trans hn)
  · exact fun hn => h.awake k' hk' ((hactive k').symm.trans hn)
  · have hd := h.quiet k' hk'
    rcases eq_or_ne k' shardId with rfl | hne
    · obtain ⟨hfree, hready, hq⟩ := hdull hk'
      refine ⟨?_, ?_, hd.gentle, fun _ => hq⟩
      · simp only [Function.update_self]
        exact hfree
      · simp only [Function.update_self]
        exact hready
    · refine ⟨?_, ?_, hd.gentle, fun heq => absurd heq (Ne.symm hne)⟩
      · simp only [Function.update_of_ne hne]
        exact hd.free
      · simp only [Function.update_of_ne hne]
        exact hd.ready

theorem noop (h : Mirrors c me dull p q) (hqueue : p.queue = []) (hb : q.busy = true)
    (hclean : (q.pool k).sinks = []) (hg : Gentle q.todo) (src : Fin n) {packet : Packet n}
    (hnoop : (ShardStore.pooled c me).isNoop k packet.msg p.pool = true) :
    Mirrors c me (insert k dull) p ((q.wake ShardStore.neverSleeping k).turn
        ShardStore.neverSleeping c me k fun s =>
          (s.emit (.received src packet)).handle c me src packet).1 ∧
      ((q.wake ShardStore.neverSleeping k).turn ShardStore.neverSleeping c me k fun s =>
        (s.emit (.received src packet)).handle c me src packet).2 = [(k, .received src packet)] := by
  have hno : (!ShardPool.isActive k p.pool &&
      packet.msg.id.any (isNoopWhenAsleep (ShardPool.sleepingState k p.pool))) = true := hnoop
  rw [Bool.and_eq_true, Option.any_eq_true] at hno
  obtain ⟨hactive, id, hid, hcontains⟩ := hno
  have ha : p.pool.active k = none := by
    simpa [ShardPool.isActive] using hactive
  have halike := h.pool.asleep k ha
  have hexecuted : (q.pool k).executed.contains id := by
    rw [← halike.executed]
    exact Or.inl (of_decide_eq_true hcontains)
  have hhandle : ((q.pool k).emit (.received src packet)).handle c me src packet =
      ((q.pool k).emit (.received src packet), []) :=
    DepShard.handle_executed hid hexecuted
  have hsame : ({ (q.pool k).emit (.received src packet) with sinks := [] } : DepShard n) =
      q.pool k := by
    generalize q.pool k = s at hclean
    cases s
    cases hclean
    rfl
  have hturn : (q.wake ShardStore.neverSleeping k).turn ShardStore.neverSleeping c me k
      (fun s => (s.emit (.received src packet)).handle c me src packet) =
      ({ q with serving := k, queue := [], touched := q.touched ++ [k] },
        [(k, .received src packet)]) := by
    have hwake : (q.wake ShardStore.neverSleeping k).pool k = q.pool k := rfl
    rw [DepConsensus.turn_neverSleeping, hwake, hhandle]
    dsimp only
    rw [hsame]
    have hpool : Function.update (q.wake ShardStore.neverSleeping k).pool k (q.pool k) = q.pool :=
      Function.update_eq_self _ _
    rw [hpool, DepShard.emit, hclean]
    rfl
  rw [hturn]
  refine ⟨⟨h.pool, h.sinks, h.busy, h.todo, hqueue, fun hne => absurd hqueue hne, h.awake,
    (h.touched.mono (Finset.subset_insert k dull)).skip (Finset.mem_insert_self k dull),
    fun k' hk' => ?_, fun hb' => (by cases hb.symm.trans hb')⟩, rfl⟩
  rcases Finset.mem_insert.1 hk' with rfl | hk'
  · refine ⟨fun v => ?_, ?_, hg, fun _ => rfl⟩
    · rw [← halike.get]
      exact InstanceTable.get_new v
    · exact halike.ready.symm
  · have hd := h.quiet k' hk'
    exact ⟨hd.free, hd.ready, hd.gentle, fun _ => rfl⟩

theorem takeTask (h : Mirrors c me dull p q) {task : Task n} {rest : List (Task n)}
    (htodo : q.todo = task :: rest) :
    Mirrors c me dull { p with todo := rest } { q with todo := rest } := by
  refine ⟨h.pool, h.sinks, h.busy, rfl, h.queue, h.serving, h.awake, h.touched, fun k hk => ?_, h.idle⟩
  have hd := h.quiet k hk
  exact ⟨hd.free, hd.ready,
    fun t ht => hd.gentle t (htodo ▸ List.mem_cons_of_mem _ ht), hd.queue⟩

-- What is left of an event is one task, a bundle of acks or what a client has submitted.
def Shaped (todo : List (Task n)) : Prop :=
  todo.length ≤ 1 ∨ Gentle todo ∨ ∀ task ∈ todo, ∀ k src packet, task ≠ .applyDepMsg k src packet

theorem perform (h : Mirrors c me dull p q) {task : Task n} {rest : List (Task n)}
    (htodo : q.todo = task :: rest) (hqueue : p.queue = []) (hb : q.busy = true)
    (hclean : ∀ k, (q.pool k).sinks = []) (hshape : Shaped q.todo) :
    (∃ dull', Mirrors c me dull'
      (({ p with todo := rest } : DepConsensus n _).perform (ShardStore.pooled c me) c me task).1
      (({ q with todo := rest } : DepConsensus n _).perform ShardStore.neverSleeping c me task).1) ∧
    (({ p with todo := rest } : DepConsensus n _).perform (ShardStore.pooled c me) c me task).2 =
      (({ q with todo := rest } : DepConsensus n _).perform ShardStore.neverSleeping c me task).2 := by
  have h' := h.takeTask htodo
  have hgentle : ∀ k, k ∈ dull → ∃ k src msg, task = .applyDepMsg k src ⟨msg, none⟩ ∧
      DepMsg.isAck msg = true := fun k hk =>
    (h.quiet k hk).gentle task (htodo ▸ List.mem_cons_self)
  have hturn : ∀ (k : Nat) (f : DepShard n → DepShard n × List (Held n)), Respects f →
      (k ∈ dull → (∀ id, (f (q.pool k)).1.instances.get id = none) ∧
        (f (q.pool k)).1.ready = [] ∧ (f (q.pool k)).2 = []) →
      (∃ dull', Mirrors c me dull'
        ((({ p with todo := rest } : DepConsensus n _).wake (ShardStore.pooled c me) k).turn
          (ShardStore.pooled c me) c me k f).1
        ((({ q with todo := rest } : DepConsensus n _).wake ShardStore.neverSleeping k).turn
          ShardStore.neverSleeping c me k f).1) ∧
      ((({ p with todo := rest } : DepConsensus n _).wake (ShardStore.pooled c me) k).turn
          (ShardStore.pooled c me) c me k f).2 =
        ((({ q with todo := rest } : DepConsensus n _).wake ShardStore.neverSleeping k).turn
          ShardStore.neverSleeping c me k f).2 := by
    intro k f hf hdull
    obtain ⟨hwake, hk⟩ := h'.wake k
    obtain ⟨hm, hlog⟩ := hwake.turn hk hf hb hdull
    exact ⟨⟨dull, hm⟩, hlog⟩
  cases task with
  | applyDepMsg k src packet =>
    have hrest : Gentle rest := by
      rw [htodo] at hshape
      rcases hshape with hlen | hg | hno
      · intro t ht
        cases rest with
        | nil => cases ht
        | cons _ _ => simp at hlen
      · exact fun t ht => hg t (List.mem_cons_of_mem _ ht)
      · exact absurd rfl (hno _ List.mem_cons_self k src packet)
    cases hnoop : (ShardStore.pooled c me).isNoop k packet.msg p.pool with
    | true =>
      obtain ⟨hm, hlog⟩ := h'.noop hqueue hb (hclean k) hrest src hnoop
      refine ⟨⟨insert k dull, ?_⟩, ?_⟩
      · rw [DepConsensus.perform, if_pos hnoop]
        exact hm
      · rw [DepConsensus.perform, if_pos hnoop]
        exact hlog.symm
    | false =>
      have hperform : ({ p with todo := rest } : DepConsensus n _).perform (ShardStore.pooled c me) c
          me (.applyDepMsg k src packet) =
          (({ p with todo := rest } : DepConsensus n _).wake (ShardStore.pooled c me) k).turn
            (ShardStore.pooled c me) c me k fun s =>
              (s.emit (.received src packet)).handle c me src packet := by
        rw [DepConsensus.perform, if_neg (by simp [hnoop])]
      rw [hperform]
      refine hturn k (fun s => (s.emit (.received src packet)).handle c me src packet)
        (fun s s' hs => (hs.emit _).handle src packet) fun hk => ?_
      obtain ⟨k', src', msg, heq, hm⟩ := hgentle k hk
      cases heq
      have hd := h.quiet k hk
      exact DepShard.handle_ack hd.free hd.ready hm
  | submit k commands =>
    refine hturn k _ (fun s s' hs => ⟨(hs.emit _).submit commands, rfl⟩) fun hk => ?_
    obtain ⟨k', src, msg, heq, -⟩ := hgentle k hk
    cases heq
  | submitRead k command =>
    refine hturn k _ (fun s s' hs => ⟨hs.submitRead command, rfl⟩) fun hk => ?_
    obtain ⟨k', src, msg, heq, -⟩ := hgentle k hk
    cases heq

theorem deliver (h : Mirrors c me dull p q) (hne : q.queue ≠ []) (hb : q.busy = true) :
    Mirrors c me dull
      (p.turn (ShardStore.pooled c me) c me p.serving fun s => s.deliverTurn c me p.queue).1
      (q.turn ShardStore.neverSleeping c me q.serving fun s => s.deliverTurn c me q.queue).1 ∧
    (p.turn (ShardStore.pooled c me) c me p.serving fun s => s.deliverTurn c me p.queue).2 =
      (q.turn ShardStore.neverSleeping c me q.serving fun s => s.deliverTurn c me q.queue).2 := by
  obtain ⟨hserving, hk⟩ := h.serving (h.queue ▸ hne)
  rw [h.queue]
  rw [hserving] at hk ⊢
  exact h.turn hk (fun s s' hs => hs.deliverTurn q.queue) hb fun hd =>
    absurd ((h.quiet _ hd).queue rfl) hne

theorem drain (h : Mirrors c me dull p q) (hk : p.pool.active k ≠ none) (hb : q.busy = true) :
    Mirrors c me dull (p.drain (ShardStore.pooled c me) c me k).1
        (q.drain ShardStore.neverSleeping c me k).1 ∧
      (p.drain (ShardStore.pooled c me) c me k).2 = (q.drain ShardStore.neverSleeping c me k).2 := by
  refine h.turn hk (fun s s' hs => ?_) hb fun hd => ?_
  · rw [hs.ready]
    split
    · exact ⟨hs, rfl⟩
    · exact ⟨(hs.emit _).drainReady, rfl⟩
  · have hq := h.quiet k hd
    rw [if_pos hq.ready]
    exact ⟨hq.free, hq.ready, rfl⟩

theorem drain_dull (h : Mirrors c me dull p q) (hk : k ∈ dull) (hqueue : p.queue = [])
    (hclean : (q.pool k).sinks = []) :
    Mirrors c me dull p (q.drain ShardStore.neverSleeping c me k).1 ∧
      (q.drain ShardStore.neverSleeping c me k).2 = [] := by
  have hready := (h.quiet k hk).ready
  have hdrain : q.drain ShardStore.neverSleeping c me k = ({ q with serving := k, queue := [] }, []) := by
    have hsame : ({ q.pool k with sinks := [] } : DepShard n) = q.pool k := by
      generalize q.pool k = s at hclean
      cases s
      cases hclean
      rfl
    rw [DepConsensus.drain, DepConsensus.turn_neverSleeping, if_pos hready]
    dsimp only
    rw [hsame, Function.update_eq_self, hclean]
    rfl
  rw [hdrain]
  refine ⟨⟨h.pool, h.sinks, h.busy, h.todo, hqueue, fun hne => absurd hqueue hne, h.awake, h.touched,
    fun k' hk' => ?_, h.idle⟩, rfl⟩
  have hd := h.quiet k' hk'
  exact ⟨hd.free, hd.ready, hd.gentle, fun _ => rfl⟩

theorem active_turn (c : Cluster n) (me : Fin n) (k : Nat) (f : DepShard n → DepShard n × List (Held n))
    (p : DepConsensus n (DepPool n)) :
    (p.turn (ShardStore.pooled c me) c me k f).1.pool.active = p.pool.active := by
  rw [DepConsensus.turn]
  split
  · rfl
  · dsimp only [ShardStore.pooled]
    split <;> rfl

theorem drainAll (h : Mirrors c me dull p q) (hqueue : p.queue = []) (hb : q.busy = true)
    (hclean : ∀ k, (q.pool k).sinks = []) {us ts : List Nat} (hd : Drops dull us ts)
    (ha : ∀ k ∈ ts, p.pool.active k ≠ none) :
    Mirrors c me dull (p.drainAll (ShardStore.pooled c me) c me ts).1
        (q.drainAll ShardStore.neverSleeping c me us).1 ∧
      (p.drainAll (ShardStore.pooled c me) c me ts).2 =
        (q.drainAll ShardStore.neverSleeping c me us).2 := by
  induction hd generalizing p q with
  | nil => exact ⟨h, rfl⟩
  | keep k _ ih =>
    obtain ⟨hm, hlog⟩ := h.drain (ha k List.mem_cons_self) hb
    have hqueue' : (p.drain (ShardStore.pooled c me) c me k).1.queue = [] := by
      rw [hm.queue, DepConsensus.drain, DepConsensus.turn_neverSleeping]
      dsimp only
      split <;> rfl
    obtain ⟨hm', hlog'⟩ := ih hm hqueue' hb (clean_turn c me q hclean k _) fun j hj => by
      rw [DepConsensus.drain, active_turn]
      exact ha j (List.mem_cons_of_mem _ hj)
    refine ⟨hm', ?_⟩
    simp only [DepConsensus.drainAll]
    rw [hlog, hlog']
  | drop hk _ ih =>
    obtain ⟨hm, hlog⟩ := h.drain_dull hk hqueue (hclean _)
    obtain ⟨hm', hlog'⟩ := ih hm hqueue hb (clean_turn c me q hclean _ _) ha
    refine ⟨hm', ?_⟩
    simp only [DepConsensus.drainAll]
    rw [hlog, List.nil_append, hlog']

theorem queue_drainAll (c : Cluster n) (me : Fin n) (ks : List Nat)
    {q : DepConsensus n (Nat → DepShard n)} (hqueue : q.queue = []) :
    (q.drainAll ShardStore.neverSleeping c me ks).1.queue = [] := by
  induction ks generalizing q with
  | nil => exact hqueue
  | cons k ks ih =>
    have hdrain : (q.drain ShardStore.neverSleeping c me k).1.queue = [] := by
      rw [DepConsensus.drain, DepConsensus.turn_neverSleeping]
      dsimp only
      split <;> rfl
    exact ih hdrain

theorem drowsy (h : Mirrors c me dull p q) (hqueue : q.queue = []) (hb : q.busy = true)
    (hclean : ∀ k, (q.pool k).sinks = [])
    (hs : ∀ k, Sleepable c me ((q.finish ShardStore.neverSleeping c me).1.pool k))
    (slept : List Nat) :
    PoolMirrors c me (p.drowsy c me slept) (q.finish ShardStore.neverSleeping c me).1.pool := by
  obtain ⟨hm, -⟩ := h.drainAll (h.queue.trans hqueue) hb hclean h.touched h.awake
  rw [DepConsensus.finish_eq, sleepAll_neverSleeping] at hs ⊢
  exact hm.pool.sleepAll hs slept

theorem finish (h : Mirrors c me dull p q) (hqueue : q.queue = []) (hb : q.busy = true)
    (hclean : ∀ k, (q.pool k).sinks = [])
    (hs : ∀ k, Sleepable c me ((q.finish ShardStore.neverSleeping c me).1.pool k)) :
    Mirrors c me ∅ (p.finish (ShardStore.pooled c me) c me).1
        (q.finish ShardStore.neverSleeping c me).1 ∧
      (p.finish (ShardStore.pooled c me) c me).2 = (q.finish ShardStore.neverSleeping c me).2 := by
  obtain ⟨hm, hlog⟩ := h.drainAll (h.queue.trans hqueue) hb hclean h.touched h.awake
  have hpool := h.drowsy hqueue hb hclean hs p.touched
  have hq := queue_drainAll c me q.touched hqueue
  simp only [DepConsensus.finish_eq, sleepAll_neverSleeping] at hpool ⊢
  refine ⟨⟨hpool, hm.sinks, rfl, hm.todo, hm.queue, fun hne => ?_, fun _ hk => (nomatch hk),
    .nil, fun _ hk => (nomatch hk), fun _ => rfl⟩, hlog⟩
  exact absurd (hm.queue.trans hq) hne

end Mirrors

end KCensus.Deps

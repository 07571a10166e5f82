import KCensus.Deps.Mirrors

namespace KCensus.Deps

variable {n : Nat} [NeZero n] {c : Cluster n} {me : Fin n}

-- What a process is sent in one bundle is acks.
structure Bundled (m : ProcessSink n) : Prop where
  fast : ∀ entry ∈ m.pendingFast, entry.2.isAck = true
  slow : ∀ entry ∈ m.pendingSlow, entry.2.isAck = true
  links : ∀ dest acks, .depAcks acks ∈ m.links dest → ∀ entry ∈ acks, entry.2.isAck = true

namespace Bundled

variable {m : ProcessSink n}

omit [NeZero n] in
theorem push (h : Bundled m) {message : Message n} {goesTo : Fin n → Bool}
    (hm : ∀ acks, message = .depAcks acks → ∀ entry ∈ acks, entry.2.isAck = true) :
    Bundled (m.push message goesTo) := by
  refine ⟨h.fast, h.slow, fun dest acks hmem => ?_⟩
  simp only [ProcessSink.push] at hmem
  split at hmem
  · rcases List.mem_append.1 hmem with hmem | hmem
    · exact h.links dest acks hmem
    · exact hm acks (List.mem_singleton.1 hmem).symm
  · exact h.links dest acks hmem

omit [NeZero n] in
theorem flushAcks (h : Bundled m) : Bundled (m.flushAcks c me) := by
  rw [ProcessSink.flushAcks]
  split
  · exact h
  · refine ⟨fun _ hm => (nomatch hm), fun _ hm => (nomatch hm), (h.push fun acks heq => ?_).links⟩
    cases heq
    intro entry hentry
    rcases List.mem_append.1 hentry with hentry | hentry
    · exact h.fast entry hentry
    · exact h.slow entry hentry

omit [NeZero n] in
theorem hold (h : Bundled m) (k : Nat) {msg : DepMsg n} (hm : msg.isAck = true) (requester : Fin n) :
    Bundled (m.hold k msg requester) := by
  have hadd : ∀ l : List (Nat × DepMsg n), (∀ entry ∈ l, entry.2.isAck = true) →
      ∀ entry ∈ l ++ [(k, msg)], entry.2.isAck = true := by
    intro l hl entry hentry
    rcases List.mem_append.1 hentry with hentry | hentry
    · exact hl entry hentry
    · rw [List.mem_singleton.1 hentry]
      exact hm
  cases msg <;> cases hm
  · exact ⟨hadd _ h.fast, h.slow, h.links⟩
  · exact ⟨hadd _ h.fast, h.slow, h.links⟩
  · exact ⟨h.fast, hadd _ h.slow, h.links⟩

omit [NeZero n] in
theorem apply (h : Bundled m) (k : Nat) (e : Event n) : Bundled (m.apply c me k e) := by
  cases e with
  | broadcast packet priority => exact h.push fun _ heq => nomatch heq
  | send packet dest =>
    simp only [ProcessSink.apply, ProcessSink.send]
    split
    · exact h
    · exact h.push fun _ heq => nomatch heq
  | queueAck msg requester =>
    cases hm : msg.isAck with
    | true =>
      rw [ProcessSink.apply]
      rcases ProcessSink.queueAck_cases c me k hm requester m with heq | heq
      · rw [heq]
        exact h.hold k hm requester
      · rw [heq]
        exact (h.hold k hm requester).flushAcks
    | false => cases msg <;> first | exact h | cases hm
  | _ => exact h

omit [NeZero n] in
theorem foldl_apply (h : Bundled m) (k : Nat) (events : List (Event n)) :
    Bundled (events.foldl (ProcessSink.apply c me k) m) := by
  induction events generalizing m with
  | nil => exact h
  | cons e events ih => exact ih (h.apply k e)

omit [NeZero n] in
theorem pop (h : Bundled m) (dest : Fin n) : Bundled (m.pop dest) := by
  refine ⟨h.fast, h.slow, fun d acks hmem => h.links d acks ?_⟩
  simp only [ProcessSink.pop] at hmem
  split at hmem
  · exact List.mem_of_mem_tail hmem
  · exact hmem

end Bundled

omit [NeZero n] in
theorem Shaped.tail {task : Task n} {rest : List (Task n)} (h : Mirrors.Shaped (task :: rest)) :
    Mirrors.Shaped rest := by
  rcases h with h | h | h
  · exact Or.inl (Nat.le_trans (Nat.le_succ _) h)
  · exact Or.inr (Or.inl fun t ht => h t (List.mem_cons_of_mem _ ht))
  · exact Or.inr (Or.inr fun t ht => h t (List.mem_cons_of_mem _ ht))

omit [NeZero n] in
theorem shaped_submitBatch (c : Cluster n) (batch : List (Command n)) :
    Mirrors.Shaped (submitBatch c batch) := by
  refine Or.inr (Or.inr fun task ht k src packet heq => ?_)
  rcases mem_submitBatch ht with ⟨command, rfl⟩ | ⟨k', commands, rfl, -⟩
  · rw [submitOne] at heq
    split at heq <;> cases heq
  · cases heq

omit [NeZero n] in
theorem shaped_tasks {m : ProcessSink n} (h : Bundled m) {p src : Fin n} {message : Message n}
    (hm : message ∈ m.links p) : Mirrors.Shaped (message.tasks src) := by
  cases message with
  | consensusM shard packet => exact Or.inl (Nat.le_refl _)
  | depAcks acks =>
    refine Or.inr (Or.inl fun task ht => ?_)
    obtain ⟨entry, he, rfl⟩ := List.mem_map.1 ht
    exact ⟨entry.1, src, entry.2, rfl, h.links p acks hm entry he⟩

structure PlainOrder (sys : PlainSystem n) : Prop where
  bundled : ∀ p, Bundled (sys.procs p).sinks
  shaped : ∀ p, Mirrors.Shaped (sys.procs p).todo

theorem bundled_drainAll (c : Cluster n) (me : Fin n) (ks : List Nat)
    {q : DepConsensus n (Nat → DepShard n)} (h : Bundled q.sinks) :
    Bundled (q.drainAll ShardStore.neverSleeping c me ks).1.sinks := by
  induction ks generalizing q with
  | nil => exact h
  | cons k ks ih =>
    have hdrain : Bundled (q.drain ShardStore.neverSleeping c me k).1.sinks := h.foldl_apply k _
    exact ih hdrain

section

variable {sys plain plain' : PlainSystem n} {p : Fin n}

theorem PlainOrder.set (h : PlainOrder plain) {result : DepConsensus n (Nat → DepShard n) ×
    DepConsensus.Log n} (hb : Bundled result.1.sinks) (hs : Mirrors.Shaped result.1.todo) :
    PlainOrder (plain.set p result) := by
  refine ⟨fun q => ?_, fun q => ?_⟩
  · simp only [System.set, Function.update_apply]
    split
    · exact hb
    · exact h.bundled q
  · simp only [System.set, Function.update_apply]
    split
    · exact hs
    · exact h.shaped q

theorem PlainOrder.popLink (h : PlainOrder plain) (src p : Fin n) : PlainOrder (plain.popLink src p) := by
  refine ⟨fun q => ?_, fun q => ?_⟩
  · simp only [System.popLink, Function.update_apply]
    split
    · exact (h.bundled src).pop p
    · exact h.bundled q
  · simp only [System.popLink, Function.update_apply]
    split
    · exact h.shaped src
    · exact h.shaped q

theorem PlainOrder.step (h : PlainOrder plain) {act : Act n}
    (hstep : plainStep c plain act = some plain') : PlainOrder plain' := by
  cases act with
  | receive src p =>
    simp only [plainStep, System.step] at hstep
    split at hstep
    · rename_i message rest hbusy hlink
      cases hstep
      exact (h.popLink src p).set ((h.popLink src p).bundled p)
        (shaped_tasks (h.bundled src) (hlink ▸ List.mem_cons_self))
    · cases hstep
  | submit p batch =>
    simp only [plainStep, System.step] at hstep
    split at hstep
    · cases hstep
      exact h.set (h.bundled p) (shaped_submitBatch c batch)
    · cases hstep
  | work p =>
    simp only [plainStep, System.step] at hstep
    split at hstep
    · rename_i task rest hqueue htodo
      cases hstep
      have hrest : Mirrors.Shaped rest := Shaped.tail (htodo ▸ h.shaped p)
      cases task with
      | applyDepMsg k src packet => exact h.set ((h.bundled p).foldl_apply k _) hrest
      | submit k commands => exact h.set ((h.bundled p).foldl_apply k _) hrest
      | submitRead k command => exact h.set ((h.bundled p).foldl_apply k _) hrest
    · cases hstep
  | deliver p =>
    simp only [plainStep, System.step] at hstep
    split at hstep
    · cases hstep
    · cases hstep
      exact h.set ((h.bundled p).foldl_apply _ _) (h.shaped p)
  | finish p =>
    simp only [plainStep, System.step] at hstep
    split at hstep
    · rename_i hc
      cases hstep
      refine h.set (bundled_drainAll c p _ (h.bundled p)) ?_
      rw [DepConsensus.finish_eq, sleepAll_neverSleeping]
      dsimp only
      rw [(DepConsensus.drainAll_rest _ c p _ _).2]
      exact h.shaped p
    · cases hstep
  | flushAcks p =>
    simp only [plainStep, System.step] at hstep
    split at hstep
    · cases hstep
      exact h.set (h.bundled p).flushAcks (h.shaped p)
    · cases hstep

end

abbrev PooledSystem (n : Nat) [NeZero n] := System n (DepPool n)

abbrev pooledStep (c : Cluster n) (sys : PooledSystem n) (act : Act n) : Option (PooledSystem n) :=
  sys.step (ShardStore.pooled c) c act

def PooledSystem.start (c : Cluster n) (shardCount poolSize : Nat) : PooledSystem n :=
  System.init fun p => ShardPool.new (PhysicalShard.new c p) (if c.perKeyDeps then 1 else shardCount)
    (if c.perKeyDeps then 1 else poolSize) (SleepingDepShard.new p)

structure SystemMirrors (c : Cluster n) (pooled : PooledSystem n) (plain : PlainSystem n) : Prop where
  procs : ∀ p, ∃ dull, Mirrors c p dull (pooled.procs p) (plain.procs p)
  hist : pooled.hist = plain.hist

section

variable {pooled : PooledSystem n} {plain plain' : PlainSystem n} {p : Fin n}

theorem SystemMirrors.start (c : Cluster n) (shardCount poolSize : Nat) :
    SystemMirrors c (PooledSystem.start c shardCount poolSize) (PlainSystem.start c) where
  procs := fun p => ⟨∅, .new c p _ _, rfl, rfl, rfl, rfl, fun hne => absurd rfl hne,
    fun _ hk => (nomatch hk), .nil, fun _ hk => (nomatch hk), fun _ => rfl⟩
  hist := rfl

theorem SystemMirrors.set (h : SystemMirrors c pooled plain)
    {result : DepConsensus n (DepPool n) × DepConsensus.Log n}
    {result' : DepConsensus n (Nat → DepShard n) × DepConsensus.Log n}
    (hm : ∃ dull, Mirrors c p dull result.1 result'.1) (hlog : result.2 = result'.2) :
    SystemMirrors c (pooled.set p result) (plain.set p result') := by
  refine ⟨fun q => ?_, ?_⟩
  · simp only [System.set, Function.update_apply]
    rcases eq_or_ne q p with rfl | hq
    · simp only [if_true]
      exact hm
    · simp only [if_neg hq]
      exact h.procs q
  · rw [System.set, System.set, h.hist, hlog]

theorem SystemMirrors.popLink (h : SystemMirrors c pooled plain) (src p : Fin n) :
    SystemMirrors c (pooled.popLink src p) (plain.popLink src p) := by
  refine ⟨fun q => ?_, h.hist⟩
  simp only [System.popLink, Function.update_apply]
  rcases eq_or_ne q src with rfl | hq
  · simp only [if_true]
    obtain ⟨dull, hm⟩ := h.procs q
    exact ⟨dull, hm.pool, by rw [hm.sinks], hm.busy, hm.todo, hm.queue, hm.serving, hm.awake,
      hm.touched, fun k hk => ⟨(hm.quiet k hk).free, (hm.quiet k hk).ready, (hm.quiet k hk).gentle,
        (hm.quiet k hk).queue⟩, hm.idle⟩
  · simp only [if_neg hq]
    exact h.procs q

theorem Mirrors.begin {p : DepConsensus n (DepPool n)} {q : DepConsensus n (Nat → DepShard n)}
    {dull : Finset Nat} {me : Fin n} (h : Mirrors c me dull p q) (hidle : q.busy = false)
    (todo : List (Task n)) :
    Mirrors c me dull { p with busy := true, todo := todo } { q with busy := true, todo := todo } := by
  have hdull := h.idle hidle
  subst hdull
  exact ⟨h.pool, h.sinks, rfl, rfl, h.queue, h.serving, h.awake, h.touched, fun _ hk => (nomatch hk),
    fun _ => rfl⟩

theorem SystemMirrors.step (h : SystemMirrors c pooled plain) (ho : PlainOrder plain)
    (hs : PlainSound plain) (act : Act n) :
    (∀ plain', plainStep c plain act = some plain' →
      (∀ p k, Sleepable c p ((plain'.procs p).pool k)) →
      ∃ pooled', pooledStep c pooled act = some pooled' ∧ SystemMirrors c pooled' plain') ∧
    (plainStep c plain act = none → pooledStep c pooled act = none) := by
  cases act with
  | receive src p =>
    obtain ⟨dull, hm⟩ := h.procs p
    obtain ⟨dull', hm'⟩ := h.procs src
    simp only [plainStep, pooledStep, System.step, hm.busy, hm'.sinks]
    cases hb : (plain.procs p).busy with
    | true => exact ⟨fun _ hstep => (by cases hstep), fun _ => rfl⟩
    | false =>
      cases hl : (plain.procs src).sinks.links p with
      | nil => exact ⟨fun _ hstep => (by cases hstep), fun _ => rfl⟩
      | cons message rest =>
        refine ⟨fun plain' hstep _ => ?_, fun hstep => (by cases hstep)⟩
        cases hstep
        refine ⟨_, rfl, (h.popLink src p).set ?_ rfl⟩
        obtain ⟨dull₁, hm₁⟩ := (h.popLink src p).procs p
        refine ⟨dull₁, hm₁.begin ?_ _⟩
        simp only [System.popLink, Function.update_apply]
        split
        · rename_i heq
          exact heq ▸ hb
        · exact hb
  | submit p batch =>
    obtain ⟨dull, hm⟩ := h.procs p
    simp only [plainStep, pooledStep, System.step, hm.busy]
    split
    · rename_i hc
      refine ⟨fun plain' hstep _ => ?_, fun hstep => (by cases hstep)⟩
      cases hstep
      exact ⟨_, rfl, h.set ⟨dull, hm.begin hc.1 _⟩ rfl⟩
    · exact ⟨fun _ hstep => (by cases hstep), fun _ => rfl⟩
  | work p =>
    obtain ⟨dull, hm⟩ := h.procs p
    simp only [plainStep, pooledStep, System.step, hm.queue, hm.todo]
    cases hq : (plain.procs p).queue with
    | cons => exact ⟨fun _ hstep => (by cases hstep), fun _ => rfl⟩
    | nil =>
      cases ht : (plain.procs p).todo with
      | nil => exact ⟨fun _ hstep => (by cases hstep), fun _ => rfl⟩
      | cons task rest =>
        refine ⟨fun plain' hstep _ => ?_, fun hstep => (by cases hstep)⟩
        cases hstep
        have hb := (hs.tidy p).busy_of_todo (by simp [ht])
        obtain ⟨hm', hlog⟩ := hm.perform ht (hm.queue.trans hq) hb (hs.clean p) (ho.shaped p)
        simp only [hm.queue, hq] at hm' hlog
        exact ⟨_, rfl, h.set hm' hlog⟩
  | deliver p =>
    obtain ⟨dull, hm⟩ := h.procs p
    simp only [plainStep, pooledStep, System.step, hm.queue]
    cases hq : (plain.procs p).queue with
    | nil => exact ⟨fun _ hstep => (by cases hstep), fun _ => rfl⟩
    | cons entry rest =>
      refine ⟨fun plain' hstep _ => ?_, fun hstep => (by cases hstep)⟩
      cases hstep
      have hne : (plain.procs p).queue ≠ [] := by simp [hq]
      obtain ⟨hm', hlog⟩ := hm.deliver hne ((hs.tidy p).busy_of_queue hne)
      rw [hm.queue, hq] at hm' hlog
      exact ⟨_, rfl, h.set ⟨dull, hm'⟩ hlog⟩
  | finish p =>
    obtain ⟨dull, hm⟩ := h.procs p
    simp only [plainStep, pooledStep, System.step, hm.busy, hm.queue, hm.todo]
    split
    · rename_i hc
      refine ⟨fun plain' hstep hsleep => ?_, fun hstep => (by cases hstep)⟩
      cases hstep
      have hsleep' := hsleep p
      rw [set_procs] at hsleep'
      obtain ⟨hm', hlog⟩ := hm.finish hc.2.1 hc.1 (hs.clean p) hsleep'
      exact ⟨_, rfl, h.set ⟨∅, hm'⟩ hlog⟩
    · exact ⟨fun _ hstep => (by cases hstep), fun _ => rfl⟩
  | flushAcks p =>
    obtain ⟨dull, hm⟩ := h.procs p
    simp only [plainStep, pooledStep, System.step, hm.busy]
    split
    · refine ⟨fun plain' hstep _ => ?_, fun hstep => (by cases hstep)⟩
      cases hstep
      refine ⟨_, rfl, h.set ⟨dull, hm.pool, by rw [hm.sinks], rfl, hm.todo, hm.queue, hm.serving,
        hm.awake, hm.touched, fun k hk => ⟨(hm.quiet k hk).free, (hm.quiet k hk).ready,
          (hm.quiet k hk).gentle, (hm.quiet k hk).queue⟩, hm.idle⟩ rfl⟩
    · exact ⟨fun _ hstep => (by cases hstep), fun _ => rfl⟩

theorem sleepable_of_shows {k : Nat} {w : World n} (hw : World.Reachable c w) (h : Shows c k plain w)
    (p : Fin n) : Sleepable c p ((plain.procs p).pool k) := by
  rw [← h.shard p]
  have hsane := hw.sound.sane p
  have hclean := hw.sound.clean p
  exact ⟨hclean, fun hs => DepShard.wakeUp_fallAsleep hsane hclean hs,
    fun hs => ((DepShard.canSleep_iff hsane).1 hs).2.1⟩

-- The process has nothing left to do for its event but to drain and to try to sleep.
def DepConsensus.AtEnd {σ : Type} (p : DepConsensus n σ) : Prop :=
  p.busy = true ∧ p.queue = [] ∧ p.todo = []

instance {σ : Type} (p : DepConsensus n σ) : Decidable p.AtEnd :=
  decidable_of_iff (p.busy = true ∧ p.queue.isEmpty = true ∧ p.todo.isEmpty = true) (by
    simp only [DepConsensus.AtEnd, List.isEmpty_iff])

theorem finish_of_atEnd {p : Fin n} (h : (plain.procs p).AtEnd) : plainStep c plain (.finish p) =
    some (plain.set p ((plain.procs p).finish ShardStore.neverSleeping c p)) := if_pos h

def runPooled (c : Cluster n) (labels : List (Act n)) (sys : PooledSystem n) :
    Option (PooledSystem n) := sys.run (ShardStore.pooled c) c labels

def runPlain (c : Cluster n) (labels : List (Act n)) (sys : PlainSystem n) :
    Option (PlainSystem n) := sys.run (fun _ => ShardStore.neverSleeping) c labels

-- The runs go through the same steps, as long as either goes on.
inductive SameRun (c : Cluster n) : Option (PooledSystem n) → Option (PlainSystem n) → Prop where
  | stuck : SameRun c none none
  | going {pooled : PooledSystem n} {plain : PlainSystem n} (mirrors : SystemMirrors c pooled plain)
      (clean : ∀ p k, ((plain.procs p).pool k).sinks = [])
      (sleepable : ∀ p k, Sleepable c p ((plain.procs p).pool k))
      (drained : ∀ p, (plain.procs p).AtEnd → ∀ k,
        Sleepable c p (((plain.procs p).finish ShardStore.neverSleeping c p).1.pool k)) :
      SameRun c (some pooled) (some plain)

theorem sameRun (c : Cluster n) (shardCount poolSize : Nat) (labels : List (Act n)) :
    SameRun c (runPooled c labels (PooledSystem.start c shardCount poolSize))
      (runPlain c labels (PlainSystem.start c)) := by
  suffices h : ∀ labels (pooled : PooledSystem n) (plain : PlainSystem n),
      SystemMirrors c pooled plain → PlainOrder plain → PlainSound plain →
      (∀ k, ∃ w, World.Reachable c w ∧ Shows c k plain w) →
      SameRun c (runPooled c labels pooled) (runPlain c labels plain) from
    h labels _ _ (.start c shardCount poolSize)
      ⟨fun _ => ⟨fun _ hm => (nomatch hm), fun _ hm => (nomatch hm), fun _ _ hm => (nomatch hm)⟩,
        fun _ => Or.inl (Nat.zero_le _)⟩
      (plainSound_start c) fun k => ⟨_, .init, .start c k⟩
  clear labels
  intro labels
  induction labels with
  | nil =>
    intro pooled plain h _ hs hshows
    refine .going h hs.clean (fun p k => ?_) fun p hend k => ?_
    · obtain ⟨w, hw, hk⟩ := hshows k
      exact sleepable_of_shows hw hk p
    · obtain ⟨w, hw, hk⟩ := hshows k
      obtain ⟨⟨w', hw', hk'⟩, -⟩ := hk.step hw hs (finish_of_atEnd hend)
      have hsleep := sleepable_of_shows hw' hk' p
      rwa [set_procs] at hsleep
  | cons act labels ih =>
    intro pooled plain h ho hs hshows
    obtain ⟨hgo, hstuck⟩ := h.step ho hs act
    cases hstep : plainStep c plain act with
    | none =>
      have hp := hstuck hstep
      simp only [plainStep] at hstep
      simp only [pooledStep] at hp
      simp only [runPooled, runPlain, System.run, List.foldlM_cons, hstep, hp]
      exact .stuck
    | some plain' =>
      have hshows' : ∀ k, ∃ w, World.Reachable c w ∧ Shows c k plain' w := fun k => by
        obtain ⟨w, hw, hk⟩ := hshows k
        exact (hk.step hw hs hstep).1
      have hs' : PlainSound plain' := by
        obtain ⟨w, hw, hk⟩ := hshows 0
        exact (hk.step hw hs hstep).2
      obtain ⟨pooled', hp, h'⟩ := hgo plain' hstep fun p k => by
        obtain ⟨w, hw, hk⟩ := hshows' k
        exact sleepable_of_shows hw hk p
      have hrest := ih pooled' plain' h' (ho.step hstep) hs' hshows'
      simp only [plainStep] at hstep
      simp only [pooledStep] at hp
      simp only [runPooled, runPlain, System.run, List.foldlM_cons, hstep, hp] at hrest ⊢
      exact hrest

end

-- The messages sent, and what every shard of every process has done, in order.
def System.observe {σ : Type} (sys : System n σ) :
    (Fin n → ProcessSink n) × List (Fin n × Nat × Event n) :=
  (fun p => (sys.procs p).sinks, sys.hist)

def PooledSystem.nextIds (sys : PooledSystem n) (p : Fin n) (k : Nat) : Uid × Nat :=
  match (sys.procs p).pool.activeShard k with
  | some physical => (physical.shard.nextUid, physical.shard.reads.nextId)
  | none => ((sys.procs p).pool.sleepingState k |>.nextUid,
      (sys.procs p).pool.sleepingState k |>.nextReadId)

def PlainSystem.nextIds (sys : PlainSystem n) (p : Fin n) (k : Nat) : Uid × Nat :=
  (((sys.procs p).pool k).nextUid, ((sys.procs p).pool k).reads.nextId)

theorem PoolMirrors.nextIds {me : Fin n} {pool : DepPool n} {plain : Nat → DepShard n}
    (h : PoolMirrors c me pool plain) (k : Nat) :
    (match pool.activeShard k with
      | some physical => (physical.shard.nextUid, physical.shard.reads.nextId)
      | none => ((pool.sleepingState k).nextUid, (pool.sleepingState k).nextReadId)) =
      ((plain k).nextUid, (plain k).reads.nextId) := by
  have hreads : ∀ {s s' : DepShard n}, s.Alike s' → s'.reads = s.reads := by
    rintro s _ ⟨t, -, rfl⟩
    rfl
  cases ha : pool.active k with
  | some index =>
    obtain ⟨shard, -, hs⟩ := h.wf.exists_shard ha
    have halike := (h.awake k shard hs).2
    rw [hs, ← halike.nextUid, ← hreads halike]
  | none =>
    have halike := h.asleep k ha
    rw [ShardPool.activeShard_none ha, ← halike.nextUid, ← hreads halike]
    rfl

theorem PoolMirrors.finished {me : Fin n} {pool : DepPool n} {plain : Nat → DepShard n}
    (h : PoolMirrors c me pool plain) (hs : ∀ k, Sleepable c me (plain k)) {k : Nat}
    {physical : PhysicalShard n} (hp : pool.activeShard k = some physical)
    (hsleep : physical.shard.canSleep c = true) : Finished physical.shard := by
  obtain ⟨-, halike⟩ := h.awake k physical hp
  exact halike.finished ((hs k).finished (halike.canSleep.symm.trans hsleep))

theorem SameRun.invisible {pooled : Option (PooledSystem n)} {plain : Option (PlainSystem n)}
    (h : SameRun c pooled plain) :
    pooled.map System.observe = plain.map System.observe ∧
      pooled.map PooledSystem.nextIds = plain.map PlainSystem.nextIds := by
  cases h with
  | stuck => exact ⟨rfl, rfl⟩
  | @going pooled plain h _ _ _ =>
    refine ⟨?_, ?_⟩
    · have hsinks : (fun p => (pooled.procs p).sinks) = fun p => (plain.procs p).sinks := by
        funext p
        obtain ⟨dull, hm⟩ := h.procs p
        exact hm.sinks
      simp only [Option.map_some, System.observe, hsinks, h.hist]
    · refine congrArg some ?_
      funext p k
      obtain ⟨dull, hm⟩ := h.procs p
      exact hm.pool.nextIds k

theorem SameRun.neverSleeping {pooled : Option (PooledSystem n)} {plain : PlainSystem n}
    (h : SameRun c pooled (some plain)) (p : Fin n) (k : Nat)
    (hsleep : ((plain.procs p).pool k).canSleep c = true) : Finished ((plain.procs p).pool k) := by
  cases h with
  | going _ _ hs _ => exact (hs p k).finished hsleep

theorem SameRun.finished {pooled : PooledSystem n} {plain : Option (PlainSystem n)}
    (h : SameRun c (some pooled) plain) (p : Fin n) (k : Nat) (physical : PhysicalShard n) :
    ((pooled.procs p).pool.activeShard k = some physical → physical.shard.canSleep c = true →
      Finished physical.shard) ∧
    ((pooled.procs p).AtEnd → ∀ slept,
      ((pooled.procs p).drowsy c p slept).activeShard k = some physical →
        physical.shard.canSleep c = true → Finished physical.shard) := by
  cases h with
  | @going _ plain h hclean hs hdrained =>
    obtain ⟨dull, hm⟩ := h.procs p
    refine ⟨fun hp hsleep => hm.pool.finished (hs p) hp hsleep, fun hend slept hp hsleep => ?_⟩
    have hend' : (plain.procs p).AtEnd := ⟨hm.busy ▸ hend.1, hm.queue ▸ hend.2.1, hm.todo ▸ hend.2.2⟩
    have hpool := hm.drowsy hend'.2.1 hend'.1 (hclean p) (hdrained p hend') slept
    exact hpool.finished (hdrained p hend') hp hsleep

-- A shard that can sleep has nothing left, whether the process is in the middle of an event, or has
-- drained its shards and is about to let them sleep one by one, or never lets one sleep.
theorem sleeping_invisible (c : Cluster n) (shardCount poolSize : Nat) (labels : List (Act n)) :
    let pooled := runPooled c labels (PooledSystem.start c shardCount poolSize)
    let plain := runPlain c labels (PlainSystem.start c)
    pooled.map System.observe = plain.map System.observe ∧
      pooled.map PooledSystem.nextIds = plain.map PlainSystem.nextIds ∧
      (∀ sys, plain = some sys → ∀ p k, ((sys.procs p).pool k).canSleep c = true →
        Finished ((sys.procs p).pool k)) ∧
      ∀ sys, pooled = some sys → ∀ p k physical,
        ((sys.procs p).pool.activeShard k = some physical → physical.shard.canSleep c = true →
          Finished physical.shard) ∧
        ((sys.procs p).AtEnd → ∀ slept,
          ((sys.procs p).drowsy c p slept).activeShard k = some physical →
            physical.shard.canSleep c = true → Finished physical.shard) := by
  have hrun := sameRun c shardCount poolSize labels
  refine ⟨hrun.invisible.1, hrun.invisible.2, fun sys hsys p k hsleep => ?_, fun sys hsys => ?_⟩
  · exact (hsys ▸ hrun).neverSleeping p k hsleep
  · exact (hsys ▸ hrun).finished

-- The one physical shard of process 0 serves shard 5, sleeps, and then serves shard 6.
def recycled : List (Act 2) :=
  [.submit 0 [⟨0, 5, [], false, 0, none⟩], .work 0, .finish 0, .receive 0 1, .work 1, .finish 1,
    .receive 1 0, .work 0, .finish 0, .receive 0 1, .work 1, .finish 1,
    .submit 0 [⟨0, 6, [], false, 0, none⟩], .work 0]

-- At the end of its eighth step the shard has run a command, is drained and can sleep.
theorem recycled_invisible :
    (runPooled DepShard.pair recycled (PooledSystem.start DepShard.pair 8 1)).map System.observe =
      (runPlain DepShard.pair recycled (PlainSystem.start DepShard.pair)).map System.observe ∧
    (runPooled DepShard.pair recycled (PooledSystem.start DepShard.pair 8 1)).map (fun sys =>
      (sys.procs 0).pool.shards.map (·.shardId)) = some [6] ∧
    ∃ sys physical, runPooled DepShard.pair (recycled.take 8) (PooledSystem.start DepShard.pair 8 1) =
        some sys ∧ (sys.procs 0).AtEnd ∧
      ((sys.procs 0).drowsy DepShard.pair 0 []).activeShard 5 = some physical ∧
      physical.shard.canSleep DepShard.pair = true ∧ physical.shard.executed.contains DepShard.left ∧
      Finished physical.shard := by
  refine ⟨(sleeping_invisible DepShard.pair 8 1 recycled).1, by decide +kernel, ?_⟩
  have hrun : (runPooled DepShard.pair (recycled.take 8) (PooledSystem.start DepShard.pair 8 1)).any
      (fun sys => decide ((sys.procs 0).AtEnd) &&
        (((sys.procs 0).drowsy DepShard.pair 0 []).activeShard 5).any fun physical =>
          physical.shard.canSleep DepShard.pair &&
            decide (physical.shard.executed.contains DepShard.left)) = true := by decide +kernel
  obtain ⟨sys, hsys, hsleeps⟩ := (Option.any_eq_true _ _).1 hrun
  obtain ⟨hend, hsleeps⟩ := Bool.and_eq_true_iff.1 hsleeps
  obtain ⟨physical, hp, hsleeps⟩ := (Option.any_eq_true _ _).1 hsleeps
  obtain ⟨hsleep, hran⟩ := Bool.and_eq_true_iff.1 hsleeps
  have hend' := of_decide_eq_true hend
  exact ⟨sys, physical, hsys, hend', hp, hsleep, of_decide_eq_true hran,
    ((sleeping_invisible DepShard.pair 8 1 (recycled.take 8)).2.2.2 sys hsys 0 5 physical).2 hend' []
      hp hsleep⟩

end KCensus.Deps

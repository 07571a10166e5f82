import KCensus.ShardPool

namespace KCensus

-- A call on the pool, with what its caller writes through the borrow it gets.
inductive PoolOp (S : Type) where
  | wake (shardId : Nat) (change : S → S)
  | activeShard (shardId : Nat) (change : S → S)
  | trySleep (shardId : Nat)

namespace ShardPool

variable {S Z : Type} (trait : PooledShard S Z) (newShard : S)

def fellAsleep (shardId : Nat) (pool : ShardPool S Z) : Option Z :=
  match pool.activeShard shardId with
  | none => none
  | some shard => if trait.canSleep shard then some (trait.fallAsleep shard).1 else none

-- A pool and what `fall_asleep` has returned so far, for which logical shard, the latest first.
structure Traced (S Z : Type) where
  pool : ShardPool S Z
  returned : List (Nat × Z)

namespace Traced

def start (shardCount poolSize : Nat) (initialSleeping : Z) : Traced S Z :=
  ⟨.new newShard shardCount poolSize initialSleeping, []⟩

def lastReturned (initialSleeping : Z) (t : Traced S Z) (shardId : Nat) : Z :=
  ((t.returned.find? (·.1 = shardId)).map Prod.snd).getD initialSleeping

def changeAt (t : Traced S Z) (physical : Nat) (change : S → S) : Option (Traced S Z) :=
  (t.pool.shards[physical]?).map fun shard =>
    { t with pool := t.pool.writeBack physical (change shard) }

def step (t : Traced S Z) : PoolOp S → Option (Traced S Z)
  | .wake shardId change =>
      let (pool, physical) := t.pool.wake trait newShard shardId
      { t with pool }.changeAt physical change
  | .activeShard shardId change =>
      (t.pool.active shardId).bind fun physical => t.changeAt physical change
  | .trySleep shardId =>
      some
        { pool := t.pool.trySleep trait shardId
          returned :=
            match t.pool.fellAsleep trait shardId with
            | some state => (shardId, state) :: t.returned
            | none => t.returned }

end Traced

variable {trait newShard} {pool : ShardPool S Z} {k physical : Nat}

theorem trySleep_of_cannot {shard : S} (hs : pool.activeShard k = some shard)
    (hc : trait.canSleep shard = false) : pool.trySleep trait k = pool := by
  cases ha : pool.active k with
  | none => rw [ShardPool.trySleep, ha]
  | some physical =>
      simp only [activeShard, ha, Option.bind_some] at hs
      simp [ShardPool.trySleep, ha, hs, hc]

theorem trySleep_of_none (hf : pool.fellAsleep trait k = none) : pool.trySleep trait k = pool := by
  cases hs : pool.activeShard k with
  | none =>
      cases ha : pool.active k with
      | none => rw [ShardPool.trySleep, ha]
      | some physical =>
          simp only [activeShard, ha, Option.bind_some] at hs
          simp [ShardPool.trySleep, ha, hs]
  | some shard =>
      cases hc : trait.canSleep shard with
      | false => exact trySleep_of_cannot hs hc
      | true => simp [fellAsleep, hs, hc] at hf

theorem asleep_of_some {state : Z} (hf : pool.fellAsleep trait k = some state) :
    (pool.trySleep trait k).active k = none ∧ (pool.trySleep trait k).sleeping k = state := by
  cases hs : pool.activeShard k with
  | none => simp [fellAsleep, hs] at hf
  | some shard =>
      cases hc : trait.canSleep shard with
      | false => simp [fellAsleep, hs, hc] at hf
      | true =>
          simp only [fellAsleep, hs, hc, if_true, Option.some.injEq] at hf
          cases ha : pool.active k with
          | none => simp [activeShard, ha] at hs
          | some physical =>
              simp only [activeShard, ha, Option.bind_some] at hs
              simp [ShardPool.trySleep, ha, hs, hc, hf]

theorem sleeping_trySleep {k' : Nat} (hne : k' ≠ k) :
    (pool.trySleep trait k).sleeping k' = pool.sleeping k' := by
  unfold ShardPool.trySleep
  split
  · rfl
  · split
    · rfl
    · split
      · exact Function.update_of_ne hne _ _
      · rfl

theorem Wf.wf_trySleep {Idle : S → Prop} (h : Wf Idle pool) (k : Nat)
    (hi : ∀ shard, Idle (trait.fallAsleep shard).2) : Wf Idle (pool.trySleep trait k) := by
  rcases h.trySleep k fun shard _ _ => hi shard with hsame | ⟨_, _, _, hslept⟩
  · rwa [hsame]
  · exact hslept.wf

namespace Traced

variable {initialSleeping : Z} {t : Traced S Z}

-- No index is lost or used twice, and every logical shard's state is the one to wake it up with.
structure Kept (initialSleeping : Z) (t : Traced S Z) : Prop where
  wf : Wf (fun _ => True) t.pool
  sleeping : ∀ k, t.pool.sleeping k = t.lastReturned initialSleeping k

theorem kept_start (shardCount poolSize : Nat) :
    Kept initialSleeping (start newShard shardCount poolSize initialSleeping) :=
  ⟨Wf.new trivial shardCount poolSize initialSleeping, fun _ => rfl⟩

theorem Kept.changeAt (h : Kept initialSleeping t) (ha : t.pool.active k = some physical)
    (change : S → S) :
    ∃ t', t.changeAt physical change = some t' ∧ Kept initialSleeping t' := by
  obtain ⟨shard, hs, -⟩ := h.wf.exists_shard ha
  refine ⟨{ t with pool := t.pool.writeBack physical (change shard) }, ?_, ?_, h.sleeping⟩
  · rw [Traced.changeAt, hs]
    rfl
  · exact (h.wf.writeBack ha (change shard)).1

variable (trait newShard) in
theorem Kept.wake (h : Kept initialSleeping t) (k : Nat) (change : S → S) :
    ∃ t', t.step trait newShard (.wake k change) = some t' ∧ Kept initialSleeping t' := by
  have hw : Woken trait (fun _ => True) k t.pool (t.pool.wake trait newShard k).1
      (t.pool.wake trait newShard k).2 := h.wf.wake trivial k
  have hkept : Kept initialSleeping { t with pool := (t.pool.wake trait newShard k).1 } := by
    refine ⟨hw.wf, fun k' => ?_⟩
    rw [hw.sleeping]
    exact h.sleeping k'
  exact hkept.changeAt hw.serves change

theorem lastReturned_cons (pool : ShardPool S Z) (returned : List (Nat × Z)) (state : Z)
    (k' : Nat) :
    lastReturned initialSleeping ⟨pool, (k, state) :: returned⟩ k' =
      if k' = k then state else lastReturned initialSleeping ⟨pool, returned⟩ k' := by
  simp only [lastReturned, List.find?_cons]
  rcases eq_or_ne k' k with rfl | hne
  · simp
  · simp [hne, hne.symm]

variable (trait newShard) in
theorem Kept.trySleep (h : Kept initialSleeping t) (k : Nat) :
    ∃ t', t.step trait newShard (.trySleep k) = some t' ∧ Kept initialSleeping t' := by
  refine ⟨_, rfl, h.wf.wf_trySleep k fun _ => trivial, fun k' => ?_⟩
  cases hf : t.pool.fellAsleep trait k with
  | none =>
      rw [trySleep_of_none hf]
      exact h.sleeping k'
  | some state =>
      rw [lastReturned_cons]
      rcases eq_or_ne k' k with rfl | hne
      · rw [if_pos rfl]
        exact (asleep_of_some hf).2
      · rw [if_neg hne]
        exact (sleeping_trySleep hne).trans (h.sleeping k')

theorem Kept.step {t' : Traced S Z} (h : Kept initialSleeping t) {op : PoolOp S}
    (hstep : t.step trait newShard op = some t') : Kept initialSleeping t' := by
  cases op with
  | wake k change =>
      obtain ⟨next, hnext, hkept⟩ := h.wake trait newShard k change
      exact Option.some.inj (hnext.symm.trans hstep) ▸ hkept
  | activeShard k change =>
      obtain ⟨physical, ha, hchange⟩ := Option.bind_eq_some_iff.mp hstep
      obtain ⟨next, hnext, hkept⟩ := h.changeAt ha change
      exact Option.some.inj (hnext.symm.trans hchange) ▸ hkept
  | trySleep k =>
      obtain ⟨next, hnext, hkept⟩ := h.trySleep trait newShard k
      exact Option.some.inj (hnext.symm.trans hstep) ▸ hkept

theorem Kept.run {t' : Traced S Z} (h : Kept initialSleeping t) {ops : List (PoolOp S)}
    (hrun : ops.foldlM (Traced.step trait newShard) t = some t') : Kept initialSleeping t' := by
  induction ops generalizing t with
  | nil => exact Option.some.inj hrun ▸ h
  | cons op ops ih =>
      rw [List.foldlM_cons] at hrun
      obtain ⟨next, hnext, hrest⟩ := Option.bind_eq_some_iff.mp hrun
      exact ih (h.step hnext) hrest

end Traced

theorem shards_never_shared (shardCount poolSize : Nat) (initialSleeping : Z)
    (ops : List (PoolOp S)) {t : Traced S Z}
    (hrun : ops.foldlM (Traced.step trait newShard)
      (Traced.start newShard shardCount poolSize initialSleeping) = some t) :
    (∀ k k' physical, t.pool.active k = some physical → t.pool.active k' = some physical →
      k = k') ∧
    t.pool.free.Nodup ∧
    (∀ k physical, t.pool.active k = some physical → physical ∉ t.pool.free) ∧
    (∀ physical, physical < t.pool.shards.length ↔
      physical ∈ t.pool.free ∨ ∃ k, t.pool.active k = some physical) ∧
    (∀ k shard, t.pool.activeShard k = some shard → trait.canSleep shard = false →
      t.pool.trySleep trait k = t.pool) ∧
    (∀ k, t.pool.active k = none → ∃ shard,
      (t.pool.wake trait newShard k).1.activeShard k =
        some (trait.wakeUp k (t.lastReturned initialSleeping k) shard)) ∧
    (∀ k, (t.pool.wake trait newShard k).1.active k = some (t.pool.wake trait newShard k).2 ∧
      ((t.pool.active k).isSome → (t.pool.wake trait newShard k).1 = t.pool) ∧
      ∀ k', k' ≠ k →
        (t.pool.wake trait newShard k).1.activeShard k' = t.pool.activeShard k' ∧
        (t.pool.trySleep trait k).activeShard k' = t.pool.activeShard k') ∧
    ∀ k change, (t.step trait newShard (.wake k change)).isSome ∧
      (t.step trait newShard (.trySleep k)).isSome := by
  have h : t.Kept initialSleeping := (Traced.kept_start shardCount poolSize).run hrun
  have hwake : ∀ k, Woken trait (fun _ => True) k t.pool (t.pool.wake trait newShard k).1
      (t.pool.wake trait newShard k).2 := fun k => h.wf.wake trivial k
  refine ⟨h.wf.apart, h.wf.nodup, fun k physical ha => (h.wf.serving k physical ha).2,
    fun physical => ⟨h.wf.covered physical, ?_⟩, fun k shard => trySleep_of_cannot,
    fun k ha => ?_, fun k => ?_, fun k change => ⟨?_, rfl⟩⟩
  · rintro (hfree | ⟨k, ha⟩)
    · obtain ⟨shard, hs, -⟩ := h.wf.waiting physical hfree
      exact (List.getElem?_eq_some_iff.mp hs).1
    · exact (h.wf.serving k physical ha).1
  · obtain ⟨shard, -, hs⟩ := (hwake k).woken ha
    exact ⟨shard, h.sleeping k ▸ hs⟩
  · refine ⟨(hwake k).serves, (hwake k).awake, fun k' hne => ⟨((hwake k).others k' hne).2, ?_⟩⟩
    rcases h.wf.trySleep k fun _ _ _ => trivial with hsame | ⟨_, _, _, hslept⟩
    · rw [hsame]
    · exact (hslept.others k' hne).2.1
  · obtain ⟨next, hnext, -⟩ := h.wake trait newShard k change
    rw [hnext]
    rfl

-- A counter as a shard; the second logical shard makes the pool grow.
def counter : PooledShard Nat Nat where
  wakeUp := fun _ state _ => state
  fallAsleep := fun shard => (shard, 0)
  canSleep := fun shard => shard % 2 = 0

def counterRun : List (PoolOp Nat) :=
  [.wake 0 (· + 1), .wake 1 (· + 2), .trySleep 0, .activeShard 0 (· + 1), .trySleep 0]

theorem shards_never_shared_counter :
    ∃ t, counterRun.foldlM (Traced.step counter 0) (Traced.start 0 3 1 0) = some t ∧
      (∀ k k' physical, t.pool.active k = some physical → t.pool.active k' = some physical →
        k = k') ∧
      ∃ shard, (t.pool.wake counter 0 0).1.activeShard 0 = some (counter.wakeUp 0 2 shard) := by
  have hsome : (counterRun.foldlM (Traced.step counter 0) (Traced.start 0 3 1 0)).isSome := by
    decide
  obtain ⟨t, hrun⟩ := Option.isSome_iff_exists.mp hsome
  have h := shards_never_shared 3 1 0 counterRun hrun
  refine ⟨t, hrun, h.1, ?_⟩
  have hasleep : (counterRun.foldlM (Traced.step counter 0) (Traced.start 0 3 1 0)).all
      (fun t => t.pool.active 0 = none ∧ t.lastReturned 0 0 = 2) := by decide
  rw [hrun] at hasleep
  simp only [Option.all_some, decide_eq_true_eq] at hasleep
  rw [← hasleep.2]
  exact h.2.2.2.2.2.1 0 hasleep.1

end ShardPool

end KCensus

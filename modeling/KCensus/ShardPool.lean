import Mathlib.Data.List.Nodup
import Mathlib.Data.List.Range
import Mathlib.Logic.Function.Basic

namespace KCensus

structure PooledShard (S Z : Type) where
  wakeUp : Nat → Z → S → S
  fallAsleep : S → Z × S
  canSleep : S → Bool

-- The head of `free` is the top of the stack.
structure ShardPool (S Z : Type) where
  sleeping : Nat → Z
  shards : List S
  active : Nat → Option Nat
  free : List Nat

namespace ShardPool

variable {S Z : Type} (trait : PooledShard S Z) (newShard : S)

def new (shardCount poolSize : Nat) (initialSleeping : Z) : ShardPool S Z :=
  let poolSize := min (max poolSize 1) shardCount
  { sleeping := fun _ => initialSleeping
    shards := List.replicate poolSize newShard
    active := fun _ => none
    free := List.range poolSize }

def grow (pool : ShardPool S Z) : ShardPool S Z × Nat :=
  ({ pool with shards := pool.shards ++ [newShard] }, pool.shards.length)

def takeFree (pool : ShardPool S Z) : ShardPool S Z × Nat :=
  match pool.free with
  | physical :: free => ({ pool with free := free }, physical)
  | [] => pool.grow newShard

def wake (shardId : Nat) (pool : ShardPool S Z) : ShardPool S Z × Nat :=
  match pool.active shardId with
  | some physical => (pool, physical)
  | none =>
      let (pool, physical) := pool.takeFree newShard
      ({ pool with
          shards := pool.shards.modify physical (trait.wakeUp shardId (pool.sleeping shardId))
          active := Function.update pool.active shardId (some physical) },
        physical)

def isActive (shardId : Nat) (pool : ShardPool S Z) : Bool := (pool.active shardId).isSome

def sleepingState (shardId : Nat) (pool : ShardPool S Z) : Z := pool.sleeping shardId

def activeShard (shardId : Nat) (pool : ShardPool S Z) : Option S :=
  (pool.active shardId).bind fun physical => pool.shards[physical]?

-- What is written through the borrow that `wake` and `active_shard` hand out.
def writeBack (physical : Nat) (shard : S) (pool : ShardPool S Z) : ShardPool S Z :=
  { pool with shards := pool.shards.set physical shard }

def trySleep (shardId : Nat) (pool : ShardPool S Z) : ShardPool S Z :=
  match pool.active shardId with
  | none => pool
  | some physical =>
      match pool.shards[physical]? with
      | none => pool
      | some shard =>
          if trait.canSleep shard then
            let (state, shard) := trait.fallAsleep shard
            { sleeping := Function.update pool.sleeping shardId state
              shards := pool.shards.set physical shard
              active := Function.update pool.active shardId none
              free := physical :: pool.free }
          else pool

-- `Idle` is what a physical shard that serves nobody is like.
structure Wf (Idle : S → Prop) (pool : ShardPool S Z) : Prop where
  apart : ∀ k k' physical, pool.active k = some physical → pool.active k' = some physical → k = k'
  serving : ∀ k physical, pool.active k = some physical →
    physical < pool.shards.length ∧ physical ∉ pool.free
  waiting : ∀ physical ∈ pool.free, ∃ shard, pool.shards[physical]? = some shard ∧ Idle shard
  covered : ∀ physical < pool.shards.length,
    physical ∈ pool.free ∨ ∃ k, pool.active k = some physical
  nodup : pool.free.Nodup

variable {trait newShard} {Idle : S → Prop} {pool : ShardPool S Z} {k k' physical : Nat}

theorem activeShard_of {shard : S} (ha : pool.active k = some physical)
    (hs : pool.shards[physical]? = some shard) : pool.activeShard k = some shard := by
  rw [activeShard, ha]
  exact hs

theorem activeShard_none (ha : pool.active k = none) : pool.activeShard k = none := by
  rw [activeShard, ha]
  rfl

theorem Wf.exists_shard (h : Wf Idle pool) (ha : pool.active k = some physical) :
    ∃ shard, pool.shards[physical]? = some shard ∧ pool.activeShard k = some shard := by
  have hlt := (h.serving k physical ha).1
  exact ⟨pool.shards[physical], List.getElem?_eq_getElem hlt,
    activeShard_of ha (List.getElem?_eq_getElem hlt)⟩

theorem Wf.new (hn : Idle newShard) (shardCount poolSize : Nat) (state : Z) :
    Wf Idle (ShardPool.new newShard shardCount poolSize state) where
  apart := fun k _ _ h => nomatch h
  serving := fun k _ h => nomatch h
  waiting := by
    intro physical hp
    simp only [ShardPool.new, List.mem_range] at hp ⊢
    exact ⟨newShard, by rw [List.getElem?_replicate, if_pos hp], hn⟩
  covered := by
    intro physical hp
    simp only [ShardPool.new, List.length_replicate] at hp ⊢
    exact Or.inl (List.mem_range.2 hp)
  nodup := List.nodup_range

-- What `takeFree` hands out: an index nobody uses, and the pool without it.
structure Taken (Idle : S → Prop) (pool pool' : ShardPool S Z) (physical : Nat) : Prop where
  sleeping : pool'.sleeping = pool.sleeping
  active : pool'.active = pool.active
  fresh : ∃ shard, pool'.shards[physical]? = some shard ∧ Idle shard
  unused : ∀ k, pool.active k ≠ some physical
  taken : physical ∉ pool'.free
  kept : ∀ j < pool.shards.length, j < pool'.shards.length ∧ pool'.shards[j]? = pool.shards[j]?
  fewer : ∀ j ∈ pool'.free, j ∈ pool.free
  covered : ∀ j < pool'.shards.length,
    j = physical ∨ j ∈ pool'.free ∨ ∃ k, pool.active k = some j
  nodup : pool'.free.Nodup

theorem Wf.takeFree (h : Wf Idle pool) (hn : Idle newShard) :
    Taken Idle pool (pool.takeFree newShard).1 (pool.takeFree newShard).2 := by
  cases hf : pool.free with
  | cons physical free =>
    have hnodup := h.nodup
    rw [hf] at hnodup
    have hmem : physical ∈ pool.free := hf ▸ List.mem_cons_self
    simp only [ShardPool.takeFree, hf]
    refine ⟨rfl, rfl, h.waiting physical hmem, fun k hk => (h.serving k physical hk).2 hmem,
      (List.nodup_cons.1 hnodup).1, fun j hj => ⟨hj, rfl⟩,
      fun j hj => hf ▸ List.mem_cons_of_mem _ hj, fun j hj => ?_, (List.nodup_cons.1 hnodup).2⟩
    rcases h.covered j hj with hj | hj
    · rw [hf] at hj
      rcases List.mem_cons.1 hj with rfl | hj
      · exact Or.inl rfl
      · exact Or.inr (Or.inl hj)
    · exact Or.inr (Or.inr hj)
  | nil =>
    have hgrow : pool.takeFree newShard = pool.grow newShard := by
      simp only [ShardPool.takeFree, hf]
    rw [hgrow]
    refine ⟨rfl, rfl, ⟨newShard, by simp [grow], hn⟩, fun k hk => ?_, by simp [grow, hf],
      fun j hj => ?_, fun j hj => hj, fun j hj => ?_, h.nodup⟩
    · exact absurd (h.serving k _ hk).1 (Nat.lt_irrefl _)
    · exact ⟨by rw [grow, List.length_append]; omega, List.getElem?_append_left hj⟩
    · rw [grow, List.length_append, List.length_singleton] at hj
      rcases Nat.lt_succ_iff_lt_or_eq.1 hj with hj | hj
      · rcases h.covered j hj with hj | hj
        · exact Or.inr (Or.inl hj)
        · exact Or.inr (Or.inr hj)
      · exact Or.inl hj

structure Woken (trait : PooledShard S Z) (Idle : S → Prop) (k : Nat) (pool pool' : ShardPool S Z)
    (physical : Nat) : Prop where
  wf : Wf Idle pool'
  sleeping : pool'.sleeping = pool.sleeping
  serves : pool'.active k = some physical
  others : ∀ k', k' ≠ k →
    pool'.active k' = pool.active k' ∧ pool'.activeShard k' = pool.activeShard k'
  awake : (pool.active k).isSome → pool' = pool
  woken : pool.active k = none → ∃ shard, Idle shard ∧
    pool'.activeShard k = some (trait.wakeUp k (pool.sleeping k) shard)

theorem Taken.woken {pool' : ShardPool S Z} (h : Wf Idle pool) (ht : Taken Idle pool pool' physical)
    (ha : pool.active k = none) :
    Woken trait Idle k pool
      { pool' with
        shards := pool'.shards.modify physical (trait.wakeUp k (pool'.sleeping k))
        active := Function.update pool'.active k (some physical) } physical := by
  obtain ⟨shard, hs, hidle⟩ := ht.fresh
  have hother : ∀ j, j ≠ physical →
      (pool'.shards.modify physical (trait.wakeUp k (pool'.sleeping k)))[j]? = pool'.shards[j]? := by
    intro j hj
    rw [List.getElem?_modify]
    cases pool'.shards[j]? with
    | none => rfl
    | some shard => simp [Ne.symm hj]
  have hactive : ∀ k' j, Function.update pool'.active k (some physical) k' = some j →
      (k' = k ∧ j = physical) ∨ (k' ≠ k ∧ pool.active k' = some j ∧ j ≠ physical) := by
    intro k' j hj
    rcases eq_or_ne k' k with rfl | hk
    · rw [Function.update_self] at hj
      exact Or.inl ⟨rfl, (Option.some.inj hj).symm⟩
    · rw [Function.update_of_ne hk, ht.active] at hj
      exact Or.inr ⟨hk, hj, fun h => ht.unused k' (h ▸ hj)⟩
  refine ⟨⟨fun a b j hj hj' => ?_, fun a j hj => ?_, fun j hj => ?_, fun j hj => ?_, ht.nodup⟩,
    ht.sleeping, Function.update_self _ _ _, fun k' hk => ?_, fun hk => ?_, fun _ => ?_⟩
  · rcases hactive a j hj with ⟨rfl, rfl⟩ | ⟨-, hj, hne⟩
    · rcases hactive b _ hj' with ⟨rfl, -⟩ | ⟨-, -, hne⟩
      · rfl
      · exact absurd rfl hne
    · rcases hactive b j hj' with ⟨-, rfl⟩ | ⟨-, hj', -⟩
      · exact absurd rfl hne
      · exact h.apart a b j hj hj'
  · simp only [List.length_modify]
    rcases hactive a j hj with ⟨-, rfl⟩ | ⟨-, hj, -⟩
    · exact ⟨(List.getElem?_eq_some_iff.1 hs).1, ht.taken⟩
    · have hserving := h.serving a j hj
      exact ⟨(ht.kept j hserving.1).1, fun hf => hserving.2 (ht.fewer j hf)⟩
  · obtain ⟨base, hb, hi⟩ := h.waiting j (ht.fewer j hj)
    have hne : j ≠ physical := fun hp => ht.taken (hp ▸ hj)
    refine ⟨base, ?_, hi⟩
    rw [hother j hne, (ht.kept j (List.getElem?_eq_some_iff.1 hb).1).2, hb]
  · simp only [List.length_modify] at hj
    rcases ht.covered j hj with rfl | hj | ⟨a, hj⟩
    · exact Or.inr ⟨k, Function.update_self _ _ _⟩
    · exact Or.inl hj
    · refine Or.inr ⟨a, ?_⟩
      have hne : a ≠ k := by
        rintro rfl
        rw [ha] at hj
        cases hj
      exact (Function.update_of_ne hne _ _).trans (ht.active ▸ hj)
  · have hsame : Function.update pool'.active k (some physical) k' = pool.active k' := by
      rw [Function.update_of_ne hk, ht.active]
    refine ⟨hsame, ?_⟩
    simp only [activeShard, hsame]
    cases hj : pool.active k' with
    | none => rfl
    | some j =>
      have hne : j ≠ physical := fun hp => ht.unused k' (hp ▸ hj)
      simp only [Option.bind_some]
      rw [hother j hne, (ht.kept j (h.serving k' j hj).1).2]
  · rw [ha] at hk
    cases hk
  · refine ⟨shard, hidle, activeShard_of (Function.update_self _ _ _) ?_⟩
    rw [List.getElem?_modify, hs, ht.sleeping]
    simp

theorem Wf.wake (h : Wf Idle pool) (hn : Idle newShard) (k : Nat) :
    Woken trait Idle k pool (pool.wake trait newShard k).1 (pool.wake trait newShard k).2 := by
  cases ha : pool.active k with
  | some physical =>
    simp only [ShardPool.wake, ha]
    exact ⟨h, rfl, ha, fun k' _ => ⟨rfl, rfl⟩, fun _ => rfl, fun hk => nomatch ha.symm.trans hk⟩
  | none =>
    simp only [ShardPool.wake, ha]
    exact (h.takeFree hn).woken h ha

theorem Wf.writeBack (h : Wf Idle pool) (ha : pool.active k = some physical) (shard : S) :
    Wf Idle (pool.writeBack physical shard) ∧
      (pool.writeBack physical shard).activeShard k = some shard ∧
      ∀ k', k' ≠ k → (pool.writeBack physical shard).activeShard k' = pool.activeShard k' := by
  have hserving := h.serving k physical ha
  refine ⟨⟨h.apart, fun a j hj => ?_, fun j hj => ?_, fun j hj => ?_, h.nodup⟩, ?_, fun k' hk => ?_⟩
  · rw [ShardPool.writeBack, List.length_set]
    exact h.serving a j hj
  · obtain ⟨base, hb, hi⟩ := h.waiting j hj
    have hne : physical ≠ j := fun hp => hserving.2 (hp ▸ hj)
    exact ⟨base, (List.getElem?_set_ne hne).trans hb, hi⟩
  · rw [ShardPool.writeBack, List.length_set] at hj
    exact h.covered j hj
  · exact activeShard_of ha (List.getElem?_set_self hserving.1)
  · simp only [activeShard, ShardPool.writeBack]
    cases hj : pool.active k' with
    | none => rfl
    | some j =>
      have hne : physical ≠ j := fun hp => hk (h.apart k' k j hj (hp ▸ ha))
      exact List.getElem?_set_ne hne

structure Slept (trait : PooledShard S Z) (Idle : S → Prop) (k : Nat) (shard : S)
    (pool pool' : ShardPool S Z) : Prop where
  wf : Wf Idle pool'
  asleep : pool'.active k = none
  state : pool'.sleeping k = (trait.fallAsleep shard).1
  others : ∀ k', k' ≠ k → pool'.active k' = pool.active k' ∧
    pool'.activeShard k' = pool.activeShard k' ∧ pool'.sleeping k' = pool.sleeping k'

theorem Wf.trySleep (h : Wf Idle pool) (k : Nat)
    (hi : ∀ shard, pool.activeShard k = some shard → trait.canSleep shard = true →
      Idle (trait.fallAsleep shard).2) :
    pool.trySleep trait k = pool ∨ ∃ shard, pool.activeShard k = some shard ∧
      trait.canSleep shard = true ∧ Slept trait Idle k shard pool (pool.trySleep trait k) := by
  cases ha : pool.active k with
  | none => exact Or.inl (by simp only [ShardPool.trySleep, ha])
  | some physical =>
    obtain ⟨shard, hs, hshard⟩ := h.exists_shard ha
    cases hc : trait.canSleep shard with
    | false => exact Or.inl (by simp [ShardPool.trySleep, ha, hs, hc])
    | true =>
      refine Or.inr ⟨shard, hshard, hc, ?_⟩
      have hidle := hi shard hshard hc
      have hserving := h.serving k physical ha
      have hactive : ∀ k' j, Function.update pool.active k none k' = some j →
          k' ≠ k ∧ pool.active k' = some j ∧ physical ≠ j := by
        intro k' j hj
        rcases eq_or_ne k' k with rfl | hk
        · rw [Function.update_self] at hj
          cases hj
        · rw [Function.update_of_ne hk] at hj
          exact ⟨hk, hj, fun hp => hk (h.apart k' k j hj (hp ▸ ha))⟩
      simp only [ShardPool.trySleep, ha, hs, hc, if_true]
      refine ⟨⟨fun a b j hj hj' => ?_, fun a j hj => ?_, fun j hj => ?_, fun j hj => ?_, ?_⟩,
        Function.update_self _ _ _, Function.update_self _ _ _, fun k' hk => ⟨?_, ?_, ?_⟩⟩
      · exact h.apart a b j (hactive a j hj).2.1 (hactive b j hj').2.1
      · obtain ⟨-, hj, hne⟩ := hactive a j hj
        rw [List.length_set]
        refine ⟨(h.serving a j hj).1, fun hf => ?_⟩
        rcases List.mem_cons.1 hf with rfl | hf
        · exact hne rfl
        · exact (h.serving a j hj).2 hf
      · rcases List.mem_cons.1 hj with rfl | hj
        · exact ⟨_, List.getElem?_set_self hserving.1, hidle⟩
        · obtain ⟨base, hb, hbi⟩ := h.waiting j hj
          have hne : physical ≠ j := fun hp => hserving.2 (hp ▸ hj)
          exact ⟨base, (List.getElem?_set_ne hne).trans hb, hbi⟩
      · rw [List.length_set] at hj
        rcases h.covered j hj with hj | ⟨a, hj⟩
        · exact Or.inl (List.mem_cons_of_mem _ hj)
        · rcases eq_or_ne a k with rfl | hak
          · exact Or.inl (List.mem_cons.2 (Or.inl (Option.some.inj (hj.symm.trans ha))))
          · exact Or.inr ⟨a, (Function.update_of_ne hak _ _).trans hj⟩
      · exact List.nodup_cons.2 ⟨hserving.2, h.nodup⟩
      · exact Function.update_of_ne hk _ _
      · simp only [activeShard, Function.update_of_ne hk]
        cases hj : pool.active k' with
        | none => rfl
        | some j =>
          have hne : physical ≠ j := fun hp => hk (h.apart k' k j hj (hp ▸ ha))
          exact List.getElem?_set_ne hne
      · exact Function.update_of_ne hk _ _

end ShardPool

end KCensus

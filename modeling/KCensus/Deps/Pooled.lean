import KCensus.Deps.Alike
import KCensus.Deps.Projection

namespace KCensus.Deps

variable {n : Nat} [NeZero n] {c : Cluster n} {me : Fin n}

-- A physical shard that serves nobody keeps two counters of whom it served last.
def Idle (c : Cluster n) (me : Fin n) (physical : PhysicalShard n) : Prop :=
  ∃ nextUid nextId, physical.shard =
    { DepShard.new c me with
      nextUid := nextUid
      reads := { (DepShard.new c me).reads with nextId := nextId } }

theorem idle_new (c : Cluster n) (me : Fin n) : Idle c me (PhysicalShard.new c me) := ⟨_, _, rfl⟩

theorem Idle.wakeUp {physical : PhysicalShard n} (h : Idle c me physical) (k : Nat)
    (state : SleepingDepShard n) :
    physical.wakeUp k state = ⟨k, DepShard.wakeUp c me state⟩ := by
  obtain ⟨shardId, shard⟩ := physical
  obtain ⟨nextUid, nextId, rfl⟩ := h
  rfl

-- What an idle shard can be compressed to a watermark for.
structure Finished (s : DepShard n) : Prop where
  seen : s.seen = s.executed.watermark
  ahead : s.executed.ahead = ∅
  parked : s.parkedAccepts = ∅

-- Sleeping and waking up again changes no more than where the table starts.
structure Sleepable (c : Cluster n) (me : Fin n) (s : DepShard n) : Prop where
  clean : s.sinks = []
  wakes : s.canSleep c = true →
    DepShard.wakeUp c me s.fallAsleep = { s with instances := InstanceTable.new n }
  free : s.canSleep c = true → ∀ id, s.instances.get id = none

theorem Sleepable.finished {s : DepShard n} (h : Sleepable c me s) (hs : s.canSleep c = true) :
    Finished s := by
  have hw := h.wakes hs
  exact ⟨(congrArg DepShard.seen hw).symm, (congrArg (fun t => t.executed.ahead) hw).symm,
    (congrArg DepShard.parkedAccepts hw).symm⟩

namespace DepShard.Alike

variable {s s' : DepShard n}

theorem finished (h : s.Alike s') (hf : Finished s) : Finished s' := by
  obtain ⟨t, -, rfl⟩ := h
  exact ⟨hf.seen, hf.ahead, hf.parked⟩

theorem canSleep (h : s.Alike s') : s'.canSleep c = s.canSleep c := by
  obtain ⟨t, ht, rfl⟩ := h
  simp only [DepShard.canSleep, InstanceTable.isEmpty, ht.len]

theorem fallAsleep (h : s.Alike s') (hsleep : Sleepable c me s) (hs : s.canSleep c = true) (k : Nat) :
    s.Alike (wakeUp c me (PhysicalShard.fallAsleep ⟨k, s'⟩).1) ∧
      Idle c me (PhysicalShard.fallAsleep ⟨k, s'⟩).2 := by
  have hw := hsleep.wakes hs
  have hlen : s.instances.len = 0 := by
    have := hs
    simp only [DepShard.canSleep, InstanceTable.isEmpty, Bool.and_eq_true, decide_eq_true_eq] at this
    exact this.1.1.1.2
  obtain ⟨t, ht, rfl⟩ := h
  refine ⟨?_, s.nextUid, s.reads.nextId, ?_⟩
  · have hstate : (PhysicalShard.fallAsleep ⟨k, { s with instances := t }⟩).1 = s.fallAsleep := rfl
    rw [hstate, hw]
    refine ⟨InstanceTable.new n, ⟨fun id => ?_, hlen.symm⟩, rfl⟩
    rw [hsleep.free hs, InstanceTable.get_new]
  · have hsinks := congrArg DepShard.sinks hw
    have hdeferred := congrArg DepShard.deferred hw
    have hparked := congrArg DepShard.parkedAccepts hw
    have hreads := congrArg DepShard.reads hw
    have hready := congrArg DepShard.ready hw
    have hconflicts := congrArg DepShard.conflicts hw
    have hquorum := congrArg ReadTracker.readQuorum hreads
    have hleader := congrArg ReadTracker.leader hreads
    have hempty := congrArg ReadTracker.reads hreads
    obtain ⟨sinks, nextUid, seen, executed, instances, deferred, parked,
      ⟨nextId, quorum, leader, reads⟩, ready, conflicts⟩ := s
    simp only [DepShard.wakeUp, DepShard.new] at hsinks hdeferred hparked hready hconflicts
    simp only [DepShard.wakeUp, DepShard.new, ReadTracker.new] at hquorum hleader hempty
    subst hsinks hdeferred hparked hquorum hleader hempty hready hconflicts
    rfl

end DepShard.Alike

namespace DepShard

variable {s : DepShard n}

theorem handle_executed {src : Fin n} {packet : Packet n} {id : Uid} (hid : packet.msg.id = some id)
    (he : s.executed.contains id) :
    (s.emit (.received src packet)).handle c me src packet =
      (s.emit (.received src packet), []) := by
  obtain ⟨msg, value⟩ := packet
  cases msg <;> cases hid <;> exact if_pos he

theorem handle_ack (hfree : ∀ id, s.instances.get id = none) (hready : s.ready = []) {src : Fin n}
    {msg : DepMsg n} (hm : msg.isAck = true) :
    (∀ id, ((s.emit (.received src ⟨msg, none⟩)).handle c me src ⟨msg, none⟩).1.instances.get id =
      none) ∧
    ((s.emit (.received src ⟨msg, none⟩)).handle c me src ⟨msg, none⟩).1.ready = [] ∧
    ((s.emit (.received src ⟨msg, none⟩)).handle c me src ⟨msg, none⟩).2 = [] := by
  have habout : ∀ id, (∀ v, ((s.emit (.received src ⟨msg, none⟩)).handleAbout c me id src
      ⟨msg, none⟩).1.instances.get v = none) ∧
      ((s.emit (.received src ⟨msg, none⟩)).handleAbout c me id src ⟨msg, none⟩).1.ready = [] ∧
      ((s.emit (.received src ⟨msg, none⟩)).handleAbout c me id src ⟨msg, none⟩).2 = [] := by
    intro id
    have hkey : (s.emit (.received src ⟨msg, none⟩)).instances.containsKey id = false := by
      rw [InstanceTable.containsKey]
      exact Option.isSome_eq_false_iff.2 (by rw [Option.isNone_iff_eq_none]; exact hfree id)
    rw [handleAbout]
    split
    · exact ⟨hfree, hready, rfl⟩
    · rw [hkey]
      exact ⟨hfree, hready, rfl⟩
  cases msg <;> cases hm <;> exact habout _

end DepShard

-- A pool against a shard of its own for every logical shard.
structure PoolMirrors (c : Cluster n) (me : Fin n) (pool : DepPool n) (plain : Nat → DepShard n) :
    Prop where
  wf : pool.Wf (Idle c me)
  awake : ∀ k physical, pool.activeShard k = some physical →
    physical.shardId = k ∧ (plain k).Alike physical.shard
  asleep : ∀ k, pool.active k = none →
    (plain k).Alike (DepShard.wakeUp c me (pool.sleeping k))

namespace PoolMirrors

variable {pool : DepPool n} {plain : Nat → DepShard n} {k : Nat}

theorem new (c : Cluster n) (me : Fin n) (shardCount poolSize : Nat) :
    PoolMirrors c me (ShardPool.new (PhysicalShard.new c me) shardCount poolSize
      (SleepingDepShard.new me)) fun _ => DepShard.new c me where
  wf := .new (idle_new c me) _ _ _
  awake := fun _ _ h => nomatch h
  asleep := fun _ _ => DepShard.Alike.refl _

theorem wake (h : PoolMirrors c me pool plain) (k : Nat) :
    PoolMirrors c me ((ShardStore.pooled c me).wake k pool) plain ∧
      ((ShardStore.pooled c me).wake k pool).active k ≠ none ∧
      ∀ k', pool.active k' ≠ none → ((ShardStore.pooled c me).wake k pool).active k' ≠ none := by
  have hw : ShardPool.Woken (PhysicalShard.pooled c) (Idle c me) k pool _ _ :=
    h.wf.wake (idle_new c me) k
  change PoolMirrors c me (pool.wake _ _ k).1 plain ∧ (pool.wake _ _ k).1.active k ≠ none ∧
    ∀ k', pool.active k' ≠ none → (pool.wake _ _ k).1.active k' ≠ none
  have hserves : (pool.wake (PhysicalShard.pooled c) (PhysicalShard.new c me) k).1.active k ≠ none := by
    rw [hw.serves]
    exact Option.some_ne_none _
  refine ⟨⟨hw.wf, fun k' physical hp => ?_, fun k' hk => ?_⟩, hserves, fun k' hk => ?_⟩
  · rcases eq_or_ne k' k with rfl | hne
    · cases ha : pool.active k' with
      | none =>
        obtain ⟨base, hidle, hshard⟩ := hw.woken ha
        rw [hp] at hshard
        cases hshard
        have hwake : (PhysicalShard.pooled c).wakeUp k' (pool.sleeping k') base =
          ⟨k', DepShard.wakeUp c me (pool.sleeping k')⟩ := hidle.wakeUp k' _
        rw [hwake]
        exact ⟨rfl, h.asleep k' ha⟩
      | some index =>
        rw [hw.awake (by rw [ha]; rfl)] at hp
        exact h.awake k' physical hp
    · rw [(hw.others k' hne).2] at hp
      exact h.awake k' physical hp
  · have hne : k' ≠ k := fun heq => hserves (heq ▸ hk)
    rw [hw.sleeping]
    exact h.asleep k' ((hw.others k' hne).1.symm.trans hk)
  · rcases eq_or_ne k' k with rfl | hne
    · exact hserves
    · rw [(hw.others k' hne).1]
      exact hk

theorem activeShard_of_active (h : PoolMirrors c me pool plain) (hk : pool.active k ≠ none) :
    ∃ physical, pool.activeShard k = some physical := by
  obtain ⟨index, ha⟩ := Option.ne_none_iff_exists'.1 hk
  obtain ⟨shard, -, hs⟩ := h.wf.exists_shard ha
  exact ⟨shard, hs⟩

theorem writeBack (h : PoolMirrors c me pool plain) {physical : PhysicalShard n}
    (hp : pool.activeShard k = some physical) {s s' : DepShard n} (hs : s.Alike s') :
    PoolMirrors c me ((ShardStore.pooled c me).writeBack k ⟨physical.shardId, s'⟩ pool)
      (Function.update plain k s) ∧
    ∀ k', ((ShardStore.pooled c me).writeBack k ⟨physical.shardId, s'⟩ pool).active k' =
      pool.active k' := by
  cases ha : pool.active k with
  | none =>
    rw [ShardPool.activeShard_none ha] at hp
    cases hp
  | some index =>
    obtain ⟨hwf, hself, hother⟩ := h.wf.writeBack ha ⟨physical.shardId, s'⟩
    have hdef : (ShardStore.pooled c me).writeBack k ⟨physical.shardId, s'⟩ pool =
        ShardPool.writeBack index ⟨physical.shardId, s'⟩ pool := by
      simp only [ShardStore.pooled, ha]
    rw [hdef]
    refine ⟨⟨hwf, fun k' physical' hp' => ?_, fun k' hk => ?_⟩, fun _ => rfl⟩
    · rcases eq_or_ne k' k with rfl | hne
      · rw [hself] at hp'
        cases hp'
        rw [Function.update_self]
        exact ⟨(h.awake k' physical hp).1, hs⟩
      · rw [hother k' hne] at hp'
        rw [Function.update_of_ne hne]
        exact h.awake k' physical' hp'
    · have hne : k' ≠ k := by
        rintro rfl
        exact nomatch hk.symm.trans ha
      rw [Function.update_of_ne hne]
      exact h.asleep k' hk

theorem trySleep (h : PoolMirrors c me pool plain) (hs : ∀ k, Sleepable c me (plain k)) (k : Nat) :
    PoolMirrors c me ((ShardStore.pooled c me).trySleep k pool) plain := by
  change PoolMirrors c me (pool.trySleep (PhysicalShard.pooled c) k) plain
  have hfall : ∀ physical, pool.activeShard k = some physical →
      (PhysicalShard.pooled c).canSleep physical = true →
      (plain k).Alike (DepShard.wakeUp c me ((PhysicalShard.pooled c).fallAsleep physical).1) ∧
        Idle c me ((PhysicalShard.pooled c).fallAsleep physical).2 := by
    intro physical hp hsleep
    obtain ⟨-, halike⟩ := h.awake k physical hp
    exact halike.fallAsleep (hs k) (halike.canSleep.symm.trans hsleep) physical.shardId
  rcases h.wf.trySleep k fun physical hp hsleep => (hfall physical hp hsleep).2 with heq | hslept
  · rw [heq]
    exact h
  · obtain ⟨physical, hp, hsleep, hslept⟩ := hslept
    refine ⟨hslept.wf, fun k' physical' hp' => ?_, fun k' hk => ?_⟩
    · rcases eq_or_ne k' k with rfl | hne
      · rw [ShardPool.activeShard_none hslept.asleep] at hp'
        cases hp'
      · rw [(hslept.others k' hne).2.1] at hp'
        exact h.awake k' physical' hp'
    · rcases eq_or_ne k' k with rfl | hne
      · rw [hslept.state]
        exact (hfall physical hp hsleep).1
      · rw [(hslept.others k' hne).2.2]
        exact h.asleep k' ((hslept.others k' hne).1.symm.trans hk)

theorem sleepAll (h : PoolMirrors c me pool plain) (hs : ∀ k, Sleepable c me (plain k))
    (ks : List Nat) : PoolMirrors c me
      (ks.foldl (fun pool k => (ShardStore.pooled c me).trySleep k pool) pool) plain := by
  induction ks generalizing pool with
  | nil => exact h
  | cons k ks ih => exact ih (h.trySleep hs k)

end PoolMirrors

end KCensus.Deps

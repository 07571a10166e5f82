import KCensus.Deps.Moves

namespace KCensus.Deps

open Relation

variable {n : Nat} [NeZero n]

namespace DepShard

variable {c : Cluster n} {me : Fin n} {heard : Fin n → Packet n → Prop} {s s' : DepShard n}

structure SameTables (s s' : DepShard n) : Prop where
  nextUid : s'.nextUid = s.nextUid
  seen : s'.seen = s.seen
  executed : s'.executed = s.executed
  conflicts : s'.conflicts = s.conflicts
  domain : ∀ id, s'.instances.get id = none ↔ s.instances.get id = none

theorem sameTables_put (s : DepShard n) (id : Uid) (i : Instance n) :
    SameTables s (s.put id i) := by
  refine ⟨rfl, rfl, rfl, rfl, fun v => ?_⟩
  rw [get_put]
  split <;> simp

theorem SameTables.emitAll (h : SameTables s s') (events : List (Event n)) :
    SameTables s (s'.emitAll events) := ⟨h.nextUid, h.seen, h.executed, h.conflicts, h.domain⟩

theorem SameTables.refl (s : DepShard n) : SameTables s s := ⟨rfl, rfl, rfl, rfl, fun _ => Iff.rfl⟩

theorem seen_insert_next {d : DepSet n} {r : Fin n} (v : Uid) :
    (d.insert (uidAt (d.marks r) r)).contains v ↔ d.contains v ∨ v = uidAt (d.marks r) r :=
  Executed.contains_insert_next (by simp)

theorem noteKey_le {conflicts : Nat → Option (DepSet n)} {seen : DepSet n} {id : Uid}
    (h : ∀ key d, conflicts key = some d → ∀ r, d.marks r ≤ (seen.insert id).marks r)
    (keys : List Nat) : ∀ key d, keys.foldl (noteKey id) conflicts key = some d →
      ∀ r, d.marks r ≤ (seen.insert id).marks r := by
  induction keys generalizing conflicts with
  | nil => exact h
  | cons k keys ih =>
    refine ih fun key d hd r => ?_
    simp only [noteKey] at hd
    split at hd
    · rw [← Option.some.inj hd, DepSet.insert_marks, DepSet.insert_marks]
      cases hc : conflicts k with
      | none =>
        simp only [Option.getD_none, DepSet.new]
        split <;> omega
      | some d' =>
        have := h k d' hc r
        rw [DepSet.insert_marks] at this
        simp only [Option.getD_some]
        split
        · rename_i hr
          rw [if_pos hr] at this
          omega
        · rename_i hr
          rwa [if_neg hr] at this
    · exact h key d hd r

theorem contains_foldl (conflicts : Nat → Option (DepSet n)) (keys : List Nat) (d : DepSet n)
    (v : Uid) : (keys.foldl (fun deps key =>
      match conflicts key with
      | some seen => deps.unionWith seen
      | none => deps) d).contains v ↔
      d.contains v ∨ ∃ key ∈ keys, ∃ seen, conflicts key = some seen ∧ seen.contains v := by
  induction keys generalizing d with
  | nil => simp
  | cons key keys ih =>
    rw [List.foldl_cons, ih]
    cases hk : conflicts key with
    | none => simp [hk]
    | some seen => simp [hk, or_assoc]

theorem contains_depsFor (s : DepShard n) (keys : List Nat) (v : Uid) :
    (s.depsFor c keys).contains v ↔
      (c.perKeyDeps = false ∧ s.seen.contains v) ∨
        (c.perKeyDeps = true ∧
          ∃ key ∈ keys, ∃ seen, s.conflicts key = some seen ∧ seen.contains v) := by
  unfold depsFor
  cases hper : c.perKeyDeps with
  | false => simp
  | true => exact (contains_foldl s.conflicts keys _ v).trans (by simp)

theorem depsFor_le
    (h : ∀ key d, s.conflicts key = some d → ∀ r, d.marks r ≤ s.seen.marks r) (keys : List Nat)
    (v : Uid) (hv : (s.depsFor c keys).contains v) : s.seen.contains v := by
  rcases (contains_depsFor s keys v).1 hv with ⟨-, hv⟩ | ⟨-, key, -, d, hd, hv⟩
  · exact hv
  · exact Nat.lt_of_lt_of_le hv (h key d hd _)

theorem Sane.same (h : Sane c me s) (ht : SameTables s s') (hc : s'.instances.Counted)
    (hp : ∀ id ∈ s'.parkedAccepts, id ∈ acceptIds (s'.deferred.map Prod.snd))
    (hq : s'.reads.readQuorum = s.reads.readQuorum) (hl : s'.reads.leader = s.reads.leader) :
    Sane c me s' where
  counted := hc
  nextUid := by rw [ht.nextUid, ht.seen, h.nextUid]
  known := by
    intro id
    rw [ht.seen, ht.executed, h.known, ne_eq, ne_eq, not_congr (ht.domain id)]
  live := by
    intro id i hi
    rw [ht.executed]
    cases hg : s.instances.get id with
    | none => exact nomatch ((ht.domain id).2 hg).symm.trans hi
    | some j => exact h.live id j hg
  wf := ht.executed ▸ h.wf
  parked := hp
  quorum := hq.trans h.quorum
  leader := hl.trans h.leader
  conflicts := by
    rw [ht.conflicts, ht.seen]
    exact h.conflicts

theorem Sane.grow (h : Sane c me s) {r : Fin n} {i : Instance n} {keys : List Nat}
    (hs : s'.seen = s.seen.insert (uidAt (s.seen.marks r) r)) (he : s'.executed = s.executed)
    (hi : s'.instances = s.instances.insert (uidAt (s.seen.marks r) r) i)
    (hk : s'.conflicts = if c.perKeyDeps then
      keys.foldl (noteKey (uidAt (s.seen.marks r) r)) s.conflicts else s.conflicts)
    (hn : s'.nextUid = if r = me then s.nextUid.add n else s.nextUid)
    (hd : s'.deferred = s.deferred) (hp : s'.parkedAccepts = s.parkedAccepts)
    (hr : s'.reads = s.reads) : Sane c me s' := by
  have hunseen : ¬ s.seen.contains (uidAt (s.seen.marks r) r) := by simp
  refine ⟨?_, ?_, fun id => ?_, fun id j hj => ?_, he ▸ h.wf, ?_, hr ▸ h.quorum, hr ▸ h.leader, ?_⟩
  · rw [hi]
    exact h.counted.insert i (h.free hunseen)
  · rw [hn, hs, DepSet.insert_marks, requesterOf_uidAt, indexOf_uidAt]
    by_cases hm : r = me
    · subst hm
      rw [if_pos rfl, if_pos rfl, h.nextUid, uidAt_add, Nat.max_eq_right (Nat.le_succ _)]
    · rw [if_neg hm, if_neg (Ne.symm hm), h.nextUid]
  · rw [hs, seen_insert_next, h.known, he, hi, InstanceTable.get_insert]
    by_cases hid : id = uidAt (s.seen.marks r) r
    · simp [hid]
    · simp [hid]
  · rw [hi, InstanceTable.get_insert] at hj
    rw [he]
    split at hj
    · rename_i hid
      rw [hid]
      exact h.unexecuted hunseen
    · exact h.live id j hj
  · rw [hp, hd]
    exact h.parked
  · intro key d hkey
    rw [hk] at hkey
    rw [hs]
    by_cases hper : c.perKeyDeps = true
    · rw [if_pos hper] at hkey
      refine ⟨hper, noteKey_le (fun key d hd r' => ?_) keys key d hkey⟩
      have := (h.conflicts key d hd).2 r'
      rw [DepSet.insert_marks]
      split <;> omega
    · rw [if_neg hper] at hkey
      exact absurd (h.conflicts key d hkey).1 hper

theorem Sane.execute (h : Sane c me s) (uid : Uid) : Sane c me (s.execute uid) := by
  have hc := counted_execute h.counted uid
  cases hi : s.instances.get uid with
  | none =>
    have he : s.execute uid = s.emit .panicked := by rw [DepShard.execute, withInstance_none hi]
    rw [he] at hc ⊢
    exact h.same ((SameTables.refl s).emitAll [.panicked]) hc h.parked rfl rfl
  | some i =>
    have hrun := ran_execute hi
    have hwf : (s.execute uid).executed.Wf := by
      rw [DepShard.execute, withInstance_some hi]
      exact Executed.wf_insert h.wf (h.live uid i hi)
    refine ⟨hc, ?_, fun id => ?_, fun id j hj => ?_, hwf, ?_, ?_, ?_, ?_⟩
    · rw [hrun.nextUid, hrun.seen, h.nextUid]
    · rw [hrun.seen, hrun.executed, hrun.get, h.known]
      by_cases hid : id = uid
      · simp [hid, hi]
      · simp [hid]
    · rw [hrun.executed, List.mem_singleton]
      rw [hrun.get] at hj
      split at hj
      · cases hj
      · rename_i hid
        rw [List.mem_singleton] at hid
        exact fun hor => hor.elim (h.live id j hj) hid
    · rw [hrun.parked, hrun.deferred]
      exact h.parked
    · rw [hrun.reads, h.quorum]
    · rw [hrun.reads, h.leader]
    · rw [hrun.conflicts, hrun.seen]
      exact h.conflicts

omit [NeZero n] in
theorem mem_acceptIds (held : List (Held n)) (id : Uid) :
    id ∈ acceptIds held ↔ ∃ src deps, (src, DepMsg.accept id deps) ∈ held := by
  simp only [acceptIds, List.mem_filterMap, Prod.exists]
  constructor
  · rintro ⟨src, msg, hm, hid⟩
    cases msg <;> simp at hid
    subst hid
    exact ⟨src, _, hm⟩
  · rintro ⟨src, deps, hm⟩
    exact ⟨src, _, hm, rfl⟩

theorem mem_heldFor (s : DepShard n) (key : Uid) (entry : Held n) :
    entry ∈ s.heldFor key ↔ (key, entry) ∈ s.deferred := by
  simp [heldFor]

theorem Sane.defer (h : Sane c me s) (key : Uid) (src : Fin n) (msg : DepMsg n) :
    Sane c me (s.defer key src msg) := by
  refine h.same ⟨rfl, rfl, rfl, rfl, fun _ => Iff.rfl⟩ h.counted (fun id hid => ?_) rfl rfl
  simp only [DepShard.defer, List.map_append, List.map_cons, List.map_nil] at hid ⊢
  have hold : id ∈ s.parkedAccepts →
      id ∈ acceptIds (s.deferred.map Prod.snd ++ [(src, msg)]) := by
    intro hp
    obtain ⟨src', deps, hm⟩ := (mem_acceptIds _ _).1 (h.parked id hp)
    exact (mem_acceptIds _ _).2 ⟨src', deps, List.mem_append_left _ hm⟩
  cases msg with
  | accept id' deps =>
    rcases Finset.mem_insert.1 hid with rfl | hid
    · exact (mem_acceptIds _ _).2 ⟨src, deps, by simp⟩
    · exact hold hid
  | forward | preAccept | preAcceptOk | acceptOk | commit | readRequest | readResponse =>
    exact hold hid

theorem Sane.release (h : Sane c me s) (key : Uid) : Sane c me (s.release key) := by
  refine h.same ⟨rfl, rfl, rfl, rfl, fun _ => Iff.rfl⟩ h.counted (fun id hid => ?_) rfl rfl
  simp only [DepShard.release, Finset.mem_sdiff, List.mem_toFinset] at hid ⊢
  obtain ⟨src, deps, hm⟩ := (mem_acceptIds _ _).1 (h.parked id hid.1)
  obtain ⟨entry, he, heq⟩ := List.mem_map.1 hm
  refine (mem_acceptIds _ _).2 ⟨src, deps, List.mem_map.2 ⟨entry, List.mem_filter.2 ⟨he, ?_⟩, heq⟩⟩
  rw [decide_eq_true_eq]
  rintro rfl
  refine hid.2 ((mem_acceptIds _ _).2 ⟨src, deps, ?_⟩)
  rw [mem_heldFor, ← heq]
  exact he

theorem Move.sane (hm : Move c me heard s s') (h : Sane c me s) : Sane c me s' := by
  have hc := hm.counted h.counted
  cases hm with
  | note _ | announce _ _ | forward _ _ _ | order _ =>
    exact h.same ((SameTables.refl s).emitAll [_]) hc h.parked rfl rfl
  | start commands _ _ _ =>
    rw [openInstance_eq] at hc ⊢
    exact h.grow (by rw [h.nextUid]; rfl) rfl (by rw [h.nextUid]) (by rw [h.nextUid]; rfl)
      (if_pos rfl).symm rfl rfl rfl
  | learn _ hid hsrc _ _ =>
    rw [learn_eq] at hc ⊢
    subst hid
    exact h.grow rfl rfl rfl rfl (if_neg hsrc).symm rfl rfl rfl
  | vote _ _ _ _ _ | ack _ _ _ | leavePath _ _ =>
    exact h.same (sameTables_put s _ _) hc h.parked rfl rfl
  | accept _ _ =>
    rw [answerAccept_eq] at hc ⊢
    exact h.same ((sameTables_put s _ _).emitAll _) hc h.parked rfl rfl
  | slowPath _ _ _ _ _ _ | commit _ _ _ =>
    exact h.same ((sameTables_put s _ _).emitAll [_]) hc h.parked rfl rfl
  | execute _ _ _ => exact h.execute _
  | serve => exact h.same ⟨rfl, rfl, rfl, rfl, fun _ => Iff.rfl⟩ hc h.parked rfl rfl
  | ask command =>
    unfold askReplicas at hc ⊢
    split <;> exact h.same ⟨rfl, rfl, rfl, rfl, fun _ => Iff.rfl⟩ h.counted h.parked rfl rfl
  | hold key _ _ _ => exact h.defer key _ _
  | release key => exact h.release key
  | drain => exact h.same ⟨rfl, rfl, rfl, rfl, fun _ => Iff.rfl⟩ hc h.parked rfl rfl
  | sleep hn =>
    exact h.same ⟨rfl, rfl, rfl, rfl, fun id => by simp [hn id]⟩ hc h.parked rfl rfl

theorem Moves.sane (hm : Moves c me heard s s') (h : Sane c me s) : Sane c me s' := by
  induction hm with
  | refl => exact h
  | tail _ hm ih => exact hm.sane ih

end DepShard

end KCensus.Deps

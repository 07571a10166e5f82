import KCensus.Deps.Decisions

namespace KCensus.Deps

variable {n : Nat} [NeZero n]

-- Commands of one shard conflict, unless dependencies are kept key by key.
def Conflicting (c : Cluster n) (keys keys' : List Nat) : Prop :=
  c.perKeyDeps = false ∨ ∃ key ∈ keys, key ∈ keys'

omit [NeZero n] in
theorem Conflicting.symm {c : Cluster n} {keys keys' : List Nat} (h : Conflicting c keys keys') :
    Conflicting c keys' keys :=
  h.imp_right fun ⟨key, hk, hk'⟩ => ⟨key, hk', hk⟩

namespace DepShard

variable {c : Cluster n} {s : DepShard n}

theorem noteKey_keeps (id : Uid) (keys : List Nat) (conflicts : Nat → Option (DepSet n))
    {key : Nat} {v : Uid} (h : ∃ seen, conflicts key = some seen ∧ seen.contains v) :
    ∃ seen, keys.foldl (noteKey id) conflicts key = some seen ∧ seen.contains v := by
  induction keys generalizing conflicts with
  | nil => exact h
  | cons k keys ih =>
    refine ih _ ?_
    obtain ⟨seen, hseen, hv⟩ := h
    unfold noteKey
    split
    · rename_i hk
      subst hk
      rw [hseen]
      exact ⟨_, rfl, (DepSet.contains_insert _ _ _).2 (Or.inl hv)⟩
    · exact ⟨seen, hseen, hv⟩

theorem noteKey_notes (id : Uid) (keys : List Nat) (conflicts : Nat → Option (DepSet n))
    {key : Nat} (hk : key ∈ keys) :
    ∃ seen, keys.foldl (noteKey id) conflicts key = some seen ∧ seen.contains id := by
  induction keys generalizing conflicts with
  | nil => cases hk
  | cons k keys ih =>
    rcases List.mem_cons.1 hk with rfl | hk
    · refine noteKey_keeps id keys _ ⟨_, if_pos rfl, ?_⟩
      exact (DepSet.contains_insert _ _ _).2 (Or.inr ⟨rfl, Nat.le_refl _⟩)
    · exact ih _ hk

theorem depsFor_noteSeen (s : DepShard n) (id : Uid) (keys keys' : List Nat) {v : Uid}
    (h : (s.depsFor c keys').contains v) : ((s.noteSeen c id keys).depsFor c keys').contains v := by
  rw [contains_depsFor] at h ⊢
  rcases h with ⟨hper, h⟩ | ⟨hper, key, hk, hseen⟩
  · exact Or.inl ⟨hper, (DepSet.contains_insert _ _ _).2 (Or.inl h)⟩
  · refine Or.inr ⟨hper, key, hk, ?_⟩
    simp only [noteSeen, hper, if_true]
    exact noteKey_keeps id keys _ hseen

theorem depsFor_noted (s : DepShard n) (id : Uid) {keys keys' : List Nat}
    (h : Conflicting c keys keys') : ((s.noteSeen c id keys).depsFor c keys').contains id := by
  rw [contains_depsFor]
  cases hper : c.perKeyDeps with
  | false => exact Or.inl ⟨rfl, (DepSet.contains_insert _ _ _).2 (Or.inr ⟨rfl, Nat.le_refl _⟩)⟩
  | true =>
    rcases h with h | ⟨key, hk, hk'⟩
    · rw [hper] at h
      cases h
    · refine Or.inr ⟨rfl, key, hk', ?_⟩
      simp only [noteSeen, hper, if_true]
      exact noteKey_notes id keys _ hk

end DepShard

-- A shard's view holds every command it heard of, and so do its later proposals.
structure Viewed (c : Cluster n) (hist : List (Fin n × Event n)) (p : Fin n) (s : DepShard n) :
    Prop where
  sees : ∀ id commands keys, (p, Event.created id commands) ∈ hist →
    Conflicting c (keysOf commands) keys → (s.depsFor c keys).contains id
  own : ∀ id commands, (p, Event.created id commands) ∈ hist → requesterOf n id = p →
    ∃ d, (p, Event.proposed id d) ∈ hist
  bounded : ∀ id d, (p, Event.proposed id d) ∈ hist → c.isSwift = false →
    d.marks (requesterOf n id) ≤ indexOf n id
  visible : ∀ a b da db ca cb, a ≠ b → c.isSwift = false →
    (p, Event.proposed a da) ∈ hist → (p, Event.proposed b db) ∈ hist →
    (p, Event.created a ca) ∈ hist → (p, Event.created b cb) ∈ hist →
    Conflicting c (keysOf ca) (keysOf cb) → da.contains b ∨ db.contains a

namespace Viewed

variable {c : Cluster n} {hist : List (Fin n × Event n)} {p : Fin n} {s s' : DepShard n}
  {events : List (Event n)}

theorem quiet (h : Viewed c hist p s) (hs : s'.seen = s.seen) (hc : s'.conflicts = s.conflicts)
    (hq : ∀ e ∈ events, e.founds = false) : Viewed c (hist ++ events.map (Prod.mk p)) p s' := by
  have hmem : ∀ {r : Fin n} {e : Event n}, e.founds = true →
      ((r, e) ∈ hist ++ events.map (Prod.mk p) ↔ (r, e) ∈ hist) := fun hf => Created.mem_quiet hq hf
  have hdeps : ∀ keys, s'.depsFor c keys = s.depsFor c keys := fun keys => by
    unfold DepShard.depsFor
    rw [hs, hc]
  refine ⟨fun id commands keys hid hk => ?_, fun id commands hid hr => ?_, fun id d hd => ?_,
    fun a b da db ca cb hab hsw ha hb hca hcb hk => ?_⟩
  · rw [hdeps]
    exact h.sees id commands keys ((hmem rfl).1 hid) hk
  · obtain ⟨d, hd⟩ := h.own id commands ((hmem rfl).1 hid) hr
    exact ⟨d, (hmem rfl).2 hd⟩
  · exact h.bounded id d ((hmem rfl).1 hd)
  · exact h.visible a b da db ca cb hab hsw ((hmem rfl).1 ha) ((hmem rfl).1 hb) ((hmem rfl).1 hca)
      ((hmem rfl).1 hcb) hk

theorem other {q : Fin n} {e : Event n} (hq : q ≠ p) (h : Viewed c hist p s) :
    Viewed c (hist ++ [(q, e)]) p s where
  sees := fun id commands keys hid hk => h.sees id commands keys (mem_other hq hid) hk
  own := fun id commands hid hr => by
    obtain ⟨d, hd⟩ := h.own id commands (mem_other hq hid) hr
    exact ⟨d, List.mem_append_left _ hd⟩
  bounded := fun id d hd => h.bounded id d (mem_other hq hd)
  visible := fun a b da db ca cb hab hsw ha hb hca hcb hk =>
    h.visible a b da db ca cb hab hsw (mem_other hq ha) (mem_other hq hb) (mem_other hq hca)
      (mem_other hq hcb) hk

theorem found (h : Viewed c hist p s) (hcr : Created c hist p s) {id : Uid}
    {commands : List (Command n)} (deps : DepSet n) (hunseen : ¬ s.seen.contains id)
    (hs : s'.seen = (s.noteSeen c id (keysOf commands)).seen)
    (hc : s'.conflicts = (s.noteSeen c id (keysOf commands)).conflicts)
    (hcreated : Event.created id commands ∈ events)
    (hevents : ∀ e ∈ events, e = .created id commands ∨ e = .proposed id deps ∨
      (∃ packet priority, e = .broadcast packet priority) ∨ e.founds = false)
    (hown : requesterOf n id = p → Event.proposed id deps ∈ events)
    (hbound : c.isSwift = false → deps.marks (requesterOf n id) ≤ indexOf n id)
    (hvis : c.isSwift = false → ∀ a da ca, (p, Event.proposed a da) ∈ hist →
      (p, Event.created a ca) ∈ hist → Conflicting c (keysOf ca) (keysOf commands) →
      deps.contains a) :
    Viewed c (hist ++ events.map (Prod.mk p)) p s' := by
  have hcreated' : ∀ {v : Uid} {a : List (Command n)},
      (p, Event.created v a) ∈ hist ++ events.map (Prod.mk p) →
      (p, Event.created v a) ∈ hist ∨ v = id ∧ a = commands := by
    intro v a ha
    rcases mem_log ha with ha | ⟨-, ha⟩
    · exact Or.inl ha
    · rcases hevents _ ha with heq | heq | ⟨_, _, heq⟩ | hf
      · cases heq
        exact Or.inr ⟨rfl, rfl⟩
      · cases heq
      · cases heq
      · cases hf
  have hproposed : ∀ {v : Uid} {d : DepSet n},
      (p, Event.proposed v d) ∈ hist ++ events.map (Prod.mk p) →
      (p, Event.proposed v d) ∈ hist ∨ v = id ∧ d = deps := by
    intro v d hd
    rcases mem_log hd with hd | ⟨-, hd⟩
    · exact Or.inl hd
    · rcases hevents _ hd with heq | heq | ⟨_, _, heq⟩ | hf
      · cases heq
      · cases heq
        exact Or.inr ⟨rfl, rfl⟩
      · cases heq
      · cases hf
  have hdeps : ∀ keys, s'.depsFor c keys = (s.noteSeen c id (keysOf commands)).depsFor c keys :=
    fun keys => by
      unfold DepShard.depsFor
      rw [hs, hc]
  have hnocreated : ∀ a, (p, Event.created id a) ∉ hist := hcr.unseen hunseen
  have hnoproposed : ∀ d, (p, Event.proposed id d) ∉ hist := hcr.unproposed hunseen
  refine ⟨fun v a keys hv hk => ?_, fun v a hv hr => ?_, fun v d hd hsw => ?_,
    fun a b da db ca cb hab hsw ha hb hca hcb hk => ?_⟩
  · rw [hdeps]
    rcases hcreated' hv with hv | ⟨rfl, rfl⟩
    · exact DepShard.depsFor_noteSeen s id _ keys (h.sees v a keys hv hk)
    · exact DepShard.depsFor_noted s v hk
  · rcases hcreated' hv with hv | ⟨rfl, rfl⟩
    · obtain ⟨d, hd⟩ := h.own v a hv hr
      exact ⟨d, List.mem_append_left _ hd⟩
    · exact ⟨deps, Recorded.mem_new _ _ (hown hr)⟩
  · rcases hproposed hd with hd | ⟨rfl, rfl⟩
    · exact h.bounded v d hd hsw
    · exact hbound hsw
  · rcases hproposed ha with ha | ⟨rfl, rfl⟩ <;> rcases hproposed hb with hb | ⟨hbid, rfl⟩
    · rcases hcreated' hca with hca | ⟨rfl, rfl⟩
      · rcases hcreated' hcb with hcb | ⟨rfl, rfl⟩
        · exact h.visible a b da db ca cb hab hsw ha hb hca hcb hk
        · exact absurd hb (hnoproposed db)
      · exact absurd ha (hnoproposed da)
    · subst hbid
      rcases hcreated' hca with hca | ⟨rfl, rfl⟩
      · rcases hcreated' hcb with hcb | ⟨-, rfl⟩
        · exact absurd hcb (hnocreated cb)
        · exact Or.inr (hvis hsw a da ca ha hca hk)
      · exact absurd rfl hab
    · rcases hcreated' hcb with hcb | ⟨rfl, rfl⟩
      · rcases hcreated' hca with hca | ⟨-, rfl⟩
        · exact absurd hca (hnocreated ca)
        · exact Or.inl (hvis hsw b db cb hb hcb hk.symm)
      · exact absurd rfl hab
    · exact absurd hbid.symm hab

-- A voter's proposal holds what conflicts with it, the coordinator's own commands through the
-- coordinator's proposal.
theorem voter_sees {src : Fin n} {id a : Uid} {deps : DepSet n} {keys : List Nat}
    (hsw : c.isSwift = false) (hr : requesterOf n id = src)
    (hother : requesterOf n a ≠ src → (s.depsFor c keys).contains a)
    (hown : requesterOf n a = src → indexOf n a < indexOf n id ∧ deps.contains a) :
    (s.ownDeps c id deps keys).contains a := by
  unfold DepShard.ownDeps
  rw [hsw, DepSet.contains_iff, DepSet.withoutUid_marks]
  simp only [Bool.false_eq_true, if_false, DepSet.unionWith_marks, DepSet.clearReplica_marks, hr]
  by_cases ha : requesterOf n a = src
  · obtain ⟨hlt, hd⟩ := hown ha
    rw [DepSet.contains_iff, ha] at hd
    rw [ha, if_pos rfl, Nat.max_zero]
    split
    · exact hlt
    · exact hd
  · have hd := hother ha
    rw [DepSet.contains_iff] at hd
    rw [if_neg fun h => ha h.1, if_neg ha]
    omega

theorem voter_bounded {src : Fin n} {id : Uid} {deps : DepSet n} {keys : List Nat}
    (hsw : c.isSwift = false) (hr : requesterOf n id = src) (h : deps.marks src ≤ indexOf n id) :
    (s.ownDeps c id deps keys).marks src ≤ indexOf n id := by
  unfold DepShard.ownDeps
  rw [hsw, DepSet.withoutUid_marks]
  simp only [Bool.false_eq_true, if_false, DepSet.unionWith_marks, DepSet.clearReplica_marks, hr,
    true_and, if_true, Nat.max_zero]
  split
  · exact Nat.le_refl _
  · exact h

theorem move (hsc : Scene c (Settled c) (Viewed c) hist p s)
    (hm : DepShard.Move c p (heardBy hist p) s s') (he : s'.sinks = s.sinks ++ events) :
    Viewed c (hist ++ events.map (Prod.mk p)) p s' := by
  have hcr := hsc.known.1.1
  rcases hm.founds_or he with hf | ⟨hs, hc, hq⟩
  · cases hf with
    | start commands hco =>
      have hnext := hsc.sane.nextUid
      have hr : requesterOf n s.nextUid = p := by rw [hnext, requesterOf_uidAt]
      have hix : indexOf n s.nextUid = s.seen.marks p := by rw [hnext, indexOf_uidAt]
      rw [DepShard.openInstance_eq] at he ⊢
      rw [← List.append_cancel_left he]
      refine hsc.own.found hcr (s.depsFor c (keysOf commands)) hsc.sane.next_unseen rfl rfl
        (List.mem_append_left _ List.mem_cons_self) (fun e hmem => ?_) (fun _ => ?_) (fun _ => ?_)
        fun _ a da ca _ hca hk => hsc.own.sees a ca _ hca hk
      · rcases DepShard.mem_openEvents hmem with h | h | h | ⟨-, -, rfl⟩
        · exact Or.inl h
        · exact Or.inr (Or.inl h)
        · exact Or.inr (Or.inr (Or.inl ⟨_, _, h⟩))
        · exact Or.inr (Or.inr (Or.inr (DepShard.founds_ackEvent _ rfl)))
      · exact List.mem_append_left _ (List.mem_cons_of_mem _ List.mem_cons_self)
      · rw [hr, hix]
        by_contra hlt
        have := DepShard.depsFor_le (c := c)
          (fun key d hd => (hsc.sane.conflicts key d hd).2) (keysOf commands) (uidAt (s.seen.marks p) p)
          (by rw [DepSet.contains_uidAt]; omega)
        simp at this
    | @learn src id deps commands hh hid hsrc =>
      have hr : requesterOf n id = src := by rw [hid, requesterOf_uidAt]
      have hix : indexOf n id = s.seen.marks src := by rw [hid, indexOf_uidAt]
      have hunseen : ¬ s.seen.contains id := by simp [hid]
      obtain ⟨t, ⟨⟨htc, -⟩, -⟩, htv⟩ := hsc.all src
      obtain ⟨hcsrc, hdsrc⟩ : (src, Event.created id commands) ∈ hist ∧
          (src, Event.proposed id deps) ∈ hist := by
        have hrec : Scene c (Created c) (Recorded c) hist p s :=
          ⟨hsc.faithful, hsc.sane, hsc.logged, hcr, hsc.known.1.2, fun q => by
            obtain ⟨t, ht, -⟩ := hsc.all q
            exact ⟨t, ht.1⟩⟩
        exact (Recorded.heard_offer hrec hh).2
      rw [DepShard.learn_eq] at he ⊢
      rw [← List.append_cancel_left he]
      refine hsc.own.found hcr ((s.noteSeen c id (keysOf commands)).ownDeps c id deps
        (keysOf commands)) hunseen rfl rfl List.mem_cons_self (fun e hmem => ?_)
        (fun h => absurd (hr.symm.trans h) hsrc) (fun hsw => ?_) fun hsw a da ca ha hca hk => ?_
      · rcases List.mem_cons.1 hmem with h | h
        · exact Or.inl h
        · obtain ⟨-, h | ⟨-, -, rfl⟩ | ⟨acked, -, ⟨-, -, rfl⟩ | ⟨-, -, rfl⟩⟩⟩ :=
            DepShard.mem_preAcceptEvents h
          · exact Or.inr (Or.inl h)
          · exact Or.inr (Or.inr (Or.inr (DepShard.founds_ackEvent _ rfl)))
          · exact Or.inr (Or.inr (Or.inr (DepShard.founds_ackEvent _ rfl)))
          · exact Or.inr (Or.inr (Or.inr rfl))
      · have := htv.bounded id deps hdsrc hsw
        rw [hr] at this ⊢
        exact voter_bounded hsw hr this
      · refine voter_sees hsw hr (fun _ => ?_) fun har => ?_
        · exact DepShard.depsFor_noteSeen s id _ _ (hsc.own.sees a ca _ hca hk)
        · have hlt : indexOf n a < indexOf n id := by
            have := (hcr.seen a).2 ⟨ca, hca⟩
            rw [DepSet.contains_iff, har] at this
            omega
          refine ⟨hlt, ?_⟩
          have hcaSrc : (src, Event.created a ca) ∈ hist := har ▸ hcr.source a ca hca
          obtain ⟨dsrc, hd⟩ := htv.own a ca hcaSrc har
          have hne : a ≠ id := by
            rintro rfl
            exact Nat.lt_irrefl _ hlt
          rcases htv.visible a id dsrc deps ca commands hne hsw hd hdsrc hcaSrc hcsrc hk with h | h
          · have hb := htv.bounded a dsrc hd hsw
            rw [DepSet.contains_iff, hr] at h
            rw [har] at hb
            omega
          · exact h
  · exact hsc.own.quiet hs hc hq

theorem stable : Stable c (Settled c) (Viewed c) where
  new := fun p => ⟨by simp, by simp, by simp, by simp⟩
  clear := fun h => ⟨h.sees, h.own, h.bounded, h.visible⟩
  other := fun hq h => h.other hq
  arrive := fun hsc _ _ _ ha he => by
    obtain ⟨hs, hc, hq⟩ := ha.founds he
    exact hsc.own.quiet hs hc hq
  move := move

theorem kept : Kept c fun hist p s => Settled c hist p s ∧ Viewed c hist p s :=
  Decided.kept.and stable

end Viewed

namespace World

variable {c : Cluster n} {w : World n}

def Proposes (w : World n) (id : Uid) (commands : List (Command n)) : Prop :=
  ∃ p, (p, Event.created id commands) ∈ w.hist

theorem Reachable.viewed (h : Reachable c w) (p : Fin n) : Viewed c w.hist p (w.shard c p) :=
  (h.kept Viewed.kept p).2

theorem Commits.agree (h : Reachable c w) (hsw : c.isSwift = false) {p q : Fin n} {id : Uid}
    {d d' : DepSet n} (hd : w.Commits p id d) (hd' : w.Commits q id d') : d = d' :=
  (h.settled (requesterOf n id)).2.once id d d' ((h.settled p).2.origin id d hd hsw)
    ((h.settled q).2.origin id d' hd' hsw)

theorem Commits.voters (h : Reachable c w) (hsw : c.isSwift = false) {p : Fin n} {id : Uid}
    {d : DepSet n} (hd : w.Commits p id d) :
    (∃ voters : Finset (Fin n), voters ⊆ c.alive ∧ c.slowQuorum ≤ voters.card ∧
      ∀ q ∈ voters, ∃ e, (q, Event.proposed id e) ∈ w.hist ∧ ∀ v, e.contains v → d.contains v) ∧
      ∀ v, d.contains v → ∃ q e, (q, Event.proposed id e) ∈ w.hist ∧ e.contains v := by
  have hb := ((h.settled p).1.2.committed id d hd).1
  unfold Backed at hb
  split at hb
  · exact hb
  · rename_i hm
    rw [Cluster.isSwift, hm] at hsw
    cases hsw

theorem Proposes.at (h : Reachable c w) {id : Uid} {commands : List (Command n)}
    (hp : w.Proposes id commands) {q : Fin n} {d : DepSet n} (hq : (q, Event.proposed id d) ∈ w.hist) :
    (q, Event.created id commands) ∈ w.hist := by
  obtain ⟨p, hp⟩ := hp
  obtain ⟨commands', hc⟩ := (h.settled q).1.1.proposal id d hq
  have := (h.settled (requesterOf n id)).1.1.once id commands commands'
    ((h.settled p).1.1.source id commands hp) ((h.settled q).1.1.source id commands' hc)
  rwa [this]

theorem Commits.visible (h : Reachable c w) (hsw : c.isSwift = false) {p q : Fin n} {a b : Uid}
    {da db : DepSet n} {ca cb : List (Command n)} (hab : a ≠ b) (ha : w.Commits p a da)
    (hb : w.Commits q b db) (hca : w.Proposes a ca) (hcb : w.Proposes b cb)
    (hk : Conflicting c (keysOf ca) (keysOf cb)) : da.contains b ∨ db.contains a := by
  obtain ⟨⟨va, hva, hqa, hpa⟩, -⟩ := ha.voters h hsw
  obtain ⟨⟨vb, hvb, hqb, hpb⟩, -⟩ := hb.voters h hsw
  obtain ⟨r, hra, hrb⟩ := Cluster.quorums_meet hva hvb hqa hqb
  obtain ⟨ea, hea, hla⟩ := hpa r hra
  obtain ⟨eb, heb, hlb⟩ := hpb r hrb
  exact ((h.viewed r).visible a b ea eb ca cb hab hsw hea heb (hca.at h hea) (hcb.at h heb) hk).imp
    (hla b) (hlb a)

theorem Commits.earlier (h : Reachable c w) (hsw : c.isSwift = false) {p : Fin n} {id v : Uid}
    {d : DepSet n} (hd : w.Commits p id d) (hv : d.contains v)
    (hr : requesterOf n v = requesterOf n id) : indexOf n v < indexOf n id := by
  obtain ⟨q, e, he, hev⟩ := (hd.voters h hsw).2 v hv
  have hb := (h.viewed q).bounded id e he hsw
  rw [DepSet.contains_iff, hr] at hev
  omega

theorem Commits.proposes (h : Reachable c w) {p : Fin n} {id : Uid} {d : DepSet n}
    (hd : w.Commits p id d) : ∃ commands, w.Proposes id commands := by
  obtain ⟨members, -, hcard, hm⟩ := ((h.settled p).1.2.committed id d hd).2
  obtain ⟨q, hq⟩ := Finset.card_pos.1 (Nat.lt_of_lt_of_le (Nat.lt_of_lt_of_le Nat.zero_lt_one
    (Nat.le_add_right _ _)) hcard)
  obtain ⟨commands, hc⟩ := hm q hq
  exact ⟨commands, q, hc⟩

theorem epaxos_agreement_and_visibility {coordinator : Fin n → Fin n}
    (hmode : c.mode = .ePaxos coordinator) (h : Reachable c w) :
    (∀ p q id d d', w.Commits p id d → w.Commits q id d' → d = d') ∧
      (∀ p q a b da db ca cb, a ≠ b → w.Commits p a da → w.Commits q b db → w.Proposes a ca →
        w.Proposes b cb → Conflicting c (keysOf ca) (keysOf cb) →
        da.contains b ∨ db.contains a) ∧
      ∀ p id d v, w.Commits p id d → d.contains v → requesterOf n v = requesterOf n id →
        indexOf n v < indexOf n id := by
  have hsw : c.isSwift = false := by rw [Cluster.isSwift, hmode]
  exact ⟨fun p q id d d' hd hd' => hd.agree h hsw hd',
    fun p q a b da db ca cb hab ha hb hca hcb hk => ha.visible h hsw hab hb hca hcb hk,
    fun p id d v hd hv hr => hd.earlier h hsw hv hr⟩

-- Two writes that cross on the links.
def crossing : World 2 :=
  World.init.run DepShard.pair
    [.submit 0 [writeOf 0 0] false, .submit 1 [writeOf 1 0] false, .receive 0 1 false,
      .receive 1 0 false, .receive 0 1 false, .receive 1 0 false, .receive 0 1 false,
      .receive 1 0 false, .receive 0 1 false, .receive 1 0 false, .receive 0 1 false,
      .receive 1 0 false]

theorem crossing_visible : ∃ da db, crossing.Commits 0 DepShard.left da ∧
    crossing.Commits 1 DepShard.right db ∧
    (da.contains DepShard.right ∨ db.contains DepShard.left) := by
  have h : Reachable DepShard.pair crossing := Reachable.init.run _
  obtain ⟨da, ha⟩ := Option.isSome_iff_exists.1
    (show (crossing.decision 0 DepShard.left).isSome = true by decide +kernel)
  obtain ⟨db, hb⟩ := Option.isSome_iff_exists.1
    (show (crossing.decision 1 DepShard.right).isSome = true by decide +kernel)
  have hca : crossing.Commits 0 DepShard.left da := mem_of_decision ha
  have hcb : crossing.Commits 1 DepShard.right db := mem_of_decision hb
  obtain ⟨ca, hpa⟩ := hca.proposes h
  obtain ⟨cb, hpb⟩ := hcb.proposes h
  exact ⟨da, db, hca, hcb, (epaxos_agreement_and_visibility rfl h).2.1 0 1 DepShard.left
    DepShard.right da db ca cb (by decide +kernel) hca hcb hpa hpb (Or.inl rfl)⟩

end World

end KCensus.Deps

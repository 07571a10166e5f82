import KCensus.Deps.Decisions
import KCensus.Lib.Precedence

namespace KCensus.Deps

open Lib

variable {n : Nat} [NeZero n]

-- What a process has sent Accepts for, in that order.
def acceptances (hist : List (Fin n × Event n)) (p : Fin n) : List (Uid × DepSet n) :=
  (logOf hist p).filterMap Event.acceptance

def accepted (hist : List (Fin n × Event n)) (p : Fin n) : List Uid :=
  (acceptances hist p).map Prod.fst

section

variable {hist : List (Fin n × Event n)} {p q : Fin n} {events : List (Event n)}

omit [NeZero n] in
theorem mem_executedIds {id : Uid} :
    id ∈ executedIds (logOf hist p) ↔ ∃ commands, (p, Event.executed id commands) ∈ hist := by
  unfold executedIds
  rw [List.mem_filterMap]
  constructor
  · rintro ⟨e, he, hid⟩
    cases e <;> cases hid
    exact ⟨_, mem_logOf.1 he⟩
  · rintro ⟨commands, h⟩
    exact ⟨_, mem_logOf.2 h, rfl⟩

omit [NeZero n] in
theorem acceptances_quiet (h : q = p → ∀ e ∈ events, e.acceptance = none) :
    acceptances (hist ++ events.map (Prod.mk q)) p = acceptances hist p := by
  unfold acceptances
  by_cases hq : q = p
  · subst hq
    rw [logOf_self, List.filterMap_append, List.filterMap_eq_nil_iff.2 (h rfl), List.append_nil]
  · rw [logOf_other hq]

omit [NeZero n] in
theorem executedIds_quiet (h : q = p → ∀ e ∈ events, e.executedId = none) :
    executedIds (logOf (hist ++ events.map (Prod.mk q)) p) = executedIds (logOf hist p) := by
  unfold executedIds
  by_cases hq : q = p
  · subst hq
    rw [logOf_self, List.filterMap_append, List.filterMap_eq_nil_iff.2 (h rfl), List.append_nil]
  · rw [logOf_other hq]

end

-- What the SwiftPaxos leader has accepted: each command after all that it names, which without
-- keys is all it had accepted before.
structure Led (c : Cluster n) (hist : List (Fin n × Event n)) (leader : Fin n) (s : DepShard n) : Prop where
  seen : ∀ v, s.seen.contains v ↔ v ∈ accepted hist leader
  nodup : (accepted hist leader).Nodup
  below : ∀ (k : Nat) id d, (acceptances hist leader)[k]? = some (id, d) →
    ∀ v, d.contains v → v ∈ (accepted hist leader).take k
  exact : c.perKeyDeps = false → ∀ (k : Nat) id d,
    (acceptances hist leader)[k]? = some (id, d) → d.marks (requesterOf n id) = indexOf n id ∧
      ∀ v, d.contains v ↔ v ∈ (accepted hist leader).take k
  proposal : ∀ id d, (leader, Event.proposed id d) ∈ hist → (id, d) ∈ acceptances hist leader

structure Follows (c : Cluster n) (leader : Fin n) (hist : List (Fin n × Event n)) (p : Fin n) (s : DepShard n) :
    Prop where
  led : p = leader → Led c hist leader s
  executed : c.perKeyDeps = false → executedIds (logOf hist p) <+: accepted hist leader
  acyclic : c.perKeyDeps = false → ∀ order, (p, Event.ordered order) ∈ hist → order = []

namespace Led

variable {c : Cluster n} {hist : List (Fin n × Event n)} {leader p : Fin n} {s s' : DepShard n}
  {events : List (Event n)}

theorem quiet (h : Led c hist leader s) (hs : s'.seen = s.seen)
    (ha : p = leader → ∀ e ∈ events, e.acceptance = none)
    (hf : p = leader → ∀ e ∈ events, e.founds = false) :
    Led c (hist ++ events.map (Prod.mk p)) leader s' := by
  have hacc : acceptances (hist ++ events.map (Prod.mk p)) leader = acceptances hist leader :=
    acceptances_quiet ha
  refine ⟨?_, ?_, ?_, ?_, fun id d hd => ?_⟩
  · simp only [accepted, hacc, hs]
    exact h.seen
  · rw [accepted, hacc]
    exact h.nodup
  · simp only [accepted, hacc]
    exact h.below
  · simp only [accepted, hacc]
    exact h.exact
  · rw [hacc]
    rcases mem_log hd with hd | ⟨hp, hd⟩
    · exact h.proposal id d hd
    · have := hf hp.symm _ hd
      cases this

theorem found (h : Led c hist leader s) {id : Uid} {d : DepSet n} {r : Fin n}
    (hid : id = uidAt (s.seen.marks r) r) (hd : ∀ v, d.contains v → s.seen.contains v)
    (hx : c.perKeyDeps = false → d = s.seen)
    (hs : s'.seen = s.seen.insert id) (ha : events.filterMap Event.acceptance = [(id, d)])
    (hf : ∀ v e, Event.proposed v e ∈ events → v = id ∧ e = d) :
    Led c (hist ++ events.map (Prod.mk leader)) leader s' := by
  have hacc : acceptances (hist ++ events.map (Prod.mk leader)) leader =
      acceptances hist leader ++ [(id, d)] := by
    rw [acceptances, logOf_self, List.filterMap_append, ha]
    rfl
  have hids : accepted (hist ++ events.map (Prod.mk leader)) leader =
      accepted hist leader ++ [id] := by
    rw [accepted, hacc, List.map_append]
    rfl
  have hplace : ∀ {k : Nat} {v : Uid} {e : DepSet n},
      (acceptances (hist ++ events.map (Prod.mk leader)) leader)[k]? = some (v, e) →
        (acceptances hist leader)[k]? = some (v, e) ∧
            (accepted (hist ++ events.map (Prod.mk leader)) leader).take k =
              (accepted hist leader).take k ∨
          (v = id ∧ e = d) ∧
            (accepted (hist ++ events.map (Prod.mk leader)) leader).take k =
              accepted hist leader := fun {k v e} hk => by
    have hlen : (accepted hist leader).length = (acceptances hist leader).length :=
      List.length_map _
    rw [hids]
    rw [hacc, List.getElem?_append] at hk
    split at hk
    · rw [List.take_append_of_le_length (by omega)]
      exact Or.inl ⟨hk, rfl⟩
    · obtain ⟨hlt, heq⟩ := List.getElem?_eq_some_iff.1 hk
      simp only [List.length_singleton] at hlt
      simp only [List.getElem_singleton, Prod.mk.injEq] at heq
      rw [show k = (accepted hist leader).length by omega, List.take_left']
      · exact Or.inr ⟨⟨heq.1.symm, heq.2.symm⟩, rfl⟩
      · rfl
  refine ⟨fun v => ?_, ?_, fun k v e hk => ?_, fun hper k v e hk => ?_, fun v e he => ?_⟩
  · rw [hs, hids, hid, DepShard.seen_insert_next, h.seen]
    simp
  · rw [hids, List.nodup_append]
    refine ⟨h.nodup, List.nodup_singleton _, fun a ha b hb hab => ?_⟩
    rw [List.mem_singleton] at hb
    rw [hab, hb, ← h.seen, hid] at ha
    simp at ha
  · rcases hplace hk with ⟨hk, htake⟩ | ⟨⟨rfl, rfl⟩, htake⟩
    · rw [htake]
      exact h.below k v e hk
    · rw [htake]
      exact fun u hu => (h.seen u).1 (hd u hu)
  · rcases hplace hk with ⟨hk, htake⟩ | ⟨⟨rfl, rfl⟩, htake⟩
    · rw [htake]
      exact h.exact hper k v e hk
    · rw [htake, hx hper, hid, requesterOf_uidAt, indexOf_uidAt]
      exact ⟨rfl, h.seen⟩
  · rw [hacc]
    rcases mem_log he with he | ⟨-, he⟩
    · exact List.mem_append_left _ (h.proposal v e he)
    · obtain ⟨rfl, rfl⟩ := hf v e he
      exact List.mem_append_right _ List.mem_cons_self

end Led

section

variable {c : Cluster n} {leader : Fin n} {quorum : Option (Finset (Fin n))}

omit [NeZero n] in
theorem Cluster.swift_of_mode (hm : c.mode = .swiftPaxos leader quorum) : c.isSwift = true := by
  rw [Cluster.isSwift, hm]

omit [NeZero n] in
theorem Cluster.leader_of_mode (hm : c.mode = .swiftPaxos leader quorum) (p : Fin n) :
    c.leader p = leader := by rw [Cluster.leader, hm]

omit [NeZero n] in
theorem Cluster.leader_votes (hm : c.mode = .swiftPaxos leader quorum) :
    c.inFastQuorum leader = true := by
  have hv := c.mode_valid
  rw [hm] at hv
  simp only [Cluster.inFastQuorum, Cluster.isReplica, hm, Bool.and_eq_true, decide_eq_true_eq]
  refine ⟨hv.1, ?_⟩
  cases quorum with
  | none => rfl
  | some members => simpa using (hv.2 members rfl).1

end

theorem acceptance_ackEvent (c : Cluster n) (id : Uid) (msg : DepMsg n) :
    (ackEvent c id msg).acceptance = match msg with
      | .accept id deps => some (id, deps)
      | _ => none := by
  unfold ackEvent
  split <;> cases msg <;> rfl

namespace DepShard

variable {c : Cluster n} {me : Fin n} {s : DepShard n}

theorem acceptance_openEvents (hsw : c.isSwift = true) (hl : c.leader me = me) (id : Uid)
    (deps : DepSet n) (commands : List (Command n)) :
    (openEvents c me id deps commands).filterMap Event.acceptance = [(id, deps)] := by
  have hack := acceptance_ackEvent c id (.accept id deps)
  rw [openEvents, hsw, hl, List.filterMap_append]
  simp only [decide_true, Bool.and_self, if_true]
  rw [List.filterMap_cons_some hack]
  rfl

theorem acceptance_preAcceptEvents (hsw : c.isSwift = true) (hl : c.leader me = me)
    (hv : c.inFastQuorum me = true) (src : Fin n) (id : Uid) (deps myDeps : DepSet n)
    {i : Instance n} (hi : i.isSettled = false) :
    (preAcceptEvents c me src id deps myDeps i).filterMap Event.acceptance = [(id, myDeps)] := by
  have hack := acceptance_ackEvent c id (.accept id myDeps)
  rw [preAcceptEvents, if_pos ⟨hi, hv⟩, voteEvents, if_pos hsw, if_pos hl,
    List.filterMap_cons_none rfl, List.filterMap_cons_some hack]
  rfl

theorem depsFor_shard (hper : c.perKeyDeps = false) (keys : List Nat) (s : DepShard n) :
    s.depsFor c keys = s.seen := by
  unfold depsFor
  rw [hper]
  rfl

theorem noteSeen_conflicts (h : ∀ key d, s.conflicts key = some d → ∀ r, d.marks r ≤ s.seen.marks r)
    (id : Uid) (keys : List Nat) : ∀ key d, (s.noteSeen c id keys).conflicts key = some d →
      ∀ r, d.marks r ≤ (s.seen.insert id).marks r := by
  have hgrown : ∀ key d, s.conflicts key = some d → ∀ r, d.marks r ≤ (s.seen.insert id).marks r :=
    fun key d hd r => by
      have := h key d hd r
      rw [DepSet.insert_marks]
      split <;> omega
  intro key d hd
  unfold noteSeen at hd
  split at hd
  · exact noteKey_le hgrown keys key d hd
  · exact hgrown key d hd

theorem ownDeps_le (hsw : c.isSwift = true)
    (h : ∀ key d, s.conflicts key = some d → ∀ r, d.marks r ≤ s.seen.marks r) {id : Uid}
    {r : Fin n} (hid : id = uidAt (s.seen.marks r) r) (deps : DepSet n) (keys keys' : List Nat)
    (v : Uid) (hv : ((s.noteSeen c id keys).ownDeps c id deps keys').contains v) :
    s.seen.contains v := by
  have hle : ((s.noteSeen c id keys).depsFor c keys').isCoveredBy (s.seen.insert id) :=
    (DepSet.isCoveredBy_iff _ _).2 (depsFor_le (noteSeen_conflicts h id keys) keys')
  have hmark := hle (requesterOf n v)
  unfold ownDeps at hv
  rw [hsw, if_pos rfl, DepSet.contains_iff, DepSet.withoutUid_marks] at hv
  rw [DepSet.insert_marks] at hmark
  rw [DepSet.contains_iff]
  simp only [hid, requesterOf_uidAt, indexOf_uidAt] at hv hmark
  by_cases hr : requesterOf n v = r
  · rw [if_pos hr] at hmark
    rw [hr] at hv hmark ⊢
    split at hv <;> omega
  · rw [if_neg hr] at hmark
    rw [if_neg fun h => hr h.1] at hv
    omega

theorem ownDeps_shard (hsw : c.isSwift = true) (hper : c.perKeyDeps = false) {id : Uid}
    {r : Fin n} (hid : id = uidAt (s.seen.marks r) r) (deps : DepSet n) (keys keys' : List Nat) :
    (s.noteSeen c id keys).ownDeps c id deps keys' = s.seen := by
  unfold ownDeps
  rw [hsw, if_pos rfl, depsFor_shard hper]
  refine DepSet.ext (funext fun r' => ?_)
  simp only [noteSeen, hid, DepSet.withoutUid_marks, DepSet.insert_marks, requesterOf_uidAt,
    indexOf_uidAt]
  by_cases hr : r' = r
  · simp [hr]
  · simp [hr]

end DepShard

namespace Follows

variable {c : Cluster n} {leader : Fin n} {quorum : Option (Finset (Fin n))}
  {hist : List (Fin n × Event n)} {p : Fin n} {s s' : DepShard n} {events : List (Event n)}

theorem quiet (h : Follows c leader hist p s) (hs : s'.seen = s.seen)
    (ha : ∀ e ∈ events, e.acceptance = none) (hf : ∀ e ∈ events, e.founds = false)
    (hx : ∀ e ∈ events, e.executedId = none) (ho : c.perKeyDeps = false → ∀ order, Event.ordered order ∈ events → order = []) :
    Follows c leader (hist ++ events.map (Prod.mk p)) p s' where
  led := fun hp => (h.led hp).quiet hs (fun _ => ha) fun _ => hf
  executed := by
    rw [executedIds_quiet fun _ => hx, accepted, acceptances_quiet fun _ => ha]
    exact h.executed
  acyclic := fun hper order hm => by
    rcases mem_log hm with hm | ⟨-, hm⟩
    · exact h.acyclic hper order hm
    · exact ho hper order hm

omit [NeZero n] in
theorem accepted_grows (hist more : List (Fin n × Event n)) (leader : Fin n) :
    accepted hist leader <+: accepted (hist ++ more) leader := by
  unfold accepted acceptances logOf
  rw [List.filterMap_append, List.filterMap_append, List.map_append]
  exact List.prefix_append _ _

theorem other {q : Fin n} {e : Event n} (hq : q ≠ p) (h : Follows c leader hist p s) :
    Follows c leader (hist ++ [(q, e)]) p s where
  led := fun hp => by
    have hquiet : Led c (hist ++ [e].map (Prod.mk q)) leader s := (h.led hp).quiet rfl
      (fun h => absurd (h.trans hp.symm) hq) fun h => absurd (h.trans hp.symm) hq
    exact hquiet
  executed := fun hper => by
    have hlog : logOf (hist ++ [(q, e)]) p = logOf hist p := logOf_other hq hist [e]
    rw [hlog]
    exact (h.executed hper).trans (accepted_grows _ _ _)
  acyclic := fun hper order hm => h.acyclic hper order (mem_other hq hm)

theorem founded (hm : c.mode = .swiftPaxos leader quorum)
    {heard : Fin n → Packet n → Prop} (h : Follows c leader hist p s) (hsane : DepShard.Sane c p s)
    (hf : DepShard.Founds c p heard s s') (he : s'.sinks = s.sinks ++ events)
    (ho : c.perKeyDeps = false → ∀ order, Event.ordered order ∈ events → order = []) :
    Follows c leader (hist ++ events.map (Prod.mk p)) p s' := by
  have hsw := Cluster.swift_of_mode hm
  have hcon := fun key d hd => (hsane.conflicts key d hd).2
  obtain ⟨-, hx⟩ := hf.executed he
  refine ⟨?_, fun hper => ?_, fun hper order hmem => ?_⟩
  · rintro rfl
    have hl := Cluster.leader_of_mode hm p
    cases hf with
    | start commands hc =>
      rw [DepShard.openInstance_eq] at he ⊢
      rw [← List.append_cancel_left he]
      refine (h.led rfl).found hsane.nextUid (DepShard.depsFor_le hcon (keysOf commands))
        (fun hper => DepShard.depsFor_shard hper (keysOf commands) s) rfl ?_ fun v d hd => ?_
      · exact DepShard.acceptance_openEvents hsw hl _ _ _
      · rcases DepShard.mem_openEvents hd with heq | heq | heq | ⟨-, -, heq⟩
        · cases heq
        · cases heq
          exact ⟨rfl, rfl⟩
        · cases heq
        · have := congrArg Event.founds heq
          rw [DepShard.founds_ackEvent _ rfl] at this
          cases this
    | @learn src id deps commands hh hid hsrc =>
      rw [DepShard.learn_eq] at he ⊢
      rw [← List.append_cancel_left he]
      refine (h.led rfl).found hid
        (DepShard.ownDeps_le hsw hcon hid deps (keysOf commands) (keysOf commands))
        (fun hper => DepShard.ownDeps_shard hsw hper hid deps (keysOf commands) (keysOf commands))
        rfl ?_ fun v d hd => ?_
      · rw [List.filterMap_cons_none rfl]
        exact DepShard.acceptance_preAcceptEvents hsw hl (Cluster.leader_votes hm) _ _ _ _
          (Instance.settled_proposedBy _ _ _ _)
      · rcases List.mem_cons.1 hd with heq | hd
        · cases heq
        · obtain ⟨-, heq | ⟨-, -, heq⟩ | ⟨acked, -, ⟨-, -, heq⟩ | ⟨-, -, heq⟩⟩⟩ :=
            DepShard.mem_preAcceptEvents hd
          · cases heq
            exact ⟨rfl, rfl⟩
          · have := congrArg Event.founds heq
            rw [DepShard.founds_ackEvent _ rfl] at this
            cases this
          · have := congrArg Event.founds heq
            rw [DepShard.founds_ackEvent _ rfl] at this
            cases this
          · cases heq
  · rw [executedIds_quiet fun _ => hx]
    exact (h.executed hper).trans (accepted_grows _ _ _)
  · rcases mem_log hmem with hmem | ⟨-, hmem⟩
    · exact h.acyclic hper order hmem
    · exact ho hper order hmem

section

variable (hm : c.mode = .swiftPaxos leader quorum) (hs : Decided.Known c hist p s)
  (hd : Decided c hist p s) (hf : Follows c leader hist p s) {t : DepShard n}
  (hled : Led c hist leader t) (hper : c.perKeyDeps = false)

include hd in
theorem executed_iff (v : Uid) : s.executed.contains v ↔ v ∈ executedIds (logOf hist p) := by
  rw [mem_executedIds]
  constructor
  · exact hd.ran v
  · rintro ⟨commands, hv⟩
    exact (hd.executed v commands hv).1

include hm hs hled in
theorem placed {uid : Uid} {i : Instance n} (hi : s.instances.get uid = some i)
    (hc : i.isCommitted = true) : ∃ k : Nat, (acceptances hist leader)[k]? = some (uid, i.deps) := by
  have hb := (hs.2.instances uid i hi).settled (Instance.isSettled_of_isCommitted hc)
  rw [Recorded.backed_of_swift (q := p) (Cluster.swift_of_mode hm), Cluster.leader_of_mode hm] at hb
  exact List.mem_iff_getElem?.1 (hled.proposal uid i.deps hb)

omit [NeZero n] in
theorem ids_getElem {k : Nat} {uid : Uid} {d : DepSet n}
    (hk : (acceptances hist leader)[k]? = some (uid, d)) :
    (accepted hist leader)[k]? = some uid := by
  rw [accepted, List.getElem?_map, hk]
  rfl

include hd hf hled hper in
theorem next {k : Nat} {uid : Uid} {d : DepSet n} (hk : (acceptances hist leader)[k]? = some (uid, d))
    (hn : ¬ s.executed.contains uid)
    (hdeps : ∀ v, d.contains v → v = uid ∨ s.executed.contains v) :
    k = (executedIds (logOf hist p)).length ∧
      executedIds (logOf hist p) ++ [uid] <+: accepted hist leader := by
  have hkid := ids_getElem hk
  refine prefix_concat hled.nodup (hf.executed hper) hkid (fun h => hn ((executed_iff hd uid).2 h))
    fun b hb => ?_
  rcases hdeps b (((hled.exact hper k uid d hk).2 b).2 hb) with rfl | hx
  · obtain ⟨j, hj, hjb⟩ := List.mem_take_iff_getElem.1 hb
    obtain ⟨hlt, hkb⟩ := List.getElem?_eq_some_iff.1 hkid
    have := (List.Nodup.getElem_inj_iff hled.nodup).1 (hjb.trans hkb.symm)
    omega
  · exact (executed_iff hd b).1 hx

include hd hf hled hper in
theorem executable (hwf : s.executed.Wf) {uid : Uid} {i : Instance n}
    (hk : (acceptances hist leader)[(executedIds (logOf hist p)).length]? = some (uid, i.deps))
    (hi : s.instances.get uid = some i) (hc : i.isCommitted = true) :
    nextExecutable s.instances s.executed ≠ none := by
  obtain ⟨hmark, hdeps⟩ := hled.exact hper _ uid _ hk
  have hran : ∀ v, i.deps.contains v ↔ s.executed.contains v := fun v => by
    rw [hdeps, executed_iff hd, ← List.prefix_iff_eq_take.1 (hf.executed hper)]
  have hnext : s.executed.nextUnexecuted (requesterOf n uid) = uid := by
    have hlow := (hran _).not.2 (Executed.not_contains_next hwf (requesterOf n uid))
    have hhigh : ¬ s.executed.watermark.contains uid := fun h => by
      have := (hran uid).2 (Or.inl h)
      rw [DepSet.contains_iff, hmark] at this
      omega
    rw [Executed.nextUnexecuted, DepSet.contains_uidAt, hmark] at hlow
    rw [DepSet.contains_iff] at hhigh
    rw [Executed.nextUnexecuted, show s.executed.watermark.marks (requesterOf n uid) =
      indexOf n uid by omega, uidAt_indexOf]
  have hcand : uid ∈ (candidates s.instances s.executed).filter fun uid =>
      ((depsAt s.instances uid).pendingOver s.executed).all (· = uid) := by
    refine List.mem_filter.2 ⟨?_, List.all_eq_true.2 fun v hv => ?_⟩
    · rw [← hnext]
      refine head_mem_candidates hwf _ ?_
      rw [hnext]
      exact (committedAt_iff _ _).2 ⟨i, hi, hc⟩
    · obtain ⟨hv, hx⟩ := (DepSet.mem_pendingOver _ _ _).1 hv
      rw [depsAt, hi] at hv
      exact absurd ((hran v).1 hv) hx
  intro hnone
  rw [nextExecutable, List.min?_eq_none_iff] at hnone
  rw [hnone] at hcand
  cases hcand

include hm hs hd hf hled hper in
theorem no_cycles (hsane : DepShard.Sane c p s)
    (hn : nextExecutable s.instances s.executed = none) :
    executableOrder s.instances s.executed = [] := by
  by_contra hne
  obtain ⟨a, ha⟩ := List.exists_mem_of_ne_nil _ hne
  have hspec := (executableOrder_spec s.instances s.executed).1
  have hplace : ∀ {v : Uid}, v ∈ executableOrder s.instances s.executed →
      ∃ i, s.instances.get v = some i ∧ i.isCommitted = true ∧
        ∃ k : Nat, (acceptances hist leader)[k]? = some (v, i.deps) := fun hv => by
    obtain ⟨i, hi, hc⟩ := (committedAt_iff _ _).1 (hspec.avail_of_mem _ hv)
    exact ⟨i, hi, hc, placed hm hs hled hi hc⟩
  obtain ⟨i, hi, -, k, hk⟩ := hplace ha
  obtain ⟨hlt, hget⟩ := List.getElem?_eq_some_iff.1 (ids_getElem hk)
  have hrun : ∀ {j : Nat} (hj : j < (accepted hist leader).length),
      s.executed.contains (accepted hist leader)[j] ↔ j < (executedIds (logOf hist p)).length :=
    fun hj => by rw [executed_iff hd, getElem_mem_initial hled.nodup (hf.executed hper) hj]
  have hmk : (executedIds (logOf hist p)).length ≤ k := by
    by_contra hlow
    exact hsane.live a i hi (hget ▸ (hrun hlt).2 (by omega))
  have hfirst : (accepted hist leader)[(executedIds (logOf hist p)).length] ∈
      executableOrder s.instances s.executed := by
    rcases Nat.eq_or_lt_of_le hmk with heq | hlow
    · simp only [heq, hget]
      exact ha
    · refine hspec.closed a ha _ ((mem_pendingDeps _ _ _ _).2 ⟨?_, ?_, ?_⟩)
      · rw [depsAt, hi]
        exact ((hled.exact hper k a _ hk).2 _).2 (List.mem_take_iff_getElem.2 ⟨_, by omega, rfl⟩)
      · rw [hrun]
        exact Nat.lt_irrefl _
      · rw [← hget, ne_eq, List.Nodup.getElem_inj_iff hled.nodup]
        exact Nat.ne_of_lt hlow
  obtain ⟨j, hj, hjc, k', hk'⟩ := hplace hfirst
  obtain ⟨hlt', hget'⟩ := List.getElem?_eq_some_iff.1 (ids_getElem hk')
  have hkk := (List.Nodup.getElem_inj_iff hled.nodup).1 hget'
  exact executable hd hf hled hper hsane.wf (hkk ▸ hk') hj hjc hn

end

theorem move (hm : c.mode = .swiftPaxos leader quorum)
    (hsc : Scene c (Settled c) (Follows c leader) hist p s)
    (hmove : DepShard.Move c p (heardBy hist p) s s') (he : s'.sinks = s.sinks ++ events) :
    Follows c leader (hist ++ events.map (Prod.mk p)) p s' := by
  have hf := hsc.own
  obtain ⟨hs, hd⟩ := hsc.known
  obtain ⟨t, -, ht⟩ := hsc.all leader
  have hled := ht.led rfl
  have ho : c.perKeyDeps = false → ∀ order, Event.ordered order ∈ events → order = [] :=
    fun hper order hmem => by
      obtain ⟨hn, rfl⟩ := hmove.logs he hmem
      exact no_cycles hm hs hd hf hled hper hsc.sane hn
  rcases hmove.kinds he with hfound | ⟨uid, i, hi, hc, hwhy, rfl, rfl⟩ | hq
  · exact hf.founded hm hsc.sane hfound he ho
  · refine ⟨fun hp => (hf.led hp).quiet ?_ ?_ ?_, fun hper => ?_, fun hper order hmem => ?_⟩
    · rw [DepShard.execute, DepShard.withInstance_some hi]
    · exact fun _ e hmem => List.mem_singleton.1 hmem ▸ rfl
    · exact fun _ e hmem => List.mem_singleton.1 hmem ▸ rfl
    · have hnext : nextExecutable s.instances s.executed = some uid := by
        rcases hwhy with hwhy | ⟨order, horder, huid⟩
        · exact hwhy
        · rw [hf.acyclic hper order (hsc.logged _ horder)] at huid
          cases huid
      obtain ⟨k, hk⟩ := placed hm hs hled hi hc
      have hdeps := (nextExecutable_spec hnext).2
      rw [depsAt, hi] at hdeps
      obtain ⟨-, hprefix⟩ := next hd hf hled hper hk (hsc.sane.live uid i hi) hdeps
      rw [logOf_self, accepted, acceptances_quiet fun _ e hmem => List.mem_singleton.1 hmem ▸ rfl]
      rw [executedIds, List.filterMap_append]
      exact hprefix
    · rcases mem_log hmem with hmem | ⟨-, hmem⟩
      · exact hf.acyclic hper order hmem
      · exact ho hper order hmem
  · exact hf.quiet hq.seen (fun e hmem => (hq.plain e hmem).2.2 (Cluster.swift_of_mode hm))
      (fun e hmem => (hq.plain e hmem).1) (fun e hmem => (hq.plain e hmem).2.1) ho

theorem stable (hm : c.mode = .swiftPaxos leader quorum) :
    Stable c (Settled c) (Follows c leader) where
  new := fun p => ⟨fun _ => ⟨fun v => by simp [DepShard.new, accepted, acceptances, logOf],
    List.nodup_nil, fun k id d h => by simp [acceptances, logOf] at h,
    fun _ k id d h => by simp [acceptances, logOf] at h, fun id d h => (by cases h)⟩,
    fun _ => List.nil_prefix, fun _ order h => (by cases h)⟩
  clear := fun h => ⟨fun hp => ⟨(h.led hp).seen, (h.led hp).nodup, (h.led hp).below,
    (h.led hp).exact, (h.led hp).proposal⟩, h.executed, h.acyclic⟩
  other := fun hq h => h.other hq
  arrive := fun {hist p s src packet s₁ events} hsc _ _ _ ha he => by
    have hlogs : ∀ e ∈ events, e.acceptance = none ∧ e.founds = false ∧ e.executedId = none ∧
        ∀ order, e ≠ .ordered order := fun e hmem => by
      rcases ha.logs he hmem with rfl | ⟨_, _, _, _, -, -, rfl⟩ <;>
        exact ⟨rfl, rfl, rfl, fun _ h => (by cases h)⟩
    exact hsc.own.quiet (ha.founds he).1 (fun e h => (hlogs e h).1) (fun e h => (hlogs e h).2.1)
      (fun e h => (hlogs e h).2.2.1) fun _ order h => absurd rfl ((hlogs _ h).2.2.2 order)
  move := move hm

theorem kept (hm : c.mode = .swiftPaxos leader quorum) :
    Kept c fun hist p s => Settled c hist p s ∧ Follows c leader hist p s :=
  Decided.kept.and (stable hm)

end Follows

namespace World

variable {c : Cluster n} {leader : Fin n} {quorum : Option (Finset (Fin n))} {w : World n}

theorem Reachable.follows (hm : c.mode = .swiftPaxos leader quorum) (h : Reachable c w)
    (p : Fin n) : Follows c leader w.hist p (w.shard c p) :=
  (h.kept (Follows.kept hm) p).2

theorem Reachable.led (hm : c.mode = .swiftPaxos leader quorum) (h : Reachable c w) :
    Led c w.hist leader (w.shard c leader) :=
  (h.follows hm leader).led rfl

theorem swift_executes_in_leader_order (hm : c.mode = .swiftPaxos leader quorum)
    (hper : c.perKeyDeps = false) (h : Reachable c w) :
    (accepted w.hist leader).Nodup ∧
      (∀ (k : Nat) id deps, (acceptances w.hist leader)[k]? = some (id, deps) →
        ∀ v, deps.contains v ↔ v ∈ (accepted w.hist leader).take k) ∧
      (∀ p id deps, w.Commits p id deps → (id, deps) ∈ acceptances w.hist leader) ∧
      (∀ p, executedIds (logOf w.hist p) <+: accepted w.hist leader) ∧
      ∀ p order, (p, Event.ordered order) ∈ w.hist → order = [] := by
  have hled := h.led hm
  refine ⟨hled.nodup, fun k id deps hk => (hled.exact hper k id deps hk).2, fun p id deps hc => ?_,
    fun p => (h.follows hm p).executed hper, fun p => (h.follows hm p).acyclic hper⟩
  have hb := ((h.settled p).1.2.committed id deps hc).1
  rw [Recorded.backed_of_swift (q := p) (Cluster.swift_of_mode hm), Cluster.leader_of_mode hm] at hb
  exact hled.proposal id deps hb

def ledTrio : Cluster 3 where
  alive := Finset.univ
  nbReplicas := 3
  mode := .swiftPaxos 0 none
  acks := false
  crossShard := false
  alive_le := by simp
  mode_valid := by simp [DepMode.Valid]

-- A follower hears of the leader's write before it hears back about its own.
def overtaken : World 3 :=
  World.init.run ledTrio
    [.submit 0 [writeOf 0 0] false, .submit 1 [writeOf 1 0] false, .receive 0 1 false,
      .receive 0 1 false, .receive 1 0 false, .receive 0 1 false, .receive 0 1 false]

theorem overtaken_in_leader_order :
    executedIds (logOf overtaken.hist 1) = [uidAt 0 (0 : Fin 3), uidAt 0 (1 : Fin 3)] ∧
      executedIds (logOf overtaken.hist 1) <+: accepted overtaken.hist 0 := by
  have h : Reachable ledTrio overtaken := Reachable.init.run _
  exact ⟨by decide +kernel, (swift_executes_in_leader_order rfl rfl h).2.2.2.1 1⟩

end World

end KCensus.Deps

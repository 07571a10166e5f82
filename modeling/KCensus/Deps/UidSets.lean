import KCensus.Deps.Executed
import KCensus.Lib.Groups
import Mathlib.Data.Set.Lattice
import Mathlib.Order.Bounds.Basic

namespace KCensus.Deps

variable {n : Nat} [NeZero n]

def ofReplica (r : Fin n) : Set Uid := {u | requesterOf n u = r}

def upTo (n : Nat) [NeZero n] (uid : Uid) : Set Uid :=
  {u | requesterOf n u = requesterOf n uid ∧ u ≤ uid}

theorem le_iff_indexOf {u v : Uid} (h : requesterOf n u = requesterOf n v) :
    u ≤ v ↔ indexOf n u ≤ indexOf n v := by
  conv_lhs => rw [← uidAt_indexOf (n := n) u, ← uidAt_indexOf (n := n) v, h]
  exact uidAt_le

theorem uidAt_lt {i j : Nat} {r : Fin n} : uidAt i r < uidAt j r ↔ i < j := by
  rw [← not_le, ← not_le, uidAt_le]

namespace DepSet

-- What a set of marks stands for: of every replica, the first commands.
def uids (d : DepSet n) : Set Uid := ⋃ r, {u | ∃ k < d.marks r, u = uidAt k r}

theorem mem_uids (d : DepSet n) (u : Uid) : u ∈ d.uids ↔ d.contains u := by
  simp only [uids, Set.mem_iUnion, Set.mem_ofPred_eq]
  constructor
  · rintro ⟨r, k, hk, rfl⟩
    exact (contains_uidAt d k r).mpr hk
  · intro h
    exact ⟨requesterOf n u, indexOf n u, h, (uidAt_indexOf u).symm⟩

theorem uids_insert (d : DepSet n) (uid : Uid) : (d.insert uid).uids = d.uids ∪ upTo n uid := by
  ext u
  simp only [Set.mem_union, mem_uids, contains_insert, upTo, Set.mem_ofPred_eq]
  refine or_congr_right ⟨fun h => ⟨h.1, ?_⟩, fun h => ⟨h.1, ?_⟩⟩
  · exact (le_iff_indexOf h.1).mpr h.2
  · exact (le_iff_indexOf h.1).mp h.2

theorem uids_unionWith (d other : DepSet n) : (d.unionWith other).uids = d.uids ∪ other.uids := by
  ext u
  simp [mem_uids]

theorem uids_intersectWith (d other : DepSet n) :
    (d.intersectWith other).uids = d.uids ∩ other.uids := by
  ext u
  simp [mem_uids]

theorem uids_clearReplica (d : DepSet n) (r : Fin n) :
    (d.clearReplica r).uids = d.uids \ ofReplica r := by
  ext u
  simp only [Set.mem_sdiff, mem_uids, contains_iff, clearReplica_marks, ofReplica, Set.mem_ofPred_eq]
  rcases eq_or_ne (requesterOf n u) r with h | h
  · simp [h]
  · simp [h]

theorem isCoveredBy_iff_subset (d other : DepSet n) :
    d.isCoveredBy other ↔ d.uids ⊆ other.uids := by
  rw [isCoveredBy_iff]
  constructor
  · intro h u hu
    exact (mem_uids other u).mpr (h u ((mem_uids d u).mp hu))
  · intro h u hu
    exact (mem_uids other u).mp (h ((mem_uids d u).mpr hu))

theorem get_greatest {d : DepSet n} {r : Fin n} {uid : Uid} (h : d.get r = some uid) :
    IsGreatest (d.uids ∩ ofReplica r) uid := by
  unfold get at h
  split at h
  · cases h
    refine ⟨⟨(mem_uids _ _).mpr ((contains_uidAt d _ r).mpr (by omega)), requesterOf_uidAt _ r⟩, ?_⟩
    rintro u ⟨hu, hr⟩
    have hlt := (mem_uids d u).mp hu
    obtain rfl : requesterOf n u = r := hr
    rw [← uidAt_indexOf (n := n) u, requesterOf_uidAt, uidAt_le]
    have := (contains_iff d u).mp hlt
    omega
  · cases h

theorem get_none {d : DepSet n} {r : Fin n} (h : d.get r = none) : d.uids ∩ ofReplica r = ∅ := by
  unfold get at h
  split at h
  · cases h
  · rename_i hzero
    refine Set.eq_empty_iff_forall_notMem.mpr ?_
    rintro u ⟨hu, hr⟩
    obtain rfl : requesterOf n u = r := hr
    have := (contains_iff d u).mp ((mem_uids d u).mp hu)
    omega

end DepSet

namespace Executed

variable {e e' : Executed n}

def record (uids : List Uid) : Executed n := uids.foldl insert (new n)

theorem contains_foldl (uids : List Uid) (v : Uid) :
    (uids.foldl insert e).contains v ↔ e.contains v ∨ v ∈ uids := by
  induction uids generalizing e with
  | nil => simp
  | cons uid uids ih =>
      rw [List.foldl_cons, ih, contains_insert, List.mem_cons, or_assoc]

theorem Wf.foldl (he : e.Wf) {uids : List Uid} (hnodup : uids.Nodup)
    (hnew : ∀ uid ∈ uids, ¬ e.contains uid) : (uids.foldl insert e).Wf := by
  induction uids generalizing e with
  | nil => exact he
  | cons uid uids ih =>
      obtain ⟨hout, hnodup⟩ := List.nodup_cons.mp hnodup
      refine ih (wf_insert he (hnew uid List.mem_cons_self)) hnodup fun v hv hc => ?_
      rcases (contains_insert e uid v).mp hc with hc | rfl
      · exact hnew v (List.mem_cons_of_mem _ hv) hc
      · exact hout hv

theorem contains_record (uids : List Uid) (v : Uid) :
    (record (n := n) uids).contains v ↔ v ∈ uids := by
  simp [record, contains_foldl]

theorem wf_record {uids : List Uid} (hnodup : uids.Nodup) : (record (n := n) uids).Wf :=
  wf_new.foldl hnodup fun uid _ => not_contains_new uid

theorem contains_below_next {r : Fin n} {u : Uid} (hr : requesterOf n u = r)
    (hu : u < e.nextUnexecuted r) : e.contains u := by
  have hlt : indexOf n u < e.watermark.marks r := by
    rw [← uidAt_indexOf (n := n) u, hr] at hu
    exact uidAt_lt.mp hu
  exact Or.inl (by rwa [DepSet.contains_iff, hr])

theorem Wf.next_least (he : e.Wf) (r : Fin n) :
    IsLeast {u | requesterOf n u = r ∧ ¬ e.contains u} (e.nextUnexecuted r) := by
  refine ⟨⟨requesterOf_uidAt _ r, not_contains_next he r⟩, fun u hu => ?_⟩
  exact not_lt.mp fun hlt => hu.2 (contains_below_next hu.1 hlt)

-- Prefix and gap set are what the recorded uids make them.
theorem Wf.ext_contains (he : e.Wf) (he' : e'.Wf) (h : ∀ u, e.contains u ↔ e'.contains u) :
    e = e' := by
  have hnext : ∀ r, e.nextUnexecuted r = e'.nextUnexecuted r := by
    intro r
    refine (he.next_least r).unique ?_
    simpa only [h] using he'.next_least r
  have hmark : e.watermark = e'.watermark := by
    apply DepSet.ext
    funext r
    exact (uidAt_inj.mp (hnext r)).1
  refine Executed.ext hmark ?_
  ext u
  constructor
  · intro hu
    have hgap := he.gap u hu
    rcases (h u).mp (Or.inr hu) with hw | hw
    · rw [← hmark, DepSet.contains_iff] at hw
      omega
    · exact hw
  · intro hu
    have hgap := he'.gap u hu
    rcases (h u).mpr (Or.inr hu) with hw | hw
    · rw [hmark, DepSet.contains_iff] at hw
      omega
    · exact hw

theorem Wf.ahead_eq_empty_iff (he : e.Wf) :
    e.ahead = ∅ ↔
      ∀ u v, requesterOf n u = requesterOf n v → u ≤ v → e.contains v → e.contains u := by
  constructor
  · intro hempty u v hr hle hv
    rcases hv with hv | hv
    · refine Or.inl ?_
      rw [DepSet.contains_iff] at hv ⊢
      rw [hr]
      exact lt_of_le_of_lt ((le_iff_indexOf hr).mp hle) hv
    · rw [hempty] at hv
      cases hv
  · intro hdown
    exact ahead_eq_empty he fun u v hr hle hv => hdown u v hr ((le_iff_indexOf hr).mpr hle) hv

end Executed

namespace DepSet

def pendingOf (d : DepSet n) (e : Executed n) (r : Fin n) : List Uid :=
  if d.marks r = 0 ∨ e.watermark.marks r ≥ d.marks r then []
  else (List.range' (e.watermark.marks r) (d.marks r - e.watermark.marks r)).map (uidAt · r)

omit [NeZero n] in
theorem pendingOver_eq (d : DepSet n) (e : Executed n) :
    d.pendingOver e = ((List.finRange n).flatMap (d.pendingOf e)).filter (· ∉ e.ahead) := rfl

theorem requesterOf_pendingOf {d : DepSet n} {e : Executed n} {r : Fin n} {u : Uid}
    (h : u ∈ d.pendingOf e r) : requesterOf n u = r := by
  unfold pendingOf at h
  split at h
  · cases h
  · obtain ⟨k, -, rfl⟩ := List.mem_map.mp h
    exact requesterOf_uidAt k r

theorem increasing_pendingOf (d : DepSet n) (e : Executed n) (r : Fin n) :
    (d.pendingOf e r).Pairwise (· < ·) := by
  unfold pendingOf
  split
  · exact List.Pairwise.nil
  · rw [List.pairwise_map]
    exact (List.pairwise_lt_range' 1 Nat.one_pos).imp fun h => uidAt_lt.mpr h

theorem increasing_pendingOver (d : DepSet n) (e : Executed n) (r : Fin n) :
    ((d.pendingOver e).filter (requesterOf n · = r)).Pairwise (· < ·) := by
  rw [pendingOver_eq, List.filter_comm,
    Lib.filter_flatMap_key (fun _ _ => requesterOf_pendingOf) (List.nodup_finRange n) r,
    if_pos (List.mem_finRange r)]
  exact (increasing_pendingOf d e r).filter _

theorem nodup_pendingOver (d : DepSet n) (e : Executed n) : (d.pendingOver e).Nodup := by
  rw [pendingOver_eq]
  refine List.Nodup.filter _ (Lib.nodup_flatMap_key (fun _ _ => requesterOf_pendingOf) ?_
    (List.nodup_finRange n))
  exact fun r => (increasing_pendingOf d e r).imp fun h => h.ne

end DepSet

theorem marks_refine_sets (uids : List Uid) (hnodup : uids.Nodup) :
    (∀ (d other : DepSet n) (uid : Uid) (r : Fin n),
      (d.contains uid ↔ uid ∈ d.uids) ∧
        (d.insert uid).uids = d.uids ∪ upTo n uid ∧
        (d.unionWith other).uids = d.uids ∪ other.uids ∧
        (d.intersectWith other).uids = d.uids ∩ other.uids ∧
        (d.clearReplica r).uids = d.uids \ ofReplica r ∧
        (d.isCoveredBy other ↔ d.uids ⊆ other.uids) ∧
        (∀ last, d.get r = some last → IsGreatest (d.uids ∩ ofReplica r) last) ∧
        (d.get r = none → d.uids ∩ ofReplica r = ∅)) ∧
    let e := Executed.record (n := n) uids
    (∀ uid, e.contains uid ↔ uid ∈ uids) ∧
      (∀ r, IsLeast {u | u ∈ ofReplica r ∧ u ∉ uids} (e.nextUnexecuted r)) ∧
      (e.ahead = ∅ ↔ ∀ v ∈ uids, ∀ u ∈ upTo n v, u ∈ uids) ∧
      (∀ uids', uids'.Perm uids → Executed.record uids' = e) ∧
      ∀ d : DepSet n,
        (d.pendingOver e).Nodup ∧
          (∀ uid, uid ∈ d.pendingOver e ↔ uid ∈ d.uids ∧ uid ∉ uids) ∧
          ∀ r, ((d.pendingOver e).filter (requesterOf n · = r)).Pairwise (· < ·) := by
  have hmem := Executed.contains_record (n := n) uids
  have hwf := Executed.wf_record (n := n) hnodup
  refine ⟨fun d other uid r => ⟨(d.mem_uids uid).symm, d.uids_insert uid, d.uids_unionWith other,
    d.uids_intersectWith other, d.uids_clearReplica r, d.isCoveredBy_iff_subset other,
    fun _ => DepSet.get_greatest, DepSet.get_none⟩, hmem, fun r => ?_, ?_, fun uids' hperm => ?_,
    fun d => ⟨d.nodup_pendingOver _, fun uid => ?_, d.increasing_pendingOver _⟩⟩
  · have hleast := hwf.next_least r
    simp only [hmem] at hleast
    exact hleast
  · rw [hwf.ahead_eq_empty_iff]
    simp only [hmem]
    exact ⟨fun h v hv u hu => h u v hu.1 hu.2 hv, fun h u v hr hle hv => h v hv u ⟨hr, hle⟩⟩
  · refine (Executed.wf_record (hperm.nodup_iff.mpr hnodup)).ext_contains hwf fun u => ?_
    rw [Executed.contains_record, hmem, hperm.mem_iff]
  · rw [DepSet.mem_pendingOver, hmem, DepSet.mem_uids]

theorem marks_refine_sets_gap :
    IsLeast {u | u ∈ ofReplica (0 : Fin 3) ∧ u ∉ [uidAt 1 (0 : Fin 3), uidAt 0 (1 : Fin 3)]}
      ((Executed.record [uidAt 1 (0 : Fin 3), uidAt 0 (1 : Fin 3)]).nextUnexecuted (0 : Fin 3)) :=
  (marks_refine_sets (n := 3) [uidAt 1 (0 : Fin 3), uidAt 0 (1 : Fin 3)] (by decide)).2.2.1 0

end KCensus.Deps

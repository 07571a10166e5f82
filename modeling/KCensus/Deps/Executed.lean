import KCensus.Deps.DepSet

namespace KCensus.Deps

variable {n : Nat} [NeZero n]

-- A prefix for every replica, and the uids that ran ahead of it.
@[ext]
structure Executed (n : Nat) where
  watermark : DepSet n
  ahead : Finset Uid

namespace Executed

def new (n : Nat) : Executed n := ⟨DepSet.new n, ∅⟩

def contains (e : Executed n) (uid : Uid) : Prop := e.watermark.contains uid ∨ uid ∈ e.ahead

instance (e : Executed n) (uid : Uid) : Decidable (e.contains uid) :=
  inferInstanceAs (Decidable (_ ∨ _))

def nextUnexecuted (e : Executed n) (replica : Fin n) : Uid :=
  uidAt (e.watermark.marks replica) replica

def setWatermark (e : Executed n) (watermark : DepSet n) : Executed n :=
  { e with watermark := watermark }

-- The loop of `insert`; every turn takes one uid out of `ahead`, which bounds the turns.
def closeGap : Nat → Uid → Executed n → Executed n
  | 0, _, e => e
  | fuel + 1, next, e =>
      if next ∈ e.ahead then
        closeGap fuel (next.add n) ⟨e.watermark.insert next, e.ahead.erase next⟩
      else e

def insert (e : Executed n) (uid : Uid) : Executed n :=
  if uid ≠ e.nextUnexecuted (requesterOf n uid) then
    { e with ahead := Insert.insert uid e.ahead }
  else
    closeGap (e.ahead.card + 1) (uid.add n) { e with watermark := e.watermark.insert uid }

-- No uid above the prefix closes it.
structure Wf (e : Executed n) : Prop where
  gap : ∀ uid ∈ e.ahead, e.watermark.marks (requesterOf n uid) < indexOf n uid

theorem contains_iff (e : Executed n) (uid : Uid) :
    e.contains uid ↔ indexOf n uid < e.watermark.marks (requesterOf n uid) ∨ uid ∈ e.ahead :=
  Iff.rfl

@[simp] theorem not_contains_new (uid : Uid) : ¬ (new n).contains uid := by
  simp [contains, new]

theorem wf_new : (new n).Wf := ⟨by simp [new]⟩

theorem eq_uidAt_iff {uid : Uid} {i : Nat} {r : Fin n} :
    uid = uidAt i r ↔ requesterOf n uid = r ∧ indexOf n uid = i := by
  rw [uid_eq_iff (n := n)]
  simp

theorem contains_insert_next {d : DepSet n} {uid v : Uid}
    (h : indexOf n uid = d.marks (requesterOf n uid)) :
    (d.insert uid).contains v ↔ d.contains v ∨ v = uid := by
  rw [DepSet.contains_insert]
  constructor
  · rintro (hv | ⟨hr, hi⟩)
    · exact Or.inl hv
    · rcases Nat.lt_or_eq_of_le hi with hi | hi
      · left
        rw [DepSet.contains_iff, hr]
        omega
      · exact Or.inr ((uid_eq_iff (n := n) v uid).2 ⟨hr, hi⟩)
  · rintro (hv | rfl)
    · exact Or.inl hv
    · exact Or.inr ⟨rfl, Nat.le_refl _⟩

theorem closeGap_contains (fuel : Nat) (r : Fin n) (e : Executed n) (v : Uid) :
    (closeGap fuel (uidAt (e.watermark.marks r) r) e).contains v ↔ e.contains v := by
  induction fuel generalizing e with
  | zero => rfl
  | succ fuel ih =>
    simp only [closeGap]
    by_cases hm : uidAt (e.watermark.marks r) r ∈ e.ahead
    · rw [if_pos hm]
      have hmark : (e.watermark.insert (uidAt (e.watermark.marks r) r)).marks r =
          e.watermark.marks r + 1 := by simp [DepSet.insert_marks]
      have := ih ⟨e.watermark.insert (uidAt (e.watermark.marks r) r),
        e.ahead.erase (uidAt (e.watermark.marks r) r)⟩
      rw [hmark] at this
      rw [uidAt_add, this]
      simp only [contains, Finset.mem_erase]
      rw [contains_insert_next (by simp)]
      by_cases hv : v = uidAt (e.watermark.marks r) r
      · subst hv; simp [hm]
      · simp [hv]
    · rw [if_neg hm]

theorem contains_insert (e : Executed n) (uid v : Uid) :
    (e.insert uid).contains v ↔ e.contains v ∨ v = uid := by
  unfold insert
  by_cases h : uid = e.nextUnexecuted (requesterOf n uid)
  · have hi : indexOf n uid = e.watermark.marks (requesterOf n uid) := by
      have := congrArg (indexOf n) h
      simpa [nextUnexecuted] using this
    have hmark : (e.watermark.insert uid).marks (requesterOf n uid) = indexOf n uid + 1 := by
      simp [DepSet.insert_marks, hi]
    rw [if_neg (by simpa using h), add_eq_uidAt, ← hmark]
    have := closeGap_contains (e.ahead.card + 1) (requesterOf n uid)
      { e with watermark := e.watermark.insert uid } v
    simp only at this
    rw [this]
    simp only [contains, contains_insert_next hi]
    tauto
  · rw [if_pos h]
    simp only [contains, Finset.mem_insert]
    tauto

theorem closeGap_wf (fuel : Nat) (r : Fin n) (e : Executed n) (hf : e.ahead.card < fuel)
    (hg : ∀ uid ∈ e.ahead, requesterOf n uid ≠ r →
      e.watermark.marks (requesterOf n uid) < indexOf n uid)
    (hr : ∀ uid ∈ e.ahead, requesterOf n uid = r → e.watermark.marks r ≤ indexOf n uid) :
    (closeGap fuel (uidAt (e.watermark.marks r) r) e).Wf := by
  induction fuel generalizing e with
  | zero => exact absurd hf (Nat.not_lt_zero _)
  | succ fuel ih =>
    simp only [closeGap]
    by_cases hm : uidAt (e.watermark.marks r) r ∈ e.ahead
    · rw [if_pos hm, uidAt_add]
      have hmark : (e.watermark.insert (uidAt (e.watermark.marks r) r)).marks r =
          e.watermark.marks r + 1 := by simp [DepSet.insert_marks]
      have hpos := Finset.card_pos.2 ⟨_, hm⟩
      have h := ih ⟨e.watermark.insert (uidAt (e.watermark.marks r) r),
        e.ahead.erase (uidAt (e.watermark.marks r) r)⟩
        (by simp only [Finset.card_erase_of_mem hm]; omega)
        (by
          intro uid hu hne
          simp only [DepSet.insert_marks, requesterOf_uidAt, if_neg hne]
          exact hg uid (Finset.mem_of_mem_erase hu) hne)
        (by
          intro uid hu he
          obtain ⟨hne, hu⟩ := Finset.mem_erase.1 hu
          have hle := hr uid hu he
          simp only [hmark]
          refine Nat.lt_of_le_of_ne hle ?_
          intro heq
          exact hne (eq_uidAt_iff.2 ⟨he, heq.symm⟩))
      rw [hmark] at h
      exact h
    · rw [if_neg hm]
      refine ⟨fun uid hu => ?_⟩
      by_cases he : requesterOf n uid = r
      · rw [he]
        refine Nat.lt_of_le_of_ne (hr uid hu he) ?_
        intro heq
        exact hm (eq_uidAt_iff.2 ⟨he, heq.symm⟩ ▸ hu)
      · exact hg uid hu he

theorem wf_insert {e : Executed n} (he : e.Wf) {uid : Uid} (hn : ¬ e.contains uid) :
    (e.insert uid).Wf := by
  unfold insert
  by_cases h : uid = e.nextUnexecuted (requesterOf n uid)
  · have hi : indexOf n uid = e.watermark.marks (requesterOf n uid) := by
      have := congrArg (indexOf n) h
      simpa [nextUnexecuted] using this
    have hmark : (e.watermark.insert uid).marks (requesterOf n uid) = indexOf n uid + 1 := by
      simp [DepSet.insert_marks, hi]
    rw [if_neg (by simpa using h), add_eq_uidAt, ← hmark]
    apply closeGap_wf _ _ { e with watermark := e.watermark.insert uid } (Nat.lt_succ_self _)
    · intro v hv hne
      simp only [DepSet.insert_marks, if_neg hne]
      exact he.gap v hv
    · intro v hv hr
      have := he.gap v hv
      rw [hr] at this
      simp only [hmark]
      omega
  · rw [if_pos h]
    refine ⟨fun v hv => ?_⟩
    rcases Finset.mem_insert.1 hv with rfl | hv
    · rw [contains_iff, not_or] at hn
      refine Nat.lt_of_le_of_ne (Nat.not_lt.1 hn.1) ?_
      intro heq
      exact h (eq_uidAt_iff.2 ⟨rfl, heq.symm⟩)
    · exact he.gap v hv

-- What has run is an initial segment of every replica exactly when nothing ran ahead.
theorem ahead_eq_empty {e : Executed n} (he : e.Wf)
    (hp : ∀ u v, requesterOf n u = requesterOf n v → indexOf n u ≤ indexOf n v →
      e.contains v → e.contains u) : e.ahead = ∅ := by
  by_contra hne
  obtain ⟨v, hv⟩ := Finset.nonempty_iff_ne_empty.2 hne
  have hgap := he.gap v hv
  have h := hp (uidAt (e.watermark.marks (requesterOf n v)) (requesterOf n v)) v (by simp)
    (by simpa using hgap.le) (Or.inr hv)
  rcases h with h | h
  · simp at h
  · have := he.gap _ h
    simp at this

theorem not_contains_next {e : Executed n} (he : e.Wf) (r : Fin n) :
    ¬ e.contains (e.nextUnexecuted r) := by
  rintro (h | h)
  · simp [nextUnexecuted] at h
  · have := he.gap _ h
    simp [nextUnexecuted] at this

end Executed

-- The uids of `d` that have not run, replica by replica in increasing order.
def DepSet.pendingOver (d : DepSet n) (e : Executed n) : List Uid :=
  ((List.finRange n).flatMap fun replica =>
    let mark := d.marks replica
    let done := e.watermark.marks replica
    if mark = 0 ∨ done ≥ mark then []
    else (List.range' done (mark - done)).map (uidAt · replica)).filter (· ∉ e.ahead)

theorem DepSet.mem_pendingOver (d : DepSet n) (e : Executed n) (uid : Uid) :
    uid ∈ d.pendingOver e ↔ d.contains uid ∧ ¬ e.contains uid := by
  simp only [pendingOver, List.mem_filter, List.mem_flatMap, List.mem_finRange, true_and,
    decide_eq_true_eq, Executed.contains_iff, DepSet.contains_iff, not_or]
  constructor
  · rintro ⟨⟨r, hr⟩, ha⟩
    split at hr
    · simp at hr
    · simp only [List.mem_map, List.mem_range'_1] at hr
      obtain ⟨i, ⟨hlo, hhi⟩, rfl⟩ := hr
      simp only [requesterOf_uidAt, indexOf_uidAt]
      refine ⟨by omega, by omega, ha⟩
  · rintro ⟨hd, hw, ha⟩
    refine ⟨⟨requesterOf n uid, ?_⟩, ha⟩
    rw [if_neg (by omega)]
    simp only [List.mem_map, List.mem_range'_1]
    exact ⟨indexOf n uid, by omega, uidAt_indexOf uid⟩

end KCensus.Deps

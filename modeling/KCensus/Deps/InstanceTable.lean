import KCensus.Deps.Instance
import Mathlib.Algebra.BigOperators.Fin

namespace KCensus.Deps

variable {n : Nat} [NeZero n]

-- One log per replica, whose head is the instance of `front`; a hole is a removed instance.
structure InstanceTable (n : Nat) [NeZero n] where
  logs : Fin n → List (Option (Instance n))
  front : Fin n → Uid
  len : Nat
  front_requester : ∀ replica, requesterOf n (front replica) = replica

namespace InstanceTable

def new (n : Nat) [NeZero n] : InstanceTable n where
  logs := fun _ => []
  front := fun replica => uidAt 0 replica
  len := 0
  front_requester := by simp

def position (t : InstanceTable n) (uid : Uid) : Option (Fin n × Nat) :=
  let replica := requesterOf n uid
  let front := t.front replica
  if front ≤ uid then some (replica, (uid.toNat - front.toNat) / uidStep n) else none

def get (t : InstanceTable n) (uid : Uid) : Option (Instance n) :=
  match t.position uid with
  | none => none
  | some (replica, index) => (t.logs replica)[index]?.join

def containsKey (t : InstanceTable n) (uid : Uid) : Bool := (t.get uid).isSome

-- `get_mut`: what the borrow was written back with.
def modify (t : InstanceTable n) (uid : Uid) (f : Instance n → Instance n) : InstanceTable n :=
  match t.position uid with
  | none => t
  | some (replica, index) =>
      { t with
        logs := fun r =>
          if r = replica then (t.logs r).modify index (Option.map f) else t.logs r }

def insert (t : InstanceTable n) (uid : Uid) (instance' : Instance n) : InstanceTable n :=
  let replica := requesterOf n uid
  let log := t.logs replica
  let front := t.front replica
  let newFront := if log = [] ∨ uid < front then uid else front
  let missing :=
    if log = [] then 0 else if uid < front then (front.toNat - uid.toNat) / uidStep n else 0
  let padded := List.replicate missing none ++ log
  let index := (uid.toNat - newFront.toNat) / uidStep n
  let resized := padded ++ List.replicate (index + 1 - padded.length) none
  { logs := fun r => if r = replica then resized.set index (some instance') else t.logs r
    front := fun r => if r = replica then newFront else t.front r
    len := t.len + 1
    front_requester := by
      intro r
      by_cases hr : r = replica
      · subst hr
        by_cases h : log = [] ∨ uid < front
        · simp [newFront, h, replica]
        · simp only [if_true, newFront, if_neg h]
          exact t.front_requester _
      · simp only [if_neg hr]
        exact t.front_requester r }

def remove (t : InstanceTable n) (uid : Uid) : InstanceTable n :=
  match t.position uid with
  | none => t
  | some (replica, index) =>
      if (t.get uid).isSome then
        { t with
          logs := fun r => if r = replica then (t.logs r).set index none else t.logs r
          len := t.len - 1 }
      else t

def isEmpty (t : InstanceTable n) : Bool := t.len = 0

def iter (t : InstanceTable n) : List (Uid × Instance n) :=
  (List.finRange n).flatMap fun replica =>
    (t.logs replica).zipIdx.filterMap fun (slot, index) =>
      slot.map fun i => (uidAt (indexOf n (t.front replica) + index) replica, i)

def reset (_ : InstanceTable n) : InstanceTable n := new n

theorem front_eq (t : InstanceTable n) (r : Fin n) :
    t.front r = uidAt (indexOf n (t.front r)) r := by
  conv_lhs => rw [← uidAt_indexOf (n := n) (t.front r), t.front_requester r]

theorem position_eq (t : InstanceTable n) (uid : Uid) :
    t.position uid =
      if indexOf n (t.front (requesterOf n uid)) ≤ indexOf n uid then
        some (requesterOf n uid, indexOf n uid - indexOf n (t.front (requesterOf n uid)))
      else none := by
  have hf := t.front_eq (requesterOf n uid)
  have hu : uid = uidAt (indexOf n uid) (requesterOf n uid) := (uidAt_indexOf uid).symm
  have hle : t.front (requesterOf n uid) ≤ uid ↔
      indexOf n (t.front (requesterOf n uid)) ≤ indexOf n uid := by
    conv_lhs => rw [hf, hu]
    simp only [requesterOf_uidAt, uidAt_le]
  have hsub : (uid.toNat - (t.front (requesterOf n uid)).toNat) / uidStep n =
      indexOf n uid - indexOf n (t.front (requesterOf n uid)) := by
    conv_lhs => rw [hf, hu]
    simp only [requesterOf_uidAt, uidAt_sub]
  simp only [position, hle, hsub]

theorem get_eq (t : InstanceTable n) (uid : Uid) :
    t.get uid =
      if indexOf n (t.front (requesterOf n uid)) ≤ indexOf n uid then
        (t.logs (requesterOf n uid))[indexOf n uid -
          indexOf n (t.front (requesterOf n uid))]?.join
      else none := by
  simp only [get, position_eq]
  by_cases h : indexOf n (t.front (requesterOf n uid)) ≤ indexOf n uid
  · simp only [if_pos h]
  · simp only [if_neg h]

@[simp] theorem get_new (uid : Uid) : (new n).get uid = none := by
  simp [get_eq, new]

@[simp] theorem get_reset (t : InstanceTable n) (uid : Uid) : t.reset.get uid = none :=
  get_new uid

theorem get_modify (t : InstanceTable n) (uid v : Uid) (f : Instance n → Instance n) :
    (t.modify uid f).get v = if v = uid then (t.get v).map f else t.get v := by
  by_cases hle : indexOf n (t.front (requesterOf n uid)) ≤ indexOf n uid
  · simp only [get_eq, modify, position_eq, if_pos hle]
    by_cases hr : requesterOf n v = requesterOf n uid
    · by_cases hi : indexOf n v = indexOf n uid
      · have hv : v = uid := (uid_eq_iff (n := n) v uid).2 ⟨hr, hi⟩
        subst hv
        simp only [if_pos hle, if_true, List.getElem?_modify]
        cases (t.logs (requesterOf n v))[indexOf n v -
          indexOf n (t.front (requesterOf n v))]? with
        | none => rfl
        | some slot => cases slot <;> rfl
      · have hv : v ≠ uid := fun h => hi (h ▸ rfl)
        simp only [if_neg hv, hr, if_true]
        by_cases hv' : indexOf n (t.front (requesterOf n uid)) ≤ indexOf n v
        · have hne : indexOf n uid - indexOf n (t.front (requesterOf n uid)) ≠
              indexOf n v - indexOf n (t.front (requesterOf n uid)) := by omega
          simp only [if_pos hv', List.getElem?_modify, if_neg hne]
          simp
        · simp only [if_neg hv']
    · have hv : v ≠ uid := fun h => hr (h ▸ rfl)
      simp only [if_neg hv, if_neg hr]
  · have hm : t.modify uid f = t := by simp only [modify, position_eq, if_neg hle]
    rw [hm]
    by_cases hv : v = uid
    · subst hv
      simp [get_eq, hle]
    · simp [hv]

theorem get_remove (t : InstanceTable n) (uid v : Uid) :
    (t.remove uid).get v = if v = uid then none else t.get v := by
  by_cases hs : (t.get uid).isSome
  · have hle : indexOf n (t.front (requesterOf n uid)) ≤ indexOf n uid := by
      by_contra h
      simp [get_eq, h] at hs
    simp only [remove, hs, if_true, position_eq, if_pos hle]
    by_cases hr : requesterOf n v = requesterOf n uid
    · by_cases hi : indexOf n v = indexOf n uid
      · have hv : v = uid := (uid_eq_iff (n := n) v uid).2 ⟨hr, hi⟩
        subst hv
        simp only [get_eq, if_true, List.getElem?_set_self']
        cases (t.logs (requesterOf n v))[indexOf n v -
          indexOf n (t.front (requesterOf n v))]? <;> simp
      · have hv : v ≠ uid := fun h => hi (h ▸ rfl)
        simp only [if_neg hv, get_eq, hr, if_true]
        by_cases hv' : indexOf n (t.front (requesterOf n uid)) ≤ indexOf n v
        · simp only [if_pos hv']
          rw [List.getElem?_set_ne (by omega)]
        · simp only [if_neg hv']
    · have hv : v ≠ uid := fun h => hr (h ▸ rfl)
      simp only [if_neg hv, get_eq, if_neg hr]
  · have hm : t.remove uid = t := by
      simp only [remove, Bool.not_eq_true] at hs ⊢
      split <;> simp [hs]
    rw [hm]
    by_cases hv : v = uid
    · subst hv
      simpa using hs
    · simp [hv]

omit [NeZero n] in
theorem join_append_holes (l : List (Option (Instance n))) (k i : Nat) :
    ((l ++ List.replicate k none)[i]?).join = (l[i]?).join := by
  rw [List.getElem?_append]
  by_cases h : i < l.length
  · rw [if_pos h]
  · rw [if_neg h, List.getElem?_replicate, List.getElem?_eq_none (Nat.not_lt.1 h)]
    split <;> rfl

omit [NeZero n] in
theorem join_holes_append (l : List (Option (Instance n))) (k i : Nat) :
    ((List.replicate k none ++ l)[i]?).join = if k ≤ i then (l[i - k]?).join else none := by
  rw [List.getElem?_append, List.length_replicate]
  by_cases h : i < k
  · rw [if_pos h, if_neg (Nat.not_le.2 h), List.getElem?_replicate, if_pos h]
    rfl
  · rw [if_neg h, if_pos (Nat.not_lt.1 h)]

omit [NeZero n] in
theorem countP_set_hole (log : List (Option (Instance n))) {index : Nat} {i : Instance n}
    (h : log[index]? = some (some i)) :
    (log.set index none).countP Option.isSome + 1 = log.countP Option.isSome := by
  induction log generalizing index with
  | nil => simp at h
  | cons slot log ih =>
    cases index with
    | zero =>
      simp only [List.getElem?_cons_zero, Option.some.injEq] at h
      simp [h]
    | succ index =>
      simp only [List.getElem?_cons_succ] at h
      simp only [List.set_cons_succ, List.countP_cons, ← ih h]
      omega

omit [NeZero n] in
theorem countP_set_instance (log : List (Option (Instance n))) {index : Nat} (i : Instance n)
    (h : log[index]? = some none) :
    (log.set index (some i)).countP Option.isSome = log.countP Option.isSome + 1 := by
  induction log generalizing index with
  | nil => simp at h
  | cons slot log ih =>
    cases index with
    | zero =>
      simp only [List.getElem?_cons_zero, Option.some.injEq] at h
      simp [h]
    | succ index =>
      simp only [List.getElem?_cons_succ] at h
      simp only [List.set_cons_succ, List.countP_cons, ih h]
      omega

omit [NeZero n] in
theorem join_resized (log : List (Option (Instance n))) {b b' j m : Nat} (extra : Nat)
    (hj : b' ≤ j) (hm : log = [] ∧ m = 0 ∨ b' + m = b) :
    ((List.replicate m none ++ log ++ List.replicate extra none)[j - b']?).join =
      if b ≤ j then (log[j - b]?).join else none := by
  rw [join_append_holes, join_holes_append]
  rcases hm with ⟨rfl, rfl⟩ | rfl
  · simp
  · by_cases h : b' + m ≤ j
    · rw [if_pos h, if_pos (by omega), Nat.sub_sub]
    · rw [if_neg h, if_neg (by omega)]

omit [NeZero n] in
theorem join_place (log : List (Option (Instance n))) (x : Instance n) {b b' k j m : Nat}
    (hk : b' ≤ k) (hm : log = [] ∧ m = 0 ∨ b' + m = b) :
    (if b' ≤ j then
      (((List.replicate m none ++ log ++
        List.replicate (k - b' + 1 - (List.replicate m none ++ log).length) none).set
          (k - b') (some x))[j - b']?).join
      else none) =
    if j = k then some x else if b ≤ j then (log[j - b]?).join else none := by
  by_cases hj : b' ≤ j
  · rw [if_pos hj]
    by_cases he : j = k
    · subst he
      rw [if_pos rfl, List.getElem?_set_self (by
        simp only [List.length_append, List.length_replicate]; omega)]
      rfl
    · rw [if_neg he, List.getElem?_set_ne (by omega), join_resized log _ hj hm]
  · rw [if_neg hj, if_neg (by omega)]
    rcases hm with ⟨rfl, rfl⟩ | rfl
    · simp
    · rw [if_neg (by omega)]

omit [NeZero n] in
theorem place_hole (log : List (Option (Instance n))) {b b' k m : Nat}
    (hk : b' ≤ k) (hm : log = [] ∧ m = 0 ∨ b' + m = b)
    (hn : (if b ≤ k then (log[k - b]?).join else none) = none) :
    (List.replicate m none ++ log ++ List.replicate
      (k - b' + 1 - (List.replicate m none ++ log).length) none)[k - b']? = some none := by
  have hj := join_resized log (k - b' + 1 - (List.replicate m none ++ log).length) hk hm
  rw [hn, List.getElem?_eq_getElem (by
    simp only [List.length_append, List.length_replicate]; omega)] at hj
  rw [List.getElem?_eq_getElem (by
    simp only [List.length_append, List.length_replicate]; omega)]
  exact congrArg some hj

omit [NeZero n] in
theorem countP_place (log : List (Option (Instance n))) (x : Instance n) {b b' k m : Nat}
    (hk : b' ≤ k) (hm : log = [] ∧ m = 0 ∨ b' + m = b)
    (hn : (if b ≤ k then (log[k - b]?).join else none) = none) :
    ((List.replicate m none ++ log ++
      List.replicate (k - b' + 1 - (List.replicate m none ++ log).length) none).set
        (k - b') (some x)).countP Option.isSome = log.countP Option.isSome + 1 := by
  rw [countP_set_instance _ x (place_hole log hk hm hn)]
  simp [List.countP_append, List.countP_replicate]

theorem place_uid (t : InstanceTable n) (uid : Uid) :
    let b := indexOf n (t.front (requesterOf n uid))
    let log := t.logs (requesterOf n uid)
    let newFront := if log = [] ∨ uid < t.front (requesterOf n uid) then uid
      else t.front (requesterOf n uid)
    let missing := if log = [] then 0 else if uid < t.front (requesterOf n uid) then
      ((t.front (requesterOf n uid)).toNat - uid.toNat) / uidStep n else 0
    (uid.toNat - newFront.toNat) / uidStep n = indexOf n uid - indexOf n newFront ∧
      indexOf n newFront ≤ indexOf n uid ∧
      (log = [] ∧ missing = 0 ∨ indexOf n newFront + missing = b) := by
  intro b log newFront missing
  have hf := t.front_eq (requesterOf n uid)
  have hlt : uid < t.front (requesterOf n uid) ↔ indexOf n uid < b := by
    rw [← not_le, ← not_le, not_iff_not]
    conv_lhs => rw [hf, ← uidAt_indexOf (n := n) uid]
    simp only [requesterOf_uidAt, uidAt_le, b]
  have hsub : ((t.front (requesterOf n uid)).toNat - uid.toNat) / uidStep n =
      b - indexOf n uid := by
    conv_lhs => rw [hf, ← uidAt_indexOf (n := n) uid]
    simp only [requesterOf_uidAt, uidAt_sub, b]
  have hsub' : (uid.toNat - (t.front (requesterOf n uid)).toNat) / uidStep n =
      indexOf n uid - b := by
    conv_lhs => rw [hf, ← uidAt_indexOf (n := n) uid]
    simp only [requesterOf_uidAt, uidAt_sub, b]
  by_cases hl : log = []
  · simp [newFront, missing, hl]
  · by_cases hu : uid < t.front (requesterOf n uid)
    · simp only [newFront, missing, hl, hu, false_or, if_true, if_false, hsub, Nat.sub_self,
        Nat.zero_div, Nat.le_refl, true_and, false_and]
      have := hlt.1 hu
      omega
    · simp only [newFront, missing, hl, hu, or_self, if_false, hsub']
      have := mt hlt.2 hu
      exact ⟨rfl, Nat.not_lt.1 this, Or.inr (Nat.add_zero _)⟩

theorem get_insert (t : InstanceTable n) (uid v : Uid) (i : Instance n) :
    (t.insert uid i).get v = if v = uid then some i else t.get v := by
  by_cases hr : requesterOf n v = requesterOf n uid
  · obtain ⟨hindex, hle, hm⟩ := t.place_uid uid
    have hv : v = uid ↔ indexOf n v = indexOf n uid := by
      rw [uid_eq_iff (n := n)]
      simp [hr]
    simp only [get_eq, insert, hr, if_true, hv, hindex]
    exact join_place _ i hle hm
  · have hv : v ≠ uid := fun h => hr (h ▸ rfl)
    simp only [if_neg hv, get_eq, insert, if_neg hr]

theorem mem_iter (t : InstanceTable n) (uid : Uid) (i : Instance n) :
    (uid, i) ∈ t.iter ↔ t.get uid = some i := by
  simp only [iter, List.mem_flatMap, List.mem_finRange, true_and, List.mem_filterMap,
    Prod.exists, Option.map_eq_some_iff, Prod.mk.injEq, get_eq]
  constructor
  · rintro ⟨r, slot, index, hmem, j, rfl, rfl, rfl⟩
    obtain ⟨-, hlt, hget⟩ := List.mem_zipIdx hmem
    simp only [requesterOf_uidAt, indexOf_uidAt]
    rw [if_pos (by omega), Nat.add_sub_cancel_left, List.getElem?_eq_getElem (by omega)]
    simp_all
  · intro h
    split at h
    · rename_i hle
      refine ⟨requesterOf n uid, some i,
        indexOf n uid - indexOf n (t.front (requesterOf n uid)), ?_, i, rfl, ?_, rfl⟩
      · rw [List.mk_mem_zipIdx_iff_getElem?]
        exact Option.join_eq_some_iff.1 h
      · rw [Nat.add_sub_cancel' hle, uidAt_indexOf]
    · cases h

def entries (t : InstanceTable n) (replica : Fin n) : Nat :=
  (t.logs replica).countP Option.isSome

structure Counted (t : InstanceTable n) : Prop where
  len_eq : t.len = ∑ replica, t.entries replica

theorem counted_new : (new n).Counted := ⟨by simp [new, entries]⟩

theorem entries_eq_zero (t : InstanceTable n) :
    (∀ r, t.entries r = 0) ↔ ∀ uid, t.get uid = none := by
  constructor
  · intro h uid
    rw [get_eq]
    split
    · have := List.countP_eq_zero.1 (h (requesterOf n uid))
      cases hs : (t.logs (requesterOf n uid))[indexOf n uid -
          indexOf n (t.front (requesterOf n uid))]? with
      | none => rfl
      | some slot =>
        cases slot with
        | none => rfl
        | some i => exact absurd rfl (this _ (List.mem_of_getElem? hs))
    · rfl
  · intro h r
    refine List.countP_eq_zero.2 fun slot hslot hs => ?_
    obtain ⟨i, rfl⟩ := Option.isSome_iff_exists.1 hs
    obtain ⟨k, hk⟩ := List.getElem?_of_mem hslot
    have := h (uidAt (indexOf n (t.front r) + k) r)
    simp [get_eq, hk] at this

theorem Counted.isEmpty_iff {t : InstanceTable n} (ht : t.Counted) :
    t.isEmpty ↔ ∀ uid, t.get uid = none := by
  rw [← entries_eq_zero, isEmpty, decide_eq_true_iff, ht.len_eq]
  simp

omit [NeZero n] in
theorem countP_modify (log : List (Option (Instance n))) (index : Nat)
    (f : Instance n → Instance n) :
    (log.modify index (Option.map f)).countP Option.isSome = log.countP Option.isSome := by
  induction log generalizing index with
  | nil => simp
  | cons slot log ih =>
    cases index with
    | zero => cases slot <;> simp
    | succ index => simp only [List.modify_succ_cons, List.countP_cons, ih]

theorem Counted.modify {t : InstanceTable n} (ht : t.Counted) (uid : Uid)
    (f : Instance n → Instance n) : (t.modify uid f).Counted := by
  unfold InstanceTable.modify
  split
  · exact ht
  · rename_i replica index _
    refine ⟨ht.len_eq.trans (Finset.sum_congr rfl fun r _ => ?_)⟩
    by_cases hr : r = replica
    · simp only [entries, if_pos hr, countP_modify]
    · simp only [entries, if_neg hr]

theorem Counted.remove {t : InstanceTable n} (ht : t.Counted) (uid : Uid) :
    (t.remove uid).Counted := by
  unfold InstanceTable.remove
  split
  · exact ht
  · rename_i replica index hpos
    split
    · rename_i hs
      obtain ⟨i, hi⟩ := Option.isSome_iff_exists.1 hs
      simp only [get, hpos, Option.join_eq_some_iff] at hi
      have hslot := countP_set_hole _ hi
      refine ⟨?_⟩
      have hsum := Finset.add_sum_erase Finset.univ t.entries (Finset.mem_univ replica)
      rw [← Finset.add_sum_erase Finset.univ _ (Finset.mem_univ replica)]
      have hrest : ∑ r ∈ Finset.univ.erase replica, entries { t with
            logs := fun r => if r = replica then (t.logs r).set index none else t.logs r
            len := t.len - 1 } r = ∑ r ∈ Finset.univ.erase replica, t.entries r := by
        refine Finset.sum_congr rfl fun r hr => ?_
        simp only [entries, if_neg (Finset.ne_of_mem_erase hr)]
      rw [hrest, ht.len_eq, ← hsum]
      simp only [entries, if_true] at hslot ⊢
      omega
    · exact ht

theorem Counted.len_remove {t : InstanceTable n} (ht : t.Counted) {uid : Uid} {i : Instance n}
    (h : t.get uid = some i) : (t.remove uid).len + 1 = t.len := by
  have hpos : 0 < t.len := by
    refine Nat.pos_of_ne_zero fun hz => ?_
    have := ht.isEmpty_iff.1 (by simp [isEmpty, hz]) uid
    exact nomatch this.symm.trans h
  have hs : (t.get uid).isSome := by simp [h]
  cases hp : t.position uid with
  | none => simp [get, hp] at h
  | some place =>
    simp only [InstanceTable.remove, hp, hs, if_true]
    omega

theorem modify_modify (t : InstanceTable n) (uid : Uid) (f g : Instance n → Instance n) :
    (t.modify uid f).modify uid g = t.modify uid (g ∘ f) := by
  cases hp : t.position uid with
  | none => simp only [InstanceTable.modify, hp]
  | some place =>
    have hp' : (t.modify uid f).position uid = some place := by
      simp only [InstanceTable.modify, hp]
      exact hp
    simp only [InstanceTable.modify, hp] at hp' ⊢
    simp only [hp']
    congr 1
    funext r
    split
    · rw [List.modify_modify_eq]
      congr 1
      funext slot
      cases slot <;> rfl
    · rfl

theorem modify_set {β : Type} (l : List β) (k : Nat) (b : β) (f : β → β) :
    (l.set k b).modify k f = l.set k (f b) := by
  induction l generalizing k with
  | nil => simp
  | cons x l ih =>
    cases k with
    | zero => rfl
    | succ k => simp only [List.set_cons_succ, List.modify_succ_cons, ih]

theorem modify_insert (t : InstanceTable n) (uid : Uid) (i : Instance n)
    (f : Instance n → Instance n) : (t.insert uid i).modify uid f = t.insert uid (f i) := by
  have hp : (t.insert uid i).position uid = some (requesterOf n uid,
      (uid.toNat - ((t.insert uid i).front (requesterOf n uid)).toNat) / uidStep n) := by
    simp only [position, insert, if_true]
    rw [if_pos]
    split
    · exact le_refl uid
    · rename_i h
      exact not_lt.1 (not_or.1 h).2
  simp only [InstanceTable.modify, hp]
  simp only [insert, if_true]
  congr 1
  funext r
  by_cases hr : r = requesterOf n uid
  · subst hr
    simp only [if_true]
    exact modify_set _ _ _ _
  · simp only [if_neg hr]

theorem entries_insert (t : InstanceTable n) {uid : Uid} (i : Instance n)
    (hn : t.get uid = none) (r : Fin n) :
    (t.insert uid i).entries r =
      t.entries r + if r = requesterOf n uid then 1 else 0 := by
  by_cases hr : r = requesterOf n uid
  · subst hr
    obtain ⟨hindex, hle, hm⟩ := t.place_uid uid
    rw [get_eq] at hn
    simp only [entries, insert, if_true, hindex]
    exact countP_place _ i hle hm hn
  · simp only [entries, insert, if_neg hr, Nat.add_zero]

theorem Counted.insert {t : InstanceTable n} (ht : t.Counted) {uid : Uid} (i : Instance n)
    (hn : t.get uid = none) : (t.insert uid i).Counted := by
  refine ⟨?_⟩
  simp only [entries_insert t i hn, Finset.sum_add_distrib, Finset.sum_ite_eq', Finset.mem_univ,
    if_true, ← ht.len_eq]
  rfl

end InstanceTable

end KCensus.Deps

import KCensus.Deps.Uid
import Mathlib.Data.Finset.Basic
import Mathlib.Data.Finset.Card
import Mathlib.Data.Fintype.Pi
import Mathlib.Data.List.FinRange
import Mathlib.Data.List.Range

namespace KCensus.Deps

variable {n : Nat} [NeZero n]

-- `marks r = k + 1` stands for every command of replica `r` up to its `k`-th.
@[ext]
structure DepSet (n : Nat) where
  marks : Fin n → Nat

namespace DepSet

instance : DecidableEq (DepSet n) := fun d other =>
  decidable_of_iff (∀ r, d.marks r = other.marks r)
    ⟨fun h => DepSet.ext (funext h), fun h _ => h ▸ rfl⟩

def new (n : Nat) : DepSet n := ⟨fun _ => 0⟩

def get (d : DepSet n) (replica : Fin n) : Option Uid :=
  if d.marks replica ≠ 0 then some (uidAt (d.marks replica - 1) replica) else none

def insert (d : DepSet n) (uid : Uid) : DepSet n :=
  let replica := requesterOf n uid
  let mark := indexOf n uid + 1
  if d.marks replica < mark then ⟨fun r => if r = replica then mark else d.marks r⟩ else d

def unionWith (d other : DepSet n) : DepSet n :=
  ⟨fun r => if d.marks r < other.marks r then other.marks r else d.marks r⟩

def intersectWith (d other : DepSet n) : DepSet n :=
  ⟨fun r => if d.marks r > other.marks r then other.marks r else d.marks r⟩

def contains (d : DepSet n) (uid : Uid) : Prop := indexOf n uid < d.marks (requesterOf n uid)

instance (d : DepSet n) (uid : Uid) : Decidable (d.contains uid) :=
  inferInstanceAs (Decidable (_ < _))

def isCoveredBy (d other : DepSet n) : Prop := ∀ r, d.marks r ≤ other.marks r

instance (d other : DepSet n) : Decidable (d.isCoveredBy other) :=
  inferInstanceAs (Decidable (∀ r, d.marks r ≤ other.marks r))

def clearReplica (d : DepSet n) (replica : Fin n) : DepSet n :=
  ⟨fun r => if r = replica then 0 else d.marks r⟩

-- Only the top of a watermark can be taken out.
def withoutUid (d : DepSet n) (uid : Uid) : DepSet n :=
  let replica := requesterOf n uid
  let index := indexOf n uid
  if d.marks replica = index + 1 then ⟨fun r => if r = replica then index else d.marks r⟩ else d

theorem contains_iff (d : DepSet n) (uid : Uid) :
    d.contains uid ↔ indexOf n uid < d.marks (requesterOf n uid) := Iff.rfl

@[simp] theorem contains_uidAt (d : DepSet n) (i : Nat) (r : Fin n) :
    d.contains (uidAt i r) ↔ i < d.marks r := by
  simp [contains]

@[simp] theorem not_contains_new (uid : Uid) : ¬ (new n).contains uid := by
  simp [contains, new]

theorem insert_marks (d : DepSet n) (uid : Uid) (r : Fin n) :
    (d.insert uid).marks r =
      if r = requesterOf n uid then max (d.marks r) (indexOf n uid + 1) else d.marks r := by
  unfold insert
  by_cases hr : r = requesterOf n uid
  · subst hr
    by_cases h : d.marks (requesterOf n uid) < indexOf n uid + 1
    · simp [h]; omega
    · simp [h]; omega
  · by_cases h : d.marks (requesterOf n uid) < indexOf n uid + 1 <;> simp [h, hr]

omit [NeZero n] in
@[simp] theorem unionWith_marks (d other : DepSet n) (r : Fin n) :
    (d.unionWith other).marks r = max (d.marks r) (other.marks r) := by
  simp only [unionWith]
  split <;> omega

omit [NeZero n] in
@[simp] theorem intersectWith_marks (d other : DepSet n) (r : Fin n) :
    (d.intersectWith other).marks r = min (d.marks r) (other.marks r) := by
  simp only [intersectWith]
  split <;> omega

omit [NeZero n] in
@[simp] theorem clearReplica_marks (d : DepSet n) (replica r : Fin n) :
    (d.clearReplica replica).marks r = if r = replica then 0 else d.marks r := rfl

theorem withoutUid_marks (d : DepSet n) (uid : Uid) (r : Fin n) :
    (d.withoutUid uid).marks r =
      if r = requesterOf n uid ∧ d.marks r = indexOf n uid + 1 then indexOf n uid
      else d.marks r := by
  unfold withoutUid
  by_cases hr : r = requesterOf n uid
  · subst hr
    by_cases h : d.marks (requesterOf n uid) = indexOf n uid + 1 <;> simp [h]
  · by_cases h : d.marks (requesterOf n uid) = indexOf n uid + 1 <;> simp [h, hr]

theorem contains_insert (d : DepSet n) (uid v : Uid) :
    (d.insert uid).contains v ↔
      d.contains v ∨ (requesterOf n v = requesterOf n uid ∧ indexOf n v ≤ indexOf n uid) := by
  simp only [contains, insert_marks]
  by_cases hr : requesterOf n v = requesterOf n uid
  · simp only [hr, if_true, true_and]; omega
  · simp [hr]

@[simp] theorem contains_unionWith (d other : DepSet n) (v : Uid) :
    (d.unionWith other).contains v ↔ d.contains v ∨ other.contains v := by
  simp [contains]

@[simp] theorem contains_intersectWith (d other : DepSet n) (v : Uid) :
    (d.intersectWith other).contains v ↔ d.contains v ∧ other.contains v := by
  simp [contains]

theorem isCoveredBy_iff (d other : DepSet n) :
    d.isCoveredBy other ↔ ∀ uid, d.contains uid → other.contains uid := by
  constructor
  · intro h uid hu
    exact lt_of_lt_of_le hu (h _)
  · intro h r
    by_contra hlt
    have := h (uidAt (other.marks r) r) (by simp only [contains_uidAt]; omega)
    simp at this

theorem ext_contains {d other : DepSet n} (h : ∀ uid, d.contains uid ↔ other.contains uid) :
    d = other := by
  apply DepSet.ext
  funext r
  exact Nat.le_antisymm ((isCoveredBy_iff d other).2 (fun u => (h u).1) r)
    ((isCoveredBy_iff other d).2 (fun u => (h u).2) r)

end DepSet

end KCensus.Deps

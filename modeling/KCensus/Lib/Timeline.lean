import Mathlib.Data.Finset.Lattice.Fold
import Mathlib.Data.Finset.Max
import Mathlib.Data.Finset.Sort
import Mathlib.Order.Interval.Finset.Nat

namespace KCensus.Lib

-- A map ordered by its keys, which are times. What is at other times is never read.
structure Timeline (α : Type*) where
  times : Finset Nat
  value : Nat → α

def first? (times : Finset Nat) : Option Nat :=
  if h : times.Nonempty then some (times.min' h) else none

def last? (times : Finset Nat) : Option Nat :=
  if h : times.Nonempty then some (times.max' h) else none

section

variable {times : Finset Nat} {t : Nat}

theorem first?_eq_none : first? times = none ↔ times = ∅ := by
  unfold first?
  split
  · rename_i h
    simp [h.ne_empty]
  · rename_i h
    simpa using h

theorem mem_first? (h : first? times = some t) : t ∈ times ∧ ∀ u ∈ times, t ≤ u := by
  unfold first? at h
  split at h
  · cases h
    exact ⟨Finset.min'_mem _ _, fun u hu => Finset.min'_le _ u hu⟩
  · cases h

theorem mem_last? (h : last? times = some t) : t ∈ times ∧ ∀ u ∈ times, u ≤ t := by
  unfold last? at h
  split at h
  · cases h
    exact ⟨Finset.max'_mem _ _, fun u hu => Finset.le_max' _ u hu⟩
  · cases h

theorem exists_last? (times : Finset Nat) (h : times.Nonempty) : ∃ t, last? times = some t :=
  ⟨times.max' h, dif_pos h⟩

theorem last?_eq_some (ht : t ∈ times) (hle : ∀ u ∈ times, u ≤ t) : last? times = some t := by
  have hne : times.Nonempty := ⟨t, ht⟩
  rw [last?, dif_pos hne]
  exact congrArg some ((hle _ (times.max'_mem hne)).antisymm (times.le_max' t ht))

end

namespace Timeline

variable {α : Type*} (m : Timeline α)

def get? (t : Nat) : Option α := if t ∈ m.times then some (m.value t) else none

def set (t : Nat) (a : α) : Timeline α where
  times := insert t m.times
  value := Function.update m.value t a

def mapAfter (t : Nat) (f : α → α) : Timeline α where
  times := m.times
  value := fun u => if t < u then f (m.value u) else m.value u

def entries : List (Nat × α) := (m.times.sort (· ≤ ·)).map fun t => (t, m.value t)

variable {m} {t u : Nat} {a b : α} {f : α → α}

@[simp] theorem set_times : (m.set t a).times = insert t m.times := rfl

@[simp] theorem set_value_self : (m.set t a).value t = a := Function.update_self ..

@[simp] theorem set_value_of_ne (h : u ≠ t) : (m.set t a).value u = m.value u :=
  Function.update_of_ne h ..

@[simp] theorem mapAfter_times : (m.mapAfter t f).times = m.times := rfl

@[simp] theorem mapAfter_value_of_lt (h : t < u) : (m.mapAfter t f).value u = f (m.value u) :=
  if_pos h

@[simp] theorem mapAfter_value_of_le (h : u ≤ t) : (m.mapAfter t f).value u = m.value u :=
  if_neg (not_lt.mpr h)

theorem get?_eq_some : m.get? t = some a ↔ t ∈ m.times ∧ m.value t = a := by
  unfold get?
  split
  · rename_i h
    simp [h]
  · rename_i h
    simp [h]

theorem get?_of_mem (h : t ∈ m.times) : m.get? t = some (m.value t) := if_pos h

theorem map_fst_entries : m.entries.map Prod.fst = m.times.sort (· ≤ ·) := by
  rw [entries, List.map_map]
  exact List.map_id _

theorem mem_entries {e : Nat × α} : e ∈ m.entries ↔ e.1 ∈ m.times ∧ e.2 = m.value e.1 := by
  obtain ⟨t, a⟩ := e
  simp only [entries, List.mem_map, Finset.mem_sort, Prod.mk.injEq]
  constructor
  · rintro ⟨u, hu, rfl, rfl⟩
    exact ⟨hu, rfl⟩
  · rintro ⟨ht, rfl⟩
    exact ⟨t, ht, rfl, rfl⟩

theorem entries_increasing : m.entries.Pairwise (·.1 < ·.1) := by
  have h : (m.times.sort (· ≤ ·)).Pairwise (· < ·) := m.times.sortedLT_sort.pairwise
  rw [← map_fst_entries, List.pairwise_map] at h
  exact h

end Timeline

end KCensus.Lib

import Mathlib.Data.List.Sort
import Mathlib.Order.Lattice

namespace KCensus.Lib

variable {α : Type*}

theorem cons_sublist_drop {xs ys : List α} {y : α} {start : Nat}
    (h : (y :: ys).Sublist (xs.drop start)) :
    ∃ next, start ≤ next ∧ xs[next]? = some y ∧ ys.Sublist (xs.drop (next + 1)) := by
  obtain ⟨before, after, heq, hy, hsub⟩ := List.cons_sublist_iff.mp h
  obtain ⟨i, hi, rfl⟩ := List.getElem_of_mem hy
  refine ⟨start + i, by omega, ?_, ?_⟩
  · rw [← List.getElem?_drop, heq, List.getElem?_append_left hi, List.getElem?_eq_getElem hi]
  · have hafter : after.Sublist (xs.drop (start + i + 1)) := by
      rw [Nat.add_assoc, ← List.drop_drop, heq, List.drop_append_of_le_length (by omega)]
      exact List.sublist_append_right _ _
    exact hsub.trans hafter

section

variable [LinearOrder α]

theorem getElem_le_of_countP {xs : List α} (hs : xs.Pairwise (· ≤ ·)) {k : Nat}
    (hk : k < xs.length) {t : α} (hc : k < xs.countP (· ≤ t)) : xs[k] ≤ t := by
  induction xs generalizing k with
  | nil => cases hk
  | cons x xs ih =>
      obtain ⟨hx, hs⟩ := List.pairwise_cons.mp hs
      cases k with
      | zero =>
          obtain ⟨y, hy, hyt⟩ := List.countP_pos_iff.mp hc
          rcases List.mem_cons.mp hy with rfl | hy
          · exact of_decide_eq_true hyt
          · exact (hx y hy).trans (of_decide_eq_true hyt)
      | succ k =>
          rw [List.countP_cons] at hc
          refine ih hs (Nat.lt_of_succ_lt_succ hk) ?_
          split at hc <;> omega

theorem mergeSort_getElem_le {xs ys : List α} (hsub : ys.Sublist xs) {t : α}
    (ht : ∀ y ∈ ys, y ≤ t) {k : Nat} (hk : k < ys.length)
    (hx : k < (xs.mergeSort (· ≤ ·)).length) : (xs.mergeSort (· ≤ ·))[k] ≤ t := by
  have hsorted : (xs.mergeSort (· ≤ ·)).Pairwise (· ≤ ·) :=
    List.pairwise_mergeSort' (· ≤ ·) xs
  refine getElem_le_of_countP hsorted hx ?_
  rw [(List.mergeSort_perm xs _).countP_eq]
  have hall : ys.countP (· ≤ t) = ys.length :=
    List.countP_eq_length.mpr fun y hy => decide_eq_true (ht y hy)
  have := hsub.countP_le (p := (· ≤ t))
  omega

end

end KCensus.Lib

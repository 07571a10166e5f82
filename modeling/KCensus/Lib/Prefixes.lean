import Mathlib.Data.List.Basic
import Mathlib.Data.List.Infix

namespace KCensus.Lib

variable {α β : Type} {xs ys : List α}

theorem prefix_of_map (f : α → β) (hinj : ∀ x ∈ xs, ∀ y ∈ ys, f x = f y → x = y)
    (h : xs.map f <+: ys.map f) : xs <+: ys := by
  induction xs generalizing ys with
  | nil => exact List.nil_prefix
  | cons x xs ih =>
    cases ys with
    | nil => cases List.eq_nil_of_prefix_nil h
    | cons y ys =>
      rw [List.map_cons, List.map_cons, List.cons_prefix_cons] at h
      have hsame := hinj x List.mem_cons_self y List.mem_cons_self h.1
      have hrest := ih (fun a ha b hb => hinj a (List.mem_cons_of_mem _ ha) b
        (List.mem_cons_of_mem _ hb)) h.2
      exact List.cons_prefix_cons.2 ⟨hsame, hrest⟩

theorem prefix_flatMap (f : α → List β) (h : xs <+: ys) : xs.flatMap f <+: ys.flatMap f := by
  obtain ⟨rest, rfl⟩ := h
  rw [List.flatMap_append]
  exact List.prefix_append _ _

theorem range_prefix {m k : Nat} (h : m ≤ k) : List.range m <+: List.range k := by
  obtain ⟨j, rfl⟩ := Nat.exists_eq_add_of_le h
  rw [List.range_add]
  exact List.prefix_append _ _

theorem prefix_of_numbered {xs ys : List (Nat × β)} (hxs : xs.map Prod.fst = List.range xs.length)
    (hys : ys.map Prod.fst = List.range ys.length)
    (hagree : ∀ k a b, (k, a) ∈ xs → (k, b) ∈ ys → a = b) : xs <+: ys ∨ ys <+: xs := by
  have hinj : ∀ x ∈ xs, ∀ y ∈ ys, x.1 = y.1 → x = y := by
    rintro ⟨k, a⟩ hx ⟨k', b⟩ hy rfl
    rw [hagree k a b hx hy]
  rcases Nat.le_total xs.length ys.length with hle | hle
  · refine Or.inl (prefix_of_map Prod.fst hinj ?_)
    rw [hxs, hys]
    exact range_prefix hle
  · refine Or.inr (prefix_of_map Prod.fst (fun y hy x hx h => (hinj x hx y hy h.symm).symm) ?_)
    rw [hxs, hys]
    exact range_prefix hle

end KCensus.Lib

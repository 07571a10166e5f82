import KCensus.Lib.Tarjan

namespace KCensus.Lib

variable {α : Type}

theorem sublist_total {l : List α} {a b : α} (ha : a ∈ l) (hb : b ∈ l) (hab : a ≠ b) :
    [a, b].Sublist l ∨ [b, a].Sublist l := by
  induction l with
  | nil => cases ha
  | cons x l ih =>
    rcases List.mem_cons.1 ha with rfl | ha'
    · rcases List.mem_cons.1 hb with rfl | hb'
      · exact absurd rfl hab
      · exact Or.inl ((List.singleton_sublist.2 hb').cons_cons _)
    · rcases List.mem_cons.1 hb with rfl | hb'
      · exact Or.inr ((List.singleton_sublist.2 ha').cons_cons _)
      · rcases ih ha' hb' with h | h
        · exact Or.inl (h.cons x)
        · exact Or.inr (h.cons x)

theorem sublist_asymm {l : List α} (hl : l.Nodup) {a b : α} (hab : [a, b].Sublist l) :
    ¬ [b, a].Sublist l := by
  induction l with
  | nil => exact fun _ => nomatch List.eq_nil_of_sublist_nil hab
  | cons x l ih =>
    obtain ⟨hx, hl⟩ := List.nodup_cons.1 hl
    intro hba
    cases hab with
    | cons _ hab =>
      cases hba with
      | cons _ hba => exact ih hl hab hba
      | cons_cons _ hba => exact hx (hab.subset (by simp))
    | cons_cons _ hab =>
      cases hba with
      | cons _ hba => exact hx (hba.subset (by simp))
      | cons_cons _ hba => exact hx (hba.subset (by simp))

theorem getElem_mem_initial {l m : List α} (hm : m.Nodup) (hl : l <+: m) {j : Nat}
    (hj : j < m.length) : m[j] ∈ l ↔ j < l.length := by
  constructor
  · intro h
    obtain ⟨i, hi, heq⟩ := List.getElem_of_mem h
    rw [hl.getElem hi] at heq
    have := (List.Nodup.getElem_inj_iff hm).1 heq
    omega
  · intro h
    rw [← hl.getElem h]
    exact List.getElem_mem h

-- The element of a schedule whose predecessors have all run is the next one to run.
theorem prefix_concat {l m : List α} (hm : m.Nodup) (hl : l <+: m) {k : Nat} {a : α}
    (hk : m[k]? = some a) (ha : a ∉ l) (hlow : ∀ b ∈ m.take k, b ∈ l) :
    k = l.length ∧ l ++ [a] <+: m := by
  obtain ⟨hlt, hget⟩ := List.getElem?_eq_some_iff.1 hk
  have hle : l.length ≤ k := by
    by_contra hn
    exact ha (hget ▸ (getElem_mem_initial hm hl hlt).2 (by omega))
  have hge : k ≤ l.length := by
    by_contra hn
    have hmem := hlow _ (List.mem_take_iff_getElem.2 ⟨l.length, by omega, rfl⟩)
    exact Nat.lt_irrefl _ ((getElem_mem_initial hm hl (by omega)).1 hmem)
  have heq : k = l.length := Nat.le_antisymm hge hle
  refine ⟨heq, List.prefix_iff_eq_take.2 ?_⟩
  subst heq
  rw [List.length_append, List.length_singleton, List.take_add_one, hk,
    ← List.prefix_iff_eq_take.1 hl]
  rfl

-- A finished part of a schedule: what it depends on is in it, dependencies come first, and
-- `r` decides inside a cycle.
structure Consistent (dep r : α → α → Prop) (l : List α) : Prop where
  closed : ∀ a ∈ l, ∀ b, dep a b → b ∈ l
  nodup : l.Nodup
  ordered : l.Pairwise fun a b =>
    Relation.ReflTransGen dep a b → Relation.ReflTransGen dep b a ∧ r a b

namespace Consistent

variable {dep r : α → α → Prop} {l m : List α}

theorem nil : Consistent dep r [] := ⟨by simp, List.nodup_nil, List.Pairwise.nil⟩

theorem reach_mem (h : Consistent dep r l) {a b : α} (ha : a ∈ l)
    (hab : Relation.ReflTransGen dep a b) : b ∈ l := by
  induction hab with
  | refl => exact ha
  | tail _ hbc ih => exact h.closed _ ih _ hbc

theorem before_iff [Std.Antisymm r] (h : Consistent dep r l) {a b : α} (ha : a ∈ l)
    (hb : b ∈ l) (hne : a ≠ b) (hab : Relation.ReflTransGen dep a b) :
    [a, b].Sublist l ↔ Relation.ReflTransGen dep b a ∧ r a b := by
  have hord : ∀ {x y : α}, [x, y].Sublist l → Relation.ReflTransGen dep x y →
      Relation.ReflTransGen dep y x ∧ r x y :=
    fun hsub => List.pairwise_iff_forall_sublist.1 h.ordered hsub
  constructor
  · exact fun hsub => hord hsub hab
  · rintro ⟨hba, hr⟩
    rcases sublist_total ha hb hne with hsub | hsub
    · exact hsub
    · exact absurd (Std.Antisymm.antisymm a b hr (hord hsub hba).2) hne

theorem before_iff_not (h : Consistent dep r l) {a b : α} (ha : a ∈ l) (hb : b ∈ l)
    (hne : a ≠ b) : [a, b].Sublist l ↔ ¬ [b, a].Sublist l := by
  constructor
  · exact sublist_asymm h.nodup
  · intro hn
    exact (sublist_total ha hb hne).resolve_right hn

-- The order of two related elements does not depend on the schedule.
theorem agree [Std.Antisymm r] (hl : Consistent dep r l) (hm : Consistent dep r m) {a b : α}
    (hne : a ≠ b) (hdep : dep a b ∨ dep b a) (hal : a ∈ l) (hbl : b ∈ l) (ham : a ∈ m)
    (hbm : b ∈ m) : [a, b].Sublist l ↔ [a, b].Sublist m := by
  rcases hdep with hab | hba
  · rw [hl.before_iff hal hbl hne (.single hab), hm.before_iff ham hbm hne (.single hab)]
  · rw [hl.before_iff_not hal hbl hne, hm.before_iff_not ham hbm hne,
      hl.before_iff hbl hal hne.symm (.single hba), hm.before_iff hbm ham hne.symm (.single hba)]

theorem append_emitted [DecidableEq α] [DecidableRel r] {avail : α → Bool} {succ : α → List α}
    {order : List α} (hl : Consistent dep r l) (ho : Tarjan.Emitted avail succ r order)
    (hfresh : ∀ a ∈ order, a ∉ l) (hsound : ∀ a ∈ order, ∀ b ∈ succ a, dep a b)
    (hcomplete : ∀ a ∈ order, ∀ b, dep a b → b = a ∨ b ∈ l ∨ b ∈ succ a) :
    Consistent dep r (l ++ order) := by
  have hreach : ∀ a ∈ order, ∀ b, Relation.ReflTransGen dep a b →
      b ∈ l ∨ Tarjan.Reach succ a b := by
    intro a ha b hab
    induction hab with
    | refl => exact Or.inr (Tarjan.Reach.refl a)
    | tail _ hbc ih =>
      rcases ih with hbl | hb
      · exact Or.inl (hl.closed _ hbl _ hbc)
      · rcases hcomplete _ (ho.reach_mem ha hb) _ hbc with rfl | hcl | hc
        · exact Or.inr hb
        · exact Or.inl hcl
        · exact Or.inr (hb.trans (Tarjan.Reach.edge hc))
  have hback : ∀ a ∈ order, ∀ b, Tarjan.Reach succ a b → Relation.ReflTransGen dep a b := by
    intro a ha b hab
    induction hab with
    | refl => exact .refl
    | tail hbc hcd ih => exact ih.tail (hsound _ (ho.reach_mem ha hbc) _ hcd)
  refine ⟨?_, List.nodup_append.2 ⟨hl.nodup, ho.nodup, ?_⟩,
    List.pairwise_append.2 ⟨hl.ordered, ?_, ?_⟩⟩
  · intro a ha b hab
    rcases List.mem_append.1 ha with ha | ha
    · exact List.mem_append_left _ (hl.closed a ha b hab)
    · rcases hcomplete a ha b hab with rfl | hb | hb
      · exact List.mem_append_right _ ha
      · exact List.mem_append_left _ hb
      · exact List.mem_append_right _ (ho.closed a ha b hb)
  · rintro a ha b hb rfl
    exact hfresh a hb ha
  · refine ho.pairwise.imp_of_mem ?_
    intro a b ha hb h hab
    rcases hreach a ha b hab with hbl | hab'
    · exact absurd hbl (hfresh b hb)
    · exact ⟨hback b hb a (h hab').1, (h hab').2⟩
  · intro a ha b hb hab
    exact absurd (hl.reach_mem ha hab) (hfresh b hb)

end Consistent

end KCensus.Lib

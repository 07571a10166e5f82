import Mathlib.Data.Finset.Card

namespace KCensus.Lib

variable {P : Type} [DecidableEq P] {S A B : Finset P} {reported : P → P} {p x leader : P}

-- What the reports of `B` are worth for `x`: two, one more for each other process that reports
-- `x`, and one less if `x` reports itself.
def score (B : Finset P) (reported : P → P) (x : P) : Nat :=
  2 + (B.filter fun q => reported q = x ∧ q ≠ x).card - if x ∈ B ∧ reported x = x then 1 else 0

theorem score_insert {q y : P} (hq : q ∉ B) :
    score (insert q B) (Function.update reported q x) y =
      if y = x then if q ≠ x then score B reported x + 1 else score B reported x - 1
      else score B reported y := by
  have hold : ∀ z ∈ B, Function.update reported q x z = reported z := fun z hz =>
    Function.update_of_ne (ne_of_mem_of_not_mem hz hq) ..
  have hfilter : ((insert q B).filter fun z => Function.update reported q x z = y ∧ z ≠ y) =
      if x = y ∧ q ≠ y then insert q (B.filter fun z => reported z = y ∧ z ≠ y)
      else B.filter fun z => reported z = y ∧ z ≠ y := by
    rw [Finset.filter_insert, Function.update_self]
    have hsame : (B.filter fun z => Function.update reported q x z = y ∧ z ≠ y) =
        B.filter fun z => reported z = y ∧ z ≠ y :=
      Finset.filter_congr fun z hz => by rw [hold z hz]
    rw [hsame]
  have hpenalty : (y ∈ insert q B ∧ Function.update reported q x y = y) ↔
      y = q ∧ x = y ∨ y ∈ B ∧ reported y = y := by
    rw [Finset.mem_insert]
    constructor
    · rintro ⟨rfl | hy, heq⟩
      · exact Or.inl ⟨rfl, by rwa [Function.update_self] at heq⟩
      · exact Or.inr ⟨hy, by rwa [hold y hy] at heq⟩
    · rintro (⟨rfl, rfl⟩ | ⟨hy, heq⟩)
      · exact ⟨Or.inl rfl, Function.update_self ..⟩
      · exact ⟨Or.inr hy, by rwa [hold y hy]⟩
  have hnot : q ∉ B.filter fun z => reported z = y ∧ z ≠ y := fun hmem =>
    hq (Finset.mem_filter.1 hmem).1
  rw [score, hfilter]
  simp only [hpenalty]
  by_cases hyx : y = x
  · subst hyx
    by_cases hqy : q = y
    · subst hqy
      simp [score, hq]
    · rw [if_pos ⟨rfl, hqy⟩, Finset.card_insert_of_notMem hnot, if_pos rfl, if_pos hqy, score]
      simp only [Ne.symm hqy, false_and, false_or]
      split
      · omega
      · omega
  · rw [if_neg fun hmem => hyx hmem.1.symm, if_neg hyx, score]
    simp only [Ne.symm hyx, and_false, false_or]

theorem score_le {E : Finset P} (hE : ∀ q ∈ B, reported q = x → q ≠ x → q ∈ E) :
    score B reported x ≤ 2 + E.card - if x ∈ B ∧ reported x = x then 1 else 0 := by
  have hsub : (B.filter fun q => reported q = x ∧ q ≠ x) ⊆ E := fun q hq => by
    rw [Finset.mem_filter] at hq
    exact hE q hq.1 hq.2.1 hq.2.2
  exact Nat.sub_le_sub_right (Nat.add_le_add_left (Finset.card_le_card hsub) 2) _

theorem score_lt (hA : A ⊆ S) (hB : B ⊆ S) (hsize : 2 * S.card < 2 * A.card + B.card + 2)
    (hagree : ∀ q ∈ A, q ∈ B → reported q = p) (hp : p ∉ B) (hleader : leader ∈ B)
    (hown : reported leader = leader) (hx : x ≠ p) (hxS : x ∈ S) (hxA : x ∉ A)
    (hself : x ∈ B → reported x = x) : score B reported x < score B reported p := by
  have hmost : A.card + B.card ≤ S.card + (A ∩ B).card := by
    rw [← Finset.card_union_add_card_inter]
    exact Nat.add_le_add_right (Finset.card_le_card (Finset.union_subset hA hB)) _
  have hdiff : (B \ A).card + (A ∩ B).card = B.card := by
    rw [Finset.inter_comm, Finset.card_sdiff_add_card_inter]
  have hlow : 2 + (A ∩ B).card ≤ score B reported p := by
    rw [score, if_neg fun hmem => hp hmem.1, Nat.sub_zero]
    refine Nat.add_le_add_left (Finset.card_le_card fun q hq => ?_) 2
    obtain ⟨hqA, hqB⟩ := Finset.mem_inter.1 hq
    refine Finset.mem_filter.2 ⟨hqB, hagree q hqA hqB, ?_⟩
    rintro rfl
    exact hp hqB
  have hleaderA : leader ∉ A := fun hmem => by
    obtain rfl : leader = p := hown.symm.trans (hagree leader hmem hleader)
    exact hp hleader
  have hleaderE : leader ∈ B \ A := Finset.mem_sdiff.2 ⟨hleader, hleaderA⟩
  have houtside : ∀ q ∈ B, reported q = x → q ∈ B \ A := fun q hq hr =>
    Finset.mem_sdiff.2 ⟨hq, fun hmem => hx (hr.symm.trans (hagree q hmem hq))⟩
  by_cases hxB : x ∈ B
  · -- `x` is heard, so it is worth one less for what it says of itself
    have hothers : ∀ q ∈ B, reported q = x → q ≠ x → q ∈ (B \ A).erase x := fun q hq hr hne =>
      Finset.mem_erase.2 ⟨hne, houtside q hq hr⟩
    have hhigh := score_le hothers
    rw [if_pos ⟨hxB, hself hxB⟩, Finset.card_erase_of_mem (houtside x hxB (hself hxB))] at hhigh
    have hpos := Finset.card_pos.2 ⟨leader, hleaderE⟩
    omega
  · -- `x` is not heard, so it is one more process outside of both sets
    have hothers : ∀ q ∈ B, reported q = x → q ≠ x → q ∈ (B \ A).erase leader := by
      refine fun q hq hr _ => Finset.mem_erase.2 ⟨fun heq => hxB ?_, houtside q hq hr⟩
      rw [← hr, heq, hown, ← heq]
      exact hq
    have hhigh := score_le hothers
    rw [if_neg fun hmem => hxB hmem.1, Finset.card_erase_of_mem hleaderE, Nat.sub_zero] at hhigh
    have hmore : A.card + B.card + 1 ≤ S.card + (A ∩ B).card := by
      rw [← Finset.card_union_add_card_inter, Nat.add_right_comm]
      refine Nat.add_le_add_right ?_ _
      rw [← Finset.card_insert_of_notMem (a := x) fun hmem =>
        (Finset.mem_union.1 hmem).elim hxA hxB]
      exact Finset.card_le_card (Finset.insert_subset hxS (Finset.union_subset hA hB))
    have hpos := Finset.card_pos.2 ⟨leader, hleaderE⟩
    omega

end KCensus.Lib

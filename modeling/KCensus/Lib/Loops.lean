import Mathlib.Logic.Function.Basic
import Mathlib.Data.List.Basic
import Mathlib.Order.Nat

namespace KCensus.Lib

variable {α β ε ι : Type*}

-- Subtraction on `usize`, which panics where the result would be negative.
def checkedSub (a b : Nat) : Option Nat := if b ≤ a then some (a - b) else none

theorem checkedSub_of_le {a b : Nat} (h : b ≤ a) : checkedSub a b = some (a - b) := if_pos h

-- `done` is a `break`, `yield` the end of an iteration or a `continue`.
def forUntil (f : α → β → Except ε (ForInStep β)) : List α → β → Except ε β
  | [], b => .ok b
  | x :: xs, b =>
      match f x b with
      | .error e => .error e
      | .ok (.done b) => .ok b
      | .ok (.yield b) => forUntil f xs b

def tabulate [DecidableEq ι] (f : ι → Except ε α) : List ι → (ι → α) → Except ε (ι → α)
  | [], table => .ok table
  | i :: is, table =>
      match f i with
      | .error e => .error e
      | .ok a => tabulate f is (Function.update table i a)

theorem tabulate_ok [DecidableEq ι] {f : ι → Except ε α} {g : ι → α} (is : List ι)
    (h : ∀ i ∈ is, f i = .ok (g i)) (table : ι → α) :
    tabulate f is table = .ok fun i => if i ∈ is then g i else table i := by
  induction is generalizing table with
  | nil => simp [tabulate]
  | cons i is ih =>
      simp only [tabulate, h i List.mem_cons_self]
      rw [ih fun j hj => h j (List.mem_cons_of_mem _ hj)]
      congr 1
      funext j
      by_cases hj : j ∈ is
      · simp [hj]
      · rcases eq_or_ne j i with rfl | hne
        · simp [hj]
        · simp [hj, hne]

theorem bind_ok.{u} {α β : Type u} {x : Except ε α} {f : α → Except ε β} {b : β}
    (h : x >>= f = .ok b) :
    ∃ a, x = .ok a ∧ f a = .ok b := by
  cases x with
  | error e => cases h
  | ok a => exact ⟨a, rfl, h⟩

theorem foldlM_inv {f : β → α → Except ε β} (P : β → Prop) {xs : List α}
    (hstep : ∀ x ∈ xs, ∀ b b', f b x = .ok b' → P b → P b') {b r : β}
    (hrun : xs.foldlM f b = .ok r) (hb : P b) : P r := by
  induction xs generalizing b with
  | nil =>
      cases hrun
      exact hb
  | cons x xs ih =>
      obtain ⟨b', hb', hrest⟩ := bind_ok hrun
      exact ih (fun y hy => hstep y (List.mem_cons_of_mem _ hy)) hrest
        (hstep x List.mem_cons_self b b' hb' hb)

-- A loop whose turns each settle one row, and leave alone the rows that others have settled.
theorem foldlM_rows (f : β → ι → Except ε β) (Inv : β → Prop) (Row : ι → β → Prop) {is : List ι}
    (hstep : ∀ i ∈ is, ∀ b, Inv b → ∃ b', f b i = .ok b' ∧ Inv b' ∧ Row i b' ∧
      ∀ j, j ≠ i → Row j b → Row j b') {b : β} (hb : Inv b) :
    ∃ r, is.foldlM f b = .ok r ∧ Inv r ∧ ∀ j, j ∈ is ∨ Row j b → Row j r := by
  induction is generalizing b with
  | nil => exact ⟨b, rfl, hb, fun j hj => hj.resolve_left List.not_mem_nil⟩
  | cons i is ih =>
      obtain ⟨b', hb', hinv, hrow, hothers⟩ := hstep i List.mem_cons_self b hb
      obtain ⟨r, hr, hinv', hrows⟩ := ih (fun j hj => hstep j (List.mem_cons_of_mem _ hj)) hinv
      refine ⟨r, ?_, hinv', fun j hj => hrows j ?_⟩
      · rw [List.foldlM_cons, hb']
        exact hr
      · rcases eq_or_ne j i with rfl | hne
        · exact Or.inr hrow
        · rcases hj with hj | hj
          · exact Or.inl ((List.mem_cons.mp hj).resolve_left hne)
          · exact Or.inr (hothers j hne hj)

section

variable {f : α → β → Except ε (ForInStep β)} {Inv : β → Prop} {cost : β → Nat}

theorem forUntil_inv {xs : List α}
    (hstep : ∀ x ∈ xs, ∀ b, Inv b → ∃ s, f x b = .ok s ∧ Inv s.value ∧ cost s.value ≤ cost b)
    {b : β} (hb : Inv b) :
    ∃ r, forUntil f xs b = .ok r ∧ Inv r ∧ cost r ≤ cost b := by
  induction xs generalizing b with
  | nil => exact ⟨b, rfl, hb, le_rfl⟩
  | cons x xs ih =>
      obtain ⟨s, hs, hinv, hcost⟩ := hstep x List.mem_cons_self b hb
      cases s with
      | done b' => exact ⟨b', by simp only [forUntil, hs], hinv, hcost⟩
      | yield b' =>
          obtain ⟨r, hr, hinv', hcost'⟩ :=
            ih (fun y hy => hstep y (List.mem_cons_of_mem _ hy)) (b := b') hinv
          exact ⟨r, by simp only [forUntil, hs, hr], hinv', hcost'.trans hcost⟩

-- A loop that only lowers a cost ends at or below `bound` if one of its iterations does, provided
-- that no earlier `break` leaves it higher.
theorem forUntil_le {R : α → α → Prop} {xs : List α} (hsorted : xs.Pairwise R)
    (hstep : ∀ x ∈ xs, ∀ b, Inv b → ∃ s, f x b = .ok s ∧ Inv s.value ∧ cost s.value ≤ cost b)
    {x : α} (hx : x ∈ xs) {bound : Nat}
    (hat : ∀ b s, Inv b → f x b = .ok s → cost s.value ≤ bound)
    (hbreak : ∀ y ∈ xs, R y x → ∀ b b', Inv b → f y b = .ok (.done b') → cost b' ≤ bound)
    {b r : β} (hb : Inv b) (hr : forUntil f xs b = .ok r) : cost r ≤ bound := by
  induction xs generalizing b with
  | nil => cases hx
  | cons y ys ih =>
      obtain ⟨hy, hys⟩ := List.pairwise_cons.mp hsorted
      have hstep' := fun z hz => hstep z (List.mem_cons_of_mem y hz)
      obtain ⟨s, hs, hinv, -⟩ := hstep y List.mem_cons_self b hb
      rcases List.mem_cons.mp hx with rfl | hx
      · have hbound := hat b s hb hs
        cases s with
        | done b' =>
            simp only [forUntil, hs, Except.ok.injEq] at hr
            exact hr ▸ hbound
        | yield b' =>
            simp only [forUntil, hs] at hr
            obtain ⟨r', hr', -, hle⟩ := forUntil_inv hstep' (b := b') hinv
            rw [hr, Except.ok.injEq] at hr'
            exact hr' ▸ hle.trans hbound
      · cases s with
        | done b' =>
            simp only [forUntil, hs, Except.ok.injEq] at hr
            exact hr ▸ hbreak y List.mem_cons_self (hy x hx) b b' hb hs
        | yield b' =>
            simp only [forUntil, hs] at hr
            exact ih hys hstep' hx (fun z hz => hbreak z (List.mem_cons_of_mem y hz)) hinv hr

theorem foldlM_least {f : β → α → Except ε β} {Target : α → Nat → Prop} {xs : List α}
    (hstep : ∀ x ∈ xs, ∀ b, Inv b → ∃ b', f b x = .ok b' ∧ Inv b' ∧ cost b' ≤ cost b ∧
      ∀ t, Target x t → cost b' ≤ t) {b : β} (hb : Inv b) :
    ∃ r, xs.foldlM f b = .ok r ∧ Inv r ∧ cost r ≤ cost b ∧
      ∀ x ∈ xs, ∀ t, Target x t → cost r ≤ t := by
  induction xs generalizing b with
  | nil => exact ⟨b, rfl, hb, le_rfl, fun x hx => nomatch hx⟩
  | cons x xs ih =>
      obtain ⟨b', hb', hinv, hle, hhit⟩ := hstep x List.mem_cons_self b hb
      obtain ⟨r, hr, hinv', hle', hhits⟩ := ih (fun y hy => hstep y (List.mem_cons_of_mem _ hy)) hinv
      refine ⟨r, ?_, hinv', hle'.trans hle, fun y hy t ht => ?_⟩
      · rw [List.foldlM_cons, hb']
        exact hr
      · rcases List.mem_cons.mp hy with rfl | hy
        · exact hle'.trans (hhit t ht)
        · exact hhits y hy t ht

end

end KCensus.Lib

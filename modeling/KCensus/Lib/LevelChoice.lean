import Mathlib.Order.Basic
import Mathlib.Data.Nat.Find

namespace KCensus.Lib

variable {ι : Type*}

-- One level is chosen at every index; any two choices have to be compatible, and going up a
-- level costs more and keeps compatibility.
structure LevelChoice (ι : Type*) where
  len : ι → Nat
  cost : ι → Nat → Nat
  compat : ι → Nat → ι → Nat → Prop
  symm : ∀ {a la b lb}, la < len a → lb < len b → compat a la b lb → compat b lb a la
  mono : ∀ {a la la' b lb}, la ≤ la' → la' < len a → lb < len b →
    compat a la b lb → compat a la' b lb
  cost_mono : ∀ {a la la'}, la ≤ la' → la' < len a → cost a la ≤ cost a la'

namespace LevelChoice

variable (c : LevelChoice ι)

theorem mono_right {a b : ι} {la lb lb' : Nat} (h : lb ≤ lb') (ha : la < c.len a)
    (hb : lb' < c.len b) (hc : c.compat a la b lb) : c.compat a la b lb' :=
  c.symm hb ha (c.mono h hb ha (c.symm ha (by omega) hc))

-- The lowest level of `b` that goes with level `la` of `a`.
def Least (a : ι) (la : Nat) (b : ι) (r : Nat) : Prop :=
  r < c.len b ∧ c.compat a la b r ∧ ∀ lb < r, ¬ c.compat a la b lb

def Useful (a : ι) (la : Nat) : Prop :=
  la = 0 ∨ ∃ b lb, lb < c.len b ∧ c.compat a la b lb ∧ ¬ c.compat a (la - 1) b lb

variable {c}

theorem Least.le {a b : ι} {la lb r : Nat} (h : c.Least a la b r) (hc : c.compat a la b lb) :
    r ≤ lb := by
  by_contra hlt
  exact h.2.2 lb (by omega) hc

theorem Least.useful {a b : ι} {la r : Nat} (ha : la < c.len a) (h : c.Least a la b r) :
    c.Useful b r := by
  obtain ⟨hr, hc, hlow⟩ := h
  rcases Nat.eq_zero_or_pos r with h0 | hpos
  · exact Or.inl h0
  · refine Or.inr ⟨a, la, ha, c.symm ha hr hc, fun hb => ?_⟩
    exact hlow (r - 1) (by omega) (c.symm (by omega) ha hb)

theorem exists_useful {a : ι} {la : Nat} (ha : la < c.len a) :
    ∃ u ≤ la, c.Useful a u ∧ ∀ b lb, lb < c.len b → c.compat a la b lb → c.compat a u b lb := by
  induction la with
  | zero => exact ⟨0, le_rfl, Or.inl rfl, fun _ _ _ h => h⟩
  | succ la ih =>
      by_cases hu : c.Useful a (la + 1)
      · exact ⟨la + 1, le_rfl, hu, fun _ _ _ h => h⟩
      · obtain ⟨u, hle, huse, hsup⟩ := ih (by omega)
        refine ⟨u, by omega, huse, fun b lb hb hc => hsup b lb hb ?_⟩
        by_contra hno
        exact hu (Or.inr ⟨b, lb, hb, hc, hno⟩)

-- Below a useful level nothing is lost by stepping down from `la` to some useful level.
theorem exists_useful_from {a : ι} {low la : Nat} (hlow : c.Useful a low) (hle : low ≤ la)
    (ha : la < c.len a) :
    ∃ u, low ≤ u ∧ u ≤ la ∧ c.Useful a u ∧
      ∀ b lb, lb < c.len b → c.compat a la b lb → c.compat a u b lb := by
  obtain ⟨u, hu, huse, hsup⟩ := exists_useful ha
  rcases Nat.lt_or_ge u low with h | h
  · refine ⟨low, le_rfl, hle, hlow, fun b lb hb hc => ?_⟩
    exact c.mono h.le (by omega) hb (hsup b lb hb hc)
  · exact ⟨u, h, hu, huse, hsup⟩

end LevelChoice

end KCensus.Lib

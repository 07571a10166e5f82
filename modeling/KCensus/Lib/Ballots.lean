import Mathlib.Data.Finset.Card
import Mathlib.Order.WithBot

namespace KCensus.Lib

-- One decision by votes in rounds. The coordinator of a round opens it with a value, and whoever
-- votes in the round votes for that value. A `first` round is opened without asking anyone.
structure Ballots (A R V : Type) where
  coordinator : R → A
  first : R → Prop
  quorum : Finset A → Prop
  voted : A → R → V → Prop
  promised : A → R → Prop

namespace Ballots

variable {A R V : Type} (b : Ballots A R V)

def Opened (r : R) (v : V) : Prop := b.voted (b.coordinator r) r v

def Entered (q : A) (r : R) : Prop := b.promised q r ∨ ∃ v, b.voted q r v

def vote (q : A) (r : R) (v : V) : Ballots A R V :=
  { b with voted := fun q' r' v' => b.voted q' r' v' ∨ q' = q ∧ r' = r ∧ v' = v }

def promise (q : A) (r : R) : Ballots A R V :=
  { b with promised := fun q' r' => b.promised q' r' ∨ q' = q ∧ r' = r }

section

variable {b} {q q' : A} {r r' : R} {v v' : V}

theorem Opened.vote (h : b.Opened r v) : (b.vote q' r' v').Opened r v := Or.inl h

theorem Entered.vote (h : b.Entered q r) : (b.vote q' r' v').Entered q r :=
  h.imp_right fun hv => hv.imp fun _ => Or.inl

theorem Entered.promise (h : b.Entered q r) : (b.promise q' r').Entered q r := h.imp_left Or.inl

end

variable [LinearOrder R]

def Closed (q : A) (r : R) (a : WithBot R) : Prop :=
  ∀ r' v, b.voted q r' v → (r' : WithBot R) ≤ a ∨ r ≤ r'

def Chosen (r : R) (v : V) : Prop := ∃ Q, b.quorum Q ∧ ∀ q ∈ Q, b.voted q r v

-- A quorum has entered the round `r` and can no longer decide between `a` and `r`; the value is the
-- one of the round `a`, and `free` if there is no such round.
def Picked (free : R → V → Prop) (r : R) (v : V) : Prop :=
  b.first r ∧ free r v ∨ ∃ (a : WithBot R) (Q : Finset A), a < r ∧ b.quorum Q ∧
    (∀ q ∈ Q, b.Entered q r ∧ b.Closed q r a) ∧
    (∀ r' : R, a = r' → b.Opened r' v) ∧ (a = ⊥ → free r v)

structure Sound (free : R → V → Prop) : Prop where
  floor : ∀ r, b.first r → ∀ q r' v, b.voted q r' v → r ≤ r'
  follows : ∀ q r v, b.voted q r v → b.Opened r v
  unique : ∀ q r v v', b.voted q r v → b.voted q r v' → v = v'
  picked : ∀ r v, b.Opened r v → b.Picked free r v

variable {b} {free free' : R → V → Prop} {q q' : A} {r r' : R} {v v' : V} {a : WithBot R}

theorem Closed.vote (h : b.Closed q r a) (hlast : q = q' → r ≤ r') :
    (b.vote q' r' v').Closed q r a := by
  rintro r₁ v₁ (hv | ⟨rfl, rfl, rfl⟩)
  · exact h r₁ v₁ hv
  · exact Or.inr (hlast rfl)

theorem Closed.mono (h : b.Closed q r a) {a' : WithBot R} (ha : a ≤ a') : b.Closed q r a' :=
  fun r' v hv => (h r' v hv).imp_left ha.trans'

theorem Picked.vote (h : b.Picked free r v) (hlast : ∀ r₀, b.Entered q' r₀ → r₀ ≤ r') :
    (b.vote q' r' v').Picked free r v := by
  rcases h with hfirst | ⟨a, Q, ha, hQ, hq, hopened, hfree⟩
  · exact Or.inl hfirst
  refine Or.inr ⟨a, Q, ha, hQ, fun q hmem => ?_, fun r₀ hr₀ => (hopened r₀ hr₀).vote, hfree⟩
  obtain ⟨hentered, hclosed⟩ := hq q hmem
  refine ⟨hentered.vote, hclosed.vote ?_⟩
  rintro rfl
  exact hlast r hentered

namespace Sound

theorem mono_free (h : b.Sound free) (hmono : ∀ r v, free r v → free' r v) : b.Sound free' := by
  refine ⟨h.floor, h.follows, h.unique, fun r v hv => ?_⟩
  rcases h.picked r v hv with ⟨hfirst, hfree⟩ | ⟨a, Q, ha, hQ, hq, hopened, hfree⟩
  · exact Or.inl ⟨hfirst, hmono r v hfree⟩
  · exact Or.inr ⟨a, Q, ha, hQ, hq, hopened, fun hbot => hmono r v (hfree hbot)⟩

theorem promise (h : b.Sound free) : (b.promise q r).Sound free := by
  refine ⟨h.floor, h.follows, h.unique, fun r₀ v hv => ?_⟩
  rcases h.picked r₀ v hv with hfirst | ⟨a, Q, ha, hQ, hq, hopened, hfree⟩
  · exact Or.inl hfirst
  · refine Or.inr ⟨a, Q, ha, hQ, fun q hmem => ?_, hopened, hfree⟩
    exact ⟨(hq q hmem).1.promise, (hq q hmem).2⟩

theorem vote (h : b.Sound free) (hfirst : ∀ r₀, b.first r₀ → r₀ ≤ r)
    (hlast : ∀ r₀, b.Entered q r₀ → r₀ ≤ r) (hsame : ∀ v', b.voted q r v' → v' = v)
    (hopens : (b.vote q r v).Opened r v ∧ (b.vote q r v).Picked free r v) :
    (b.vote q r v).Sound free := by
  refine ⟨?_, ?_, ?_, ?_⟩
  · rintro r₀ hr₀ q₁ r₁ v₁ (hv | ⟨-, rfl, -⟩)
    · exact h.floor r₀ hr₀ q₁ r₁ v₁ hv
    · exact hfirst r₀ hr₀
  · rintro q₁ r₁ v₁ (hv | ⟨rfl, rfl, rfl⟩)
    · exact (h.follows q₁ r₁ v₁ hv).vote
    · exact hopens.1
  · rintro q₁ r₁ v₁ v₂ (hv | ⟨rfl, rfl, rfl⟩) (hv' | ⟨hq, hr, rfl⟩)
    · exact h.unique q₁ r₁ v₁ v₂ hv hv'
    · subst hq hr
      exact hsame v₁ hv
    · exact (hsame v₂ hv').symm
    · rfl
  · rintro r₁ v₁ (hv | ⟨-, rfl, rfl⟩)
    · exact (h.picked r₁ v₁ hv).vote hlast
    · exact hopens.2

theorem opens_again (h : b.Sound free) (hlast : ∀ r₀, b.Entered q r₀ → r₀ ≤ r)
    (hv : b.Opened r v) : (b.vote q r v).Opened r v ∧ (b.vote q r v).Picked free r v :=
  ⟨hv.vote, (h.picked r v hv).vote hlast⟩

variable [WellFoundedLT R]

-- By induction on the rounds: a value is handed on from round to round, or was picked freely.
theorem eq_of_free (h : b.Sound free) (hfree : ∀ r v', b.Opened r v' → free r v' → v' = v) :
    b.Opened r v' → v' = v := by
  induction r using WellFoundedLT.induction generalizing v' with
  | ind r ih =>
    intro hv
    rcases h.picked r v' hv with ⟨-, hf⟩ | ⟨a, Q, ha, -, -, hopened, hf⟩
    · exact hfree r v' hv hf
    cases a with
    | bot => exact hfree r v' hv (hf rfl)
    | coe a => exact ih a (WithBot.coe_lt_coe.1 ha) (hopened a rfl)

theorem eq_of_chosen (h : b.Sound free)
    (hmeet : ∀ Q Q', b.quorum Q → b.quorum Q' → ∃ q ∈ Q, q ∈ Q') (hc : b.Chosen r v) :
    b.Opened r' v' → r ≤ r' → v' = v := by
  obtain ⟨Q, hQ, hvotes⟩ := hc
  induction r' using WellFoundedLT.induction generalizing v' with
  | ind r' ih =>
    intro hv hle
    rcases hle.eq_or_lt with rfl | hlt
    · obtain ⟨q, hq, -⟩ := hmeet Q Q hQ hQ
      exact h.unique _ r v' v hv (h.follows q r v (hvotes q hq))
    · rcases h.picked r' v' hv with ⟨hfirst, -⟩ | ⟨a, Q', ha, hQ', hq, hopened, -⟩
      · obtain ⟨q, hq, -⟩ := hmeet Q Q hQ hQ
        exact absurd (h.floor r' hfirst q r v (hvotes q hq)) hlt.not_ge
      obtain ⟨q, hmem, hmem'⟩ := hmeet Q Q' hQ hQ'
      have hra : (r : WithBot R) ≤ a :=
        ((hq q hmem').2 r v (hvotes q hmem)).resolve_right hlt.not_ge
      cases a with
      | bot => exact absurd hra (WithBot.bot_lt_coe r).not_ge
      | coe a => exact ih a (WithBot.coe_lt_coe.1 ha) (hopened a rfl) (WithBot.coe_le_coe.1 hra)

theorem agreement (h : b.Sound free)
    (hmeet : ∀ Q Q', b.quorum Q → b.quorum Q' → ∃ q ∈ Q, q ∈ Q') (hc : b.Chosen r v)
    (hc' : b.Chosen r' v') : v = v' := by
  have hopened : ∀ {r v}, b.Chosen r v → b.Opened r v := by
    rintro r v ⟨Q, hQ, hvotes⟩
    obtain ⟨q, hq, -⟩ := hmeet Q Q hQ hQ
    exact h.follows q r v (hvotes q hq)
  rcases le_total r r' with hle | hle
  · exact (h.eq_of_chosen hmeet hc (hopened hc') hle).symm
  · exact h.eq_of_chosen hmeet hc' (hopened hc) hle

end Sound

end Ballots

end KCensus.Lib

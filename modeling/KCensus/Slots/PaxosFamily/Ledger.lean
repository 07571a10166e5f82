import KCensus.Lib.Ballots
import KCensus.Lib.Scores
import KCensus.Slots.PaxosFamily.Shard

namespace KCensus.Slots

open Lib (Ballots score score_lt)

variable {n : Nat}

instance : WellFoundedLT (PaxosRound n) :=
  ⟨InvImage.wf PaxosRound.key (wellFounded_lt (α := Nat ×ₗ Fin n))⟩

-- What has been voted and promised for one slot, and who decided it by a fast quorum.
structure Ledger (n : Nat) where
  voted : Fin n → PaxosRound n → Nat → Prop
  promised : Fin n → PaxosRound n → RoundV n → Prop
  settled : Fin n → Nat → Prop

namespace Ledger

variable (me : Fin n) (L : Ledger n)

def vote (r : PaxosRound n) (v : Nat) : Ledger n :=
  { L with voted := fun q r' v' => L.voted q r' v' ∨ q = me ∧ r' = r ∧ v' = v }

def promise (r : PaxosRound n) (rv : RoundV n) : Ledger n :=
  { L with promised := fun q r' rv' => L.promised q r' rv' ∨ q = me ∧ r' = r ∧ rv' = rv }

def settle (v : Nat) : Ledger n :=
  { L with settled := fun q v' => L.settled q v' ∨ q = me ∧ v' = v }

structure Grows (L L' : Ledger n) : Prop where
  voted : ∀ q r v, L.voted q r v → L'.voted q r v
  promised : ∀ q r rv, L.promised q r rv → L'.promised q r rv
  settled : ∀ q v, L.settled q v → L'.settled q v

theorem Grows.vote {r : PaxosRound n} {v : Nat} : L.Grows (L.vote me r v) :=
  ⟨fun _ _ _ => Or.inl, fun _ _ _ => id, fun _ _ => id⟩

theorem Grows.promise {r : PaxosRound n} {rv : RoundV n} : L.Grows (L.promise me r rv) :=
  ⟨fun _ _ _ => id, fun _ _ _ => Or.inl, fun _ _ => id⟩

theorem Grows.settle {v : Nat} : L.Grows (L.settle me v) :=
  ⟨fun _ _ _ => id, fun _ _ _ => id, fun _ _ => Or.inl⟩

end Ledger

namespace PaxosFamily

variable [NeZero n] (f : PaxosFamily n) (L : Ledger n)

def coordinator (r : PaxosRound n) : Fin n :=
  match f.mode with
  | .pando delegates => delegates r.leader
  | _ => r.leader

def ballots : Ballots (Fin n) (PaxosRound n) Nat where
  coordinator := f.coordinator
  first r := f.mode.isMultiPaxos = true ∧ f.startingRound = r
  quorum Q := Q ⊆ f.cluster.topology.aliveReplicas ∧ f.cluster.majority ≤ Q.card
  voted := L.voted
  promised q r := ∃ rv, L.promised q r rv

-- The reports of a majority, and the value of the proposer that they are worth most for.
def Adopted (r : PaxosRound n) (v : Nat) : Prop :=
  ∃ (B : Finset (Fin n)) (reported : Fin n → Fin n) (x : Fin n),
    B ⊆ f.cluster.topology.aliveReplicas ∧ f.cluster.majority ≤ B.card ∧ r.leader ∈ B ∧
    reported r.leader = r.leader ∧ (∀ q ∈ B, ∃ v, L.promised q r (.fastV (reported q) v)) ∧
    (∃ q ∈ B, reported q = x ∧ L.promised q r (.fastV x v)) ∧
    ∀ q ∈ B, score B reported (reported q) ≤ score B reported x

-- A fast quorum keeps to the proposal of `p`, and `p` has not gone on to anything else.
def Preaccepted (p : Fin n) (v : Nat) : Prop :=
  (∃ A ⊆ f.cluster.topology.aliveReplicas,
    PaxosFamilyRoundState.ePaxosQuorum f.cluster ≤ A.card ∧
      ∀ q ∈ A, L.promised q ⟨0, p⟩ (.fastV p v)) ∧
    (∀ r v', ¬ L.voted p r v') ∧ ∀ r rv, L.promised p r rv → r ≤ ⟨0, p⟩

def Ratified (v : Nat) : Prop := (∃ r, (f.ballots L).Chosen r v) ∨ ∃ p, L.settled p v

end PaxosFamily

-- Every process reports one proposal, of a process that makes its own before all else.
structure Ledger.FastFair (L : Ledger n) : Prop where
  proposed : ∀ q r rv, L.promised q r rv →
    r.roundGroup = 0 ∧ ∃ v, L.promised r.leader r (.fastV r.leader v)
  own : ∀ q r x v, L.promised q r (.fastV x v) → L.promised x ⟨0, x⟩ (.fastV x v)
  fixed : ∀ q r x v r' x' v', L.promised q r (.fastV x v) → L.promised q r' (.fastV x' v') →
    x = x' ∧ v = v'
  first : ∀ q r v r' rv, L.promised q r (.fastV q v) → L.promised q r' rv → ⟨0, q⟩ ≤ r'

theorem Ledger.FastFair.congr {L L' : Ledger n} (h : L.FastFair) (hp : L'.promised = L.promised) :
    L'.FastFair := by
  obtain ⟨hproposed, hown, hfixed, hfirst⟩ := h
  rw [← hp] at hproposed hown hfixed hfirst
  exact ⟨hproposed, hown, hfixed, hfirst⟩

namespace PaxosFamily

variable [NeZero n]

structure Fair (f : PaxosFamily n) (L : Ledger n) : Prop where
  sound : (f.ballots L).Sound fun r v => f.mode = .ePaxos → f.Adopted L r v
  member : ∀ q r rv, L.promised q r rv → q ∈ f.cluster.topology.aliveReplicas
  promise : ∀ q r rv, L.promised q r rv → (f.ballots L).Closed q r rv.getAcceptRound
  report : ∀ q r a v, L.promised q r (.paxosV (a : PaxosRound n) v) →
    a ≤ r ∧ (f.ballots L).Opened a v
  settled : ∀ p v, L.settled p v → f.mode = .ePaxos ∧ f.Preaccepted L p v
  single : f.mode.isMultiPaxos = true →
    (∀ q r v, L.voted q r v → f.startingRound = r) ∧ ∀ q r rv, ¬ L.promised q r rv
  fast : f.mode = .ePaxos → L.FastFair

variable {f : PaxosFamily n} {L L' : Ledger n} {me p p' : Fin n} {r : PaxosRound n} {v v' : Nat}
  {rv : RoundV n}

omit [NeZero n] in
theorem coordinator_of_ePaxos (hmode : f.mode = .ePaxos) : f.coordinator r = r.leader := by
  rw [coordinator, hmode]

omit [NeZero n] in
theorem Adopted.mono (h : f.Adopted L r v) (hL : L.Grows L') : f.Adopted L' r v := by
  obtain ⟨B, reported, x, hB, hsize, hleader, hown, hall, ⟨q, hq, hx, hv⟩, hbest⟩ := h
  refine ⟨B, reported, x, hB, hsize, hleader, hown, fun q hq => ?_,
    ⟨q, hq, hx, hL.promised _ _ _ hv⟩, hbest⟩
  obtain ⟨w, hw⟩ := hall q hq
  exact ⟨w, hL.promised _ _ _ hw⟩

theorem Ratified.mono (h : f.Ratified L v) (hL : L.Grows L') : f.Ratified L' v := by
  rcases h with ⟨r, Q, hQ, hvotes⟩ | ⟨p, hp⟩
  · exact Or.inl ⟨r, Q, hQ, fun q hq => hL.voted _ _ _ (hvotes q hq)⟩
  · exact Or.inr ⟨p, hL.settled _ _ hp⟩

theorem ballots_promise :
    f.ballots (L.promise me r rv) = (f.ballots L).promise me r := by
  rw [ballots, Ballots.promise, ballots, Ballots.mk.injEq]
  refine ⟨rfl, rfl, rfl, rfl, funext fun q => funext fun r' => propext ⟨?_, ?_⟩⟩
  · rintro ⟨rv', hold | ⟨rfl, rfl, -⟩⟩
    · exact Or.inl ⟨rv', hold⟩
    · exact Or.inr ⟨rfl, rfl⟩
  · rintro (⟨rv', hold⟩ | ⟨rfl, rfl⟩)
    · exact ⟨rv', Or.inl hold⟩
    · exact ⟨rv, Or.inr ⟨rfl, rfl, rfl⟩⟩

theorem ballots_meet (Q Q' : Finset (Fin n)) (hQ : (f.ballots L).quorum Q)
    (hQ' : (f.ballots L).quorum Q') : ∃ q ∈ Q, q ∈ Q' :=
  f.cluster.topology.exists_common hQ.1 hQ'.1 hQ.2 hQ'.2

namespace Fair

-- A majority that hears of a fast quorum adopts its value: no other one is worth as much.
theorem adopted_eq (h : f.Fair L) (hs : L.settled p v) (hv : (f.ballots L).Opened r v')
    (ha : f.Adopted L r v') : v' = v := by
  obtain ⟨hmode, ⟨A, hA, hquorum, hreports⟩, hvotes, hround⟩ := h.settled p v hs
  obtain ⟨B, reported, x, hB, hmajority, hleader, hown, hall, ⟨b, hb, hbx, hbv⟩, hbest⟩ := ha
  have hfast := h.fast hmode
  rw [PaxosFamilyRoundState.ePaxosQuorum] at hquorum
  obtain ⟨q₀, hq₀A, hq₀B⟩ := f.cluster.topology.exists_common hA hB
    ((le_max_right _ _).trans hquorum) hmajority
  have hmine : L.promised p ⟨0, p⟩ (.fastV p v) := hfast.own _ _ _ _ (hreports q₀ hq₀A)
  have hr : r = ⟨0, r.leader⟩ := by
    obtain ⟨w, hw⟩ := hall q₀ hq₀B
    rw [← (hfast.proposed _ _ _ hw).1]
  have hne : r.leader ≠ p := by
    rintro rfl
    have hvoted : L.voted (f.coordinator r) r v' := hv
    rw [coordinator_of_ePaxos hmode] at hvoted
    exact hvotes _ _ hvoted
  have hp : p ∉ B := fun hmem => by
    obtain ⟨w, hw⟩ := hall p hmem
    have heq : r = ⟨0, p⟩ := le_antisymm (hround _ _ hw) (hfast.first _ _ _ _ _ hmine hw)
    exact hne (congrArg PaxosRound.leader heq)
  have hagree : ∀ q ∈ A, q ∈ B → reported q = p := fun q hqA hqB => by
    obtain ⟨w, hw⟩ := hall q hqB
    exact (hfast.fixed _ _ _ _ _ _ _ hw (hreports q hqA)).1
  have hless : ∀ q ∈ B, reported q ≠ p → score B reported (reported q) < score B reported p := by
    intro q hq hother
    obtain ⟨w, hw⟩ := hall q hq
    have hself := hfast.own _ _ _ _ hw
    refine score_lt hA hB ?_ hagree hp hleader hown hother (h.member _ _ _ hself) (fun hmem => ?_)
      fun hmem => ?_
    · have hsize := f.cluster.topology.card_alive_le
      rw [Cluster.majority] at hmajority hquorum
      omega
    · exact hother (hfast.fixed _ _ _ _ _ _ _ hself (hreports _ hmem)).1
    · obtain ⟨u, hu⟩ := hall _ hmem
      exact (hfast.fixed _ _ _ _ _ _ _ hu hself).1
  have hx : x = p := by
    by_contra hother
    have hlow := hless b hb (hbx ▸ hother)
    have hhigh := hbest q₀ hq₀B
    rw [hbx] at hlow
    rw [hagree q₀ hq₀A hq₀B] at hhigh
    exact absurd hlow hhigh.not_gt
  subst hx
  exact (hfast.fixed _ _ _ _ _ _ _ (hfast.own _ _ _ _ hbv) hmine).2

theorem settled_eq (h : f.Fair L) (hs : L.settled p v) (hs' : L.settled p' v') : v = v' := by
  obtain ⟨hmode, ⟨A, hA, hquorum, hreports⟩, -⟩ := h.settled p v hs
  obtain ⟨-, ⟨A', hA', hquorum', hreports'⟩, -⟩ := h.settled p' v' hs'
  obtain ⟨q, hq, hq'⟩ := f.cluster.topology.exists_common hA hA'
    ((le_max_right _ _).trans hquorum) ((le_max_right _ _).trans hquorum')
  exact ((h.fast hmode).fixed _ _ _ _ _ _ _ (hreports q hq) (hreports' q hq')).2

theorem chosen_eq (h : f.Fair L) (hs : L.settled p v) (hc : (f.ballots L).Chosen r v') : v' = v := by
  have hmode := (h.settled p v hs).1
  obtain ⟨Q, hQ, hvotes⟩ := hc
  obtain ⟨q, hq, -⟩ := ballots_meet Q Q hQ hQ
  refine h.sound.eq_of_free (fun r w hw hfree => ?_) (h.sound.follows q r v' (hvotes q hq))
  exact h.adopted_eq hs hw (hfree hmode)

theorem agreement (h : f.Fair L) (hv : f.Ratified L v) (hv' : f.Ratified L v') : v = v' := by
  rcases hv with ⟨r, hc⟩ | ⟨p, hs⟩
  · rcases hv' with ⟨r', hc'⟩ | ⟨p', hs'⟩
    · exact h.sound.agreement ballots_meet hc hc'
    · exact h.chosen_eq hs' hc
  · rcases hv' with ⟨r', hc'⟩ | ⟨p', hs'⟩
    · exact (h.chosen_eq hs hc').symm
    · exact h.settled_eq hs hs'

theorem vote (h : f.Fair L) (hsingle : f.mode.isMultiPaxos = true → f.startingRound = r)
    (hlast : ∀ r₀, (f.ballots L).Entered me r₀ → r₀ ≤ r) (hsame : ∀ v', L.voted me r v' → v' = v)
    (hunsettled : ∀ v, ¬ L.settled me v)
    (hopens : ((f.ballots L).vote me r v).Opened r v ∧
      ((f.ballots L).vote me r v).Picked (fun r v => f.mode = .ePaxos → f.Adopted L r v) r v) :
    f.Fair (L.vote me r v) where
  sound := h.sound.vote (fun r₀ hr₀ => WithBot.coe_le_coe.1 (hr₀.2.symm.trans (hsingle hr₀.1)).le)
    hlast hsame hopens
  member := h.member
  promise q r' rv hp := (h.promise q r' rv hp).vote fun heq => hlast r' (heq ▸ Or.inl ⟨rv, hp⟩)
  report q r' a w hp := ⟨(h.report q r' a w hp).1, (h.report q r' a w hp).2.vote⟩
  settled p w hs := by
    obtain ⟨hmode, hquorum, hvotes, hround⟩ := h.settled p w hs
    refine ⟨hmode, hquorum, ?_, hround⟩
    rintro r' v' (hold | ⟨rfl, -⟩)
    · exact hvotes r' v' hold
    · exact hunsettled w hs
  single hmulti := by
    refine ⟨?_, (h.single hmulti).2⟩
    rintro q r' w (hold | ⟨-, rfl, -⟩)
    · exact (h.single hmulti).1 q r' w hold
    · exact hsingle hmulti
  fast hmode := (h.fast hmode).congr rfl

theorem promised (h : f.Fair L) (hme : me ∈ f.cluster.topology.aliveReplicas)
    (hclosed : (f.ballots L).Closed me r rv.getAcceptRound)
    (hreport : ∀ a v, rv = .paxosV (a : PaxosRound n) v → a ≤ r ∧ (f.ballots L).Opened a v)
    (hunsettled : ∀ v, ¬ L.settled me v) (hsingle : f.mode.isMultiPaxos = false)
    (hfast : f.mode = .ePaxos → (L.promise me r rv).FastFair) :
    f.Fair (L.promise me r rv) where
  sound := by
    have hgrows : L.Grows (L.promise me r rv) := .promise me L
    have hsound := (h.sound.promise (q := me) (r := r)).mono_free fun _ _ hv hmode => (hv hmode).mono hgrows
    have hballots : f.ballots (L.promise me r rv) = (f.ballots L).promise me r := ballots_promise
    rwa [← hballots] at hsound
  member := by
    rintro q r' rv' (hold | ⟨rfl, -⟩)
    · exact h.member q r' rv' hold
    · exact hme
  promise := by
    rintro q r' rv' (hold | ⟨rfl, rfl, rfl⟩)
    · exact h.promise q r' rv' hold
    · exact hclosed
  report := by
    rintro q r' a w (hold | ⟨rfl, rfl, heq⟩)
    · exact h.report q r' a w hold
    · exact hreport a w heq.symm
  settled p w hs := by
    obtain ⟨hmode, ⟨A, hA, hquorum, hreports⟩, hvotes, hround⟩ := h.settled p w hs
    refine ⟨hmode, ⟨A, hA, hquorum, fun q hq => Or.inl (hreports q hq)⟩, hvotes, ?_⟩
    rintro r' rv' (hold | ⟨rfl, -⟩)
    · exact hround r' rv' hold
    · exact absurd hs (hunsettled w)
  single hmulti := absurd hmulti (Bool.eq_false_iff.1 hsingle)
  fast := hfast

theorem settle (h : f.Fair L) (hmode : f.mode = .ePaxos) (hv : f.Preaccepted L me v) :
    f.Fair (L.settle me v) where
  sound := h.sound
  member := h.member
  promise := h.promise
  report := h.report
  settled := by
    rintro p w (hold | ⟨rfl, rfl⟩)
    · exact h.settled p w hold
    · exact ⟨hmode, hv⟩
  single := h.single
  fast hmode := (h.fast hmode).congr rfl

end Fair

end PaxosFamily

end KCensus.Slots

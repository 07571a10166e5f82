import KCensus.Slots.PaxosFamily.Ledger

namespace KCensus.Slots

open Lib (HashMap score score_insert)
open PaxosFamilyRoundState

variable {n : Nat} [NeZero n]

structure Ledger.Blank (me : Fin n) (L : Ledger n) : Prop where
  voted : ∀ r v, ¬ L.voted me r v
  promised : ∀ r rv, ¬ L.promised me r rv
  settled : ∀ v, ¬ L.settled me v

theorem PaxosFamily.Fair.blank {f : PaxosFamily n} {L : Ledger n} (h : ∀ q, L.Blank q) : f.Fair L where
  sound := ⟨fun _ _ q r v hv => absurd hv ((h q).voted r v), fun q r v hv => absurd hv ((h q).voted r v),
    fun q r v _ hv => absurd hv ((h q).voted r v), fun r v hv => absurd hv ((h _).voted r v)⟩
  member q r rv hp := absurd hp ((h q).promised r rv)
  promise q r rv hp := absurd hp ((h q).promised r rv)
  report q r _ _ hp := absurd hp ((h q).promised r _)
  settled p v hs := absurd hs ((h p).settled v)
  single _ := ⟨fun q r v hv => absurd hv ((h q).voted r v), fun q r rv => (h q).promised r rv⟩
  fast _ := ⟨fun q r rv hp => absurd hp ((h q).promised r rv),
    fun q r _ _ hp => absurd hp ((h q).promised r _),
    fun q r _ _ _ _ _ hp => absurd hp ((h q).promised r _),
    fun q r _ _ _ hp => absurd hp ((h q).promised r _)⟩

-- The fast answers of a round state, as the reports that they come from.
structure Answers (me : Fin n) (L : Ledger n) (r : PaxosFamilyRoundState n)
    (reported : Fin n → Fin n) : Prop where
  promised : ∀ q ∈ r.fastAnswerSet, ∃ v, L.promised q ⟨0, me⟩ (.fastV (reported q) v)
  count : r.fastAnswers = r.fastAnswerSet.card
  preaccepted : r.fastPreaccepted = (r.fastAnswerSet.filter fun q => reported q = me).card
  scores : ∀ x, r.epaxosProposerScores x = score r.fastAnswerSet reported x
  proposers : ∀ q ∈ r.fastAnswerSet, reported q ∈ r.fastProposerToV
  values : ∀ x v, r.fastProposerToV.lookup x = some v →
    ∃ q ∈ r.fastAnswerSet, reported q = x ∧ L.promised q ⟨0, me⟩ (.fastV x v)

structure FitsFast (f : PaxosFamily n) (me : Fin n) (L : Ledger n) (r : PaxosFamilyRoundState n) :
    Prop where
  said : ∀ b x v, L.promised me b (.fastV x v) →
    r.maxRv = some (.fastV x v) ∨ r.lastAcceptedRound ≠ ⊥
  valued : ∀ b rv, L.promised me b rv → r.maxRv ≠ none
  value : ∀ x v, r.maxRv = some (.fastV x v) → L.promised x ⟨0, x⟩ (.fastV x v)
  mine : ∀ b v, L.promised me b (.fastV me v) → me ∈ r.fastAnswerSet
  member : r.fastAnswerSet ⊆ f.cluster.topology.aliveReplicas
  answers : ∃ reported, Answers me L r reported

-- What the round state of `me` says of the slot.
structure Fits (f : PaxosFamily n) (me : Fin n) (L : Ledger n) (r : PaxosFamilyRoundState n) :
    Prop where
  voted : ∀ b v, L.voted me b v → b < r.lastAcceptedRound ∨ r.maxRv = some (.paxosV b v)
  entered : ∀ b, (f.ballots L).Entered me b → b ≤ r.round
  value : ∀ a v, r.maxRv = some (.paxosV (a : PaxosRound n) v) →
    a ≤ r.round ∧ (f.ballots L).Opened a v
  prepared : ∀ q ∈ r.prepared.members, q ∈ f.cluster.topology.aliveReplicas ∧
    (q = me ∨ ∃ (b : PaxosRound n) (rv : RoundV n), r.round = b ∧ L.promised q b rv ∧
      rv.getAcceptRound ≤ r.lastAcceptedRound)
  accepted : ∀ q ∈ r.accepted.members, q ∈ f.cluster.topology.aliveReplicas ∧
    ∃ (b : PaxosRound n) (v : Nat), r.round = b ∧ r.maxRv = some (.paxosV b v) ∧ L.voted q b v
  floor : f.mode.isMultiPaxos = true → r.round = f.startingRound
  unsettled : ∀ v, ¬ L.settled me v
  fast : f.mode = .ePaxos → FitsFast f me L r

variable {f : PaxosFamily n} {me src q : Fin n} {L L' : Ledger n} {r r' : PaxosFamilyRoundState n}
  {b : PaxosRound n} {v : Nat} {rv : RoundV n} {reported : Fin n → Fin n}

omit [NeZero n] in
theorem Tally.mem_note {pid : Fin n} {t : Tally n} : q ∈ (t.note pid).members ↔ q = pid ∨ q ∈ t.members := by
  rw [Tally.note]
  split
  · rename_i h
    exact ⟨Or.inr, fun hq => hq.elim (fun heq => heq ▸ h) id⟩
  · exact Finset.mem_insert

omit [NeZero n] in
theorem mem_tally {c : Cluster n} {t : Tally n} (hq : q ∈ (tally c me src t).members) :
    q = src ∨ q = me ∧ c.isReplica me = true ∨ q ∈ t.members := by
  simp only [tally] at hq
  split at hq
  · rename_i hme
    rcases Tally.mem_note.1 hq with heq | hq
    · exact Or.inr (Or.inl ⟨heq, hme⟩)
    · split at hq
      · exact (Tally.mem_note.1 hq).imp id Or.inr
      · exact Or.inr (Or.inr hq)
  · split at hq
    · exact (Tally.mem_note.1 hq).imp id Or.inr
    · exact Or.inr (Or.inr hq)

omit [NeZero n] in
theorem Answers.grows (h : Answers me L r reported) (hL : L.Grows L') : Answers me L' r reported where
  promised q hq := (h.promised q hq).imp fun _ => hL.promised _ _ _
  count := h.count
  preaccepted := h.preaccepted
  scores := h.scores
  proposers := h.proposers
  values x v hv := by
    obtain ⟨q, hq, hx, hp⟩ := h.values x v hv
    exact ⟨q, hq, hx, hL.promised _ _ _ hp⟩

structure SameAnswers (r r' : PaxosFamilyRoundState n) : Prop where
  answered : r'.fastAnswerSet = r.fastAnswerSet
  answers : r'.fastAnswers = r.fastAnswers
  preaccepted : r'.fastPreaccepted = r.fastPreaccepted
  proposers : r'.fastProposerToV = r.fastProposerToV
  scores : r'.epaxosProposerScores = r.epaxosProposerScores

omit [NeZero n] in
theorem Answers.same (h : Answers me L r reported) (hr : SameAnswers r r') :
    Answers me L r' reported := by
  obtain ⟨hpromised, hcount, hpre, hscores, hproposers, hvalues⟩ := h
  rw [← hr.answered] at hpromised hcount hpre hproposers hvalues
  rw [← hr.answered, ← hr.scores] at hscores
  rw [← hr.answers] at hcount
  rw [← hr.preaccepted] at hpre
  rw [← hr.proposers] at hproposers hvalues
  exact ⟨hpromised, hcount, hpre, hscores, hproposers, hvalues⟩

namespace FitsFast

omit [NeZero n] in
theorem grows (h : FitsFast f me L r) (hL : L.Grows L')
    (hmine : ∀ b rv, L'.promised me b rv → L.promised me b rv) : FitsFast f me L' r where
  said b x v hp := h.said b x v (hmine _ _ hp)
  valued b rv hp := h.valued b rv (hmine _ _ hp)
  value x v hv := hL.promised _ _ _ (h.value x v hv)
  mine b v hp := h.mine b v (hmine _ _ hp)
  member := h.member
  answers := h.answers.imp fun _ ha => ha.grows hL

omit [NeZero n] in
theorem revalue (h : FitsFast f me L r) (hr : SameAnswers r r')
    (hsaid : ∀ x v, r.maxRv = some (.fastV x v) →
      r'.maxRv = some (.fastV x v) ∨ r'.lastAcceptedRound ≠ ⊥)
    (hkept : r.lastAcceptedRound ≠ ⊥ → r'.lastAcceptedRound ≠ ⊥)
    (hvalued : r.maxRv ≠ none → r'.maxRv ≠ none)
    (hvalue : ∀ x v, r'.maxRv = some (.fastV x v) → L.promised x ⟨0, x⟩ (.fastV x v)) :
    FitsFast f me L r' where
  said b x v hp := (h.said b x v hp).elim (hsaid x v) fun hne => Or.inr (hkept hne)
  valued b rv hp := hvalued (h.valued b rv hp)
  value := hvalue
  mine b v hp := hr.answered ▸ h.mine b v hp
  member := hr.answered ▸ h.member
  answers := h.answers.imp fun _ ha => ha.same hr

end FitsFast

namespace Fits

theorem fresh (hblank : L.Blank me) (r : PaxosFamilyRoundState n) :
    Fits f me L (r.gotoRound f.startingRound).fullClear where
  voted b v hv := absurd hv (hblank.voted b v)
  entered b hb := by
    rcases hb with ⟨rv, hp⟩ | ⟨v, hv⟩
    · exact absurd hp (hblank.promised b rv)
    · exact absurd hv (hblank.voted b v)
  value a v hv := by cases hv
  prepared q hq := absurd hq (Finset.notMem_empty q)
  accepted q hq := absurd hq (Finset.notMem_empty q)
  floor _ := rfl
  unsettled := hblank.settled
  fast _ := {
    said := fun b x v hp => absurd hp (hblank.promised b _)
    valued := fun b rv hp => absurd hp (hblank.promised b rv)
    value := fun x v hv => by cases hv
    mine := fun b v hp => absurd hp (hblank.promised b _)
    member := Finset.empty_subset _
    answers := ⟨id, fun q hq => absurd hq (Finset.notMem_empty q), rfl, rfl, fun x => rfl,
      fun q hq => absurd hq (Finset.notMem_empty q), fun x v hv => by cases hv⟩ }

theorem grows (h : Fits f me L r) (hL : L.Grows L')
    (hvoted : ∀ b v, L'.voted me b v → L.voted me b v)
    (hpromised : ∀ b rv, L'.promised me b rv → L.promised me b rv)
    (hsettled : ∀ v, L'.settled me v → L.settled me v) : Fits f me L' r where
  voted b v hv := h.voted b v (hvoted b v hv)
  entered b hb := h.entered b (hb.imp (Exists.imp (hpromised b)) (Exists.imp (hvoted b)))
  value a v hv := ⟨(h.value a v hv).1, hL.voted _ _ _ (h.value a v hv).2⟩
  prepared q hq := by
    refine ⟨(h.prepared q hq).1, (h.prepared q hq).2.imp_right ?_⟩
    rintro ⟨b, rv, hround, hp, hle⟩
    exact ⟨b, rv, hround, hL.promised _ _ _ hp, hle⟩
  accepted q hq := by
    obtain ⟨halive, b, v, hround, hmax, hv⟩ := h.accepted q hq
    exact ⟨halive, b, v, hround, hmax, hL.voted _ _ _ hv⟩
  floor := h.floor
  unsettled v hs := h.unsettled v (hsettled v hs)
  fast hmode := (h.fast hmode).grows hL hpromised

theorem lastAccepted_le (h : Fits f me L r) : r.lastAcceptedRound ≤ r.round := by
  rw [lastAcceptedRound]
  split
  · rename_i rv hmax
    cases rv with
    | fastV x v => exact bot_le
    | paxosV a v =>
      cases a with
      | bot => exact bot_le
      | coe a => exact (h.value a v hmax).1
  · exact bot_le

theorem voted_le (h : Fits f me L r) (hv : L.voted me b v) : b ≤ r.lastAcceptedRound := by
  rcases h.voted b v hv with hlt | hmax
  · exact hlt.le
  · refine le_of_eq ?_
    rw [lastAcceptedRound, hmax]
    rfl

theorem closed (h : Fits f me L r) (b : PaxosRound n) :
    (f.ballots L).Closed me b r.lastAcceptedRound := fun _ _ hv => Or.inl (h.voted_le hv)

theorem unvoted (h : Fits f me L r) (hlast : r.lastAcceptedRound = ⊥) (b : PaxosRound n) (v : Nat) :
    ¬ L.voted me b v := by
  intro hv
  rcases h.voted b v hv with hlt | hmax
  · exact absurd (hlast ▸ hlt) not_lt_bot
  · rw [lastAcceptedRound, hmax] at hlast
    exact WithBot.coe_ne_bot hlast

omit [NeZero n] in
theorem last_of_none (hmax : r.maxRv = none) : r.lastAcceptedRound = ⊥ := by
  rw [lastAcceptedRound, hmax]

theorem enterRound (h : Fits f me L r) (hle : r.round ≤ b)
    (hmulti : f.mode.isMultiPaxos = true → f.startingRound = b) : Fits f me L (r.gotoRound b) where
  voted := h.voted
  entered b' hb := (h.entered b' hb).trans hle
  value a v hv := ⟨(h.value a v hv).1.trans hle, (h.value a v hv).2⟩
  prepared q hq := absurd hq (Finset.notMem_empty q)
  accepted q hq := absurd hq (Finset.notMem_empty q)
  floor hm := (hmulti hm).symm
  unsettled := h.unsettled
  fast hmode := (h.fast hmode).revalue ⟨rfl, rfl, rfl, rfl, rfl⟩ (fun _ _ => Or.inl) id id
    (h.fast hmode).value

theorem receivePromise (h : Fits f me L r) (hround : r.round = b)
    (hsrc : src ∈ f.cluster.topology.aliveReplicas) (hp : src = me ∨ L.promised src b rv)
    (hreport : ∀ a v, rv = .paxosV (a : PaxosRound n) v → a ≤ b ∧ (f.ballots L).Opened a v)
    (hown : f.mode = .ePaxos → ∀ x v, rv = .fastV x v → L.promised x ⟨0, x⟩ (.fastV x v)) :
    Fits f me L (r.receivePromise f.cluster me src rv) := by
  set r' := r.receivePromise f.cluster me src rv with hr'
  have hmax : r'.maxRv = r.maxRv ∨ r'.maxRv = some rv ∧
      (r.maxRv = none ∨ r.lastAcceptedRound < rv.getAcceptRound) := by
    simp only [hr', PaxosFamilyRoundState.receivePromise]
    split
    · exact Or.inr ⟨rfl, ‹_›⟩
    · exact Or.inl rfl
  have hnew : r'.maxRv = some rv → r'.lastAcceptedRound = rv.getAcceptRound := fun heq => by
    rw [lastAcceptedRound, heq]
  have hsame : r'.maxRv = r.maxRv → r'.lastAcceptedRound = r.lastAcceptedRound := fun heq => by
    rw [lastAcceptedRound, heq, lastAcceptedRound]
  have hle : r.lastAcceptedRound ≤ r'.lastAcceptedRound := by
    rcases hmax with heq | ⟨heq, hnone | hlt⟩
    · exact (hsame heq).ge
    · rw [last_of_none hnone]
      exact bot_le
    · exact (hnew heq).symm ▸ hlt.le
  have hreported : rv.getAcceptRound ≤ r'.lastAcceptedRound := by
    rcases hmax with heq | ⟨heq, -⟩
    · rw [hsame heq]
      by_contra hlt
      have htaken : r'.maxRv = some rv := by
        simp only [hr', PaxosFamilyRoundState.receivePromise]
        exact if_pos (Or.inr (not_le.1 hlt))
      rw [← hsame heq, hnew htaken] at hlt
      exact hlt le_rfl
    · exact (hnew heq).ge
  have haccept : rv.getAcceptRound ≤ b := by
    cases rv with
    | fastV x v => exact bot_le
    | paxosV a v =>
      cases a with
      | bot => exact bot_le
      | coe a => exact WithBot.coe_le_coe.2 (hreport a v rfl).1
  constructor
  · intro b' v hv
    rcases hmax with heq | ⟨heq, hnone | hlt⟩
    · rw [heq, hsame heq]
      exact h.voted b' v hv
    · exact absurd hv (h.unvoted (last_of_none hnone) b' v)
    · refine Or.inl ?_
      rw [hnew heq]
      exact (h.voted_le hv).trans_lt hlt
  · exact h.entered
  · intro a v hv
    rcases hmax with heq | ⟨heq, -⟩
    · exact h.value a v (heq ▸ hv)
    · obtain ⟨hle, hopened⟩ := hreport a v (Option.some.inj (heq ▸ hv))
      exact ⟨hround.symm ▸ WithBot.coe_le_coe.2 hle, hopened⟩
  · intro q hq
    rcases mem_tally hq with rfl | ⟨rfl, hme⟩ | hq
    · exact ⟨hsrc, hp.imp id fun hp => ⟨b, rv, hround, hp, hreported⟩⟩
    · exact ⟨of_decide_eq_true hme, Or.inl rfl⟩
    · refine ⟨(h.prepared q hq).1, (h.prepared q hq).2.imp_right ?_⟩
      rintro ⟨b', rv', hb', hp', hle'⟩
      exact ⟨b', rv', hb', hp', hle'.trans hle⟩
  · intro q hq
    obtain ⟨halive, b', v, hb', hv, hvoted⟩ := h.accepted q hq
    refine ⟨halive, b', v, hb', ?_, hvoted⟩
    rcases hmax with heq | ⟨heq, hnone | hlt⟩
    · exact heq.trans hv
    · cases hnone.symm.trans hv
    · have hlast : r.lastAcceptedRound = b := by
        rw [lastAcceptedRound, hv, ← hround, hb']
        rfl
      exact absurd (hlast ▸ hlt) (haccept.not_gt)
  · exact h.floor
  · exact h.unsettled
  · intro hmode
    refine (h.fast hmode).revalue ⟨rfl, rfl, rfl, rfl, rfl⟩ (fun x v hv => ?_) (fun hne => ?_)
      (fun hne => ?_) fun x v hv => ?_
    · rcases hmax with heq | ⟨heq, hnone | hlt⟩
      · exact Or.inl (heq.trans hv)
      · cases hnone.symm.trans hv
      · exact Or.inr ((hnew heq).symm ▸ (bot_le.trans_lt hlt).ne')
    · exact fun hbot => hne (le_bot_iff.1 (hbot ▸ hle))
    · rcases hmax with heq | ⟨heq, -⟩
      · exact heq.symm ▸ hne
      · exact heq ▸ Option.some_ne_none rv
    · rcases hmax with heq | ⟨heq, -⟩
      · exact (h.fast hmode).value x v (heq ▸ hv)
      · exact hown hmode x v (Option.some.inj (heq ▸ hv))

theorem receiveAccept (h : Fits f me L r) (hround : r.round = b)
    (hok : r.receiveAccept f.cluster me src b v = .ok r')
    (hsrc : src = me ∨ src ∈ f.cluster.topology.aliveReplicas ∧ L.voted src b v)
    (hme : me ∈ f.cluster.topology.aliveReplicas)
    (hopened : (f.ballots (L.vote me b v)).Opened b v) :
    Fits f me (L.vote me b v) r' ∧ r'.maxRv = some (.paxosV b v) ∧ r'.round = r.round := by
  simp only [PaxosFamilyRoundState.receiveAccept] at hok
  split at hok
  · rename_i hcond
    cases hok
    have hle : r.lastAcceptedRound ≤ b := by
      rcases hcond with hlt | hmax
      · exact hlt.le
      · rw [lastAcceptedRound, hmax]
        rfl
    refine ⟨⟨?_, ?_, ?_, ?_, ?_, h.floor, h.unsettled, ?_⟩, rfl, rfl⟩
    · rintro b' w (hv | ⟨-, rfl, rfl⟩)
      · rcases hcond with hlt | hmax
        · exact Or.inl ((h.voted_le hv).trans_lt hlt)
        · rcases h.voted b' w hv with hlt | hsame
          · exact Or.inl (hlt.trans_le hle)
          · exact Or.inr (hmax.symm.trans hsame)
      · exact Or.inr rfl
    · rintro b' (hp | ⟨w, hv | ⟨-, rfl, -⟩⟩)
      · exact h.entered b' (Or.inl hp)
      · exact h.entered b' (Or.inr ⟨w, hv⟩)
      · exact hround.ge
    · intro a w hv
      cases Option.some.inj hv
      exact ⟨hround.ge, hopened⟩
    · intro q hq
      refine ⟨(h.prepared q hq).1, (h.prepared q hq).2.imp_right ?_⟩
      rintro ⟨b', rv, hb', hp, hle'⟩
      exact ⟨b', rv, hb', hp, hle'.trans hle⟩
    · intro q hq
      rcases mem_tally hq with rfl | ⟨rfl, -⟩ | hq
      · rcases hsrc with rfl | ⟨halive, hv⟩
        · exact ⟨hme, b, v, hround, rfl, Or.inr ⟨rfl, rfl, rfl⟩⟩
        · exact ⟨halive, b, v, hround, rfl, Or.inl hv⟩
      · exact ⟨hme, b, v, hround, rfl, Or.inr ⟨rfl, rfl, rfl⟩⟩
      · obtain ⟨halive, b', w, hb', hmax, hv⟩ := h.accepted q hq
        obtain rfl : b = b' := WithBot.coe_injective (hround.symm.trans hb')
        refine ⟨halive, b, v, hround, rfl, Or.inl ?_⟩
        rcases hcond with hlt | hsame
        · rw [lastAcceptedRound, hmax] at hlt
          exact absurd hlt (lt_irrefl _)
        · cases hmax.symm.trans hsame
          exact hv
    · intro hmode
      have hlast : (b : WithBot (PaxosRound n)) ≠ ⊥ := WithBot.coe_ne_bot
      have hfast : FitsFast f me (L.vote me b v) r :=
        (h.fast hmode).grows (.vote me L) fun _ _ => id
      exact hfast.revalue ⟨rfl, rfl, rfl, rfl, rfl⟩ (fun _ _ _ => Or.inr hlast) (fun _ => hlast)
        (fun _ => Option.some_ne_none _) fun x w hv => by cases hv
  · cases hok

theorem promise (h : Fits f me L r) (hround : r.round = b) (hmax : r.maxRv = some rv) :
    Fits f me (L.promise me b rv) r where
  voted := h.voted
  entered := by
    rintro b' (⟨rv', hp | ⟨-, rfl, -⟩⟩ | hv)
    · exact h.entered b' (Or.inl ⟨rv', hp⟩)
    · exact hround.ge
    · exact h.entered b' (Or.inr hv)
  value := h.value
  prepared q hq := by
    refine ⟨(h.prepared q hq).1, (h.prepared q hq).2.imp_right ?_⟩
    rintro ⟨b', rv', hb', hp, hle⟩
    exact ⟨b', rv', hb', Or.inl hp, hle⟩
  accepted := h.accepted
  floor := h.floor
  unsettled := h.unsettled
  fast hmode := by
    have hfast := h.fast hmode
    refine ⟨?_, ?_, fun x v hv => Or.inl (hfast.value x v hv), ?_, hfast.member,
      hfast.answers.imp fun _ ha => ha.grows (.promise me L)⟩
    · rintro b' x v (hp | ⟨-, -, rfl⟩)
      · exact hfast.said b' x v hp
      · exact Or.inl hmax
    · rintro b' rv' (hp | ⟨-, -, -⟩)
      · exact hfast.valued b' rv' hp
      · exact hmax ▸ Option.some_ne_none rv
    · rintro b' v (hp | ⟨-, -, rfl⟩)
      · exact hfast.mine b' v hp
      · exact hfast.mine _ v (hfast.value me v hmax)

theorem mine (h : Fits f me L r) (hmode : f.mode = .ePaxos) (hL : L.FastFair) {b : PaxosRound n}
    (hleader : b.leader = me) (hp : L.promised q b rv) : b = ⟨0, me⟩ ∧ me ∈ r.fastAnswerSet := by
  subst hleader
  obtain ⟨hgroup, v, hv⟩ := hL.proposed q b rv hp
  refine ⟨?_, (h.fast hmode).mine b v hv⟩
  rw [← hgroup]

theorem fastFair (h : Fits f me L r) (hmode : f.mode = .ePaxos) (hL : L.FastFair)
    (hround : r.round = b) (hmax : r.maxRv = some rv) (hheard : ∃ q rv', L.promised q b rv') :
    (L.promise me b rv).FastFair := by
  have hfast := h.fast hmode
  have hlast : ∀ x v, rv = .fastV x v → r.lastAcceptedRound = ⊥ := by
    rintro x v rfl
    rw [lastAcceptedRound, hmax]
    rfl
  have hfixed : ∀ b' x v x' v', L.promised me b' (.fastV x v) → rv = .fastV x' v' →
      x = x' ∧ v = v' := by
    rintro b' x v x' v' hp rfl
    rcases hfast.said b' x v hp with hsame | hne
    · cases hmax.symm.trans hsame
      exact ⟨rfl, rfl⟩
    · exact absurd (hlast x' v' rfl) hne
  have hfirst : ∀ b' v, L.promised me b' (.fastV me v) → ⟨0, me⟩ ≤ b := fun b' v hp => by
    have hle := h.entered ⟨0, me⟩ (Or.inl ⟨_, hL.own _ _ _ _ hp⟩)
    exact WithBot.coe_le_coe.1 (hround ▸ hle)
  refine ⟨?_, ?_, ?_, ?_⟩
  · rintro q b' rv' (hp | ⟨-, rfl, -⟩)
    · obtain ⟨hgroup, v, hv⟩ := hL.proposed q b' rv' hp
      exact ⟨hgroup, v, Or.inl hv⟩
    · obtain ⟨q', rv₀, hp⟩ := hheard
      obtain ⟨hgroup, v, hv⟩ := hL.proposed q' b' rv₀ hp
      exact ⟨hgroup, v, Or.inl hv⟩
  · rintro q b' x v (hp | ⟨-, -, rfl⟩)
    · exact Or.inl (hL.own q b' x v hp)
    · exact Or.inl (hfast.value x v hmax)
  · rintro q b' x v b'' x' v' (hp | ⟨rfl, -, hrv⟩) (hp' | ⟨hq, -, hrv'⟩)
    · exact hL.fixed q b' x v b'' x' v' hp hp'
    · subst hq
      exact hfixed b' x v x' v' hp hrv'.symm
    · obtain ⟨hx, hv⟩ := hfixed b'' x' v' x v hp' hrv.symm
      exact ⟨hx.symm, hv.symm⟩
    · cases hrv.trans hrv'.symm
      exact ⟨rfl, rfl⟩
  · rintro q b' v b'' rv' (hp | ⟨rfl, -, hrv⟩) (hp' | ⟨hq, rfl, -⟩)
    · exact hL.first q b' v b'' rv' hp hp'
    · subst hq
      exact hfirst b' v hp
    · subst hrv
      exact hL.first q _ v b'' rv' (hfast.value q v hmax) hp'
    · subst hrv
      exact hfirst _ v (hfast.value q v hmax)

end Fits

omit [NeZero n] in
theorem Answers.insert (h : Answers me L r reported) (hnew : src ∉ r.fastAnswerSet) {x : Fin n}
    (hp : L.promised src ⟨0, me⟩ (.fastV x v)) (hok : r.epaxosAnswered me src x v = .ok r') :
    Answers me L r' (Function.update reported src x) := by
  simp only [epaxosAnswered] at hok
  rw [if_pos hnew] at hok
  cases hok
  have hold : ∀ q ∈ r.fastAnswerSet, Function.update reported src x q = reported q := fun q hq =>
    Function.update_of_ne (ne_of_mem_of_not_mem hq hnew) ..
  refine ⟨fun q hq => ?_, ?_, ?_, fun y => ?_, fun q hq => ?_, fun y w hw => ?_⟩
  · rcases Finset.mem_insert.1 hq with rfl | hq
    · exact ⟨v, by rwa [Function.update_self]⟩
    · rw [hold q hq]
      exact h.promised q hq
  · exact (congrArg (· + 1) h.count).trans (Finset.card_insert_of_notMem hnew).symm
  · have hsame : (r.fastAnswerSet.filter fun q => Function.update reported src x q = me) =
        r.fastAnswerSet.filter fun q => reported q = me :=
      Finset.filter_congr fun q hq => by rw [hold q hq]
    dsimp only
    rw [Finset.filter_insert, Function.update_self, hsame, h.preaccepted]
    split
    · rw [Finset.card_insert_of_notMem fun hmem => hnew (Finset.mem_filter.1 hmem).1]
    · rfl
  · dsimp only
    rw [score_insert hnew, Function.update_apply]
    split
    · rw [h.scores]
    · exact h.scores y
  · rcases Finset.mem_insert.1 hq with rfl | hq
    · rw [Function.update_self]
      exact (AList.mem_insert _).2 (Or.inl rfl)
    · rw [hold q hq]
      exact (AList.mem_insert _).2 (Or.inr (h.proposers q hq))
  · dsimp only at hw
    rcases eq_or_ne y x with rfl | hne
    · rw [AList.lookup_insert] at hw
      cases hw
      exact ⟨src, Finset.mem_insert_self _ _, Function.update_self .., hp⟩
    · rw [AList.lookup_insert_ne hne] at hw
      obtain ⟨q, hq, hy, hpq⟩ := h.values y w hw
      exact ⟨q, Finset.mem_insert_of_mem hq, (hold q hq).trans hy, hpq⟩

theorem Fits.epaxosAnswered (h : Fits f me L r) {x : Fin n} (hmode : f.mode = .ePaxos)
    (hok : r.epaxosAnswered me src x v = .ok r') (hsrc : src ∈ f.cluster.topology.aliveReplicas)
    (hp : L.promised src ⟨0, me⟩ (.fastV x v)) :
    Fits f me L r' ∧ src ∈ r'.fastAnswerSet ∧ r'.maxRv = r.maxRv ∧ r'.round = r.round ∧
      r'.prepared = r.prepared ∧ r'.accepted = r.accepted := by
  by_cases hnew : src ∉ r.fastAnswerSet
  · obtain ⟨reported, ha⟩ := (h.fast hmode).answers
    have ha' := ha.insert hnew hp hok
    have hfast := h.fast hmode
    simp only [PaxosFamilyRoundState.epaxosAnswered] at hok
    rw [if_pos hnew] at hok
    cases hok
    refine ⟨⟨h.voted, h.entered, h.value, h.prepared, h.accepted, h.floor, h.unsettled, fun _ => ?_⟩,
      Finset.mem_insert_self _ _, rfl, rfl, rfl, rfl⟩
    exact ⟨hfast.said, hfast.valued, hfast.value,
      fun b w hw => Finset.mem_insert_of_mem (hfast.mine b w hw),
      Finset.insert_subset hsrc hfast.member, _, ha'⟩
  · rw [not_not] at hnew
    simp only [PaxosFamilyRoundState.epaxosAnswered] at hok
    rw [if_neg (not_not.2 hnew)] at hok
    split at hok
    · cases hok
    · cases hok
      exact ⟨h, hnew, rfl, rfl, rfl, rfl⟩

omit [NeZero n] in
theorem lone_key {m : HashMap (Fin n) Nat} (h : m.entries.length = 1) {x y : Fin n} (hx : x ∈ m)
    (hy : y ∈ m) : x = y := by
  obtain ⟨entry, hentry⟩ := List.length_eq_one_iff.1 h
  have hkey : ∀ z, z ∈ m → z = entry.1 := fun z hz => by
    have hmem : z ∈ m.entries.map Sigma.fst := AList.mem_keys.1 hz
    rw [hentry] at hmem
    exact List.mem_singleton.1 hmem
  exact (hkey x hx).trans (hkey y hy).symm

omit [NeZero n] in
theorem best_of_considered {proposers : List (Fin n)} {best : Nat × Option Nat}
    (hv : (proposers.foldl (consider r) best).2 = some v) :
    (∀ y ∈ proposers, r.epaxosProposerScores y ≤ (proposers.foldl (consider r) best).1) ∧
      best.1 ≤ (proposers.foldl (consider r) best).1 ∧
      (proposers.foldl (consider r) best = best ∨ ∃ x ∈ proposers,
        r.fastProposerToV.lookup x = some v ∧
          r.epaxosProposerScores x = (proposers.foldl (consider r) best).1) := by
  induction proposers generalizing best with
  | nil => exact ⟨fun y hy => absurd hy List.not_mem_nil, le_rfl, Or.inl rfl⟩
  | cons z proposers ih =>
    rw [List.foldl_cons] at hv ⊢
    obtain ⟨hall, hle, hsome⟩ := ih hv
    set last := proposers.foldl (consider r) (consider r best z)
    have hz : r.epaxosProposerScores z ≤ last.1 ∧ best.1 ≤ last.1 := by
      rw [consider] at hle
      split at hle
      · exact ⟨hle, ‹best.1 < _›.le.trans hle⟩
      · exact ⟨(not_lt.1 ‹_›).trans hle, hle⟩
    refine ⟨fun y hy => ?_, hz.2, ?_⟩
    · rcases List.mem_cons.1 hy with rfl | hy
      · exact hz.1
      · exact hall y hy
    · rcases hsome with hsame | ⟨x, hx, hrest⟩
      · rw [consider] at hsame
        split at hsame
        · refine Or.inr ⟨z, List.mem_cons_self, ?_⟩
          rw [hsame] at hv ⊢
          exact ⟨hv, rfl⟩
        · exact Or.inl hsame
      · exact Or.inr ⟨x, List.mem_cons_of_mem _ hx, hrest⟩

namespace Fits

theorem vote_same (h : Fits f me L r) (hok : r.receiveAccept f.cluster me src b v = .ok r') {w : Nat}
    (hv : L.voted me b w) : w = v := by
  simp only [PaxosFamilyRoundState.receiveAccept] at hok
  split at hok
  · rename_i hcond
    rcases hcond with hlt | hmax
    · exact absurd (h.voted_le hv) hlt.not_ge
    · rcases h.voted b w hv with hlt | hsame
      · rw [lastAcceptedRound, hmax] at hlt
        exact absurd hlt (lt_irrefl _)
      · cases hmax.symm.trans hsame
        rfl
  · cases hok

theorem adopted (h : Fits f me L r) (hmode : f.mode = .ePaxos) (hL : L.FastFair)
    {order : HashOrder n} (hadopt : r.epaxosTryAdopt f.cluster order = some v)
    (hme : me ∈ r.fastAnswerSet) : f.Adopted L ⟨0, me⟩ v := by
  obtain ⟨reported, ha⟩ := (h.fast hmode).answers
  rw [epaxosTryAdopt] at hadopt
  split at hadopt
  · cases hadopt
  · rename_i hmajority
    split at hadopt
    · cases hadopt
    · have hmem : ∀ x, x ∈ order.processes r.fastProposerToV.keys ↔ x ∈ r.fastProposerToV := fun x =>
        (order.processes_perm _).mem_iff.trans AList.mem_keys
      obtain ⟨hall, -, hsome⟩ := best_of_considered hadopt
      rcases hsome with hsame | ⟨x, -, hx, hbest⟩
      · rw [hsame] at hadopt
        cases hadopt
      · obtain ⟨q, hq, hqx, hqv⟩ := ha.values x v hx
        refine ⟨r.fastAnswerSet, reported, x, (h.fast hmode).member, ?_, hme, ?_, ha.promised,
          ⟨q, hq, hqx, hqv⟩, fun q' hq' => ?_⟩
        · rw [← ha.count]
          exact not_lt.1 hmajority
        · obtain ⟨w, hw⟩ := ha.promised me hme
          obtain ⟨-, u, hu⟩ := hL.proposed _ _ _ hw
          exact (hL.fixed _ _ _ _ _ _ _ hw hu).1
        · rw [← ha.scores, ← ha.scores, hbest]
          exact hall _ ((hmem _).2 (ha.proposers q' hq'))

theorem preaccepted (h : Fits f me L r) (hmode : f.mode = .ePaxos) (hL : L.FastFair)
    (hround : r.round = (⟨0, me⟩ : PaxosRound n)) (hlast : r.lastAcceptedRound = ⊥)
    (hcommit : r.epaxosCanCommit f.cluster = true) {x : Fin n} (hsrc : src ∈ r.fastAnswerSet)
    (hp : L.promised src ⟨0, me⟩ (.fastV x v)) : f.Preaccepted L me v := by
  obtain ⟨reported, ha⟩ := (h.fast hmode).answers
  rw [epaxosCanCommit, Bool.and_eq_true, decide_eq_true_eq, decide_eq_true_eq, ha.preaccepted]
    at hcommit
  obtain ⟨hlone, hquorum⟩ := hcommit
  set A := r.fastAnswerSet.filter fun q => reported q = me
  have hmem : ∀ q ∈ A, q ∈ r.fastAnswerSet ∧ reported q = me := fun q hq => Finset.mem_filter.1 hq
  have hpos : 0 < A.card := by
    rw [ePaxosQuorum, Cluster.majority] at hquorum
    omega
  obtain ⟨q₀, hq₀⟩ := Finset.card_pos.1 hpos
  have hx : x = me := by
    obtain ⟨w, hw⟩ := ha.promised src hsrc
    rw [← (hL.fixed _ _ _ _ _ _ _ hw hp).1, ← (hmem q₀ hq₀).2]
    exact lone_key hlone (ha.proposers src hsrc) (ha.proposers q₀ (hmem q₀ hq₀).1)
  subst hx
  refine ⟨⟨A, fun q hq => (h.fast hmode).member (hmem q hq).1, hquorum, fun q hq => ?_⟩,
    h.unvoted hlast, fun b rv hb => ?_⟩
  · obtain ⟨w, hw⟩ := ha.promised q (hmem q hq).1
    rw [(hmem q hq).2] at hw
    obtain rfl := (hL.fixed _ _ _ _ _ _ _ (hL.own _ _ _ _ hw) (hL.own _ _ _ _ hp)).2
    exact hw
  · exact WithBot.coe_le_coe.1 (hround ▸ h.entered b (Or.inl ⟨rv, hb⟩))

theorem preaccepted_value (h : Fits f me L r) (hmode : f.mode = .ePaxos) (hL : L.FastFair)
    (hlast : r.lastAcceptedRound = ⊥) (hv : f.Preaccepted L me v) : r.getV = some v := by
  obtain ⟨⟨A, -, hquorum, hreports⟩, -⟩ := hv
  have hpos : 0 < A.card := by
    rw [ePaxosQuorum, Cluster.majority] at hquorum
    omega
  obtain ⟨q, hq⟩ := Finset.card_pos.1 hpos
  rcases (h.fast hmode).said _ _ _ (hL.own _ _ _ _ (hreports q hq)) with hmax | hne
  · rw [getV, hmax]
    rfl
  · exact absurd hlast hne

-- The round is opened with the value of the last round that the majority knows of.
theorem opens (h : Fits f me L r) (hL : f.Fair L) (hround : r.round = b)
    (hme : f.coordinator b = me) (hprepared : r.isPrepared f.cluster = true)
    (hmax : r.maxRv = some rv) (hfast : f.mode = .ePaxos → r.lastAcceptedRound ≠ ⊥) :
    ((f.ballots L).vote me b rv.getV).Opened b rv.getV ∧
      ((f.ballots L).vote me b rv.getV).Picked (fun r v => f.mode = .ePaxos → f.Adopted L r v) b
        rv.getV := by
  have hlast : ∀ b', (f.ballots L).Entered me b' → b' ≤ b := fun b' hb' =>
    WithBot.coe_le_coe.1 (hround ▸ h.entered b' hb')
  have hvalue : ∀ a : PaxosRound n, r.lastAcceptedRound = a → (f.ballots L).Opened a rv.getV := by
    intro a ha
    rw [lastAcceptedRound, hmax] at ha
    cases rv with
    | fastV x v => cases ha
    | paxosV a' v =>
      have ha' : a' = a := ha
      exact (h.value a v (ha' ▸ hmax)).2
  rcases (hround ▸ h.lastAccepted_le).eq_or_lt with heq | hlt
  · exact hL.sound.opens_again hlast (hvalue b heq)
  · refine ⟨Or.inr ⟨hme, rfl, rfl⟩, Or.inr ⟨_, r.prepared.members, hlt, ⟨fun q hq => (h.prepared q hq).1, ?_⟩,
      fun q hq => ?_, fun a ha => (hvalue a ha).vote, fun hbot hmode => absurd hbot (hfast hmode)⟩⟩
    · rw [← r.prepared.count_eq]
      exact of_decide_eq_true hprepared
    · rcases (h.prepared q hq).2 with rfl | ⟨b', rv', hb', hp, hle⟩
      · exact ⟨Or.inr ⟨_, Or.inr ⟨rfl, rfl, rfl⟩⟩, (h.closed b).vote fun _ => le_rfl⟩
      · obtain rfl : b = b' := WithBot.coe_injective (hround.symm.trans hb')
        exact ⟨Or.inl ⟨rv', hp⟩, ((hL.promise q b rv' hp).mono hle).vote fun _ => le_rfl⟩

end Fits

-- The round is opened with the value that most of the reports point to.
theorem PaxosFamily.Fair.opens_adopted (hL : f.Fair L) (hmode : f.mode = .ePaxos)
    (hadopted : f.Adopted L ⟨0, me⟩ v) :
    ((f.ballots L).vote me ⟨0, me⟩ v).Opened ⟨0, me⟩ v ∧
      ((f.ballots L).vote me ⟨0, me⟩ v).Picked (fun r v => f.mode = .ePaxos → f.Adopted L r v)
        ⟨0, me⟩ v := by
  have hpicked : ∀ q, (∃ w x, L.promised q ⟨0, me⟩ (.fastV x w)) →
      ((f.ballots L).vote me ⟨0, me⟩ v).Entered q ⟨0, me⟩ ∧
        ((f.ballots L).vote me ⟨0, me⟩ v).Closed q ⟨0, me⟩ ⊥ := by
    rintro q ⟨w, x, hp⟩
    exact ⟨Or.inl ⟨_, hp⟩, (hL.promise q _ _ hp).vote fun _ => le_rfl⟩
  have hcoordinator : f.coordinator ⟨0, me⟩ = me := PaxosFamily.coordinator_of_ePaxos hmode
  obtain ⟨B, reported, x, hB, hmajority, -, -, hall, -⟩ := id hadopted
  refine ⟨Or.inr ⟨hcoordinator, rfl, rfl⟩, Or.inr ⟨⊥, B, WithBot.bot_lt_coe _, ⟨hB, hmajority⟩,
    fun q hq => hpicked q ?_, fun a ha => (by cases ha), fun _ _ => hadopted⟩⟩
  obtain ⟨w, hw⟩ := hall q hq
  exact ⟨w, _, hw⟩

theorem Fits.proposal (h : Fits f me L r) (hmode : f.mode = .ePaxos) (hL : L.FastFair)
    (hround : r.round = ⊥) (hmax : r.maxRv = none) (hme : me ∈ f.cluster.topology.aliveReplicas)
    (hok : (r.gotoRound (⟨0, me⟩ : PaxosRound n)).epaxosAnswered me me me v = .ok r') :
    Fits f me (L.promise me ⟨0, me⟩ (.fastV me v)) (r'.paxosProposeV f.cluster me (.fastV me v)) ∧
      (L.promise me ⟨0, me⟩ (.fastV me v)).FastFair := by
  have hentered : ∀ b, ¬ (f.ballots L).Entered me b := fun b hb =>
    absurd (hround ▸ h.entered b hb) (WithBot.bot_lt_coe b).not_ge
  have hpromised : ∀ b rv, ¬ L.promised me b rv := fun b rv hp => hentered b (Or.inl ⟨rv, hp⟩)
  have hvoted : ∀ b w, ¬ L.voted me b w := fun b w hv => hentered b (Or.inr ⟨w, hv⟩)
  obtain ⟨reported, ha⟩ := (h.fast hmode).answers
  have hempty : r.fastAnswerSet = ∅ := by
    refine Finset.eq_empty_of_forall_notMem fun q hq => ?_
    obtain ⟨w, hw⟩ := ha.promised q hq
    obtain ⟨-, u, hu⟩ := hL.proposed _ _ _ hw
    exact hpromised _ _ hu
  have hnew : me ∉ (r.gotoRound (⟨0, me⟩ : PaxosRound n)).fastAnswerSet := fun hmem => by
    rw [show (r.gotoRound (⟨0, me⟩ : PaxosRound n)).fastAnswerSet = ∅ from hempty] at hmem
    exact Finset.notMem_empty me hmem
  have hstart : Answers me (L.promise me ⟨0, me⟩ (.fastV me v))
      (r.gotoRound (⟨0, me⟩ : PaxosRound n)) reported :=
    (ha.grows (.promise me L)).same ⟨rfl, rfl, rfl, rfl, rfl⟩
  have hanswers := hstart.insert hnew (Or.inr ⟨rfl, rfl, rfl⟩) hok
  simp only [PaxosFamilyRoundState.epaxosAnswered] at hok
  rw [if_pos hnew] at hok
  cases hok
  have hvalue : ∀ {w}, (if r.maxRv = none ∨ (r.gotoRound (⟨0, me⟩ : PaxosRound n)).lastAcceptedRound <
      (RoundV.fastV me v).getAcceptRound then some (RoundV.fastV me v) else r.maxRv) = some w →
      w = .fastV me v := fun hw => by
    rw [if_pos (Or.inl hmax)] at hw
    exact (Option.some.inj hw).symm
  refine ⟨⟨fun b w hv => absurd hv (hvoted b w), ?_, fun a w hw => (by cases hvalue hw),
    fun q hq => ?_, fun q hq => absurd hq (Finset.notMem_empty q), fun hmulti => ?_, h.unsettled,
    fun _ => ⟨?_, ?_, ?_, fun b w _ => Finset.mem_insert_self _ _, ?_,
      _, hanswers.same ⟨rfl, rfl, rfl, rfl, rfl⟩⟩⟩, ?_, ?_, ?_, ?_⟩
  · rintro b (⟨rv, hp | ⟨-, rfl, -⟩⟩ | ⟨w, hv⟩)
    · exact absurd hp (hpromised b rv)
    · exact le_rfl
    · exact absurd hv (hvoted b w)
  · rcases mem_tally hq with rfl | ⟨rfl, -⟩ | hq
    · exact ⟨hme, Or.inl rfl⟩
    · exact ⟨hme, Or.inl rfl⟩
    · exact absurd hq (Finset.notMem_empty q)
  · rw [hmode] at hmulti
    cases hmulti
  · rintro b x w (hp | ⟨-, -, hw⟩)
    · exact absurd hp (hpromised b _)
    · exact Or.inl ((if_pos (Or.inl hmax)).trans (congrArg some hw.symm))
  · intro b rv _ hnone
    exact Option.some_ne_none _ ((if_pos (Or.inl hmax)).symm.trans hnone)
  · intro x w hw
    cases hvalue hw
    exact Or.inr ⟨rfl, rfl, rfl⟩
  · exact Finset.insert_subset hme (h.fast hmode).member
  · rintro q b rv (hp | ⟨rfl, rfl, -⟩)
    · obtain ⟨hgroup, w, hw⟩ := hL.proposed q b rv hp
      exact ⟨hgroup, w, Or.inl hw⟩
    · exact ⟨rfl, v, Or.inr ⟨rfl, rfl, rfl⟩⟩
  · rintro q b x w (hp | ⟨rfl, rfl, heq⟩)
    · exact Or.inl (hL.own q b x w hp)
    · cases heq
      exact Or.inr ⟨rfl, rfl, rfl⟩
  · rintro q b x w b' x' w' (hp | ⟨rfl, -, heq⟩) (hp' | ⟨hq, -, heq'⟩)
    · exact hL.fixed q b x w b' x' w' hp hp'
    · exact absurd (hq ▸ hp) (hpromised b _)
    · exact absurd hp' (hpromised b' _)
    · cases heq
      cases heq'
      exact ⟨rfl, rfl⟩
  · rintro q b w b' rv (hp | ⟨rfl, -, -⟩) (hp' | ⟨hq, rfl, -⟩)
    · exact hL.first q b w b' rv hp hp'
    · exact absurd (hq ▸ hp) (hpromised b _)
    · exact absurd hp' (hpromised b' _)
    · exact le_rfl

end KCensus.Slots

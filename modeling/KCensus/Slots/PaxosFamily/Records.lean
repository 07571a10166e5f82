import KCensus.Slots.PaxosFamily.Fits
import KCensus.Slots.Upkeep

namespace KCensus.Slots

open Lib.Turn (Meets Along)
open Turn Conduct

variable {n : Nat}

namespace Event

def Prepares (slot : Nat) (r : PaxosRound n) (rv : RoundV n) (e : Event n) : Prop :=
  ∃ m, e.carried = some m ∧ m.msg = .paxosM (.prepare slot r rv)

-- The ledger of the slot takes no note of it.
structure Apart (slot : Nat) (e : Event n) : Prop where
  voted : ∀ r v, e ≠ .voted slot r v
  promised : ∀ r rv, ¬ e.Prepares slot r rv
  settled : ∀ v, e ≠ .decided slot v true

namespace Apart

variable {slot slot' v : Nat} {e : Event n} {m : ConsensusMessage n}

theorem committed : Apart slot (.committed slot' v : Event n) := by
  refine ⟨fun r w heq => (by cases heq), ?_, fun w heq => (by cases heq)⟩
  rintro r rv ⟨m, hm, -⟩
  cases hm

theorem decided : Apart slot (.decided slot' v false : Event n) := by
  refine ⟨fun r w heq => (by cases heq), ?_, fun w heq => (by cases heq)⟩
  rintro r rv ⟨m, hm, -⟩
  cases hm

theorem decidedFast (hne : slot ≠ slot') : Apart slot (.decided slot' v true : Event n) := by
  refine ⟨fun r w heq => (by cases heq), ?_, fun w heq => ?_⟩
  · rintro r rv ⟨m, hm, -⟩
    cases hm
  · cases heq
    exact hne rfl

theorem of_carried (he : e.carried = some m) (hm : ∀ r rv, m.msg ≠ .paxosM (.prepare slot r rv)) :
    e.Apart slot := by
  refine ⟨fun r w heq => ?_, ?_, fun w heq => ?_⟩
  · subst heq
    cases he
  · rintro r rv ⟨m', hm', hmsg⟩
    cases he.symm.trans hm'
    exact hm r rv hmsg
  · subst heq
    cases he

end Apart

end Event

def ledger (hist : List (Fin n × Event n)) (slot : Nat) : Ledger n where
  voted q r v := (q, .voted slot r v) ∈ hist
  promised q r rv := ∃ e, (q, e) ∈ hist ∧ e.Prepares slot r rv
  settled q v := (q, .decided slot v true) ∈ hist

section histories

variable {hist hist' : List (Fin n × Event n)} {me : Fin n} {e : Event n} {slot : Nat}

theorem ledger_mono (hsub : hist ⊆ hist') : (ledger hist slot).Grows (ledger hist' slot) :=
  ⟨fun _ _ _ hv => hsub hv, fun _ _ _ hp => hp.imp fun _ he => ⟨hsub he.1, he.2⟩, fun _ _ hs => hsub hs⟩

theorem mem_snoc {q : Fin n} {e' : Event n} :
    (q, e') ∈ hist ++ [(me, e)] ↔ (q, e') ∈ hist ∨ q = me ∧ e' = e := by
  rw [List.mem_append, List.mem_singleton, Prod.mk.injEq]

theorem Ledger.eq_of_iff {L L' : Ledger n} (hvoted : ∀ q r v, L.voted q r v ↔ L'.voted q r v)
    (hpromised : ∀ q r rv, L.promised q r rv ↔ L'.promised q r rv)
    (hsettled : ∀ q v, L.settled q v ↔ L'.settled q v) : L = L' := by
  obtain ⟨voted, promised, settled⟩ := L
  obtain ⟨voted', promised', settled'⟩ := L'
  obtain rfl : voted = voted' := funext fun q => funext fun r => funext fun v =>
    propext (hvoted q r v)
  obtain rfl : promised = promised' := funext fun q => funext fun r => funext fun rv =>
    propext (hpromised q r rv)
  obtain rfl : settled = settled' := funext fun q => funext fun v => propext (hsettled q v)
  rfl

theorem ledger_congr (hmem : ∀ x, x ∈ hist' ↔ x ∈ hist) : ledger hist' slot = ledger hist slot :=
  Ledger.eq_of_iff (fun _ _ _ => hmem _)
    (fun _ _ _ => exists_congr fun _ => and_congr_left fun _ => hmem _) fun _ _ => hmem _

theorem promised_snoc {q : Fin n} {r : PaxosRound n} {rv : RoundV n} :
    (ledger (hist ++ [(me, e)]) slot).promised q r rv ↔
      (ledger hist slot).promised q r rv ∨ q = me ∧ e.Prepares slot r rv := by
  constructor
  · rintro ⟨e', he', hp⟩
    rcases mem_snoc.1 he' with hold | ⟨rfl, rfl⟩
    · exact Or.inl ⟨e', hold, hp⟩
    · exact Or.inr ⟨rfl, hp⟩
  · rintro (⟨e', he', hp⟩ | ⟨rfl, hp⟩)
    · exact ⟨e', mem_snoc.2 (Or.inl he'), hp⟩
    · exact ⟨e, mem_snoc.2 (Or.inr ⟨rfl, rfl⟩), hp⟩

theorem ledger_apart (he : e.Apart slot) : ledger (hist ++ [(me, e)]) slot = ledger hist slot := by
  refine Ledger.eq_of_iff (fun q r v => ?_) (fun q r rv => ?_) fun q v => ?_
  · refine mem_snoc.trans (or_iff_left ?_)
    rintro ⟨-, heq⟩
    exact he.voted r v heq.symm
  · refine promised_snoc.trans (or_iff_left ?_)
    rintro ⟨-, hp⟩
    exact he.promised r rv hp
  · refine mem_snoc.trans (or_iff_left ?_)
    rintro ⟨-, heq⟩
    exact he.settled v heq.symm

theorem ledger_vote {r : PaxosRound n} {v : Nat} :
    ledger (hist ++ [(me, .voted slot r v)]) slot = (ledger hist slot).vote me r v := by
  refine Ledger.eq_of_iff (fun q r' v' => ?_) (fun q r' rv => ?_) fun q v' => ?_
  · refine mem_snoc.trans (or_congr_right (and_congr_right fun _ => ?_))
    rw [Event.voted.injEq]
    exact and_iff_right rfl
  · refine promised_snoc.trans (or_iff_left ?_)
    rintro ⟨-, m, hm, -⟩
    cases hm
  · refine mem_snoc.trans (or_iff_left ?_)
    rintro ⟨-, heq⟩
    cases heq

theorem ledger_promise {r : PaxosRound n} {rv : RoundV n} (he : e.Prepares slot r rv) :
    ledger (hist ++ [(me, e)]) slot = (ledger hist slot).promise me r rv := by
  obtain ⟨m, hm, hmsg⟩ := he
  refine Ledger.eq_of_iff (fun q r' v' => ?_) (fun q r' rv' => ?_) fun q v' => ?_
  · refine mem_snoc.trans (or_iff_left ?_)
    rintro ⟨-, rfl⟩
    cases hm
  · refine promised_snoc.trans (or_congr_right (and_congr_right fun _ => ⟨?_, ?_⟩))
    · rintro ⟨m', hm', hmsg'⟩
      cases hm.symm.trans hm'
      cases hmsg.symm.trans hmsg'
      exact ⟨rfl, rfl⟩
    · rintro ⟨rfl, rfl⟩
      exact ⟨m, hm, hmsg⟩
  · refine mem_snoc.trans (or_iff_left ?_)
    rintro ⟨-, rfl⟩
    cases hm

theorem ledger_settle {v : Nat} :
    ledger (hist ++ [(me, .decided slot v true)]) slot = (ledger hist slot).settle me v := by
  refine Ledger.eq_of_iff (fun q r' v' => ?_) (fun q r' rv => ?_) fun q v' => ?_
  · refine mem_snoc.trans (or_iff_left ?_)
    rintro ⟨-, heq⟩
    cases heq
  · refine promised_snoc.trans (or_iff_left ?_)
    rintro ⟨-, m, hm, -⟩
    cases hm
  · refine mem_snoc.trans (or_congr_right (and_congr_right fun _ => ?_))
    rw [Event.decided.injEq]
    exact ⟨fun h => h.2.1, fun h => ⟨rfl, h, rfl⟩⟩

end histories

namespace PaxosFamily

variable [NeZero n] (f : PaxosFamily n)

-- What has to be so before a message is sent.
def Vouched (hist : List (Fin n × Event n)) (m : ConsensusMessage n) : Prop :=
  match m.msg with
  | .paxosM (.prepare slot r rv) => (ledger hist slot).promised m.src r rv
  | .paxosM (.accept slot r v) => (ledger hist slot).voted m.src r v
  | .commit slot v => f.Ratified (ledger hist slot) v
  | _ => True

structure Recorded (hist : List (Fin n × Event n)) : Prop where
  fair : ∀ slot, f.Fair (ledger hist slot)
  vouched : ∀ q e m, (q, e) ∈ hist → e.carried = some m → m.src = q ∧ f.Vouched hist m
  committed : ∀ q slot v, (q, .committed slot v) ∈ hist → f.Ratified (ledger hist slot) v

variable {f} {hist hist' : List (Fin n × Event n)} {me : Fin n} {e : Event n} {m : ConsensusMessage n}

theorem Vouched.mono (h : f.Vouched hist m) (hL : ∀ slot, (ledger hist slot).Grows (ledger hist' slot)) :
    f.Vouched hist' m := by
  rw [Vouched] at h ⊢
  split
  · rename_i heq
    rw [heq] at h
    exact (hL _).promised _ _ _ h
  · rename_i heq
    rw [heq] at h
    exact (hL _).voted _ _ _ h
  · rename_i heq
    rw [heq] at h
    exact Ratified.mono h (hL _)
  · trivial

theorem Recorded.nil : f.Recorded [] := by
  have hblank : ∀ slot q, (ledger ([] : List (Fin n × Event n)) slot).Blank q := fun slot q =>
    ⟨fun r v hv => absurd hv List.not_mem_nil, by
      rintro r rv ⟨e, he, -⟩
      exact absurd he List.not_mem_nil, fun v hs => absurd hs List.not_mem_nil⟩
  exact ⟨fun slot => .blank (hblank slot), fun q e m he => absurd he List.not_mem_nil,
    fun q slot v hv => absurd hv List.not_mem_nil⟩

theorem Recorded.snoc (h : f.Recorded hist)
    (hfair : ∀ slot, f.Fair (ledger (hist ++ [(me, e)]) slot))
    (hvouched : ∀ m, e.carried = some m → m.src = me ∧ f.Vouched (hist ++ [(me, e)]) m)
    (hcommitted : ∀ slot v, e = .committed slot v → f.Ratified (ledger hist slot) v) :
    f.Recorded (hist ++ [(me, e)]) := by
  have hL : ∀ slot, (ledger hist slot).Grows (ledger (hist ++ [(me, e)]) slot) := fun slot =>
    ledger_mono (List.subset_append_left _ _)
  refine ⟨hfair, fun q e' m he' hm => ?_, fun q slot v hv => ?_⟩
  · rcases mem_snoc.1 he' with hold | ⟨rfl, rfl⟩
    · exact ⟨(h.vouched q e' m hold hm).1, (h.vouched q e' m hold hm).2.mono hL⟩
    · exact hvouched m hm
  · rcases mem_snoc.1 hv with hold | ⟨-, heq⟩
    · exact (h.committed q slot v hold).mono (hL slot)
    · exact (hcommitted slot v heq.symm).mono (hL slot)

theorem Recorded.congr (h : f.Recorded hist) (hmem : ∀ x, x ∈ hist' ↔ x ∈ hist) :
    f.Recorded hist' where
  fair slot := (ledger_congr hmem : ledger hist' slot = ledger hist slot) ▸ h.fair slot
  vouched q e m he hm := by
    obtain ⟨hsrc, hv⟩ := h.vouched q e m ((hmem _).1 he) hm
    exact ⟨hsrc, hv.mono fun slot => ledger_mono fun x hx => (hmem x).2 hx⟩
  committed q slot v hv := (ledger_congr hmem : ledger hist' slot = ledger hist slot) ▸
    h.committed q slot v ((hmem _).1 hv)

theorem Recorded.apart (h : f.Recorded hist) (he : ∀ slot, e.Apart slot)
    (hvouched : ∀ m, e.carried = some m → m.src = me ∧ f.Vouched hist m)
    (hcommitted : ∀ slot v, e = .committed slot v → f.Ratified (ledger hist slot) v) :
    f.Recorded (hist ++ [(me, e)]) := by
  refine h.snoc (fun slot => ?_) (fun m hm => ?_) hcommitted
  · rw [ledger_apart (he slot)]
    exact h.fair slot
  · exact ⟨(hvouched m hm).1, (hvouched m hm).2.mono fun slot => ledger_mono (List.subset_append_left _ _)⟩

omit [NeZero n] in
theorem idle_apart (he : e.Idle me) (slot : Nat) : e.Apart slot := by
  refine ⟨fun r v heq => ?_, ?_, fun v heq => ?_⟩
  · subst heq
    exact he
  · rintro r rv ⟨m, hm, hmsg⟩
    cases e with
    | broadcast packet priority =>
      cases hm
      obtain ⟨-, id, hid⟩ := he
      cases hid.symm.trans hmsg
    | send packet dest =>
      cases hm
      obtain ⟨-, id, slot', hid⟩ := he
      cases hid.symm.trans hmsg
    | _ => cases hm
  · subst heq
    exact he

theorem idle_vouched (he : e.Idle me) (hm : e.carried = some m) : m.src = me ∧ f.Vouched hist m := by
  cases e with
  | broadcast packet priority =>
    cases hm
    obtain ⟨hsrc, id, hid⟩ := he
    rw [Vouched, hid]
    exact ⟨hsrc, trivial⟩
  | send packet dest =>
    cases hm
    obtain ⟨hsrc, id, slot, hid⟩ := he
    rw [Vouched, hid]
    exact ⟨hsrc, trivial⟩
  | _ => cases hm

theorem Recorded.idle (h : f.Recorded hist) {said : List (Event n)} (hsaid : ∀ e ∈ said, e.Idle me) :
    f.Recorded (hist ++ said.map (Prod.mk me)) ∧
      ∀ slot, ledger (hist ++ said.map (Prod.mk me)) slot = ledger hist slot := by
  induction said generalizing hist with
  | nil => exact ⟨by rwa [List.map_nil, List.append_nil], fun slot => by rw [List.map_nil, List.append_nil]⟩
  | cons e said ih =>
    have he := hsaid e List.mem_cons_self
    have hone := h.apart (idle_apart he) (fun m hm => idle_vouched he hm) fun slot v heq => by
      subst heq
      exact he.elim
    obtain ⟨hall, hsame⟩ := ih hone fun e' he' => hsaid e' (List.mem_cons_of_mem _ he')
    have hcat : hist ++ (e :: said).map (Prod.mk me) = hist ++ [(me, e)] ++ said.map (Prod.mk me) := by
      rw [List.append_assoc]
      rfl
    rw [hcat]
    exact ⟨hall, fun slot => (hsame slot).trans (ledger_apart (idle_apart he slot))⟩

end PaxosFamily

end KCensus.Slots

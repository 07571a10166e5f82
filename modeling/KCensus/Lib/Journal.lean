import Mathlib.Data.List.Basic

namespace KCensus.Lib

variable {π ε β γ : Type} [DecidableEq π]

-- What `g` reads off the entries of `p` in the common history, in order.
def journal (g : ε → Option β) (p : π) (hist : List (π × ε)) : List β :=
  hist.filterMap fun x => if x.1 = p then g x.2 else none

variable {g : ε → Option β} {p q : π} {hist : List (π × ε)} {e : ε} {b : β}

theorem mem_journal : b ∈ journal g p hist ↔ ∃ e, (p, e) ∈ hist ∧ g e = some b := by
  rw [journal, List.mem_filterMap]
  constructor
  · rintro ⟨⟨q, e⟩, he, hb⟩
    split at hb
    · rename_i hq
      exact ⟨e, hq ▸ he, hb⟩
    · cases hb
  · rintro ⟨e, he, hb⟩
    exact ⟨(p, e), he, by rw [if_pos rfl, hb]⟩

theorem journal_append {hist' : List (π × ε)} :
    journal g p (hist ++ hist') = journal g p hist ++ journal g p hist' := List.filterMap_append

theorem journal_own {said : List ε} : journal g p (said.map (Prod.mk p)) = said.filterMap g := by
  rw [journal, List.filterMap_map]
  refine List.filterMap_congr fun e _ => ?_
  exact if_pos rfl

theorem journal_other (hne : q ≠ p) {said : List ε} : journal g p (said.map (Prod.mk q)) = [] := by
  rw [journal, List.filterMap_map]
  exact List.filterMap_eq_nil_iff.2 fun _ _ => if_neg hne

theorem journal_silent {said : List ε} (h : ∀ e ∈ said, g e = none) :
    journal g p (hist ++ said.map (Prod.mk p)) = journal g p hist := by
  rw [journal_append, journal_own, List.filterMap_eq_nil_iff.2 h, List.append_nil]

theorem journal_elsewhere (hne : q ≠ p) {said : List ε} :
    journal g p (hist ++ said.map (Prod.mk q)) = journal g p hist := by
  rw [journal_append, journal_other hne, List.append_nil]

theorem journal_snoc : journal g p (hist ++ [(p, e)]) = journal g p hist ++ (g e).toList := by
  have hone : journal g p ([e].map (Prod.mk p)) = [e].filterMap g := journal_own
  rw [journal_append]
  refine congrArg (journal g p hist ++ ·) (hone.trans ?_)
  rw [List.filterMap_cons, List.filterMap_nil]
  cases g e with
  | none => rfl
  | some b => rfl

theorem journal_snoc_other (hne : q ≠ p) : journal g p (hist ++ [(q, e)]) = journal g p hist := by
  have hone : journal g p ([e].map (Prod.mk q)) = [] := journal_other hne
  rw [journal_append]
  exact (congrArg (journal g p hist ++ ·) hone).trans (List.append_nil _)

theorem journal_map (f : β → γ) :
    journal (fun e => (g e).map f) p hist = (journal g p hist).map f := by
  rw [journal, journal, List.map_filterMap]
  refine List.filterMap_congr fun x _ => ?_
  split
  · rfl
  · rfl

theorem journal_count_le [DecidableEq β] {g' : ε → Option β}
    (h : ∀ e, (p, e) ∈ hist → g e = some b → g' e = some b) :
    (journal g p hist).count b ≤ (journal g' p hist).count b := by
  rw [journal, journal, List.count_filterMap, List.count_filterMap]
  refine List.countP_mono_left fun x hx hb => ?_
  obtain ⟨q, e⟩ := x
  rw [beq_iff_eq] at hb ⊢
  split at hb
  · rename_i hq
    rw [if_pos hq]
    exact h e (hq ▸ hx) hb
  · cases hb

end KCensus.Lib

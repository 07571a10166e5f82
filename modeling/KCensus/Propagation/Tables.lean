import KCensus.Propagation.Search
import KCensus.Lib.LevelChoice
import Mathlib.Data.List.Range

namespace KCensus.Propagation

open Lib (LevelChoice)

variable {n : Nat}

namespace LevelSearchData

variable {data : LevelSearchData n} {c : LevelChoice (Fin n)}

-- What the levels of `data` look up is what the abstract choice `c` says.
structure Realises (data : LevelSearchData n) (c : LevelChoice (Fin n)) : Prop where
  length : ∀ pid, (data.levelsOf pid).length = c.len pid
  level : ∀ {pid level}, level < c.len pid →
    ∃ kl, data.knowledgeLevel pid level = .ok kl ∧ kl.time = c.cost pid level
  compatible : ∀ {a la b lb}, la < c.len a → lb < c.len b →
    ∃ answer, data.areCompatible a la b lb = .ok answer ∧ (answer = true ↔ c.compat a la b lb)

theorem raiseLevel_ok (hr : data.Realises c) {a b : Fin n} {top : Nat} (hb : 0 < c.len b)
    (htop : top < c.len a) (hc : c.compat a top b 0) (left level : Nat)
    (hleft : level + left = c.len a) (hle : level ≤ top) :
    ∃ found, data.raiseLevel a b left level = .ok found ∧ level ≤ found ∧ found < c.len a ∧
      c.compat a found b 0 := by
  induction left generalizing level with
  | zero => omega
  | succ left ih =>
      obtain ⟨answer, hans, hiff⟩ := hr.compatible (show level < c.len a by omega) hb
      cases answer with
      | true =>
          refine ⟨level, ?_, le_rfl, by omega, hiff.mp rfl⟩
          simp only [raiseLevel, hans]
          rfl
      | false =>
          have hne : level ≠ top := by
            rintro rfl
            exact absurd (hiff.mpr hc) Bool.false_ne_true
          obtain ⟨found, hrun, hge, hgood⟩ := ih (level + 1) (by omega) (by omega)
          refine ⟨found, ?_, by omega, hgood⟩
          simp only [raiseLevel, hans]
          exact hrun

-- Every level list has a level compatible with the first level of every other.
def Topped (c : LevelChoice (Fin n)) : Prop :=
  ∀ a b, 0 < c.len b ∧ ∃ top < c.len a, c.compat a top b 0

theorem raiseLevels_ok (hr : data.Realises c) (htop : Topped c) (a : Fin n) (bs : List (Fin n))
    {level : Nat} (hlevel : level < c.len a) :
    ∃ found, bs.foldlM (fun level b =>
        data.raiseLevel a b ((data.levelsOf a).length - level) level) level = .ok found ∧
      level ≤ found ∧ found < c.len a ∧ ∀ b ∈ bs, c.compat a found b 0 := by
  induction bs generalizing level with
  | nil => exact ⟨level, rfl, le_rfl, hlevel, by simp⟩
  | cons b bs ih =>
      obtain ⟨hb, top, ht, hc⟩ := htop a b
      have hc' : c.compat a (max level top) b 0 := c.mono (le_max_right _ _) (by omega) hb hc
      obtain ⟨next, hrun, hge, hlt, hnext⟩ := raiseLevel_ok hr hb (by omega) hc'
        ((data.levelsOf a).length - level) level (by rw [hr.length]; omega) (le_max_left _ _)
      obtain ⟨found, hfold, hle, hlen, hall⟩ := ih hlt
      refine ⟨found, ?_, by omega, hlen, fun b' hb' => ?_⟩
      · rw [List.foldlM_cons, hrun]
        exact hfold
      · rcases List.mem_cons.mp hb' with rfl | hb'
        · exact c.mono hle hlen hb hnext
        · exact hall b' hb'

theorem maxLevel_ok (hr : data.Realises c) (htop : Topped c) (a : Fin n) :
    ∃ found, data.maxLevel a = .ok found ∧ found < c.len a ∧ ∀ b, c.compat a found b 0 := by
  obtain ⟨found, hrun, -, hlen, hall⟩ :=
    raiseLevels_ok hr htop a (List.finRange n) (htop a a).1
  exact ⟨found, hrun, hlen, fun b => hall b (List.mem_finRange b)⟩

theorem lowerLevel_ok (hr : data.Realises c) {a b : Fin n} {aLevel bLevel : Nat}
    (ha : aLevel < c.len a) (hb : bLevel < c.len b) (hc : c.compat a aLevel b bLevel) :
    ∃ r ≤ bLevel, data.lowerLevel a aLevel b bLevel = .ok r ∧ c.Least a aLevel b r := by
  induction bLevel with
  | zero => exact ⟨0, le_rfl, rfl, hb, hc, by omega⟩
  | succ bLevel ih =>
      obtain ⟨answer, hans, hiff⟩ := hr.compatible ha (show bLevel < c.len b by omega)
      cases answer with
      | true =>
          obtain ⟨r, hle, hrun, hleast⟩ := ih (by omega) (hiff.mp rfl)
          refine ⟨r, by omega, ?_, hleast⟩
          simp only [lowerLevel, hans]
          exact hrun
      | false =>
          refine ⟨bLevel + 1, le_rfl, ?_, hb, hc, fun lb hlb hclb => ?_⟩
          · simp only [lowerLevel, hans]
            rfl
          · exact absurd (hiff.mpr (c.mono_right (by omega) ha (by omega) hclb)) Bool.false_ne_true

-- The two tables of `a`, as far as they are filled.
structure Filled (c : LevelChoice (Fin n)) (a : Fin n) (useful : List Bool)
    (compatible : List (Fin n → Nat)) : Prop where
  length : useful.length = compatible.length
  least : ∀ la (h : la < compatible.length), ∀ b, c.Least a la b (compatible[la] b)
  useful_iff : ∀ la (h : la < useful.length), useful[la] = true ↔ c.Useful a la

theorem useful_iff_lowered {a : Fin n} {la : Nat} {before after : Fin n → Nat}
    (ha : la + 1 < c.len a) (hbefore : ∀ b, c.Least a la b (before b))
    (hafter : ∀ b, c.Least a (la + 1) b (after b)) :
    (List.finRange n).any (fun b => after b < before b) = true ↔ c.Useful a (la + 1) := by
  simp only [List.any_eq_true, List.mem_finRange, true_and, decide_eq_true_eq]
  constructor
  · rintro ⟨b, hb⟩
    exact Or.inr ⟨b, after b, (hafter b).1, (hafter b).2.1, fun hc => by
      have := (hbefore b).le hc
      omega⟩
  · rintro (h | ⟨b, lb, hlb, hc, hno⟩)
    · omega
    · refine ⟨b, lt_of_le_of_lt ((hafter b).le hc) ?_⟩
      by_contra hle
      exact hno (c.mono_right (by omega) (by omega) hlb (hbefore b).2.1)

theorem compatibilityLoop_ok (hr : data.Realises c) (a : Fin n) (left : Nat)
    (current : Fin n → Nat) (useful : List Bool) (compatible : List (Fin n → Nat))
    (hleft : compatible.length + left = c.len a) (hfilled : Filled c a useful compatible)
    (hcurrent : ∀ b, current b < c.len b ∧ ∀ la, compatible.length ≤ la → la < c.len a →
      c.compat a la b (current b))
    (hlast : ∀ la, compatible.length = la + 1 → ∀ b, c.Least a la b (current b)) :
    ∃ useful' compatible',
      data.compatibilityLoop a (List.range' compatible.length left) current useful compatible =
          .ok (useful', compatible') ∧
        compatible'.length = c.len a ∧ Filled c a useful' compatible' := by
  induction left generalizing current useful compatible with
  | zero => exact ⟨useful, compatible, rfl, by omega, hfilled⟩
  | succ left ih =>
      have ha : compatible.length < c.len a := by omega
      have hstep := fun b => lowerLevel_ok hr ha (hcurrent b).1 ((hcurrent b).2 _ le_rfl ha)
      choose lowered hle hrun hleast using hstep
      have htab := Lib.tabulate_ok (List.finRange n) (fun b _ => hrun b) current
      simp only [List.mem_finRange, if_true] at htab
      have huse : (compatible.isEmpty || (List.finRange n).any fun b => lowered b < current b) = true ↔
          c.Useful a compatible.length := by
        rcases Nat.eq_zero_or_pos compatible.length with h0 | hpos
        · rw [List.length_eq_zero_iff] at h0
          subst h0
          simp [LevelChoice.Useful]
        · obtain ⟨la, hla⟩ := Nat.exists_eq_add_of_lt hpos
          have hla' : compatible.length = la + 1 := by omega
          have hne : compatible.isEmpty = false := by
            rw [List.isEmpty_eq_false_iff, ← List.length_pos_iff]
            exact hpos
          rw [hne, Bool.false_or]
          rw [hla'] at hleast ha ⊢
          exact useful_iff_lowered ha (hlast la hla') hleast
      have hfilled' : Filled c a (useful ++ [compatible.isEmpty ||
          (List.finRange n).any fun b => lowered b < current b]) (compatible ++ [lowered]) := by
        refine ⟨by simp [hfilled.length], fun la h b => ?_, fun la h => ?_⟩
        · rcases Nat.lt_or_ge la compatible.length with hlt | hge
          · rw [List.getElem_append_left hlt]
            exact hfilled.least la hlt b
          · have : la = compatible.length := by
              rw [List.length_append, List.length_singleton] at h
              omega
            subst this
            simpa using hleast b
        · rcases Nat.lt_or_ge la useful.length with hlt | hge
          · rw [List.getElem_append_left hlt]
            exact hfilled.useful_iff la hlt
          · have : la = useful.length := by
              rw [List.length_append, List.length_singleton] at h
              omega
            subst this
            rw [List.getElem_concat_length rfl, hfilled.length]
            exact huse
      have hlength : (compatible ++ [lowered]).length = compatible.length + 1 := by simp
      obtain ⟨useful', compatible', hloop, hres⟩ := ih lowered _ _ (by omega) hfilled'
        (fun b => ⟨(hleast b).1, fun la hla hlt => c.mono (by omega) hlt (hleast b).1 (hleast b).2.1⟩)
        (fun la hla b => by
          have : la = compatible.length := by omega
          exact this ▸ hleast b)
      refine ⟨useful', compatible', ?_, hres⟩
      rw [List.range'_succ, compatibilityLoop, htab]
      rw [hlength] at hloop
      exact hloop

end LevelSearchData

end KCensus.Propagation

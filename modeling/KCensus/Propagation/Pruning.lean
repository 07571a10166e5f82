import KCensus.Propagation.Tables
import Mathlib.Algebra.BigOperators.Group.List.Basic
import Mathlib.Algebra.Order.BigOperators.Group.List
import Mathlib.Algebra.Order.Group.Nat

namespace KCensus.Propagation

open Lib (LevelChoice)

variable {n : Nat}

-- What the tables of `data` say is true of the abstract choice `c`.
structure LevelSearchData.Tabulated (data : LevelSearchData n) (c : LevelChoice (Fin n)) : Prop
    extends data.Realises c where
  max_lt : ∀ a, data.maxLevels a < c.len a
  max_compat : ∀ a b, c.compat a (data.maxLevels a) b 0
  required : ∀ {a la}, la < c.len a →
    ∃ req, indexed (data.compatibleLevels a) la = .ok req ∧ ∀ b, c.Least a la b (req b)
  useful : ∀ {a la}, la < c.len a →
    ∃ answer, indexed (data.usefulLevels a) la = .ok answer ∧ (answer = true ↔ c.Useful a la)

section

variable {data : LevelSearchData n} {c : LevelChoice (Fin n)} (ht : data.Tabulated c)
include ht

def total (c : LevelChoice (Fin n)) (levels : Fin n → Nat) (pids : List (Fin n)) : Nat :=
  (pids.map fun pid => c.cost pid (levels pid)).sum

omit ht in
theorem total_cons (levels : Fin n → Nat) (pid : Fin n) (pids : List (Fin n)) :
    total c levels (pid :: pids) = c.cost pid (levels pid) + total c levels pids := rfl

omit ht in
theorem total_le {levels levels' : Fin n → Nat} {pids : List (Fin n)}
    (h : ∀ pid ∈ pids, levels pid ≤ levels' pid ∧ levels' pid < c.len pid) :
    total c levels pids ≤ total c levels' pids :=
  List.sum_le_sum fun pid hp => c.cost_mono (h pid hp).1 (h pid hp).2

omit ht in
theorem total_congr {levels levels' : Fin n → Nat} {pids : List (Fin n)}
    (h : ∀ pid ∈ pids, levels pid = levels' pid) : total c levels pids = total c levels' pids := by
  simp only [total]
  congr 1
  exact List.map_congr_left fun pid hp => by rw [h pid hp]

theorem requireLevels_ok {a : Fin n} {la : Nat} {minLevels req : Fin n → Nat}
    (hreq : indexed (data.compatibleLevels a) la = .ok req)
    (hreqlt : ∀ b, req b < c.len b) (pids : List (Fin n)) (hnd : pids.Nodup) (levels : Fin n → Nat)
    (hmin : ∀ b ∈ pids, minLevels b < c.len b) (hlevels : ∀ b ∈ pids, levels b < c.len b)
    (currTotal minTotal : Nat) :
    ∃ levels', requireLevels data a la minLevels pids levels currTotal minTotal =
        .ok (levels', currTotal + total c levels' pids, minTotal + total c minLevels pids) ∧
      (∀ b ∈ pids, levels' b = max (levels b) (req b)) ∧ ∀ b ∉ pids, levels' b = levels b := by
  induction pids generalizing levels currTotal minTotal with
  | nil => exact ⟨levels, rfl, by simp, fun _ _ => rfl⟩
  | cons b pids ih =>
      obtain ⟨hb, hnd⟩ := List.nodup_cons.mp hnd
      let next := if req b > levels b then Function.update levels b (req b) else levels
      have hnext : next b = max (levels b) (req b) := by
        simp only [next]
        split
        · rw [Function.update_self]
          omega
        · omega
      have hother : ∀ b' ≠ b, next b' = levels b' := by
        intro b' hne
        simp only [next]
        split
        · rw [Function.update_of_ne hne]
        · rfl
      have hlt : next b < c.len b := by
        rw [hnext]
        exact max_lt (hlevels b List.mem_cons_self) (hreqlt b)
      obtain ⟨minB, hminB, hminT⟩ := ht.level (hmin b List.mem_cons_self)
      obtain ⟨levelB, hlevelB, hlevelT⟩ := ht.level hlt
      obtain ⟨levels', hrun, hin, hout⟩ := ih hnd next
        (fun b' h => hmin b' (List.mem_cons_of_mem _ h))
        (fun b' h => by
          rw [hother b' (by rintro rfl; exact hb h)]
          exact hlevels b' (List.mem_cons_of_mem _ h))
        (currTotal + levelB.time) (minTotal + minB.time)
      have hself : levels' b = next b := hout b hb
      refine ⟨levels', ?_, ?_, ?_⟩
      · have heq : requireLevels data a la minLevels (b :: pids) levels currTotal minTotal =
            requireLevels data a la minLevels pids next (currTotal + levelB.time)
              (minTotal + minB.time) := by
          rw [requireLevels, hminB, hreq]
          simp only [bind, Except.bind]
          rw [show (if req b > levels b then Function.update levels b (req b) else levels) = next
            from rfl, hlevelB]
        rw [heq, hrun, total_cons, total_cons, hself, ← hlevelT, ← hminT, Nat.add_assoc, Nat.add_assoc]
      · intro b' hb'
        rcases List.mem_cons.mp hb' with rfl | hmem
        · exact hself.trans hnext
        · rw [hin b' hmem, hother b' (by rintro rfl; exact hb hmem)]
      · intro b' hb'
        have hne : b' ≠ b := by
          rintro rfl
          exact hb' List.mem_cons_self
        rw [hout b' fun h => hb' (List.mem_cons_of_mem _ h), hother b' hne]

-- The processes of `done` have their final level in `minLevels`, the others a lowest level that
-- goes with those.
structure Ready (data : LevelSearchData n) (c : LevelChoice (Fin n)) (done rest : List (Fin n))
    (minLevels : Fin n → Nat) : Prop where
  useful : ∀ b ∈ rest, c.Useful b (minLevels b)
  le_max : ∀ b ∈ rest, minLevels b ≤ data.maxLevels b
  chosen : ∀ q ∈ done, minLevels q < c.len q
  pairs : ∀ q ∈ done, ∀ q' ∈ done, q ≠ q' → c.compat q (minLevels q) q' (minLevels q')
  cross : ∀ q ∈ done, ∀ b ∈ rest, c.compat q (minLevels q) b (minLevels b)

def Compatible (c : LevelChoice (Fin n)) (levels : Fin n → Nat) : Prop :=
  (∀ pid, levels pid < c.len pid) ∧ ∀ a b, a ≠ b → c.compat a (levels a) b (levels b)

-- A way to choose the levels that are still open.
structure Fits (c : LevelChoice (Fin n)) (rest : List (Fin n)) (minLevels levels : Fin n → Nat) :
    Prop where
  ge : ∀ b ∈ rest, minLevels b ≤ levels b
  lt : ∀ b ∈ rest, levels b < c.len b
  pairs : ∀ a ∈ rest, ∀ b ∈ rest, a ≠ b → c.compat a (levels a) b (levels b)

omit ht in
theorem Ready.lt_len {done rest : List (Fin n)} {minLevels : Fin n → Nat}
    (hready : Ready data c done rest minLevels) (ht : data.Tabulated c) {b : Fin n}
    (hb : b ∈ rest) : minLevels b < c.len b :=
  lt_of_le_of_lt (hready.le_max b hb) (ht.max_lt b)

theorem Ready.choose {done pids : List (Fin n)} {a : Fin n} {minLevels levels : Fin n → Nat}
    (hready : Ready data c done (a :: pids) minLevels) {la : Nat} (hge : minLevels a ≤ la) (hla : la < c.len a) {req : Fin n → Nat}
    (hreq : ∀ b, c.Least a la b (req b)) (hself : levels a = la)
    (hin : ∀ b ∈ pids, levels b = max (minLevels b) (req b))
    (hout : ∀ b ∈ done, levels b = minLevels b) :
    Ready data c (done ++ [a]) pids levels := by
  have hlt := fun {b} (hb : b ∈ a :: pids) => hready.lt_len ht hb
  have hmem : ∀ {b}, b ∈ pids → b ∈ a :: pids := List.mem_cons_of_mem a
  have hreqmax : ∀ b, req b ≤ data.maxLevels b := fun b =>
    (hreq b).le (c.symm (ht.max_lt b) hla (c.mono_right (Nat.zero_le la) (ht.max_lt b) hla
      (ht.max_compat b a)))
  have hlevels : ∀ b ∈ pids, levels b < c.len b := fun b hb => by
    rw [hin b hb]
    exact max_lt (hlt (hmem hb)) (hreq b).1
  have hacross : ∀ q ∈ done, c.compat q (levels q) a la := fun q hq => by
    rw [hout q hq]
    exact c.mono_right hge (hready.chosen q hq) hla (hready.cross q hq a List.mem_cons_self)
  refine ⟨fun b hb => ?_, fun b hb => ?_, fun q hq => ?_, fun q hq q' hq' hne => ?_,
    fun q hq b hb => ?_⟩
  · rw [hin b hb]
    rcases max_choice (minLevels b) (req b) with h | h
    · rw [h]
      exact hready.useful b (hmem hb)
    · rw [h]
      exact (hreq b).useful hla
  · rw [hin b hb]
    exact max_le (hready.le_max b (hmem hb)) (hreqmax b)
  · rcases List.mem_append.mp hq with hq | hq
    · exact hout q hq ▸ hready.chosen q hq
    · rw [List.mem_singleton.mp hq, hself]
      exact hla
  · rcases List.mem_append.mp hq with hq | hq <;> rcases List.mem_append.mp hq' with hq' | hq'
    · rw [hout q hq, hout q' hq']
      exact hready.pairs q hq q' hq' hne
    · rw [List.mem_singleton.mp hq', hself]
      exact hacross q hq
    · rw [List.mem_singleton.mp hq, hself]
      exact c.symm (hout q' hq' ▸ hready.chosen q' hq') hla (hacross q' hq')
    · exact absurd ((List.mem_singleton.mp hq).trans (List.mem_singleton.mp hq').symm) hne
  · rcases List.mem_append.mp hq with hq | hq
    · rw [hin b hb, hout q hq]
      exact c.mono_right (le_max_left _ _) (hready.chosen q hq) (hin b hb ▸ hlevels b hb)
        (hready.cross q hq b (hmem hb))
    · rw [List.mem_singleton.mp hq, hself]
      exact c.mono_right (hin b hb ▸ le_max_right _ _) hla (hlevels b hb) (hreq b).2.1

variable {Inv : BestSol n → Prop} {base : Nat}

-- What a search over the levels of the processes `rest` has to do.
def Searches (data : LevelSearchData n) (c : LevelChoice (Fin n)) (Inv : BestSol n → Prop)
    (base : Nat) (done rest : List (Fin n))
    (search : BestSol n → (Fin n → Nat) → Nat → Except PlanPanic (BestSol n)) : Prop :=
  ∀ best minLevels, Ready data c done rest minLevels → Inv best →
    ∃ found, search best minLevels (base + total c minLevels done) = .ok found ∧ Inv found ∧
      found.sumOfLatencies ≤ best.sumOfLatencies ∧
      ∀ levels, Fits c rest minLevels levels →
        found.sumOfLatencies ≤ base + total c minLevels done + total c levels rest

-- The levels once `a` has the level `la`: those still open are raised to what goes with it.
structure Raised (c : LevelChoice (Fin n)) (done pids : List (Fin n)) (a : Fin n) (la : Nat)
    (minLevels req levels : Fin n → Nat) : Prop where
  least : ∀ b, c.Least a la b (req b)
  self : levels a = la
  raised : ∀ b ∈ pids, levels b = max (minLevels b) (req b)
  kept : ∀ b ∈ done, levels b = minLevels b

section

variable {done pids : List (Fin n)} {a : Fin n} {la : Nat} {minLevels req levels : Fin n → Nat}

omit ht in
theorem Raised.fits (h : Raised c done pids a la minLevels req levels) {levels' : Fin n → Nat}
    (hf : Fits c pids minLevels levels') (hc : ∀ b ∈ pids, c.compat a la b (levels' b)) :
    Fits c pids levels levels' := by
  refine ⟨fun b hb => ?_, hf.lt, hf.pairs⟩
  rw [h.raised b hb]
  exact max_le (hf.ge b hb) ((h.least b).le (hc b hb))

omit ht in
theorem Fits.total_le (h : Fits c pids minLevels levels) :
    total c minLevels pids ≤ total c levels pids :=
  Propagation.total_le fun b hb => ⟨h.ge b hb, h.lt b hb⟩

omit ht in
theorem Raised.total_done (h : Raised c done pids a la minLevels req levels) :
    total c levels (done ++ [a]) = total c minLevels done + c.cost a la := by
  have hdone := total_congr (c := c) h.kept
  simp only [total] at hdone ⊢
  simp only [List.map_append, List.map_cons, List.map_nil, List.sum_append, List.sum_cons,
    List.sum_nil, h.self]
  omega

theorem raise_ok (hnd : (done ++ a :: pids).Nodup)
    (hready : Ready data c done (a :: pids) minLevels) (hla : la < c.len a) (sofar : Nat) :
    ∃ req levels, requireLevels data a la minLevels pids (Function.update minLevels a la) sofar sofar =
        .ok (levels, sofar + total c levels pids, sofar + total c minLevels pids) ∧
      Raised c done pids a la minLevels req levels := by
  obtain ⟨-, hrest, hcross⟩ := List.nodup_append.mp hnd
  obtain ⟨hanot, hpids⟩ := List.nodup_cons.mp hrest
  have hadone : a ∉ done := fun h => hcross a h a List.mem_cons_self rfl
  have hpdone : ∀ b ∈ done, b ∉ pids := fun b hb h => hcross b hb b (List.mem_cons_of_mem a h) rfl
  have hminlt : ∀ b ∈ pids, minLevels b < c.len b := fun b hb =>
    hready.lt_len ht (List.mem_cons_of_mem a hb)
  have hopen : ∀ b ∈ pids, Function.update minLevels a la b = minLevels b := fun b hb =>
    Function.update_of_ne (by rintro rfl; exact hanot hb) ..
  obtain ⟨req, hreq, hleast⟩ := ht.required hla
  obtain ⟨levels, hrun, hin, hout⟩ := requireLevels_ok ht hreq (fun b => (hleast b).1) pids hpids
    (Function.update minLevels a la) hminlt (fun b hb => (hopen b hb).symm ▸ hminlt b hb) sofar sofar
  refine ⟨req, levels, hrun, hleast, ?_, fun b hb => ?_, fun b hb => ?_⟩
  · exact (hout a hanot).trans (Function.update_self ..)
  · rw [hin b hb, hopen b hb]
  · exact (hout b (hpdone b hb)).trans (Function.update_of_ne (by rintro rfl; exact hadone hb) ..)

variable {search : BestSol n → (Fin n → Nat) → Nat → Except PlanPanic (BestSol n)} {sofar : Nat}
  {best : BestSol n}

omit ht in
theorem levelLoop_useless (huseful : indexed (data.usefulLevels a) la = .ok false) :
    levelLoop data a pids minLevels sofar search la best = .ok (.yield best) := by
  simp only [levelLoop, huseful]
  rfl

omit ht in
theorem levelLoop_useful (huseful : indexed (data.usefulLevels a) la = .ok true)
    {kA : KnowledgeLevel n} (hkA : data.knowledgeLevel a la = .ok kA) {curr least : Nat}
    (hrun : requireLevels data a la minLevels pids (Function.update minLevels a la)
      (sofar + kA.time) (sofar + kA.time) = .ok (levels, curr, least)) :
    levelLoop data a pids minLevels sofar search la best =
      if best.sumOfLatencies ≤ least then .ok (.done best)
      else if best.sumOfLatencies ≤ curr then .ok (.yield best)
      else if ¬ sofar + kA.time < best.sumOfLatencies then .error .assertion
      else if pids.isEmpty then .ok (.yield ⟨data.leaders, levels, sofar + kA.time⟩)
      else (search best levels (sofar + kA.time)).map .yield := by
  simp only [levelLoop, huseful, hkA, hrun, bind, Except.bind, pure, Except.pure]
  simp only [Bool.not_true, Bool.false_eq_true, if_false]
  split
  · rfl
  split
  · rfl
  split
  · rfl
  split
  · rfl
  · cases search best levels (sofar + kA.time) <;> rfl

end

theorem levelLoop_ok {done pids : List (Fin n)} {a : Fin n} {minLevels : Fin n → Nat}
    (hall : done ++ a :: pids = List.finRange n)
    (hready : Ready data c done (a :: pids) minLevels)
    (hcomplete : ∀ levels, Compatible c levels →
      Inv ⟨data.leaders, levels, base + total c levels (List.finRange n)⟩)
    {search : BestSol n → (Fin n → Nat) → Nat → Except PlanPanic (BestSol n)}
    (hsearch : pids ≠ [] → Searches data c Inv base (done ++ [a]) pids search)
    {la : Nat} (hge : minLevels a ≤ la) (hla : la < c.len a) {best : BestSol n} (hbest : Inv best) :
    ∃ next, levelLoop data a pids minLevels (base + total c minLevels done) search la best = .ok next ∧
      Inv next.value ∧ next.value.sumOfLatencies ≤ best.sumOfLatencies ∧
      (∀ b, next = .done b → b.sumOfLatencies ≤
        base + total c minLevels done + (c.cost a la + total c minLevels pids)) ∧
      (c.Useful a la → ∀ levels, Fits c pids minLevels levels →
        (∀ b ∈ pids, c.compat a la b (levels b)) →
        next.value.sumOfLatencies ≤
          base + total c minLevels done + (c.cost a la + total c levels pids)) := by
  obtain ⟨useful, huseful, huse⟩ := ht.useful hla
  cases useful with
  | false =>
      refine ⟨.yield best, levelLoop_useless huseful, hbest, le_rfl, fun _ h => (by cases h),
        fun h => ?_⟩
      exact absurd (huse.mpr h) Bool.false_ne_true
  | true =>
      obtain ⟨kA, hkA, htime⟩ := ht.level hla
      obtain ⟨req, levels', hrun, hraised⟩ := raise_ok ht (hall ▸ List.nodup_finRange n) hready hla
        (base + total c minLevels done + kA.time)
      have hready' := hready.choose ht hge hla hraised.least hraised.self hraised.raised hraised.kept
      have hsum := hraised.total_done
      rw [levelLoop_useful huseful hkA hrun]
      by_cases hmin : best.sumOfLatencies ≤
          base + total c minLevels done + kA.time + total c minLevels pids
      · rw [if_pos hmin]
        refine ⟨.done best, rfl, hbest, le_rfl, fun b h => ?_, fun _ levels hf _ => ?_⟩
        · cases h
          omega
        · have hleast := hf.total_le
          change best.sumOfLatencies ≤ _
          omega
      rw [if_neg hmin]
      by_cases hcur : best.sumOfLatencies ≤
          base + total c minLevels done + kA.time + total c levels' pids
      · rw [if_pos hcur]
        refine ⟨.yield best, rfl, hbest, le_rfl, fun _ h => (by cases h), fun _ levels hf hc => ?_⟩
        have hcurr := (hraised.fits hf hc).total_le
        change best.sumOfLatencies ≤ _
        omega
      rw [if_neg hcur, if_neg (by omega)]
      cases hp : pids with
      | nil =>
          subst hp
          rw [List.isEmpty_nil, if_pos rfl]
          have hcompat : Compatible c levels' := by
            refine ⟨fun pid => ?_, fun p q hne => ?_⟩
            · exact hready'.chosen pid (hall ▸ List.mem_finRange pid)
            · exact hready'.pairs p (hall ▸ List.mem_finRange p) q (hall ▸ List.mem_finRange q) hne
          have hinv := hcomplete levels' hcompat
          rw [← hall, hsum, ← Nat.add_assoc, ← htime] at hinv
          refine ⟨_, rfl, hinv, ?_, fun _ h => (by cases h), fun _ levels _ _ => ?_⟩
          · change base + total c minLevels done + kA.time ≤ _
            omega
          · change base + total c minLevels done + kA.time ≤ _
            omega
      | cons b bs =>
          rw [List.isEmpty_cons, if_neg Bool.false_ne_true, ← hp]
          have hsofar : base + total c minLevels done + kA.time =
              base + total c levels' (done ++ [a]) := by omega
          rw [hsofar]
          obtain ⟨found, hfound, hinv, hle, hbound⟩ :=
            hsearch (hp ▸ List.cons_ne_nil b bs) best levels' hready' hbest
          refine ⟨.yield found, by rw [hfound]; rfl, hinv, hle, fun _ h => (by cases h),
            fun _ levels hf hc => ?_⟩
          have hbounded := hbound levels (hraised.fits hf hc)
          change found.sumOfLatencies ≤ _
          omega

theorem bestAvgSearchInner_ok (Inv : BestSol n → Prop) (base : Nat) (done : List (Fin n))
    {rest : List (Fin n)} (hne : rest ≠ [])
    (hall : done ++ rest = List.finRange n)
    (hcomplete : ∀ levels, Compatible c levels →
      Inv ⟨data.leaders, levels, base + total c levels (List.finRange n)⟩) :
    Searches data c Inv base done rest (bestAvgSearchInner data rest) := by
  induction rest generalizing done with
  | nil => exact absurd rfl hne
  | cons a pids ih =>
      intro best minLevels hready hbest
      have hsearch : pids ≠ [] →
          Searches data c Inv base (done ++ [a]) pids (bestAvgSearchInner data pids) :=
        fun hp => ih (done ++ [a]) hp (by simpa using hall)
      have hturn := fun la (hge : minLevels a ≤ la) (hla : la < c.len a) b (hb : Inv b) =>
        levelLoop_ok ht hall hready hcomplete hsearch hge hla hb
      have hmem : ∀ la, la ∈ List.range' (minLevels a) (data.maxLevels a + 1 - minLevels a) ↔
          minLevels a ≤ la ∧ la ≤ data.maxLevels a := by
        intro la
        rw [List.mem_range'_1]
        have := hready.le_max a List.mem_cons_self
        omega
      have hstep : ∀ la ∈ List.range' (minLevels a) (data.maxLevels a + 1 - minLevels a), ∀ b, Inv b →
          ∃ s, levelLoop data a pids minLevels (base + total c minLevels done)
            (bestAvgSearchInner data pids) la b = .ok s ∧ Inv s.value ∧
              s.value.sumOfLatencies ≤ b.sumOfLatencies := by
        intro la hla b hb
        obtain ⟨hge, hle⟩ := (hmem la).mp hla
        obtain ⟨s, hs, hinv, hcost, -⟩ := hturn la hge (lt_of_le_of_lt hle (ht.max_lt a)) b hb
        exact ⟨s, hs, hinv, hcost⟩
      obtain ⟨found, hfound, hinv, hcost⟩ := Lib.forUntil_inv hstep hbest
      refine ⟨found, hfound, hinv, hcost, fun levels hf => ?_⟩
      have hrest : Fits c pids minLevels levels :=
        ⟨fun b hb => hf.ge b (List.mem_cons_of_mem a hb), fun b hb => hf.lt b (List.mem_cons_of_mem a hb),
          fun p hp q hq => hf.pairs p (List.mem_cons_of_mem a hp) q (List.mem_cons_of_mem a hq)⟩
      -- The level of `a` in `levels`, brought down to one that the loop tries.
      obtain ⟨u, hlow, hup, huse, hsup⟩ := LevelChoice.exists_useful_from
        (hready.useful a List.mem_cons_self)
        (le_min (hf.ge a List.mem_cons_self) (hready.le_max a List.mem_cons_self))
        (lt_of_le_of_lt (min_le_right _ _) (ht.max_lt a))
      have hula : u ≤ levels a := hup.trans (min_le_left _ _)
      have humax : u ≤ data.maxLevels a := hup.trans (min_le_right _ _)
      have huc : ∀ b ∈ pids, c.compat a u b (levels b) := by
        intro b hb
        have hne : a ≠ b := by
          rintro rfl
          exact (List.nodup_cons.mp (List.nodup_append.mp (hall ▸ List.nodup_finRange n)).2.1).1 hb
        refine hsup b (levels b) (hrest.lt b hb) ?_
        rcases min_choice (levels a) (data.maxLevels a) with h | h
        · rw [h]
          exact hf.pairs a List.mem_cons_self b (List.mem_cons_of_mem a hb) hne
        · rw [h]
          exact c.mono_right (Nat.zero_le _) (ht.max_lt a) (hrest.lt b hb) (ht.max_compat a b)
      have hcosts : ∀ la ≤ u, c.cost a la ≤ c.cost a (levels a) := fun la hla =>
        c.cost_mono (hla.trans hula) (hf.lt a List.mem_cons_self)
      have hmins : total c minLevels pids ≤ total c levels pids :=
        total_le fun b hb => ⟨hrest.ge b hb, hrest.lt b hb⟩
      rw [total_cons]
      refine Lib.forUntil_le (List.pairwise_lt_range' _) hstep ((hmem u).mpr ⟨hlow, humax⟩) ?_ ?_
        hbest hfound
      · intro b s hb hs
        obtain ⟨s', hs', -, -, -, hbound⟩ := hturn u hlow (lt_of_le_of_lt humax (ht.max_lt a)) b hb
        obtain rfl : s' = s := Except.ok.inj (hs'.symm.trans hs)
        have := hbound huse levels hrest huc
        have := hcosts u le_rfl
        omega
      · intro la hla hlt b b' hb hs
        obtain ⟨hge, hle⟩ := (hmem la).mp hla
        obtain ⟨s', hs', -, -, hbreak, -⟩ := hturn la hge (lt_of_le_of_lt hle (ht.max_lt a)) b hb
        obtain rfl : s' = .done b' := Except.ok.inj (hs'.symm.trans hs)
        have := hbreak b' rfl
        have := hcosts la hlt.le
        omega

end

end KCensus.Propagation

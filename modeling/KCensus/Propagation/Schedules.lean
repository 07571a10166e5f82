import KCensus.Propagation.PlanGraphs

namespace KCensus.Propagation

variable {n : Nat} {topology : Topology n} {routes : Routes n} {pathLatencies : Fin n → Fin n → Nat}
  {proposer leader node : Fin n} {draft : Draft n} {bound t : Nat}

theorem Schedule.get_of_mem {schedule : Schedule n} {state : KnowledgeState n}
    (h : (t, state) ∈ schedule.states) : schedule.get t = some state := by
  rw [Schedule.get]
  cases hfind : schedule.states.find? (·.1 = t) with
  | none =>
      have hno := List.find?_eq_none.mp hfind (t, state) h
      exact absurd (decide_eq_true rfl) hno
  | some e =>
      have htime : e.1 = t := by simpa using List.find?_some hfind
      have hkey : ∀ e ∈ schedule.states, ∀ e' ∈ schedule.states, e.1 = e'.1 → e = e' :=
        List.Pairwise.forall_of_forall_of_flip (fun _ _ _ => rfl)
          (schedule.increasing.imp fun hlt heq => absurd heq hlt.ne)
          (schedule.increasing.imp fun hlt heq => absurd heq hlt.ne')
      rw [hkey e (List.mem_of_find?_eq_some hfind) _ h htime]
      rfl

-- A graph whose times are `u64` numbers of nanoseconds.
structure Draft.Timely (draft : Draft n) : Prop where
  zero : ∀ node, draft.Has node 0
  nanos : ∀ node t, draft.Has node t → t < 2 ^ 64

def Draft.schedule (draft : Draft n) (h : draft.Timely) (node : Fin n) : Schedule n where
  states := (draft.states node).entries
  increasing := Lib.Timeline.entries_increasing
  initial := by
    have hmem : (0, (draft.states node).value 0) ∈ (draft.states node).entries :=
      Lib.Timeline.mem_entries.mpr ⟨h.zero node, rfl⟩
    have hsorted := (draft.states node).entries_increasing
    cases hentries : (draft.states node).entries with
    | nil =>
        rw [hentries] at hmem
        exact absurd hmem List.not_mem_nil
    | cons e later =>
        rw [hentries] at hmem hsorted
        rcases List.mem_cons.mp hmem with heq | hin
        · exact congrArg some (congrArg Prod.fst heq).symm
        · exact absurd ((List.pairwise_cons.mp hsorted).1 _ hin) (Nat.not_lt_zero _)
  nanos := fun e he => h.nanos node e.1 (Lib.Timeline.mem_entries.mp he).1

-- What the planner returns, for the processes to follow.
def KCensusPlan.propagationGraphs (topology : Topology n) (plan : KCensusPlan n)
    (h : ∀ proposer, (plan.graphs proposer).Timely) : PropagationGraphs n where
  graphs := fun proposer =>
    { shouldIncludeValue := (plan.graphs proposer).shouldIncludeValue
      states := (plan.graphs proposer).schedule (h proposer)
      leader := plan.leaders proposer }
  topology := topology

theorem Draft.Precedes.time_le (hw : Wired topology proposer (fun _ => False) draft)
    {a b : Fin n × Nat} (h : draft.Precedes a b) : a.2 ≤ b.2 := by
  induction h with
  | refl => exact le_rfl
  | tail _ hbc ih =>
      cases hbc with
      | later _ hle => exact ih.trans hle
      | message hhas hm =>
          obtain ⟨-, -, htime, -⟩ := hw.awaited hhas hm
          exact ih.trans (htime ▸ Nat.le_add_right _ _)

theorem Fulfils.time_le (hr : AgreeingRoutes topology pathLatencies routes)
    {level : KnowledgeLevel n} (hw : Wired topology proposer (fun _ => False) draft)
    (h : Fulfils topology routes pathLatencies proposer leader level draft)
    (hbound : ∀ a b, pathLatencies a b ≤ bound) (hlevel : level.time ≤ bound)
    (ht : draft.Has node t) : t ≤ bound := by
  obtain ⟨last, hlast⟩ := Lib.exists_last? (draft.states node).times ⟨t, ht⟩
  obtain ⟨hhas, hbiggest⟩ := Lib.mem_last? hlast
  refine (hbiggest t ht).trans ?_
  rcases h.last node last hlast with rfl | hprecedes | ⟨hdeps, -⟩
  · exact Nat.zero_le _
  · exact (hprecedes.time_le hw).trans hlevel
  · obtain ⟨-, -, htime, hnoted⟩ := hw.awaited (m := valueMessage routes pathLatencies proposer node)
      hhas (hdeps ▸ Finset.mem_singleton_self _)
    have hne : node ≠ proposer := by
      rintro rfl
      exact (hw.posted (m := valueMessage routes pathLatencies node node) rfl hnoted).1
        (hr.prev_self node)
    exact (htime.trans (hr.prev proposer node hne)) ▸ hbound proposer node

theorem KCensusPlan.Fulfils.timely [NeZero n] (hr : AgreeingRoutes topology pathLatencies routes)
    {minEffort : MinEffortPlan n} {plan : KCensusPlan n}
    {kl : Fin n → Fin n → List (KnowledgeLevel n)} {levels : Fin n → Nat}
    (hplan : kcensusPlan topology routes (.new topology pathLatencies) minEffort = .ok plan)
    (hkl : allKnowledgeLevels topology (.new topology pathLatencies) = .ok kl)
    (h : plan.Fulfils topology routes pathLatencies kl levels)
    (hnanos : ∀ a b, topology.linkLatency a b < 2 ^ 62) (proposer : Fin n) :
    (plan.graphs proposer).Timely := by
  obtain ⟨level, hbuild, -⟩ := kcensusPlan_graphs hplan proposer
  have hw := (buildGraph_wired hbuild).1
  have hpath : ∀ a b, pathLatencies a b ≤ 2 ^ 62 - 1 := fun a b =>
    Nat.le_sub_one_of_lt ((hr.link a b).trans_lt (hnanos a b))
  refine ⟨fun node => hw.zero node, fun node t ht => ?_⟩
  have hthrice : ∀ a b, pathLatencies a b ≤ 3 * (2 ^ 62 - 1) := fun a b => (hpath a b).trans (by omega)
  have hle := (h.graph proposer).time_le hr hw hthrice (level_time_le hpath hkl h.chosen proposer) ht
  omega

end KCensus.Propagation

import KCensus.Census.RoundState
import KCensus.Census.History

namespace KCensus.Census

open Propagation (PropagationGraphs MessageId)

variable {n : Nat} {graph : PropagationGraphs n} {hist : Fin n → List (NodeState n)}

namespace NodeState

theorem Later.not_before {s s' : NodeState n} (h : Later s s') : ¬ Before s' s := by
  rintro (rfl | h')
  · exact absurd (partialCmp_self _ ▸ h.partialCmp.1) (by decide)
  · exact absurd (h.partialCmp.1.symm.trans h'.partialCmp.2) (by decide)

theorem Before.antisymm {s s' : NodeState n} (h : Before s s') (h' : Before s' s) : s = s' := by
  rcases h with rfl | h
  · rfl
  · exact absurd h' h.not_before

theorem Before.partialCmp {s s' : NodeState n} (h : Before s s') :
    ∃ order, s.partialCmp s' = some order ∧ order ≠ .gt := by
  rcases h with rfl | h
  · exact ⟨.eq, partialCmp_self s, by decide⟩
  · exact ⟨.lt, h.partialCmp.1, by decide⟩

end NodeState

open NodeState (History Before Later)

namespace RoundState

-- What a process that has followed the slot knows: points of every history, its own newest one,
-- and the proposer that it roots for.
structure Informed (hist : Fin n → List (NodeState n)) (r : RoundState n) : Prop where
  known : ∀ pid, r.nodeStates pid ∈ hist pid
  own : ∀ s ∈ hist r.myPid, Before s r.myState
  rooting : ∀ p, r.myState.kProposer = some p → p ∈ r.proposers
  nodup : r.proposers.Nodup

structure Updated (r : RoundState n) (remote : Fin n → NodeState n) (pids : List (Fin n))
    (r' : RoundState n) : Prop where
  myPid : r'.myPid = r.myPid
  skipped : ∀ pid, pid ∉ pids ∨ Before (remote pid) (r.nodeStates pid) →
    r'.nodeStates pid = r.nodeStates pid
  taken : ∀ pid ∈ pids, ¬ Before (remote pid) (r.nodeStates pid) → r'.nodeStates pid = remote pid
  proposers : ∀ p, p ∈ r'.proposers ↔ p ∈ r.proposers ∨ ∃ pid ∈ pids,
    ¬ Before (remote pid) (r.nodeStates pid) ∧ (remote pid).kProposer = some p
  nodup : r'.proposers.Nodup

theorem updateRemoteState_ok (hhist : ∀ pid, History graph pid (hist pid)) {report : Report n}
    {remote : Fin n → NodeState n} (hremote : ∀ pid, report.nodeState graph pid = some (remote pid))
    (hpoint : ∀ pid, remote pid ∈ hist pid) {r : RoundState n} {pid : Fin n}
    (hknown : r.nodeStates pid ∈ hist pid)
    (hown : pid = r.myPid → Before (remote pid) (r.nodeStates pid))
    {myProposer : Option (Fin n)} (hrooting : ∀ p, myProposer = some p → p ∈ r.proposers)
    (hnodup : r.proposers.Nodup) :
    ∃ r', updateRemoteState report graph myProposer r pid = some r' ∧ Updated r remote [pid] r' := by
  have hcases : Before (remote pid) (r.nodeStates pid) ∨ Later (r.nodeStates pid) (remote pid) := by
    rcases (hhist pid).total (hpoint pid) hknown with h | heq | hlater
    · exact Or.inl h
    · exact Or.inl (heq ▸ Before.refl _)
    · exact Or.inr hlater
  rcases hcases with hbefore | hlater
  · obtain ⟨order, hcmp, hne⟩ := hbefore.partialCmp
    refine ⟨r, ?_, rfl, fun _ _ => rfl, ?_, ?_, hnodup⟩
    · simp [updateRemoteState, hremote, hcmp, hne]
    · intro q hq hno
      exact absurd (List.mem_singleton.mp hq ▸ hbefore) hno
    · intro p
      refine ⟨Or.inl, fun h => h.elim id ?_⟩
      rintro ⟨q, hq, hno, -⟩
      exact absurd (List.mem_singleton.mp hq ▸ hbefore) hno
  · have hno := hlater.not_before
    have hme : pid ≠ r.myPid := fun h => hno (hown h)
    have hrooted := (hhist pid).rooted (hpoint pid)
    have hstates : ∀ q, (q ∉ [pid] ∨ Before (remote q) (r.nodeStates q) →
        Function.update r.nodeStates pid (remote pid) q = r.nodeStates q) ∧
        (q ∈ [pid] → ¬ Before (remote q) (r.nodeStates q) →
          Function.update r.nodeStates pid (remote pid) q = remote q) := by
      intro q
      rcases eq_or_ne q pid with rfl | hq
      · rw [Function.update_self]
        exact ⟨fun h => absurd List.mem_cons_self (h.resolve_right hno), fun _ _ => rfl⟩
      · rw [Function.update_of_ne hq]
        exact ⟨fun _ => rfl, fun h => absurd (List.mem_singleton.mp h) hq⟩
    cases hkp : (remote pid).kProposer with
    | none =>
        refine ⟨{ r with nodeStates := Function.update r.nodeStates pid (remote pid) }, ?_, rfl,
          fun q => (hstates q).1, fun q => (hstates q).2, fun p => ?_, hnodup⟩
        · simp [updateRemoteState, hremote, hlater.partialCmp.2, hme, hkp]
        · refine ⟨Or.inl, fun h => h.elim id ?_⟩
          rintro ⟨q, hq, -, hp⟩
          rw [List.mem_singleton.mp hq, hkp] at hp
          cases hp
    | some proposer =>
        have hsome : (remote pid).kProposer.isSome := by rw [hkp]; rfl
        have hv : (remote pid).v ≠ none := Option.isSome_iff_ne_none.mp (hrooted.v hsome)
        have hround : (remote pid).paxosAcceptRound.isSome = false := by
          rw [hrooted.round hsome]
          rfl
        by_cases hmem : proposer ∈ r.proposers
        · refine ⟨{ r with nodeStates := Function.update r.nodeStates pid (remote pid) }, ?_, rfl,
            fun q => (hstates q).1, fun q => (hstates q).2, fun p => ?_, hnodup⟩
          · simp [updateRemoteState, hremote, hlater.partialCmp.2, hme, hkp, hv, hround, hmem]
          · refine ⟨Or.inl, fun h => h.elim id ?_⟩
            rintro ⟨q, hq, -, hp⟩
            rw [List.mem_singleton.mp hq, hkp] at hp
            exact Option.some.inj hp ▸ hmem
        · have hmine : some proposer ≠ myProposer := fun h => hmem (hrooting proposer h.symm)
          refine ⟨{ r with nodeStates := Function.update r.nodeStates pid (remote pid) }.hearProposer
            graph proposer, ?_, rfl, fun q => (hstates q).1, fun q => (hstates q).2, fun p => ?_, ?_⟩
          · simp [updateRemoteState, hremote, hlater.partialCmp.2, hme, hkp, hv, hround, hmem, hmine]
          · simp only [hearProposer, List.mem_append, List.mem_singleton]
            constructor
            · rintro (h | rfl)
              · exact Or.inl h
              · exact Or.inr ⟨pid, rfl, hno, hkp⟩
            · rintro (h | ⟨q, rfl, -, hp⟩)
              · exact Or.inl h
              · exact Or.inr (Option.some.inj (hp.symm.trans hkp))
          · exact List.nodup_append.mpr ⟨hnodup, List.nodup_singleton _, fun a ha b hb =>
              fun hab => hmem (List.mem_singleton.mp hb ▸ hab ▸ ha)⟩

theorem Updated.append {r r' r'' : RoundState n} {remote : Fin n → NodeState n} {pid : Fin n}
    {pids : List (Fin n)} (hpid : pid ∉ pids) (h : Updated r remote [pid] r')
    (h' : Updated r' remote pids r'') : Updated r remote (pid :: pids) r'' := by
  have hsame : ∀ q ∈ pids, r'.nodeStates q = r.nodeStates q := fun q hq =>
    h.skipped q (Or.inl fun hmem => hpid (List.mem_singleton.mp hmem ▸ hq))
  have hout : r''.nodeStates pid = r'.nodeStates pid := h'.skipped pid (Or.inl hpid)
  refine ⟨h'.myPid.trans h.myPid, fun q hq => ?_, fun q hq hno => ?_, fun p => ?_, h'.nodup⟩
  · by_cases hmem : q ∈ pids
    · have hq : Before (remote q) (r.nodeStates q) :=
        hq.resolve_left fun hnot => hnot (List.mem_cons_of_mem pid hmem)
      rw [h'.skipped q (Or.inr (hsame q hmem ▸ hq)), hsame q hmem]
    · rw [h'.skipped q (Or.inl hmem)]
      refine h.skipped q (hq.imp_left fun hnot hmem' => hnot ?_)
      exact List.mem_singleton.mp hmem' ▸ List.mem_cons_self
  · rcases List.mem_cons.mp hq with rfl | hq
    · exact hout.trans (h.taken q List.mem_cons_self hno)
    · exact h'.taken q hq (hsame q hq ▸ hno)
  · rw [h'.proposers, h.proposers, or_assoc]
    refine or_congr_right ⟨?_, ?_⟩
    · rintro (⟨q, hq, hno, hp⟩ | ⟨q, hq, hno, hp⟩)
      · exact ⟨q, List.mem_singleton.mp hq ▸ List.mem_cons_self, hno, hp⟩
      · exact ⟨q, List.mem_cons_of_mem pid hq, hsame q hq ▸ hno, hp⟩
    · rintro ⟨q, hq, hno, hp⟩
      rcases List.mem_cons.mp hq with rfl | hq
      · exact Or.inl ⟨q, List.mem_cons_self, hno, hp⟩
      · exact Or.inr ⟨q, hq, (hsame q hq).symm ▸ hno, hp⟩

theorem updateRemoteStates_loop (hhist : ∀ pid, History graph pid (hist pid)) {report : Report n}
    {remote : Fin n → NodeState n} (hremote : ∀ pid, report.nodeState graph pid = some (remote pid))
    (hpoint : ∀ pid, remote pid ∈ hist pid) {myProposer : Option (Fin n)} {pids : List (Fin n)}
    (hpids : pids.Nodup) {r : RoundState n} (hknown : ∀ pid ∈ pids, r.nodeStates pid ∈ hist pid)
    (hown : ∀ pid ∈ pids, pid = r.myPid → Before (remote pid) (r.nodeStates pid))
    (hrooting : ∀ p, myProposer = some p → p ∈ r.proposers) (hnodup : r.proposers.Nodup) :
    ∃ r', pids.foldlM (updateRemoteState report graph myProposer) r = some r' ∧
      Updated r remote pids r' := by
  induction pids generalizing r with
  | nil => exact ⟨r, rfl, rfl, fun _ _ => rfl, by simp, by simp, hnodup⟩
  | cons pid pids ih =>
      obtain ⟨hpid, hpids⟩ := List.nodup_cons.mp hpids
      obtain ⟨r', hrun, hupd⟩ := updateRemoteState_ok hhist hremote hpoint
        (hknown pid List.mem_cons_self) (hown pid List.mem_cons_self) hrooting hnodup
      have hsame : ∀ q ∈ pids, r'.nodeStates q = r.nodeStates q := fun q hq =>
        hupd.skipped q (Or.inl fun hmem => hpid (List.mem_singleton.mp hmem ▸ hq))
      obtain ⟨r'', hrun', hupd'⟩ := ih hpids
        (fun q hq => by
          rw [hsame q hq]
          exact hknown q (List.mem_cons_of_mem pid hq))
        (fun q hq hme => by
          rw [hsame q hq]
          exact hown q (List.mem_cons_of_mem pid hq) (hme.trans hupd.myPid))
        (fun p hp => (hupd.proposers p).mpr (Or.inl (hrooting p hp))) hupd.nodup
      refine ⟨r'', ?_, hupd.append hpid hupd'⟩
      rw [List.foldlM_cons, hrun]
      exact hrun'

theorem updateRemoteStates_ok (hhist : ∀ pid, History graph pid (hist pid)) {report : Report n}
    {remote : Fin n → NodeState n} (hremote : ∀ pid, report.nodeState graph pid = some (remote pid))
    (hpoint : ∀ pid, remote pid ∈ hist pid) {r : RoundState n} (hr : r.Informed hist) :
    ∃ r', r.updateRemoteStates graph report = some r' ∧ Updated r remote (List.finRange n) r' ∧
      r'.Informed hist := by
  obtain ⟨r', hrun, hupd⟩ := updateRemoteStates_loop hhist hremote hpoint (List.nodup_finRange n)
    (fun pid _ => hr.known pid) (fun pid _ hme => by subst hme; exact hr.own _ (hpoint _))
    hr.rooting hr.nodup
  have hme : r'.myState = r.myState := by
    rw [myState, hupd.myPid]
    exact hupd.skipped r.myPid (Or.inr (hr.own _ (hpoint _)))
  refine ⟨r', hrun, hupd, fun pid => ?_, fun s hs => ?_, fun p hp => ?_, hupd.nodup⟩
  · by_cases h : Before (remote pid) (r.nodeStates pid)
    · exact (hupd.skipped pid (Or.inr h)) ▸ hr.known pid
    · exact (hupd.taken pid (List.mem_finRange pid) h) ▸ hpoint pid
  · rw [hme]
    exact hr.own s (hupd.myPid ▸ hs)
  · rw [hme] at hp
    exact (hupd.proposers p).mpr (Or.inl (hr.rooting p hp))

def mergeAll (graph : PropagationGraphs n) (r : RoundState n) (reports : List (Report n)) :
    Option (RoundState n) :=
  reports.foldlM (fun r report => r.updateRemoteStates graph report) r

end RoundState

open RoundState (Informed Updated mergeAll)

def Reported (graph : PropagationGraphs n) (reports : List (Report n)) (pid : Fin n)
    (s : NodeState n) : Prop :=
  ∃ report ∈ reports, report.nodeState graph pid = some s

-- Every report shows a point of the history of every process.
def Faithful (graph : PropagationGraphs n) (hist : Fin n → List (NodeState n))
    (reports : List (Report n)) : Prop :=
  ∀ report ∈ reports, ∀ pid, ∃ s ∈ hist pid, report.nodeState graph pid = some s

def SamePoints (graph : PropagationGraphs n) (reports reports' : List (Report n)) : Prop :=
  ∀ pid s, Reported graph reports pid s ↔ Reported graph reports' pid s

theorem Faithful.remote {report : Report n} {reports : List (Report n)}
    (h : Faithful graph hist (report :: reports)) :
    ∃ remote : Fin n → NodeState n, (∀ pid, remote pid ∈ hist pid) ∧
      ∀ pid, report.nodeState graph pid = some (remote pid) := by
  choose remote hpoint hremote using h report List.mem_cons_self
  exact ⟨remote, hpoint, hremote⟩

theorem Faithful.tail {report : Report n} {reports : List (Report n)}
    (h : Faithful graph hist (report :: reports)) : Faithful graph hist reports :=
  fun report' hmem => h report' (List.mem_cons_of_mem report hmem)

theorem Faithful.mem {reports : List (Report n)} (h : Faithful graph hist reports) {pid : Fin n}
    {s : NodeState n} (hs : Reported graph reports pid s) : s ∈ hist pid := by
  obtain ⟨report, hmem, hstate⟩ := hs
  obtain ⟨t, ht, hstate'⟩ := h report hmem pid
  exact Option.some.inj (hstate'.symm.trans hstate) ▸ ht

theorem reported_cons {report : Report n} {reports : List (Report n)} {pid : Fin n}
    {s t : NodeState n} (h : report.nodeState graph pid = some t) :
    Reported graph (report :: reports) pid s ↔ s = t ∨ Reported graph reports pid s := by
  simp only [Reported, List.exists_mem_cons_iff, h, Option.some.injEq, eq_comm (a := t)]

structure Merged (hist : Fin n → List (NodeState n)) (init : RoundState n)
    (points : Fin n → NodeState n → Prop) (r : RoundState n) : Prop where
  informed : r.Informed hist
  myPid : r.myPid = init.myPid
  mem : ∀ pid, r.nodeStates pid = init.nodeStates pid ∨ points pid (r.nodeStates pid)
  before : ∀ pid, Before (init.nodeStates pid) (r.nodeStates pid)
  latest : ∀ pid s, points pid s → Before s (r.nodeStates pid)
  known : ∀ p ∈ init.proposers, p ∈ r.proposers
  heard : ∀ pid p, r.nodeStates pid ≠ init.nodeStates pid →
    (r.nodeStates pid).kProposer = some p → p ∈ r.proposers
  named : ∀ p ∈ r.proposers, p ∈ init.proposers ∨ ∃ pid s, points pid s ∧
    ¬ Before s (init.nodeStates pid) ∧ s.kProposer = some p

theorem Merged.start {init : RoundState n} (h : init.Informed hist) :
    Merged hist init (fun _ _ => False) init :=
  ⟨h, rfl, fun _ => Or.inl rfl, fun _ => Before.refl _, fun _ _ h => h.elim, fun _ h => h,
    fun _ _ h => absurd rfl h, fun _ h => Or.inl h⟩

theorem Merged.updated (hhist : ∀ pid, History graph pid (hist pid)) {init r r' : RoundState n}
    {points : Fin n → NodeState n → Prop} (hm : Merged hist init points r)
    {remote : Fin n → NodeState n} (hpoint : ∀ pid, remote pid ∈ hist pid)
    (hupd : Updated r remote (List.finRange n) r') (hinf : r'.Informed hist) :
    Merged hist init (fun pid s => points pid s ∨ s = remote pid) r' := by
  have hstate : ∀ pid, r'.nodeStates pid = r.nodeStates pid ∧ Before (remote pid) (r.nodeStates pid) ∨
      r'.nodeStates pid = remote pid ∧ ¬ Before (remote pid) (r.nodeStates pid) ∧
        Before (r.nodeStates pid) (remote pid) := by
    intro pid
    by_cases h : Before (remote pid) (r.nodeStates pid)
    · exact Or.inl ⟨hupd.skipped pid (Or.inr h), h⟩
    · refine Or.inr ⟨hupd.taken pid (List.mem_finRange pid) h, h, ?_⟩
      exact ((hhist pid).total (hpoint pid) (hm.informed.known pid)).resolve_left h
  refine ⟨hinf, hupd.myPid.trans hm.myPid, fun pid => ?_, fun pid => ?_, fun pid s hs => ?_,
    fun p hp => (hupd.proposers p).mpr (Or.inl (hm.known p hp)), fun pid p hne hp => ?_, fun p hp => ?_⟩
  · rcases hstate pid with ⟨h, -⟩ | ⟨h, -⟩
    · rw [h]
      exact (hm.mem pid).imp_right Or.inl
    · exact Or.inr (Or.inr h)
  · rcases hstate pid with ⟨h, -⟩ | ⟨h, -, hle⟩
    · exact h ▸ hm.before pid
    · exact h ▸ (hm.before pid).trans hle
  · rcases hstate pid with ⟨h, hle⟩ | ⟨h, -, hle⟩ <;> rw [h]
    · exact hs.elim (hm.latest pid s) fun heq => heq ▸ hle
    · exact hs.elim (fun hp => (hm.latest pid s hp).trans hle) fun heq => heq ▸ Before.refl _
  · rw [hupd.proposers]
    rcases hstate pid with ⟨h, -⟩ | ⟨h, hno, -⟩
    · rw [h] at hne hp
      exact Or.inl (hm.heard pid p hne hp)
    · exact Or.inr ⟨pid, List.mem_finRange pid, hno, h ▸ hp⟩
  · rcases (hupd.proposers p).mp hp with hp | ⟨pid, -, hno, hkp⟩
    · refine (hm.named p hp).imp_right ?_
      rintro ⟨pid, s, hs, h⟩
      exact ⟨pid, s, Or.inl hs, h⟩
    · exact Or.inr ⟨pid, remote pid, Or.inr rfl, fun h => hno (h.trans (hm.before pid)), hkp⟩

theorem mergeAll_merged (hhist : ∀ pid, History graph pid (hist pid)) {init r : RoundState n}
    {points : Fin n → NodeState n → Prop} (hm : Merged hist init points r) {reports : List (Report n)}
    (hf : Faithful graph hist reports) :
    ∃ r', mergeAll graph r reports = some r' ∧
      Merged hist init (fun pid s => points pid s ∨ Reported graph reports pid s) r' ∧
      ∀ p ∈ r.proposers, p ∈ r'.proposers := by
  induction reports generalizing r points with
  | nil =>
      refine ⟨r, rfl, ?_, fun _ h => h⟩
      simpa [Reported] using hm
  | cons report reports ih =>
      obtain ⟨remote, hpoint, hremote⟩ := hf.remote
      obtain ⟨r₁, hrun, hupd, hinf⟩ :=
        RoundState.updateRemoteStates_ok hhist hremote hpoint hm.informed
      obtain ⟨r', hrun', hm', hgrow⟩ := ih (hm.updated hhist hpoint hupd hinf) hf.tail
      refine ⟨r', ?_, ?_, fun p hp => hgrow p ((hupd.proposers p).mpr (Or.inl hp))⟩
      · rw [mergeAll, List.foldlM_cons, hrun]
        exact hrun'
      · have hpoints : (fun pid s => (points pid s ∨ s = remote pid) ∨ Reported graph reports pid s) =
            fun pid s => points pid s ∨ Reported graph (report :: reports) pid s := by
          funext pid s
          rw [reported_cons (hremote pid), or_assoc]
        exact hpoints ▸ hm'

end KCensus.Census

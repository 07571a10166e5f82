import KCensus.Slots.Reach
import KCensus.Slots.Upkeep

namespace KCensus.Slots

open Lib.Turn (Meets)
open Turn ConsensusShard

variable {n : Nat} {R : Type}

theorem Event.carried_of_packetsTo {c : Cluster n} {p q : Fin n} {e : Event n} {packet : Packet n}
    (hp : packet ∈ e.packetsTo c p q) : e.carried = some packet.msg := by
  cases e with
  | broadcast sent priority =>
    rw [Event.packetsTo] at hp
    split at hp
    · cases List.mem_singleton.1 hp
      rfl
    · cases hp
  | send sent target =>
    rw [Event.packetsTo] at hp
    split at hp
    · cases List.mem_singleton.1 hp
      rfl
    · cases hp
  | _ => cases hp

-- What every process keeps to, given the run so far, and what is true of the run for that.
structure Lasting (d : Deployment n R) (y : List (Fin n × Event n) → Fin n → Upkeep n R)
    (base : List (Fin n × Event n) → Prop) : Prop where
  upheld : ∀ past p order, (y past p).Upheld d.cluster p order (d.algorithm p order)
  ended : ∀ {past p s}, (y past p).fair s → base (past ++ s.sinks.map (Prod.mk p))
  start : base []
  fresh : ∀ p, (y [] p).good (wakeUp (SleepingShard.new p) (World.pristine d p))
  flush : ∀ {past p s}, (y past p).good s →
    (y (past ++ s.sinks.map (Prod.mk p)) p).good { s with sinks := [] }
  others : ∀ {past p q s} {said : List (Event n)}, q ≠ p → base (past ++ said.map (Prod.mk p)) →
    s.sinks = [] → (y past q).good s → (y (past ++ said.map (Prod.mk p)) q).good s
  heard : ∀ {past p q e} {packet : Packet n}, base past → (q, e) ∈ past →
    packet ∈ e.packetsTo d.cluster q p → (y past p).heard packet.msg
  arrive : ∀ {past p q s e} {packet : Packet n}, (y past p).good s → (q, e) ∈ past →
    packet ∈ e.packetsTo d.cluster q p → (y past p).Keeps (do
      emit (.received packet.msg.src packet)
      storeValue packet) s
  drop : ∀ {past p src s} {packet : Packet n}, (y past p).good s → packet.value = none →
    (y past p).good { s with sinks := s.sinks ++ [.received src packet] }
  wake : ∀ {past p state spare} {other : World n R}, World.Reachable d other →
    World.Spare d p other spare → (y past p).good (wakeUp state (World.pristine d p)) →
    (y past p).good (wakeUp state spare)
  doze : ∀ {past p s} {w : World n R}, World.Reachable d w → w.crashed p = none →
    w.places p = .awake s → d.canSleep p s = true → (y past p).good s →
    (y past p).good (wakeUp s.fallAsleep (World.pristine d p))

namespace World

variable {d : Deployment n R} {w w' other : World n R} {p q src : Fin n} {s spare : ConsensusShard n R}
  {l : Label n}

def Sourced (d : Deployment n R) (w : World n R) : Prop :=
  ∀ src dest, ∀ packet ∈ w.links src dest, ∃ e, (src, e) ∈ w.hist ∧
    packet ∈ e.packetsTo d.cluster src dest

theorem Sourced.popLink (h : w.Sourced d) : (w.popLink src p).Sourced d := by
  intro src' dest packet hp
  refine h src' dest packet ?_
  simp only [World.popLink] at hp
  rcases eq_or_ne src' src with rfl | hne
  · simp only [Function.update_self] at hp
    rcases eq_or_ne dest p with rfl | hne
    · rw [Function.update_self] at hp
      exact List.mem_of_mem_tail hp
    · rwa [Function.update_of_ne hne] at hp
  · rwa [Function.update_of_ne hne] at hp

theorem Sourced.settle (h : w.Sourced d) {α : Type} (r : EStateM.Result Panic (ConsensusShard n R) α) :
    (w.settle d p r).Sourced d := by
  intro src dest packet hp
  have hold : packet ∈ w.links src dest → ∃ e, (src, e) ∈ (w.settle d p r).hist ∧
      packet ∈ e.packetsTo d.cluster src dest := fun hp => by
    obtain ⟨e, he, hpacket⟩ := h src dest packet hp
    exact ⟨e, List.mem_append_left _ he, hpacket⟩
  rcases eq_or_ne src p with rfl | hne
  · simp only [World.settle, Function.update_self] at hp
    rcases List.mem_append.1 hp with hp | hp
    · exact hold hp
    · obtain ⟨e, he, hpacket⟩ := List.mem_flatMap.1 hp
      exact ⟨e, List.mem_append_right _ (List.mem_map_of_mem he), hpacket⟩
  · simp only [World.settle, Function.update_of_ne hne] at hp
    exact hold hp

theorem Reachable.sourced (h : Reachable d w) : w.Sourced d := by
  induction h with
  | init => exact fun _ _ _ hp => absurd hp List.not_mem_nil
  | @step w w' other spare l hw ho hs hstep ih iho =>
    cases l with
    | submit p command order =>
      rw [World.step] at hstep
      split at hstep
      · cases hstep
        exact ih.settle _
      · cases hstep
    | receive src p order =>
      rw [World.step] at hstep
      split at hstep
      · cases hstep
      · split at hstep
        · dsimp only at hstep
          split at hstep
          · cases hstep
            intro src' dest packet hp
            obtain ⟨e, he, hpacket⟩ := ih.popLink src' dest packet hp
            exact ⟨e, List.mem_append_left _ he, hpacket⟩
          · cases hstep
            exact ih.popLink.settle _
        · cases hstep
    | sleep p =>
      rw [World.step] at hstep
      split at hstep
      · cases hstep
      · split at hstep
        · cases hstep
          exact ih
        · cases hstep

structure Lasts (d : Deployment n R) (y : List (Fin n × Event n) → Fin n → Upkeep n R)
    (base : List (Fin n × Event n) → Prop) (w : World n R) : Prop where
  base : base w.hist
  good : ∀ p, w.crashed p = none → (y w.hist p).good (w.meet (pristine d p) p)

variable {y : List (Fin n × Event n) → Fin n → Upkeep n R} {base : List (Fin n × Event n) → Prop}

theorem Lasts.meet (hy : Lasting d y base) (h : w.Lasts d y base) (ho : Reachable d other)
    (hs : Spare d p other spare) (hc : w.crashed p = none) : (y w.hist p).good (w.meet spare p) := by
  have hgood := h.good p hc
  rw [World.meet] at hgood ⊢
  split at hgood
  · exact hgood
  · exact hy.wake ho hs hgood

theorem Lasts.settle (hy : Lasting d y base) (h : w.Lasts d y base)
    (hidle : ∀ q, (w.meet (pristine d q) q).sinks = []) {α : Type} {m : Turn n R α}
    (hm : (y w.hist p).Keeps m s) : (w.settle d p (m s)).Lasts d y base := by
  have hbase : base (w.settle d p (m s)).hist := by
    rw [Upkeep.Keeps, Meets] at hm
    refine hy.ended ?_
    cases hrun : m s with
    | ok a t =>
      rw [hrun] at hm
      exact (hy.upheld w.hist p .same).fair hm
    | error e t =>
      rw [hrun] at hm
      exact hm
  refine ⟨hbase, fun q hc => ?_⟩
  rcases eq_or_ne q p with rfl | hne
  · have hself : (w.settle d q (m s)).meet (pristine d q) q =
        { Lib.Turn.state (m s) with sinks := [] } := by
      simp only [World.meet, World.settle, Function.update_self]
    have hfail : failure (m s) = none := (Function.update_self q _ _).symm.trans hc
    rw [hself]
    rw [Upkeep.Keeps, Meets] at hm
    refine hy.flush ?_
    cases hrun : m s with
    | ok a t =>
      rw [hrun] at hm
      exact hm
    | error e t =>
      rw [hrun] at hfail
      cases hfail
  · have hsame : (w.settle d p (m s)).meet (pristine d q) q = w.meet (pristine d q) q := by
      simp only [World.meet, World.settle, Function.update_of_ne hne]
    rw [hsame]
    exact hy.others hne hbase (hidle q) (h.good q ((Function.update_of_ne hne ..).symm.trans hc))

variable [NeZero n] {mentions : (Nat → Prop) → (Nat → Prop) → R → Prop}
  {committer : Nat → Option (Fin n)} {named : Prop}

theorem Reachable.lasts (hy : Lasting d y base) (hr : Regular d mentions committer named)
    (h : Reachable d w) : w.Lasts d y base := by
  induction h with
  | init => exact ⟨hy.start, fun p _ => hy.fresh p⟩
  | @step w w' other spare l hw ho hs hstep ih iho =>
    have hsound := hw.sound hr
    have hidle : ∀ q, (w.meet (pristine d q) q).sinks = [] := fun q =>
      (hsound.meet ⟨rfl, rfl, rfl, rfl, fun K held => hr.fresh q K held⟩).2.1
    cases l with
    | submit p command order =>
      rw [World.step] at hstep
      split at hstep
      · rename_i hc
        cases hstep
        exact ih.settle hy hidle ((hy.upheld _ p order).onCommand (ih.meet hy ho hs hc))
      · cases hstep
    | receive src p order =>
      rw [World.step] at hstep
      split at hstep
      · cases hstep
      · rename_i packet rest hlink
        split at hstep
        · rename_i hc
          dsimp only at hstep
          have hpop : (w.popLink src p).Lasts d y base := ⟨ih.base, ih.good⟩
          split at hstep
          · rename_i hnoop
            cases hstep
            have hvalue : packet.value = none := by
              rw [Place.isNoop.eq_def] at hnoop
              split at hnoop
              · cases hnoop
              · rw [Bool.and_eq_true, Option.isNone_iff_eq_none] at hnoop
                exact hnoop.1
            have hnote : base (w.hist ++ [Event.received src packet].map (Prod.mk p)) ∧
                (y (w.hist ++ [Event.received src packet].map (Prod.mk p)) p).good
                  (w.meet (pristine d p) p) := by
              have hdrop : (y w.hist p).good { w.meet (pristine d p) p with
                  sinks := (w.meet (pristine d p) p).sinks ++ [.received src packet] } :=
                hy.drop (ih.good p hc) hvalue
              have hsame : { w.meet (pristine d p) p with sinks := [] } = w.meet (pristine d p) p :=
                congrArg (fun sinks => { w.meet (pristine d p) p with sinks }) (hidle p).symm
              have hbase := hy.ended ((hy.upheld w.hist p .same).fair hdrop)
              have hgood := hy.flush hdrop
              rw [hidle p] at hbase hgood
              exact ⟨hbase, hsame ▸ hgood⟩
            refine ⟨hnote.1, fun q hcq => ?_⟩
            rcases eq_or_ne q p with rfl | hne
            · exact hnote.2
            · exact hy.others hne hnote.1 (hidle q) (ih.good q hcq)
          · cases hstep
            obtain ⟨e, he, hpacket⟩ := hw.sourced src p packet (hlink ▸ List.mem_cons_self)
            have hheard := hy.heard ih.base he hpacket
            have hgood := hpop.meet hy ho hs hc
            exact hpop.settle hy hidle
              ((hy.upheld _ p order).onPacket (hy.arrive hgood he hpacket) hheard)
        · cases hstep
    | sleep p =>
      rw [World.step] at hstep
      split at hstep
      · cases hstep
      · rename_i shard hplace
        split at hstep
        · rename_i hrest
          cases hstep
          refine ⟨ih.base, fun q hc => ?_⟩
          have hgood := ih.good q hc
          rcases eq_or_ne q p with rfl | hne
          · rw [World.meet, hplace] at hgood
            simp only [World.meet, Function.update_self]
            exact hy.doze hw hc hplace hrest.2 hgood
          · simp only [World.meet, Function.update_of_ne hne] at hgood ⊢
            exact hgood
        · cases hstep

end World

end KCensus.Slots

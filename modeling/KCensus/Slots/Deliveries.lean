import KCensus.Slots.Frugal
import KCensus.Slots.Lasting

namespace KCensus.Slots

open Lib.Turn (Meets)
open Turn Conduct ConsensusShard

variable {n : Nat} {R : Type}

namespace Event

def receipt : Event n → Option (Fin n × Packet n)
  | received src packet => some (src, packet)
  | _ => none

-- Every message says whom it is from.
def Signed (me : Fin n) (e : Event n) : Prop := ∀ m, e.carried = some m → m.src = me

variable {me : Fin n} {e : Event n}

theorem Quiet.receipt (h : e.Quiet me) : e.receipt = none := by
  cases e with
  | received src packet => exact h.elim
  | _ => rfl

theorem Quiet.signed (h : e.Quiet me) : e.Signed me := by
  intro m hm
  cases e with
  | broadcast packet priority =>
    cases hm
    exact h.1
  | send packet dest =>
    cases hm
    exact h.1
  | _ => cases hm

end Event

section turns

variable {me : Fin n} {s t : ConsensusShard n R} {said : List (Event n)} {v : Nat}
  {value : CommandBatch n}

-- Nothing is taken in meanwhile.
def Deaf (me : Fin n) (e : Event n) : Prop := e.receipt = none ∧ e.Signed me

theorem deaf_of_sends (h : Sends me v value said) : ∀ e ∈ said, Deaf me e := by
  have hquiet : ∀ {l : List (Event n)}, (∀ e ∈ l, e.Quiet me) → ∀ e ∈ l, Deaf me e :=
    fun hl e he => ⟨(hl e he).receipt, (hl e he).signed⟩
  rcases h with hall | ⟨before, packet, priority, rfl, hsrc, -, -, hbefore⟩
  · exact hquiet hall
  · intro e he
    rcases List.mem_append.1 he with he | he
    · exact hquiet hbefore e he
    · cases List.mem_singleton.1 he
      exact ⟨rfl, fun m hm => by cases hm; exact hsrc⟩

-- A turn that has taken in what is `expected`.
structure Heeds (me : Fin n) (expected : List (Fin n × Packet n)) (s : ConsensusShard n R) : Prop where
  receipts : s.sinks.filterMap Event.receipt = expected
  signed : ∀ e ∈ s.sinks, e.Signed me

theorem Heeds.deaf {expected : List (Fin n × Packet n)} (h : Heeds me expected s)
    (hsaid : Said (Deaf me) s t) : Heeds me expected t := by
  obtain ⟨said, hsinks, hdeaf⟩ := hsaid
  refine ⟨?_, fun e he => ?_⟩
  · rw [hsinks, List.filterMap_append, h.receipts]
    have hnone : said.filterMap Event.receipt = [] :=
      List.filterMap_eq_nil_iff.2 fun e he => (hdeaf e he).1
    rw [hnone, List.append_nil]
  · rw [hsinks] at he
    exact (List.mem_append.1 he).elim (h.signed e) fun he => (hdeaf e he).2

theorem Heeds.one {expected : List (Fin n × Packet n)} {e : Event n} (h : Heeds me expected s)
    (he : Deaf me e) (hsinks : t.sinks = s.sinks ++ [e]) : Heeds me expected t :=
  h.deaf ⟨[e], hsinks, fun _ hm => List.mem_singleton.1 hm ▸ he⟩

def heeding (me : Fin n) (expected : List (Fin n × Packet n)) : Upkeep n R where
  good s := Heeds me expected s ∧ s.myQueuedCommands = [] ∧ s.readTracker.ReadsOnly
  taken _ s := Heeds me expected s ∧ s.myQueuedCommands = [] ∧ s.readTracker.ReadsOnly
  handing _ s := Heeds me expected s ∧ s.myQueuedCommands = [] ∧ s.readTracker.ReadsOnly
  fair := Heeds me expected
  heard _ := True

variable {algo : ConsensusShardTrait n R}
  {expected : List (Fin n × Packet n)}

theorem heeding_upheld (c : Cluster n) (order : HashOrder n) (hfrugal : Frugal me algo) :
    (heeding me expected : Upkeep n R).Upheld c me order algo := by
  have hsilent : ∀ {e : Event n}, e.receipt = none → e.carried = none → Deaf me e := fun hr hc =>
    ⟨hr, fun m hm => by cases hc.symm.trans hm⟩
  have hquiet : ∀ {s t : ConsensusShard n R}, Heeds me expected s ∧ s.myQueuedCommands = [] ∧
      s.readTracker.ReadsOnly → Hushed me s t →
      Heeds me expected t ∧ t.myQueuedCommands = [] ∧ t.readTracker.ReadsOnly := fun h ht =>
    ⟨h.1.deaf (ht.said.mono fun e he => ⟨he.receipt, he.signed⟩), ht.mine.trans h.2.1, ht.reads h.2.2⟩
  have hnew : ∀ {s t : ConsensusShard n R} {value}, Heeds me expected s ∧ s.myQueuedCommands = [] ∧
      s.readTracker.ReadsOnly → Introduced me s value t →
      Heeds me expected t ∧ t.myQueuedCommands = [] ∧ t.readTracker.ReadsOnly := fun h ht => by
    obtain ⟨said, hsaid, hsends⟩ := ht.said
    exact ⟨(h.1.one (t := withCreated _ _ _) (hsilent rfl rfl) rfl).deaf ⟨said, hsaid, deaf_of_sends hsends⟩,
      ht.mine.trans h.2.1, ht.reads h.2.2⟩
  have hover : Handover (heeding me expected : Upkeep n R) me fun _ _ s =>
      Heeds me expected s ∧ s.myQueuedCommands = [] ∧ s.readTracker.ReadsOnly :=
    { fair := fun h => h.1
      fairDue := fun h => h.1
      same := fun hsame h => by
        obtain ⟨hreceipts, hsigned⟩ := h
        rw [← hsame] at hreceipts hsigned
        exact ⟨hreceipts, hsigned⟩
      hushed := hquiet
      read := fun h _ => ⟨h.1.one (hsilent rfl rfl) rfl, h.2⟩
      write := fun _ _ h _ => ⟨h.1.one (hsilent rfl rfl) rfl, h.2⟩
      batch := fun _ h => ⟨⟨h.1.receipts, h.1.signed⟩, h.2⟩
      next := fun _ h _ _ => ⟨h.1.one (hsilent rfl rfl) rfl, h.2⟩
      done := id }
  exact .of_frugal hfrugal (fun _ => trivial) (fun h => h.1) (fun h => h.2.1) hquiet
    (fun h => ⟨⟨h.1.receipts, h.1.signed⟩, h.2⟩)
    (fun h => ⟨h.1.one (hsilent rfl rfl) rfl, h.2⟩) (fun h _ => hquiet h)
    (fun h _ => hnew h) (fun h _ ht => (hquiet h ht).1) (fun h _ => hnew h) (fun h => h.2.2)
    (fun h _ => h)
    (fun h ht => ⟨h.1.one (hsilent rfl rfl) ht.sinks, ht.mine.trans h.2.1, ht.reads ▸ h.2.2⟩)
    fun h => hover.commitCommands (fun h => h.1) h

theorem heeding_arrive {packet : Packet n} (h : (heeding me []).good s) :
    (heeding me [(packet.msg.src, packet)]).Keeps (do
      emit (.received packet.msg.src packet)
      storeValue packet) s := by
  obtain ⟨⟨hreceipts, hsigned⟩, hmine, hreads⟩ := h
  have hheeds : ∀ {commands}, Heeds me [(packet.msg.src, packet)]
      { s with queuedCommands := commands, sinks := s.sinks ++ [.received packet.msg.src packet] } := by
    refine ⟨?_, fun e he => ?_⟩
    · rw [List.filterMap_append, hreceipts]
      rfl
    · rcases List.mem_append.1 he with hold | hnew
      · exact hsigned e hold
      · cases List.mem_singleton.1 hnew
        exact fun m hm => by cases hm
  rw [Upkeep.Keeps, Lib.Turn.meets_bind, emit, Lib.Turn.meets_modify, storeValue]
  split
  · exact ⟨hheeds, hmine, hreads⟩
  · split
    · exact hheeds
    · rw [storeRemoteCommand, Lib.Turn.meets_modify]
      split
      · exact ⟨hheeds, hmine, hreads⟩
      · exact ⟨hheeds, hmine, hreads⟩

end turns

def receiptsFrom (src : Fin n) (receipts : List (Fin n × Packet n)) : List (Packet n) :=
  receipts.filterMap fun r => if r.1 = src then some r.2 else none

def takenFrom (src p : Fin n) (hist : List (Fin n × Event n)) : List (Packet n) :=
  receiptsFrom src (hist.filterMap fun x => if x.1 = p then x.2.receipt else none)

def sentTo (c : Cluster n) (src p : Fin n) (hist : List (Fin n × Event n)) : List (Packet n) :=
  hist.flatMap fun x => if x.1 = src then x.2.packetsTo c src p else []

section histories

variable {hist : List (Fin n × Event n)} {said : List (Event n)} {src p q : Fin n} {c : Cluster n}

theorem takenFrom_said :
    takenFrom src p (hist ++ said.map (Prod.mk q)) =
      takenFrom src p hist ++ if q = p then receiptsFrom src (said.filterMap Event.receipt) else [] := by
  rw [takenFrom, List.filterMap_append, receiptsFrom, List.filterMap_append]
  refine congrArg (takenFrom src p hist ++ ·) ?_
  rw [List.filterMap_map]
  split
  · rename_i heq
    simp only [Function.comp_def, heq, if_pos]
    rfl
  · rename_i hne
    simp only [Function.comp_def, if_neg hne, List.filterMap_none, List.filterMap_nil]

theorem sentTo_said :
    sentTo c src p (hist ++ said.map (Prod.mk q)) =
      sentTo c src p hist ++ if q = src then said.flatMap (Event.packetsTo c src p) else [] := by
  rw [sentTo, List.flatMap_append]
  refine congrArg (sentTo c src p hist ++ ·) ?_
  rw [List.flatMap_map]
  split
  · rfl
  · exact List.flatMap_eq_nil_iff.2 fun _ _ => rfl

end histories

namespace World

variable {d : Deployment n R} {w w' : World n R} {p q src : Fin n}

structure Delivers (d : Deployment n R) (w : World n R) : Prop where
  fifo : ∀ src p, takenFrom src p w.hist ++ w.links src p = sentTo d.cluster src p w.hist
  signed : ∀ q e, (q, e) ∈ w.hist → e.Signed q
  mine : ∀ p, w.crashed p = none → (w.meet (pristine d p) p).myQueuedCommands = []

theorem Delivers.settle (h : w.Delivers d) (w' : World n R) (hhist : w'.hist = w.hist)
    (hplaces : w'.places = w.places) (hcrashed : w'.crashed = w.crashed)
    {expected : List (Fin n × Packet n)}
    (hlinks : ∀ src p, (if q = p then receiptsFrom src expected else []) ++ w'.links src p = w.links src p)
    {s : ConsensusShard n R} {α : Type} {m : Turn n R α} (hm : (heeding q expected).Keeps m s) :
    (w'.settle d q (m s)).Delivers d := by
  have hheeds : Heeds q expected (Lib.Turn.state (m s)) ∧
      (failure (m s) = none → (Lib.Turn.state (m s)).myQueuedCommands = []) := by
    rw [Upkeep.Keeps, Meets] at hm
    cases hrun : m s with
    | ok a t =>
      rw [hrun] at hm
      exact ⟨hm.1, fun _ => hm.2.1⟩
    | error e t =>
      rw [hrun] at hm
      exact ⟨hm, fun hfail => by cases hfail⟩
  have hsettled : (w'.settle d q (m s)).hist =
      w.hist ++ (Lib.Turn.state (m s)).sinks.map (Prod.mk q) := congrArg (· ++ _) hhist
  refine ⟨fun src p => ?_, fun q' e he => ?_, fun p hc => ?_⟩
  · have hsent : (w'.settle d q (m s)).links src p = w'.links src p ++
        if q = src then (Lib.Turn.state (m s)).sinks.flatMap (Event.packetsTo d.cluster src p) else [] := by
      rcases eq_or_ne src q with rfl | hne
      · simp only [World.settle, Function.update_self, if_pos]
      · simp only [World.settle, Function.update_of_ne hne, if_neg hne.symm, List.append_nil]
    rw [hsent, hsettled, takenFrom_said, sentTo_said, hheeds.1.receipts, ← h.fifo src p, ← hlinks src p]
    simp only [List.append_assoc]
  · rw [hsettled] at he
    rcases List.mem_append.1 he with hold | hnew
    · exact h.signed q' e hold
    · obtain ⟨e', he', heq⟩ := List.mem_map.1 hnew
      cases heq
      exact hheeds.1.signed e he'
  · rcases eq_or_ne p q with rfl | hne
    · have hfail : failure (m s) = none := (Function.update_self p _ _).symm.trans hc
      simp only [World.meet, World.settle, Function.update_self]
      exact hheeds.2 hfail
    · have hcrash : w.crashed p = none :=
        hcrashed ▸ (Function.update_of_ne hne ..).symm.trans hc
      have hmine := h.mine p hcrash
      simp only [World.meet, World.settle, Function.update_of_ne hne, hplaces]
      exact hmine

theorem Spare.mine {other : World n R} {spare : ConsensusShard n R} (hs : Spare d p other spare) :
    spare.myQueuedCommands = [] := by
  have hsleep := hs.2.2
  simp only [Deployment.canSleep, canSleep, Bool.and_eq_true, List.isEmpty_iff] at hsleep
  exact hsleep.1.2

variable [NeZero n] {mentions : (Nat → Prop) → (Nat → Prop) → R → Prop}
  {committer : Nat → Option (Fin n)} {named : Prop}

theorem Reachable.delivers (hfrugal : ∀ p order, Frugal p (d.algorithm p order))
    (hr : Regular d mentions committer named) (h : Reachable d w) : w.Delivers d := by
  induction h with
  | init => exact ⟨fun _ _ => rfl, fun _ _ he => absurd he List.not_mem_nil, fun _ _ => rfl⟩
  | @step w w' other spare l hw ho hs hstep ih iho =>
    have hempty := (ho.sound hr).spare hs
    have hready : ∀ p, p = l.pid → w.crashed p = none → (heeding p []).good (w.meet spare p) := by
      rintro p rfl hc
      obtain ⟨hsound, hsinks, -⟩ := (hw.sound hr).meet (p := l.pid) hempty
      refine ⟨⟨by rw [hsinks]; rfl, fun e he => ?_⟩, ?_, hsound.reads⟩
      · rw [hsinks] at he
        exact absurd he List.not_mem_nil
      · have hmine := ih.mine l.pid hc
        rw [World.meet] at hmine ⊢
        split at hmine
        · exact hmine
        · exact hs.mine
    cases l with
    | submit p command order =>
      rw [World.step] at hstep
      split at hstep
      · rename_i hc
        cases hstep
        refine ih.settle w rfl rfl rfl (fun src q => ?_)
          ((heeding_upheld d.cluster order (hfrugal p order)).onCommand (hready p rfl hc))
        split
        · rfl
        · rfl
      · cases hstep
    | receive src p order =>
      rw [World.step] at hstep
      split at hstep
      · cases hstep
      · rename_i packet rest hlink
        split at hstep
        · rename_i hc
          have hsrc : packet.msg.src = src := by
            obtain ⟨e, he, hpacket⟩ := hw.sourced src p packet (hlink ▸ List.mem_cons_self)
            exact ih.signed src e he _ (Event.carried_of_packetsTo hpacket)
          have hlinks : ∀ src' q, (if p = q then receiptsFrom src' [(src, packet)] else []) ++
              (w.popLink src p).links src' q = w.links src' q := by
            intro src' q
            rcases eq_or_ne src' src with rfl | hne
            · rcases eq_or_ne p q with rfl | hpq
              · simp [receiptsFrom, World.popLink, hlink]
              · simp [World.popLink, hpq, Function.update_of_ne hpq.symm]
            · simp [receiptsFrom, World.popLink, Function.update_of_ne hne, hne.symm]
          dsimp only at hstep
          split at hstep
          · cases hstep
            refine ⟨fun src' q => ?_, fun q e he => ?_, ih.mine⟩
            · have hhist : ((w.popLink src p).note p (.received src packet)).hist =
                  w.hist ++ [Event.received src packet].map (Prod.mk p) := rfl
              rw [hhist, takenFrom_said, sentTo_said, ← ih.fifo, ← hlinks src' q]
              have hsent : (if p = src' then
                  [Event.received src packet].flatMap (Event.packetsTo d.cluster src' q) else []) = [] := by
                split
                · rfl
                · rfl
              rw [hsent, List.append_nil, List.append_assoc]
              rfl
            · rcases List.mem_append.1 he with hold | hnew
              · exact ih.signed q e hold
              · cases List.mem_singleton.1 hnew
                exact fun m hm => by cases hm
          · cases hstep
            subst hsrc
            exact ih.settle (w.popLink packet.msg.src p) rfl rfl rfl hlinks
              ((heeding_upheld d.cluster order (hfrugal p order)).onPacket
                (heeding_arrive (hready p rfl hc)) trivial)
        · cases hstep
    | sleep p =>
      rw [World.step] at hstep
      split at hstep
      · cases hstep
      · rename_i shard hplace
        split at hstep
        · rename_i hrest
          cases hstep
          refine ⟨ih.fifo, ih.signed, fun q hc => ?_⟩
          have hmine := ih.mine q hc
          rcases eq_or_ne q p with rfl | hne
          · simp only [World.meet, Function.update_self]
            rfl
          · simp only [World.meet, Function.update_of_ne hne] at hmine ⊢
            exact hmine
        · cases hstep

end World

end KCensus.Slots

import KCensus.Deps.Fifo

namespace KCensus.Deps

open Relation

variable {n : Nat} [NeZero n]

-- What the log of a run promises whoever reads it.
structure Faithful (c : Cluster n) (hist : List (Fin n × Event n)) : Prop where
  arrived : ∀ p src packet, heardBy hist p src packet → src ≠ p ∧ saidTo hist src p packet
  valid : ∀ q e, (q, e) ∈ hist → e.Valid c q ∨ ∃ src packet, e = .received src packet

theorem Faithful.packet {c : Cluster n} {hist : List (Fin n × Event n)} (h : Faithful c hist) {src : Fin n}
    {packet : Packet n} (hs : said hist src packet) : packet.Valid c src := by
  obtain ⟨e, he, hp⟩ := hs
  exact Event.valid_packet (h.valid src e he) hp

namespace World

variable {c : Cluster n} {w w' : World n} {p : Fin n}

theorem Base.faithful (hw : Base c w) : Faithful c w.hist := ⟨hw.arrived, hw.valid⟩

theorem Opened.faithful (hw : Base c w) {s₁ s' : DepShard n} {heard : Fin n → Packet n → Prop}
    (ho : Opened c w p s₁) (hm : DepShard.Moves c p heard s₁ s') :
    Faithful c (w.hist ++ s'.sinks.map (Prod.mk p)) := by
  have hevents := ho.of_moves hm
  refine ⟨fun q src packet h => ?_, fun q e h => ?_⟩
  · rcases mem_log h with hold | ⟨rfl, hnew⟩
    · exact ⟨(hw.arrived q src packet hold).1, saidTo_mono (hw.arrived q src packet hold).2⟩
    · rcases hevents _ hnew with hv | ⟨src', packet', heq, hne, hsaid⟩
      · exact hv.elim
      · cases heq
        exact ⟨hne, saidTo_mono hsaid⟩
  · rcases mem_log h with hold | ⟨rfl, hnew⟩
    · exact hw.valid q e hold
    · exact (hevents e hnew).imp_right fun ⟨src, packet, heq, _⟩ => ⟨src, packet, heq⟩

end World

-- A property of a run and of one of its shards, as it stands before a change of that shard.
structure Scene (c : Cluster n) (K J : List (Fin n × Event n) → Fin n → DepShard n → Prop)
    (hist : List (Fin n × Event n)) (p : Fin n) (s : DepShard n) : Prop where
  faithful : Faithful c hist
  sane : DepShard.Sane c p s
  logged : ∀ e ∈ s.sinks, (p, e) ∈ hist
  known : K hist p s
  own : J hist p s
  all : ∀ q, ∃ t, K hist q t ∧ J hist q t

structure Stable (c : Cluster n) (K J : List (Fin n × Event n) → Fin n → DepShard n → Prop) :
    Prop where
  new : ∀ p, J [] p (DepShard.new c p)
  clear : ∀ {hist p s}, J hist p s → J hist p { s with sinks := [] }
  other : ∀ {hist p s q e}, q ≠ p → J hist p s → J (hist ++ [(q, e)]) p s
  arrive : ∀ {hist p s src packet s₁ events}, Scene c K J hist p s → src ≠ p →
    saidTo hist src p packet → Due c hist src p packet → DepShard.Arrives c p src s packet s₁ →
    s₁.sinks = s.sinks ++ events → J (hist ++ events.map (Prod.mk p)) p s₁
  move : ∀ {hist p s s' events}, Scene c K J hist p s →
    DepShard.Move c p (heardBy hist p) s s' → s'.sinks = s.sinks ++ events →
    J (hist ++ events.map (Prod.mk p)) p s'

abbrev Kept (c : Cluster n) (J : List (Fin n × Event n) → Fin n → DepShard n → Prop) : Prop :=
  Stable c (fun _ _ _ => True) J

namespace Stable

variable {c : Cluster n} {K J : List (Fin n × Event n) → Fin n → DepShard n → Prop}
  {hist : List (Fin n × Event n)} {p q : Fin n} {s : DepShard n}

theorem others (h : Stable c K J) (hq : q ≠ p) (events : List (Event n)) (hj : J hist p s) :
    J (hist ++ events.map (Prod.mk q)) p s := by
  induction events generalizing hist with
  | nil => exact (List.append_nil hist).symm ▸ hj
  | cons e events ih =>
    have := ih (h.other (e := e) hq hj)
    rwa [List.append_assoc] at this

theorem and (hk : Kept c K) (hj : Stable c K J) : Kept c fun hist p s => K hist p s ∧ J hist p s := by
  have hscene : ∀ {hist p s},
      Scene c (fun _ _ _ => True) (fun hist p s => K hist p s ∧ J hist p s) hist p s →
      Scene c (fun _ _ _ => True) K hist p s ∧ Scene c K J hist p s := by
    intro hist p s h
    refine ⟨⟨h.faithful, h.sane, h.logged, trivial, h.own.1, fun q => ?_⟩,
      ⟨h.faithful, h.sane, h.logged, h.own.1, h.own.2, fun q => ?_⟩⟩
    · obtain ⟨t, -, ht⟩ := h.all q
      exact ⟨t, trivial, ht.1⟩
    · obtain ⟨t, -, ht⟩ := h.all q
      exact ⟨t, ht⟩
  exact
    { new := fun p => ⟨hk.new p, hj.new p⟩
      clear := fun h => ⟨hk.clear h.1, hj.clear h.2⟩
      other := fun hq h => ⟨hk.other hq h.1, hj.other hq h.2⟩
      arrive := fun h hsrc hsaid hdue ha he =>
        ⟨hk.arrive (hscene h).1 hsrc hsaid hdue ha he, hj.arrive (hscene h).2 hsrc hsaid hdue ha he⟩
      move := fun h hm he => ⟨hk.move (hscene h).1 hm he, hj.move (hscene h).2 hm he⟩ }

theorem under {K' : List (Fin n × Event n) → Fin n → DepShard n → Prop} (h : Stable c K J)
    (hk : ∀ {hist p s}, K' hist p s → K hist p s) : Stable c K' J := by
  have hscene : ∀ {hist p s}, Scene c K' J hist p s → Scene c K J hist p s :=
    fun h => ⟨h.faithful, h.sane, h.logged, hk h.known, h.own, fun q => by
      obtain ⟨t, ht, htj⟩ := h.all q
      exact ⟨t, hk ht, htj⟩⟩
  exact
    { new := h.new
      clear := h.clear
      other := h.other
      arrive := fun hsc => h.arrive (hscene hsc)
      move := fun hsc => h.move (hscene hsc) }

end Stable

namespace World

variable {c : Cluster n} {w w' : World n} {p : Fin n} {s₁ s' : DepShard n}
  {J : List (Fin n × Event n) → Fin n → DepShard n → Prop}

theorem Turn.arrived (ht : Turn c w w' p s₁ s') (hw : Reachable c w) (hk : Kept c J)
    (hj : ∀ q, J w.hist q (w.shard c q)) : J (w.hist ++ s₁.sinks.map (Prod.mk p)) p s₁ := by
  have hbase := hw.sound.toBase
  cases ht.opens with
  | quiet =>
    rw [hbase.clean p, List.map_nil, List.append_nil]
    exact hj p
  | @arrival src packet _ hsrc hsaid ha =>
    have hscene : Scene c (fun _ _ _ => True) J w.hist p (w.shard c p) :=
      ⟨hbase.faithful, hbase.sane p, by simp [hbase.clean p], trivial, hj p,
        fun q => ⟨_, trivial, hj q⟩⟩
    have hnew : Event.received src packet ∈ s'.sinks := by
      obtain ⟨more, hmore, -⟩ := sinks_arrives (hbase.clean p) ha
      exact ht.moves.sinks_grow.subset (hmore ▸ List.mem_cons_self)
    obtain ⟨-, rest, hl⟩ := ht.flow.link hnew
    refine hk.arrive hscene hsrc hsaid (hw.due hsrc hl) ha ?_
    rw [hbase.clean p, List.nil_append]

theorem Turn.scene (ht : Turn c w w' p s₁ s') (hr : Reachable c w) (hk : Kept c J)
    (hj : ∀ q, J w.hist q (w.shard c q)) {s : DepShard n}
    (hm : DepShard.Moves c p (heardBy (w.hist ++ s₁.sinks.map (Prod.mk p)) p) s₁ s) :
    Scene c (fun _ _ _ => True) J (w.hist ++ s.sinks.map (Prod.mk p)) p s := by
  have hw := hr.sound.toBase
  have ho := ht.opens.opened hw
  have hscene : ∀ {s}, DepShard.Moves c p (heardBy (w.hist ++ s₁.sinks.map (Prod.mk p)) p) s₁ s →
      J (w.hist ++ s.sinks.map (Prod.mk p)) p s →
      Scene c (fun _ _ _ => True) J (w.hist ++ s.sinks.map (Prod.mk p)) p s := by
    intro s hms hown
    refine ⟨ho.faithful hw hms, DepShard.Moves.sane hms ho.sane, fun e he => ?_, trivial, hown,
      fun q => ?_⟩
    · exact List.mem_append_right _ (List.mem_map.2 ⟨e, he, rfl⟩)
    · by_cases hq : q = p
      · rw [hq]
        exact ⟨s, trivial, hown⟩
      · exact ⟨_, trivial, hk.others (Ne.symm hq) _ (hj q)⟩
  induction hm with
  | refl => exact hscene .refl (ht.arrived hr hk hj)
  | @tail s t hms hm ih =>
    obtain ⟨before, hbefore, -⟩ := DepShard.Moves.extends hms ho.sane
    obtain ⟨events, hevents, -⟩ := hm.extends (DepShard.Moves.sane hms ho.sane)
    have hheard : ∀ src packet, heardBy (w.hist ++ s₁.sinks.map (Prod.mk p)) p src packet →
        heardBy (w.hist ++ s.sinks.map (Prod.mk p)) p src packet := by
      intro src packet h
      rw [hbefore, List.map_append, ← List.append_assoc]
      exact heardBy_mono h
    have hmoved := hk.move ih (hm.mono hheard) hevents
    rw [List.append_assoc, ← List.map_append, ← hevents] at hmoved
    exact hscene (hms.tail hm) hmoved

theorem Turn.moved (ht : Turn c w w' p s₁ s') (hr : Reachable c w) (hk : Kept c J)
    (hj : ∀ q, J w.hist q (w.shard c q)) : J (w.hist ++ s'.sinks.map (Prod.mk p)) p s' :=
  (ht.scene hr hk hj ht.moves).own

theorem Turn.keeps (ht : Turn c w w' p s₁ s') (hw : Reachable c w) (hk : Kept c J)
    (hj : ∀ q, J w.hist q (w.shard c q)) (q : Fin n) : J w'.hist q (w'.shard c q) := by
  rw [ht.hist]
  by_cases hq : q = p
  · rw [hq, ht.shard_self]
    exact hk.clear (ht.moved hw hk hj)
  · rw [ht.shard_ne q hq]
    exact hk.others (Ne.symm hq) _ (hj q)

theorem Reachable.kept (h : Reachable c w) (hk : Kept c J) (p : Fin n) :
    J w.hist p (w.shard c p) := by
  induction h generalizing p with
  | init => exact hk.new p
  | step hr hs ih =>
    obtain ⟨-, q, s₁, s', ht⟩ := hr.sound.step hs
    exact ht.keeps hr hk ih p

end World

end KCensus.Deps

import KCensus.Deps.AcceptOrder
import KCensus.Deps.Acknowledged
import KCensus.Deps.Visibility

namespace KCensus.Deps

open Relation

variable {n : Nat} [NeZero n]

def Instance.Unanimous (c : Cluster n) (i : Instance n) : Prop :=
  i.allPreacceptsEndorse = true ∧ c.fastQuorum ≤ i.preacceptsCount

def Answered (heard : Fin n → Packet n → Prop) (id : Uid) (q : Fin n) : Prop :=
  ∃ acked value, heard q ⟨.preAcceptOk id acked, value⟩

namespace DepShard

variable {c : Cluster n} {me : Fin n} {heard : Fin n → Packet n → Prop} {s s' : DepShard n}

theorem mem_deliverTurn_cons {entry : Held n} {rest : List (Held n)}
    (hp : entry.2.isPreAccept = false) {held : Held n}
    (h : held ∈ (s.deliverTurn c me (entry :: rest)).2) :
    held ∈ rest ∨ ∃ key, (key, held) ∈ s.deferred := by
  obtain ⟨src, msg⟩ := entry
  unfold deliverTurn at h
  simp only [] at h
  split at h
  · exact Or.inl h
  · rename_i id _
    split at h
    · exact Or.inl h
    · split at h
      · exact Or.inl h
      · rcases List.mem_append.1 h with h | h
        · exact Or.inl h
        · rw [mem_heldFor, (Keeps.dispatch src hp s).deferred] at h
          exact Or.inr ⟨id, h⟩

theorem mem_handle_deferred {src : Fin n} {packet : Packet n} (ht : Timely src s packet)
    (hs : Sane c me s) {held : Held n} (h : held ∈ (s.handle c me src packet).2) :
    ∃ key, (key, held) ∈ s.deferred := by
  have habout : packet.msg.isPreAccept = false → packet.msg ≠ .forward → ∀ id,
      held ∈ (s.handleAbout c me id src packet).2 → ∃ key, (key, held) ∈ s.deferred := by
    intro hp hf id h
    rw [handleAbout, ht.bare hp hf] at h
    split at h
    · cases h
    · split at h
      · exact (mem_deliverTurn_cons hp h).resolve_left fun h => by cases h
      · cases h
  obtain ⟨msg, value⟩ := packet
  cases msg with
  | forward => cases value <;> cases h
  | preAccept id deps =>
    obtain ⟨hid, hv⟩ := ht.fresh id deps rfl
    obtain ⟨commands, rfl⟩ := Option.isSome_iff_exists.1 hv
    have hunseen : ¬ s.seen.contains id := by simp [hid]
    rw [handle_preAccept (hs.free hunseen) (hs.unexecuted hunseen)] at h
    rw [mem_heldFor, (Keeps.tryCommit id _).deferred, learn_eq] at h
    exact ⟨id, h⟩
  | readRequest | readResponse => cases h
  | preAcceptOk id deps => exact habout rfl (by simp) id h
  | accept id deps => exact habout rfl (by simp) id h
  | acceptOk id => exact habout rfl (by simp) id h
  | commit id deps => exact habout rfl (by simp) id h

-- During a turn every answer but the one just received has been counted.
structure Tally (c : Cluster n) (me : Fin n) (heard : Fin n → Packet n → Prop) (s : DepShard n) :
    Prop where
  known : ∀ q id, Answered heard id q → requesterOf n id = me → s.seen.contains id
  counted : ∀ id i, s.instances.get id = some i → requesterOf n id = me → i.isSettled = false →
    (∀ q, Answered heard id q → i.hasPreaccept q = true) ∨
      ¬ i.Unanimous c ∧ ∃ q, ∀ q', Answered heard id q' → q' ≠ q → i.hasPreaccept q' = true

omit [NeZero n] in
theorem Tally.recordPreaccept {i : Instance n} {id : Uid} {q : Fin n} {deps : DepSet n}
    (h : (∀ q, Answered heard id q → i.hasPreaccept q = true) ∨
      ¬ i.Unanimous c ∧ ∃ q, ∀ q', Answered heard id q' → q' ≠ q → i.hasPreaccept q' = true)
    (hq : Answered heard id q) (hn : i.hasPreaccept q = false) :
    ∀ q', Answered heard id q' → (i.recordPreaccept q deps).hasPreaccept q' = true := by
  have hkeep : ∀ q', i.hasPreaccept q' = true → (i.recordPreaccept q deps).hasPreaccept q' = true :=
    (Instance.Grown.recordPreaccept i q deps).votes
  intro q' hq'
  rcases h with h | ⟨-, r, hr⟩
  · exact hkeep q' (h q' hq')
  · cases hv : decide (q' = q) with
    | true =>
      rw [of_decide_eq_true hv]
      exact took_recordPreaccept i q deps
    | false =>
      have hqr : q = r := by
        by_contra hne
        exact nomatch hn.symm.trans (hr q hq hne)
      exact hkeep q' (hr q' hq' (hqr ▸ of_decide_eq_false hv))

theorem Move.tally (hm : Move c me heard s s') (hsane : Sane c me s)
    (h : s.Tally c me heard) : s'.Tally c me heard := by
  have hput : ∀ {v : Uid} {j j' : Instance n}, s.instances.get v = some j →
      (requesterOf n v = me → j'.isSettled = false → j.isSettled = false ∧
        ((∀ q, j'.hasPreaccept q = j.hasPreaccept q) ∧ (j'.Unanimous c ↔ j.Unanimous c) ∨
          ∀ q, Answered heard v q → j'.hasPreaccept q = true)) → (s.put v j').Tally c me heard := by
    intro v j j' hj hg
    refine ⟨h.known, fun id i hi hr hset => ?_⟩
    rw [get_put] at hi
    split at hi
    · rename_i hid
      rw [hid, hj] at hi
      cases hi
      rw [hid] at hr ⊢
      obtain ⟨hold, ⟨hsame, huna⟩ | hall⟩ := hg hr hset
      · rw [huna]
        simp only [hsame]
        exact h.counted v j hj hr hold
      · exact Or.inl hall
    · exact h.counted id i hi hr hset
  have hsettle : ∀ {v : Uid} {j : Instance n} (j' : Instance n), s.instances.get v = some j →
      j'.isSettled = true → (s.put v j').Tally c me heard := fun j' hj hset =>
    hput hj fun _ hn => nomatch hset.symm.trans hn
  have hinsert : ∀ {v : Uid} {j : Instance n} {t : DepShard n},
      t.instances = s.instances.insert v j → t.seen = s.seen.insert v →
      v = uidAt (s.seen.marks (requesterOf n v)) (requesterOf n v) →
      t.Tally c me heard := by
    intro v j t ht hseen hv
    have hgrow : ∀ id, s.seen.contains id → t.seen.contains id := fun id hid => by
      rw [hseen, hv]
      exact (seen_insert_next id).2 (Or.inl hid)
    refine ⟨fun q id hq hr => hgrow id (h.known q id hq hr), fun id i hi hr hset => ?_⟩
    rw [ht, InstanceTable.get_insert] at hi
    split at hi
    · rename_i hid
      have hunseen : ¬ s.seen.contains id := by
        rw [hid, hv]
        simp
      exact Or.inl fun q hq => absurd (h.known q id hq hr) hunseen
    · exact h.counted id i hi hr hset
  cases hm with
  | note _ | announce _ _ | forward _ _ _ | order _ | serve | hold _ _ _ _ | release _ | drain =>
    exact ⟨h.known, h.counted⟩
  | start commands _ _ _ =>
    rw [openInstance_eq]
    refine hinsert rfl rfl ?_
    rw [hsane.nextUid, requesterOf_uidAt]
  | @learn src v deps commands _ hv _ _ _ =>
    rw [learn_eq]
    refine hinsert rfl rfl ?_
    rw [hv, requesterOf_uidAt]
  | @vote src v acked deps j value hh hj _ _ hn =>
    refine hput hj fun hr hset => ?_
    rw [Instance.settled_recordPreaccept] at hset
    exact ⟨hset, Or.inr (Tally.recordPreaccept (h.counted v j hj hr hset) ⟨acked, value, hh⟩ hn)⟩
  | @accept src v deps j value _ hj =>
    rw [answerAccept_eq]
    have hput' := hsettle (j.acceptedFrom c me src deps) hj (settled_acceptedFrom src deps j)
    exact ⟨hput'.known, hput'.counted⟩
  | ack _ hj _ | leavePath _ hj => exact hput hj fun _ hset => ⟨hset, Or.inl ⟨fun _ => rfl, Iff.rfl⟩⟩
  | @slowPath v j _ hj _ _ _ _ =>
    have hput' := hsettle ((j.markLeftFastPath.accept j.union).ackAccept me) hj rfl
    exact ⟨hput'.known, hput'.counted⟩
  | @commit v j deps hj _ _ =>
    have hput' := hsettle (fillReport (commitReport me v deps j s) (j.commit deps)) hj (by
      generalize commitReport me v deps j s = report
      cases report <;> rfl)
    exact ⟨hput'.known, hput'.counted⟩
  | @execute uid j hj _ _ =>
    rw [DepShard.execute, withInstance_some hj]
    refine ⟨h.known, fun id i hi hr hset => ?_⟩
    simp only [InstanceTable.get_remove] at hi
    split at hi
    · cases hi
    · exact h.counted id i hi hr hset
  | ask command =>
    unfold askReplicas
    split <;> exact ⟨h.known, h.counted⟩
  | sleep _ => exact ⟨h.known, fun id i hi => by simp at hi⟩

theorem Moves.tally (hm : Moves c me heard s s') (hsane : Sane c me s)
    (h : s.Tally c me heard) : s'.Tally c me heard := by
  induction hm with
  | refl => exact h
  | tail hms hm ih => exact hm.tally (Moves.sane hms hsane) ih

theorem Moves.source (hm : Moves c me heard s s') {e : Event n} (he : e ∈ s'.sinks) :
    e ∈ s.sinks ∨ ∃ t t' events, Moves c me heard s t ∧ Move c me heard t t' ∧
      t'.sinks = t.sinks ++ events ∧ e ∈ events ∧ t'.sinks <+: s'.sinks := by
  induction hm with
  | refl => exact Or.inl he
  | @tail t t' hms hm ih =>
    obtain ⟨events, hevents⟩ := hm.sinks_grow
    rw [← hevents] at he
    rcases List.mem_append.1 he with he | he
    · rcases ih he with he | ⟨u, u', more, hu, hmove, hmore, hmem, hle⟩
      · exact Or.inl he
      · exact Or.inr ⟨u, u', more, hu, hmove, hmore, hmem, hle.trans ⟨events, hevents⟩⟩
    · exact Or.inr ⟨t, t', events, hms, hm, hevents.symm, he, List.prefix_rfl⟩

end DepShard

namespace World

variable {c : Cluster n} {w w' : World n} {p : Fin n}

-- Without a leader only payloads are waited for, and a coordinator has those of its own commands.
theorem Reachable.foreign_deferred (h : Reachable c w) (hs : c.isSwift = false) {key : Uid}
    {entry : Held n} (he : (key, entry) ∈ (w.shard c p).deferred) {id : Uid}
    (hid : entry.2.id = some id) : requesterOf n id ≠ p := by
  obtain ⟨⟨value, hh⟩, -, hp⟩ := h.sound.held p _ he
  obtain ⟨src, msg⟩ := entry
  intro hr
  cases (h.waits p).keyed key (src, msg) he with
  | payload hkey hunseen =>
    cases hid.symm.trans hkey
    obtain ⟨commands, hc⟩ := h.created_of_heard hh hkey hp
    exact hunseen (((h.settled p).1.1.seen key).2 ⟨commands, hr ▸ hc⟩)
  | dependency hsw _ _ _ _ _ => exact nomatch hs.symm.trans hsw

theorem foreign_settle {full : Bool} {s' : DepShard n} {queue : List (Held n)}
    (hw : ∀ q, ∀ entry ∈ w.queues q, ∀ id, entry.2.id = some id → requesterOf n id ≠ q)
    (h : ∀ entry ∈ queue, ∀ id, entry.2.id = some id → requesterOf n id ≠ p) (q : Fin n) :
    ∀ entry ∈ (w.settle c p full s' queue).queues q, ∀ id, entry.2.id = some id →
      requesterOf n id ≠ q := by
  cases hq : decide (q = p) with
  | true =>
    cases of_decide_eq_true hq
    rw [queues_settle_self]
    exact h
  | false =>
    rw [queues_settle_ne (of_decide_eq_false hq)]
    exact hw q

theorem Reachable.foreign (h : Reachable c w) (hs : c.isSwift = false) (p : Fin n) :
    ∀ entry ∈ w.queues p, ∀ id, entry.2.id = some id → requesterOf n id ≠ p := by
  induction h generalizing p with
  | init => exact fun entry he => nomatch he
  | @step w w' l hr hstep ih =>
    have hsound := hr.sound
    cases l with
    | submit q commands full =>
      obtain ⟨-, hstep⟩ := Option.ite_none_right_eq_some.1 hstep
      cases hstep
      exact foreign_settle ih (fun entry he => absurd he List.not_mem_nil) p
    | submitRead q command =>
      obtain ⟨-, hstep⟩ := Option.ite_none_right_eq_some.1 hstep
      cases hstep
      exact foreign_settle ih (fun entry he => absurd he List.not_mem_nil) p
    | receive src q full =>
      simp only [World.step] at hstep
      split at hstep
      · rename_i packet rest hqueue hl
        split at hstep
        · cases hstep
          exact ih p
        · cases hstep
          have hsane := (hsound.sane q).same ((DepShard.SameTables.refl _).emitAll
            [.received src packet]) (hsound.sane q).counted (hsound.sane q).parked rfl rfl
          have htimely : DepShard.Timely src ((w.shard c q).emit (.received src packet)) packet :=
            ⟨(hsound.timely hl).fresh, (hsound.timely hl).bare⟩
          refine foreign_settle (w := w.popLink src q) ih (fun entry he id hid => ?_) p
          obtain ⟨key, hkey⟩ := DepShard.mem_handle_deferred htimely hsane he
          exact hr.foreign_deferred hs hkey hid
      · cases hstep
    | deliver q full =>
      simp only [World.step] at hstep
      split at hstep
      · cases hstep
      · rename_i hne
        cases hstep
        refine foreign_settle ih (fun entry he id hid => ?_) p
        cases hq : w.queues q with
        | nil => exact absurd hq hne
        | cons first rest =>
          rw [hq] at he
          have hfirst := hsound.queued q first (hq ▸ List.mem_cons_self)
          rcases DepShard.mem_deliverTurn_cons hfirst.2.2 he with he | ⟨key, hkey⟩
          · exact ih q entry (hq ▸ List.mem_cons_of_mem _ he) id hid
          · exact hr.foreign_deferred hs hkey hid
    | flush q | owe q requesters =>
      cases hstep
      exact ih p
    | drain q =>
      obtain ⟨-, hstep⟩ := Option.ite_none_right_eq_some.1 hstep
      cases hstep
      exact foreign_settle ih (fun entry he => absurd he List.not_mem_nil) p
    | sleep q =>
      obtain ⟨-, hstep⟩ := Option.ite_none_right_eq_some.1 hstep
      cases hstep
      exact ih p

theorem Reachable.counted (h : Reachable c w) (hs : c.isSwift = false) {id : Uid} {i : Instance n}
    (hi : (w.shard c p).instances.get id = some i) (hr : requesterOf n id = p)
    (hset : i.isSettled = false) {q : Fin n} (hq : Answered (heardBy w.hist p) id q) :
    i.hasPreaccept q = true := by
  obtain ⟨acked, value, hh⟩ := hq
  rcases (h.waits p).taken q _ hh rfl with ha | hqueue | ⟨key, hkey⟩
  · rcases ha id rfl with hx | ⟨j, hj, hc | ht⟩
    · exact absurd hx ((h.sound.sane p).live id i hi)
    · cases Option.some.inj (hi.symm.trans hj)
      exact nomatch (Instance.committed_of_settled_false hset).symm.trans hc
    · cases Option.some.inj (hi.symm.trans hj)
      exact ht
  · exact absurd hr (h.foreign hs p _ hqueue id rfl)
  · exact absurd hr (h.foreign_deferred hs hkey rfl)

theorem Reachable.tally (h : Reachable c w) (hs : c.isSwift = false) {s₁ s' : DepShard n}
    (ht : Turn c w w' p s₁ s') :
    s₁.Tally c p (heardBy (w.hist ++ s₁.sinks.map (Prod.mk p)) p) := by
  have hbase := h.sound.toBase
  have hsc := ht.scene h Decided.kept (fun q => h.settled q) .refl
  refine ⟨fun q id hq hr => ?_, ?_⟩
  · obtain ⟨acked, value, hh⟩ := hq
    obtain ⟨t, -, ⟨hcr, hrec⟩, -⟩ := hsc.all q
    obtain ⟨-, d, hd, -⟩ := hrec.said _ (hsc.faithful.arrived p q _ hh).2.said
    obtain ⟨commands, hc⟩ := hcr.proposal id d hd
    exact (hsc.own.1.1.seen id).2 ⟨commands, hr ▸ hcr.source id commands hc⟩
  · cases ht.opens with
    | quiet =>
      rw [hbase.clean p, List.map_nil, List.append_nil]
      exact fun id i hi hr hset => Or.inl fun q hq => h.counted hs hi hr hset hq
    | @arrival src packet _ hsrc hsaid ha =>
      have ho : Opened c w p s₁ := Opens.opened hbase (.arrival hsrc hsaid ha)
      obtain ⟨sinks, reads, hsame⟩ := ha.same
      intro id i hi hr hset
      rw [show s₁.instances = (w.shard c p).instances by rw [hsame]] at hi
      refine Or.inr ⟨fun huna => ?_, src, fun q hq hne => ?_⟩
      · have hco := ((h.settled p).1.2.instances id i hi).coordinator
        exact (h.settles p).unripe id i hi (.fast hs (hco.trans hr) hset huna.1 huna.2)
      · obtain ⟨acked, value, hh⟩ := hq
        have hnone : DepShard.Moves c p (fun _ _ => True) s₁ s₁ := .refl
        rcases heard_arrival ho hbase ha hnone hh with hh | heq
        · exact h.counted hs hi hr hset ⟨acked, value, hh⟩
        · exact absurd (Prod.mk.inj heq).1 hne

structure Moment (c : Cluster n) (w : World n) (p : Fin n) (id : Uid) (deps : DepSet n)
    (J : List (Fin n × Event n) → Fin n → DepShard n → Prop) (hist post : List (Fin n × Event n))
    (s : DepShard n) (i : Instance n) : Prop where
  log : w.hist = hist ++ (p, .committed id deps) :: post
  scene : Scene c (fun _ _ _ => True) J hist p s
  got : s.instances.get id = some i
  fresh : i.isCommitted = false
  decides : DepShard.Decides c p (heardBy hist p) id i deps
  tally : c.isSwift = false → s.Tally c p (heardBy hist p)

theorem heardBy_moves (hist : List (Fin n × Event n)) {heard : Fin n → Packet n → Prop}
    {s₁ s : DepShard n} (hsane : DepShard.Sane c p s₁) (hm : DepShard.Moves c p heard s₁ s) :
    heardBy (hist ++ s.sinks.map (Prod.mk p)) p = heardBy (hist ++ s₁.sinks.map (Prod.mk p)) p := by
  obtain ⟨events, hevents, hv⟩ := hm.extends hsane
  funext src packet
  refine propext ⟨fun h => ?_, fun h => ?_⟩
  · rw [hevents, List.map_append, ← List.append_assoc] at h
    rcases mem_log h with h | ⟨-, h⟩
    · exact h
    · exact (hv _ h).elim
  · rw [hevents, List.map_append, ← List.append_assoc]
    exact heardBy_mono h

theorem Opens.uncommitted {s₁ : DepShard n} (ho : Opens c w p s₁) (hb : Base c w) {id : Uid}
    {deps : DepSet n} (h : Event.committed id deps ∈ s₁.sinks) : False := by
  cases ho with
  | quiet =>
    rw [hb.clean p] at h
    cases h
  | arrival _ _ ha =>
    have he : s₁.sinks = (w.shard c p).sinks ++ s₁.sinks := by rw [hb.clean p, List.nil_append]
    rcases ha.logs he h with h | ⟨_, _, _, _, -, -, h⟩ <;> cases h

theorem Reachable.moment (h : Reachable c w) {id : Uid} {deps : DepSet n}
    (hc : w.Commits p id deps) {J : List (Fin n × Event n) → Fin n → DepShard n → Prop}
    (hk : Kept c J) : ∃ hist post s i, w.Moment c p id deps J hist post s i := by
  induction h with
  | init => exact nomatch hc
  | @step w w' l hr hstep ih =>
    obtain ⟨-, q, s₁, s', ht⟩ := hr.sound.step hstep
    have hgrown : w'.hist = w.hist ++ s'.sinks.map (Prod.mk q) := ht.hist
    rw [Commits, hgrown] at hc
    rcases mem_log hc with hold | ⟨rfl, hnew⟩
    · obtain ⟨hist, post, s, i, hm⟩ := ih hold
      refine ⟨hist, post ++ s'.sinks.map (Prod.mk q), s, i, ?_, hm.scene, hm.got, hm.fresh,
        hm.decides, hm.tally⟩
      rw [hgrown, hm.log, List.append_assoc, List.cons_append]
    · have ho := ht.opens.opened hr.sound.toBase
      rcases DepShard.Moves.source ht.moves hnew with hopen | ⟨s, t, events, hms, hm, hevents, hmem,
        more, hmore⟩
      · exact (ht.opens.uncommitted hr.sound.toBase hopen).elim
      · have hsane := DepShard.Moves.sane hms ho.sane
        have hheard := heardBy_moves w.hist ho.sane hms
        obtain ⟨i, hi, hf, hd, rfl⟩ := hm.logs hevents hmem
        rw [← hheard] at hd
        refine ⟨w.hist ++ s.sinks.map (Prod.mk p), more.map (Prod.mk p), s, i, ?_,
          ht.scene hr hk (fun r => hr.kept hk r) hms, hi, hf, hd, fun hs => ?_⟩
        · rw [hgrown, ← hmore, List.map_append, DepShard.emit]
          simp [DepShard.put]
        · rw [hheard]
          exact hms.tally ho.sane (hr.tally hs ht)

end World

def Cluster.FastQuorum (c : Cluster n) (voters : Finset (Fin n)) : Prop :=
  match c.mode with
  | .ePaxos _ => c.fastQuorum ≤ voters.card
  | .swiftPaxos _ (some members) => members ⊆ voters
  | .swiftPaxos leader none => leader ∈ voters ∧ 3 * c.nbReplicas < 4 * voters.card

section

variable (c : Cluster n) (hist : List (Fin n × Event n)) (id : Uid) (deps : DepSet n)

def AcceptedByMost : Prop :=
  ∃ voters : Finset (Fin n), voters ⊆ c.alive ∧ c.slowQuorum ≤ voters.card ∧
    ∀ q ∈ voters, Accepted hist q id deps

-- The coordinator's fast path: when it decided, every answer it had was this very proposal.
def PreAcceptedByAll : Prop :=
  ∃ before after, hist = before ++ (requesterOf n id, .committed id deps) :: after ∧
    ∃ voters : Finset (Fin n), voters ⊆ c.alive ∧ c.FastQuorum voters ∧
      (∀ q ∈ voters, (q, Event.proposed id deps) ∈ before) ∧
      ∀ q d, Answered (heardBy before (requesterOf n id)) id q → (q, Event.proposed id d) ∈ hist →
        d = deps

def PreAcceptedOrAccepted (reached : Finset (Fin n) → Prop) : Prop :=
  ∃ voters : Finset (Fin n), voters ⊆ c.alive ∧ reached voters ∧
    ∀ q ∈ voters, (q, Event.proposed id deps) ∈ hist ∨ Accepted hist q id deps

-- What the replicas did for a set that some process committed.
def Certificate : Prop :=
  match c.mode with
  | .ePaxos _ => PreAcceptedByAll c hist id deps ∨ AcceptedByMost c hist id deps
  | .swiftPaxos leader _ => (leader, Event.proposed id deps) ∈ hist ∧
      (PreAcceptedOrAccepted c hist id deps c.FastQuorum ∨ AcceptedByMost c hist id deps)

end

section

variable {c : Cluster n} {hist : List (Fin n × Event n)} {p q : Fin n} {s : DepShard n} {id : Uid}
  {i : Instance n} {deps d d' : DepSet n}

omit [NeZero n] in
theorem AcceptedByMost.mono (h : AcceptedByMost c hist id deps) (more : List (Fin n × Event n)) :
    AcceptedByMost c (hist ++ more) id deps := by
  obtain ⟨voters, hsub, hcard, hv⟩ := h
  exact ⟨voters, hsub, hcard, fun q hq => (hv q hq).mono more⟩

omit [NeZero n] in
theorem PreAcceptedOrAccepted.mono {reached : Finset (Fin n) → Prop}
    (h : PreAcceptedOrAccepted c hist id deps reached) (more : List (Fin n × Event n)) :
    PreAcceptedOrAccepted c (hist ++ more) id deps reached := by
  obtain ⟨voters, hsub, hreached, hv⟩ := h
  exact ⟨voters, hsub, hreached, fun q hq =>
    (hv q hq).imp (List.mem_append_left _) fun h => h.mono more⟩

omit [NeZero n] in
theorem Cluster.fastQuorum_of_epaxos (hs : c.isSwift = false) (voters : Finset (Fin n)) :
    c.FastQuorum voters ↔ c.fastQuorum ≤ voters.card := by
  unfold Cluster.isSwift at hs
  unfold Cluster.FastQuorum
  cases hm : c.mode with
  | ePaxos coordinator => rfl
  | swiftPaxos leader quorum =>
    rw [hm] at hs
    cases hs

omit [NeZero n] in
theorem Cluster.leader_eq (hs : c.isSwift = true) (r r' : Fin n) : c.leader r = c.leader r' := by
  unfold Cluster.isSwift at hs
  unfold Cluster.leader
  cases hm : c.mode with
  | ePaxos coordinator =>
    rw [hm] at hs
    cases hs
  | swiftPaxos leader quorum => rfl

namespace Acknowledged

abbrev Vouched (c : Cluster n) (hist : List (Fin n × Event n)) (p : Fin n) (s : DepShard n) : Prop :=
  Settled c hist p s ∧ Acknowledged c hist p s

theorem accept_unique (hf : Faithful c hist) (hall : ∀ q, ∃ t, Vouched c hist q t) {r r' : Fin n}
    (h : said hist r ⟨.accept id d, none⟩) (h' : said hist r' ⟨.accept id d', none⟩) : d = d' := by
  obtain ⟨t, ⟨⟨hcr, hrec⟩, -⟩, ht⟩ := hall r
  obtain ⟨t', ⟨⟨-, hrec'⟩, -⟩, ht'⟩ := hall r'
  cases hs : c.isSwift with
  | false =>
    have hr := (ht.home hs id d h).symm.trans (ht'.home hs id d' h')
    subst hr
    exact ht.once hs id d d' h h'
  | true =>
    have hr : r = r' := by
      rw [← (hf.packet h).2 hs, ← (hf.packet h').2 hs]
      exact Cluster.leader_eq hs r r'
    subst hr
    exact hcr.proposal_once id d d' ((hrec.said _ h).2.2.2 hs) ((hrec.said _ h').2.2.2 hs)

theorem said_of_accepted (hf : Faithful c hist) (h : Accepted hist q id d) :
    ∃ r, said hist r ⟨.accept id d, none⟩ :=
  h.elim (fun h => ⟨q, h⟩) fun ⟨_, src, hh⟩ => ⟨src, (hf.arrived q src _ hh).2.said⟩

theorem accepted (hf : Faithful c hist) (hown : Vouched c hist p s)
    (hi : s.instances.get id = some i)
    (hdeps : ∀ r d, said hist r ⟨.accept id d, none⟩ → d = deps) (hq : q ∈ i.acceptAcked) :
    c.isReplica q = true ∧ Accepted hist q id deps := by
  obtain ⟨d, hd⟩ := hown.2.acked id i q hi hq
  obtain ⟨r, hr⟩ := said_of_accepted hf hd
  exact ⟨((hown.1.1.2.instances id i hi).acked q hq).1, hdeps r d hr ▸ hd⟩

theorem by_most (hf : Faithful c hist) (hown : Vouched c hist p s)
    (hi : s.instances.get id = some i)
    (hdeps : ∀ r d, said hist r ⟨.accept id d, none⟩ → d = deps)
    (hq : c.slowQuorum ≤ i.acceptAcked.card) : AcceptedByMost c hist id deps :=
  ⟨i.acceptAcked, fun _ hm => of_decide_eq_true (accepted hf hown hi hdeps hm).1, hq,
    fun _ hm => (accepted hf hown hi hdeps hm).2⟩

theorem leader_accepts (hf : Faithful c hist) (hall : ∀ q, ∃ t, Vouched c hist q t)
    (hs : c.isSwift = true) (hb : Backed c hist id deps) {r : Fin n}
    (h : said hist r ⟨.accept id d, none⟩) : d = deps := by
  obtain ⟨t, ⟨⟨hcr, hrec⟩, -⟩, -⟩ := hall r
  rw [Recorded.backed_of_swift (q := r) hs, (hf.packet h).2 hs] at hb
  exact hcr.proposal_once id d deps ((hrec.said _ h).2.2.2 hs) hb

-- The leader's own set, backed by a fast quorum that proposed or accepted it.
theorem fast_or_slow (hf : Faithful c hist) (hall : ∀ q, ∃ t, Vouched c hist q t)
    (hown : Vouched c hist p s) (hs : c.isSwift = true) (hi : s.instances.get id = some i)
    (hset : i.isSettled = true)
    (hq : i.fastEndorsers.any c.swiftFastQuorumReached = true ∨
      c.slowQuorum ≤ i.acceptAcked.card) :
    PreAcceptedOrAccepted c hist id i.deps (c.swiftFastQuorumReached · = true) ∨
      AcceptedByMost c hist id i.deps := by
  have hsrc := hown.1.1.2.instances id i hi
  have hb := hsrc.settled hset
  have hdeps : ∀ r d, said hist r ⟨.accept id d, none⟩ → d = i.deps := fun r d h =>
    leader_accepts hf hall hs hb h
  refine hq.imp (fun hfast => ?_) (by_most hf hown hi hdeps)
  unfold Instance.fastEndorsers at hfast
  split at hfast
  · rw [Option.any_some] at hfast
    have hvote : ∀ q ∈ i.endorsers, c.isReplica q = true ∧ (q, Event.proposed id i.deps) ∈ hist := by
      intro q hq
      obtain ⟨d, hd, hl⟩ := (hsrc.endorsers q).1 hq
      obtain ⟨-, hlead⟩ := hsrc.votes i.leader d hl
      obtain ⟨t, ⟨⟨hcr, -⟩, -⟩, -⟩ := hall i.leader
      rw [Recorded.backed_of_swift (q := requesterOf n id) hs, ← hsrc.leader] at hb
      rw [← hcr.proposal_once id d i.deps hlead hb]
      exact hsrc.votes q d hd
    refine ⟨i.acceptAcked ∪ i.endorsers, fun q hq => ?_, hfast, fun q hq => ?_⟩
    · rcases Finset.mem_union.1 hq with hq | hq
      · exact of_decide_eq_true (accepted hf hown hi hdeps hq).1
      · exact of_decide_eq_true (hvote q hq).1
    · exact (Finset.mem_union.1 hq).symm.imp (fun hq => (hvote q hq).2)
        fun hq => (accepted hf hown hi hdeps hq).2
  · cases hfast

end Acknowledged

-- What every process that committed in SwiftPaxos can point to.
def Certified (c : Cluster n) (hist : List (Fin n × Event n)) (p : Fin n) (_ : DepShard n) : Prop :=
  c.isSwift = true → ∀ id deps, (p, Event.committed id deps) ∈ hist →
    PreAcceptedOrAccepted c hist id deps (c.swiftFastQuorumReached · = true) ∨
      AcceptedByMost c hist id deps

namespace Certified

open Acknowledged

theorem mono (h : Certified c hist p s) {more : List (Fin n × Event n)}
    (hold : ∀ id deps, (p, Event.committed id deps) ∈ hist ++ more →
      (p, Event.committed id deps) ∈ hist) {t : DepShard n} : Certified c (hist ++ more) p t :=
  fun hs id deps hc =>
    (h hs id deps (hold id deps hc)).imp (fun h => h.mono more) fun h => h.mono more

theorem stable : Stable c (Vouched c) (Certified c) where
  new := fun p _ id deps h => nomatch h
  clear := fun h => h
  other := fun hq h => Certified.mono h fun id deps hc => mem_other hq hc
  arrive := fun hsc _ _ _ ha he => by
    refine hsc.own.mono fun id deps hc => ?_
    rcases mem_log hc with hc | ⟨-, hc⟩
    · exact hc
    · rcases ha.logs he hc with h | ⟨_, _, _, _, -, -, h⟩ <;> cases h
  move := fun {hist p s s' events} hsc hm he hs id deps hc => by
    have hall : ∀ q, ∃ t, Vouched c hist q t := fun q => by
      obtain ⟨t, ht, -⟩ := hsc.all q
      exact ⟨t, ht⟩
    rcases mem_log hc with hc | ⟨-, hc⟩
    · exact (hsc.own hs id deps hc).imp (fun h => h.mono _) fun h => h.mono _
    · obtain ⟨i, hi, -, hd, -⟩ := hm.logs he hc
      refine Or.imp (fun h => PreAcceptedOrAccepted.mono h _) (fun h => AcceptedByMost.mono h _) ?_
      cases hd with
      | fast h _ _ _ _ _ | slow h _ _ _ => exact nomatch hs.symm.trans h
      | @told src _ value hh =>
        obtain ⟨t, ⟨⟨⟨-, hrec⟩, -⟩, -⟩, ht⟩ := hsc.all src
        exact ht hs id deps (hrec.said _ (hsc.faithful.arrived p src _ hh).2.said)
      | swift _ hset hq => exact fast_or_slow hsc.faithful hall hsc.known hs hi hset hq

theorem kept : Kept c fun hist p s => Vouched c hist p s ∧ Certified c hist p s :=
  Acknowledged.kept.and stable

end Certified

end

namespace World

variable {c : Cluster n} {w : World n} {p : Fin n} {id : Uid} {deps : DepSet n}

theorem Reachable.coordinator_certificate (h : Reachable c w) (hs : c.isSwift = false)
    (hc : w.Commits (requesterOf n id) id deps) :
    PreAcceptedByAll c w.hist id deps ∨ AcceptedByMost c w.hist id deps := by
  obtain ⟨hist, post, s, i, hm⟩ := h.moment hc Acknowledged.kept
  obtain ⟨⟨⟨-, hrec⟩, hdec⟩, hack⟩ := hm.scene.own
  have hf := hm.scene.faithful
  have hall : ∀ q, ∃ t, Acknowledged.Vouched c hist q t := fun q => by
    obtain ⟨t, -, ht⟩ := hm.scene.all q
    exact ⟨t, ht⟩
  have hsrc := hrec.instances id i hm.got
  cases hm.decides with
  | fast _ _ hset hsame hq hl =>
    have hvote : ∀ q, q ∈ i.preacceptors → c.isReplica q = true ∧ (q, Event.proposed id deps) ∈ hist :=
      fun q hq => hsrc.unanimous hsame hl hq
    refine Or.inl ⟨hist, post, hm.log, i.preacceptors, fun q hq => of_decide_eq_true (hvote q hq).1,
      ?_, fun q hq => (hvote q hq).2, fun q d hans hd => ?_⟩
    · rw [Cluster.fastQuorum_of_epaxos hs]
      exact hq
    · have hcount : q ∈ i.preacceptors := by
        rcases (hm.tally hs).counted id i hm.got rfl hset with hcount | ⟨huna, -⟩
        · exact Finset.mem_filter.2 ⟨Finset.mem_univ q, hcount q hans⟩
        · exact absurd ⟨hsame, hq⟩ huna
      refine (h.settled q).1.1.proposal_once id d deps hd ?_
      rw [hm.log]
      exact List.mem_append_left _ (hvote q hcount).2
  | slow _ _ hphase hq =>
    right
    rw [hm.log]
    have hsaid := hack.settled hs id i hm.got rfl hphase
    exact (Acknowledged.by_most hf hm.scene.own hm.got
      (fun r d hr => Acknowledged.accept_unique hf hall hr hsaid) hq).mono _
  | @told src _ value hh =>
    obtain ⟨t, -, ⟨⟨-, hrec'⟩, hdec'⟩, -⟩ := hm.scene.all src
    have hsrc' := hdec'.origin id deps (hrec'.said _ (hf.arrived _ src _ hh).2.said) hs
    rcases hdec.decided id deps hsrc' with hx | ⟨j, hj, hjc⟩
    · exact absurd hx (hm.scene.sane.live id i hm.got)
    · cases Option.some.inj (hm.got.symm.trans hj)
      exact nomatch hm.fresh.symm.trans hjc
  | swift h _ _ => exact nomatch hs.symm.trans h

-- A replica has the commands that came with `id`, in its table or already run.
def Holds (c : Cluster n) (w : World n) (q : Fin n) (id : Uid) (commands : List (Command n)) : Prop :=
  (∃ i, (w.shard c q).instances.get id = some i ∧ requests i.commands = requests commands) ∨
    ∃ ran, (q, Event.executed id ran) ∈ w.hist ∧ requests ran = requests commands

def HeldByMost (c : Cluster n) (w : World n) (id : Uid) : Prop :=
  ∃ commands, ∃ members : Finset (Fin n), members ⊆ c.alive ∧ c.slowQuorum ≤ members.card ∧
    ∀ q ∈ members, (w.shard c q).seen.contains id ∧ w.Holds c q id commands

theorem Reachable.holds (h : Reachable c w) {q : Fin n} {commands : List (Command n)}
    (hc : (q, Event.created id commands) ∈ w.hist) : w.Holds c q id commands := by
  obtain ⟨⟨hcr, hrec⟩, hdec⟩ := h.settled q
  rcases ((h.sound.sane q).known id).1 ((hcr.seen id).2 ⟨commands, hc⟩) with hx | hi
  · obtain ⟨ran, hran⟩ := hdec.ran id hx
    obtain ⟨-, -, commands', hc', heq⟩ := hdec.executed id ran hran
    rw [hcr.once id commands' commands hc' hc] at heq
    exact Or.inr ⟨ran, hran, heq⟩
  · obtain ⟨i, hi⟩ := Option.ne_none_iff_exists'.1 hi
    obtain ⟨commands', hc', heq⟩ := hrec.commands id i hi
    rw [hcr.once id commands' commands hc' hc] at heq
    exact Or.inl ⟨i, hi, heq⟩

theorem Reachable.held_by_most (h : Reachable c w) (hc : w.Commits p id deps) :
    w.HeldByMost c id := by
  obtain ⟨members, hsub, hcard, hm⟩ := ((h.settled p).1.2.committed id deps hc).2
  have hsource : ∀ q ∈ members, ∀ commands, (q, Event.created id commands) ∈ w.hist →
      (requesterOf n id, Event.created id commands) ∈ w.hist := fun q _ commands hq =>
    (h.settled q).1.1.source id commands hq
  have hpos : 0 < members.card := Nat.lt_of_lt_of_le (by rw [Cluster.slowQuorum]; omega) hcard
  obtain ⟨r, hr⟩ := Finset.card_pos.1 hpos
  obtain ⟨commands, hc'⟩ := hm r hr
  refine ⟨commands, members, hsub, hcard, fun q hq => ?_⟩
  obtain ⟨commands', hq'⟩ := hm q hq
  have heq := (h.settled (requesterOf n id)).1.1.once id commands' commands
    (hsource q hq commands' hq') (hsource r hr commands hc')
  exact ⟨((h.settled q).1.1.seen id).2 ⟨commands', hq'⟩, h.holds (heq ▸ hq')⟩

end World

def DepMsg.isAcceptance : DepMsg n → Bool
  | .accept _ _ | .acceptOk _ => true
  | _ => false

-- The full-size fast quorum `⌈3N/4⌉` is more than three quarters of the replicas, or more than live.
def Cluster.MoreThanThreeQuarters (c : Cluster n) : Prop :=
  match c.mode with
  | .swiftPaxos _ none => ¬ 4 ∣ c.nbReplicas ∨ 4 * c.alive.card < 3 * c.nbReplicas
  | _ => True

omit [NeZero n] in
theorem Cluster.fastQuorum_of_reached {c : Cluster n} (hq : c.MoreThanThreeQuarters)
    {voters : Finset (Fin n)} (hsub : voters ⊆ c.alive)
    (h : c.swiftFastQuorumReached voters = true) : c.FastQuorum voters := by
  have hlive := Finset.card_le_card hsub
  unfold Cluster.swiftFastQuorumReached at h
  unfold Cluster.MoreThanThreeQuarters at hq
  unfold Cluster.FastQuorum
  cases hm : c.mode with
  | ePaxos coordinator =>
    rw [hm] at h
    cases h
  | swiftPaxos leader quorum =>
    rw [hm] at h hq
    cases quorum with
    | some members => exact of_decide_eq_true h
    | none =>
      simp only [Bool.and_eq_true, decide_eq_true_eq] at h hq
      refine ⟨h.1, ?_⟩
      have hfast : (c.nbReplicas * 3 - 1) / 4 + 1 ≤ c.fastQuorum := by
        rw [Cluster.fastQuorum, hm]
        exact Nat.le_max_left _ _
      have hcard := h.2
      omega

namespace World

variable {c : Cluster n} {w : World n} {p : Fin n} {id : Uid} {deps : DepSet n}

theorem commit_certificates (hq : c.MoreThanThreeQuarters) (h : Reachable c w)
    (hc : w.Commits p id deps) : Certificate c w.hist id deps ∧ w.HeldByMost c id := by
  refine ⟨?_, h.held_by_most hc⟩
  unfold Certificate
  cases hm : c.mode with
  | ePaxos coordinator =>
    have hs : c.isSwift = false := by rw [Cluster.isSwift, hm]
    exact h.coordinator_certificate hs ((h.settled p).2.origin id deps hc hs)
  | swiftPaxos leader quorum =>
    have hs : c.isSwift = true := by rw [Cluster.isSwift, hm]
    have hb := ((h.settled p).1.2.committed id deps hc).1
    rw [Recorded.backed_of_swift (q := p) hs, Cluster.leader_of_mode hm] at hb
    refine ⟨hb, ((h.kept Certified.kept p).2 hs id deps hc).imp_left ?_⟩
    rintro ⟨voters, hsub, hreached, hv⟩
    exact ⟨voters, hsub, c.fastQuorum_of_reached hq hsub hreached, hv⟩

theorem crossing_certified : ∃ deps, crossing.Commits 0 DepShard.left deps ∧
    Certificate DepShard.pair crossing.hist DepShard.left deps ∧
    crossing.HeldByMost DepShard.pair DepShard.left := by
  obtain ⟨deps, hd⟩ := Option.isSome_iff_exists.1
    (show (crossing.decision 0 DepShard.left).isSome = true by decide +kernel)
  have hc : crossing.Commits 0 DepShard.left deps := mem_of_decision hd
  exact ⟨deps, hc, commit_certificates (c := DepShard.pair) trivial (Reachable.init.run _) hc⟩

-- The leader of four voters decides with two proposals that repeat its own.
def threeOfFour : World 4 :=
  World.init.run ledFour
    [.submit 0 [writeOf 0 0] false, .receive 0 1 false, .receive 0 2 false, .receive 1 0 false,
      .receive 2 0 false]

theorem threeOfFour_uncertified : Reachable ledFour threeOfFour ∧
    ∃ deps, threeOfFour.Commits 0 (uidAt 0 (0 : Fin 4)) deps ∧
      ¬ Certificate ledFour threeOfFour.hist (uidAt 0 (0 : Fin 4)) deps := by
  obtain ⟨deps, hd⟩ := Option.isSome_iff_exists.1
    (show (threeOfFour.decision 0 (uidAt 0 (0 : Fin 4))).isSome = true by decide +kernel)
  refine ⟨Reachable.init.run _, deps, mem_of_decision hd, ?_⟩
  have hsilent : ∀ entry ∈ threeOfFour.hist, entry.1 ≠ 3 := by decide +kernel
  have hleader : ∀ entry ∈ threeOfFour.hist, entry.1 = 0 ∨
      (entry.2.packet?.any fun packet => packet.msg.isAcceptance) = false := by decide +kernel
  have haccepted : ∀ q, Accepted threeOfFour.hist q (uidAt 0 (0 : Fin 4)) deps → q = 0 := by
    intro q hq
    have hsaid : ∃ msg : DepMsg 4, msg.isAcceptance = true ∧ said threeOfFour.hist q ⟨msg, none⟩ :=
      hq.elim (fun h => ⟨_, rfl, h⟩) fun h => ⟨_, rfl, h.1⟩
    obtain ⟨msg, hmsg, e, he, hp⟩ := hsaid
    refine (hleader (q, e) he).resolve_right fun hn => ?_
    rw [hp, Option.any_some, hmsg] at hn
    cases hn
  rintro ⟨-, ⟨voters, -, ⟨-, hcard⟩, hv⟩ | ⟨voters, -, hcard, hv⟩⟩
  · have hall : voters = Finset.univ :=
      Finset.eq_univ_of_card voters (Nat.le_antisymm (Finset.card_le_univ voters)
        (by simp only [ledFour, Fintype.card_fin] at hcard ⊢; omega))
    have hthree : (3 : Fin 4) ∈ voters := by
      rw [hall]
      exact Finset.mem_univ 3
    rcases hv 3 hthree with hp | hacc
    · exact hsilent _ hp rfl
    · exact absurd (haccepted 3 hacc) (by decide)
  · have hsub : voters ⊆ {0} := fun q hq => Finset.mem_singleton.2 (haccepted q (hv q hq))
    have hle := Finset.card_le_card hsub
    rw [Finset.card_singleton] at hle
    have hslow : ledFour.slowQuorum = 3 := rfl
    omega

end World

end KCensus.Deps

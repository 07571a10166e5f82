import KCensus.Deps.LeaderOrder
import KCensus.Deps.Works

namespace KCensus.Deps

open Relation

variable {n : Nat} [NeZero n]

def Instance.Took (i : Instance n) (src : Fin n) : DepMsg n → Prop
  | .preAcceptOk _ _ => i.hasPreaccept src = true
  | .accept _ _ => i.isSettled = true
  | .acceptOk _ => src ∈ i.acceptAcked
  | .commit _ _ => i.isCommitted = true
  | _ => True

namespace DepShard

variable {c : Cluster n} {me : Fin n} {heard : Fin n → Packet n → Prop} {s s' : DepShard n}

-- Nothing more will come of the message.
def Applied (s : DepShard n) (src : Fin n) (msg : DepMsg n) : Prop :=
  ∀ id, msg.id = some id → s.executed.contains id ∨
    ∃ i, s.instances.get id = some i ∧ (i.isCommitted = true ∨ i.Took src msg)

def SettledHere (s : DepShard n) (id : Uid) : Prop :=
  s.executed.contains id ∨ s.instances.settledAt id = true

theorem Spared.settledHere {v : Uid} (h : Spared s s' v) : s'.SettledHere v ↔ s.SettledHere v := by
  unfold SettledHere
  rcases h with ⟨hi, he⟩ | ⟨hc, hi, he⟩
  · rw [he, InstanceTable.settledAt, hi]
    rfl
  · obtain ⟨i, hi', hic⟩ := (committedAt_iff _ _).1 hc
    refine iff_of_true (Or.inl he) (Or.inr ((settledAt_iff _ _).2 ⟨i, hi', ?_⟩))
    exact Instance.isSettled_of_isCommitted hic

theorem Move.executed_mono (hm : Move c me heard s s') {id : Uid} (h : s.executed.contains id) :
    s'.executed.contains id := by
  obtain ⟨events, he⟩ := hm.sinks_grow
  rcases hm.executed_or he.symm with ⟨uid, i, hi, -, -, rfl, -⟩ | ⟨hx, -⟩
  · rw [(ran_execute hi).executed]
    exact Or.inl h
  · rw [hx]
    exact h

theorem Move.applied (hm : Move c me heard s s') {src : Fin n} {msg : DepMsg n}
    (h : s.Applied src msg) : s'.Applied src msg := by
  intro id hid
  rcases h id hid with hx | ⟨i, hi, ht⟩
  · exact Or.inl (hm.executed_mono hx)
  · rcases hm.grown hi with ⟨i', hi', hg⟩ | ⟨hc, rfl⟩
    · refine Or.inr ⟨i', hi', ht.imp (fun hc => (hg.committed hc).1) fun ht => ?_⟩
      cases msg with
      | preAcceptOk id deps => exact hg.votes src ht
      | accept id deps => exact hg.settled ht
      | acceptOk id => exact hg.acks ht
      | commit id deps => exact (hg.committed ht).1
      | forward | preAccept | readRequest | readResponse => trivial
    · exact Or.inl ((ran_execute hi).executed id |>.2 (Or.inr List.mem_cons_self))

theorem Moves.applied (hm : Moves c me heard s s') {src : Fin n} {msg : DepMsg n}
    (h : s.Applied src msg) : s'.Applied src msg := by
  induction hm with
  | refl => exact h
  | tail _ hm ih => exact hm.applied ih

theorem applied_put {id : Uid} {i i' : Instance n} (hi : s.instances.get id = some i) {src : Fin n}
    {msg : DepMsg n} (hid : msg.id = some id) (ht : i'.Took src msg) :
    (s.put id i').Applied src msg := by
  intro v hv
  rw [hid, Option.some.injEq] at hv
  subst hv
  exact Or.inr ⟨i', get_put_self hi i', Or.inr ht⟩

omit [NeZero n] in
theorem took_recordPreaccept (i : Instance n) (src : Fin n) (deps : DepSet n) :
    (i.recordPreaccept src deps).hasPreaccept src = true := by
  unfold Instance.recordPreaccept
  split
  · rename_i h
    exact h
  · simp [Instance.hasPreaccept]

omit [NeZero n] in
theorem settled_acceptedFrom (src : Fin n) (deps : DepSet n) (i : Instance n) :
    (i.acceptedFrom c me src deps).isSettled = true := by
  unfold Instance.acceptedFrom
  generalize (if c.isSwift then i else i.markLeftFastPath) = j
  have hvote : (if c.isSwift then ((j.accept deps).ackAccept src).recordPreaccept src deps
      else (j.accept deps).ackAccept src).isSettled = true := by
    split
    · rw [Instance.settled_recordPreaccept]
      rfl
    · rfl
  simp only []
  split
  · rename_i h
    exact h
  · split
    · exact hvote
    · exact hvote

theorem applied_dispatch (hs : s.instances.Counted) {src : Fin n} {msg : DepMsg n} {id : Uid}
    {i : Instance n} (hid : msg.id = some id) (hp : msg.isPreAccept = false)
    (hi : s.instances.get id = some i) (ho : i.coordinatorDeps ≠ none) :
    (s.dispatch c me src msg).Applied src msg := by
  have htry : ∀ t : DepShard n, t.instances.Counted → t.Applied src msg →
      (t.tryCommit c me id).Applied src msg := fun t ht ha => by
    have hmoves : Moves c me (fun _ _ => True) t (t.tryCommit c me id) := tryCommit_moves id ht
    exact hmoves.applied ha
  cases msg <;> cases hid
  case preAccept => cases hp
  case preAcceptOk acked =>
    rw [dispatch, onPreAcceptOk, withInstance_some hi]
    cases ha : acked.or i.coordinatorDeps with
    | none =>
      cases acked with
      | none => exact absurd ha ho
      | some deps => cases ha
    | some deps =>
      simp only []
      split
      · rename_i h
        rw [Bool.or_eq_true] at h
        intro v hv
        cases hv
        exact Or.inr ⟨i, hi, h⟩
      · exact htry _ (counted_put hs _ _)
          (applied_put hi rfl (took_recordPreaccept i src deps))
  case accept deps =>
    rw [dispatch, onAccept, withInstance_some (by exact hi), answerAccept_eq]
    have hput : (s.put id (i.acceptedFrom c me src deps)).Applied src (.accept id deps) :=
      applied_put hi rfl (settled_acceptedFrom src deps i)
    exact htry _ (counted_put hs _ _) hput
  case acceptOk =>
    rw [dispatch, onAcceptOk, withInstance_some hi]
    split
    · rename_i h
      intro v hv
      cases hv
      exact Or.inr ⟨i, hi, h⟩
    · exact htry _ (counted_put hs _ _) (applied_put hi rfl (Finset.mem_insert_self _ _))
  case commit deps =>
    rw [dispatch, onCommit, withInstance_some hi]
    cases hc : i.isCommitted with
    | true =>
      intro v hv
      cases hv
      exact Or.inr ⟨i, hi, Or.inl hc⟩
    | false =>
      generalize hreport : commitReport me id deps i s = report
      have hdone : (fillReport report (i.commit deps)).Took src (.commit id deps) := by
        cases report <;> simp [Instance.Took, fillReport, Instance.isCommitted, Instance.commit]
      have hput := applied_put hi (show (DepMsg.commit id deps).id = some id from rfl) hdone
      have hmoves : Moves c me (fun _ _ => True)
          ((s.put id (fillReport report (i.commit deps))).emit (.committed id deps)) _ :=
        executeReady_moves (counted_put hs id _)
      exact hmoves.applied hput

-- Why a message is held back under `key`: for its payload, or for a dependency it names.
inductive HeldUnder (c : Cluster n) (me : Fin n) (s : DepShard n) (key : Uid) : DepMsg n → Prop where
  | payload {msg : DepMsg n} : msg.id = some key → ¬ s.seen.contains key → HeldUnder c me s key msg
  | dependency {id : Uid} {deps : DepSet n} : c.isSwift = true → c.isReplica me = true → key ≠ id →
      s.seen.contains id → deps.contains key → ¬ s.SettledHere key →
      HeldUnder c me s key (.accept id deps)

-- Where everything a process has received is.
structure Waits (c : Cluster n) (me : Fin n) (heard : Fin n → Packet n → Prop) (s : DepShard n)
    (queue : List (Held n)) : Prop where
  known : ∀ entry ∈ queue, ∀ id, entry.2.id = some id → s.seen.contains id
  keyed : ∀ key entry, (key, entry) ∈ s.deferred → HeldUnder c me s key entry.2
  taken : ∀ src packet, heard src packet → packet.msg.isPreAccept = false →
    s.Applied src packet.msg ∨ (src, packet.msg) ∈ queue ∨
      ∃ key, (key, (src, packet.msg)) ∈ s.deferred

namespace HeldUnder

variable {key : Uid} {msg : DepMsg n}

theorem seen (h : HeldUnder c me s key msg) (hk : s.seen.contains key) {id : Uid}
    (hid : msg.id = some id) : s.seen.contains id := by
  cases h with
  | payload hkey _ =>
    rw [hid, Option.some.injEq] at hkey
    exact hkey ▸ hk
  | dependency _ _ _ hseen _ _ =>
    cases hid
    exact hseen

theorem spared (h : HeldUnder c me s key msg) (hs : s'.seen = s.seen) (hk : Spared s s' key) :
    HeldUnder c me s' key msg := by
  cases h with
  | payload hkey hseen => exact .payload hkey (hs ▸ hseen)
  | dependency hsw hr hne hseen hdep hset =>
    exact .dependency hsw hr hne (hs ▸ hseen) hdep fun h => hset (hk.settledHere.1 h)

end HeldUnder

theorem blockedBy_some {msg : DepMsg n} {dep : Uid} (h : s.blockedBy c me msg = some dep) :
    c.isSwift = true ∧ c.isReplica me = true ∧ ∃ id deps, msg = .accept id deps ∧
      s.firstUnsettled id deps = some dep := by
  unfold blockedBy at h
  split at h
  · cases h
  · rename_i hn
    simp only [not_or, Bool.not_eq_false] at hn
    cases msg <;> simp only [reduceCtorEq] at h
    exact ⟨hn.1, hn.2.2, _, _, rfl, h⟩

theorem firstUnsettled_some {id dep : Uid} {deps : DepSet n}
    (h : s.firstUnsettled id deps = some dep) :
    deps.contains dep ∧ dep ≠ id ∧ ¬ s.SettledHere dep := by
  have hm := List.mem_of_find?_eq_some h
  have hb := List.find?_some h
  obtain ⟨hd, hx⟩ := (DepSet.mem_pendingOver _ _ _).1 hm
  simp only [Bool.and_eq_true, decide_eq_true_eq, Bool.not_eq_true'] at hb
  refine ⟨hd, hb.1, fun hset => hset.elim hx fun hset => ?_⟩
  rw [hb.2] at hset
  cases hset

theorem firstUnsettled_none {id : Uid} {deps : DepSet n} :
    s.firstUnsettled id deps = none ↔ s.depsAreSettled id deps = true := by
  simp [firstUnsettled, depsAreSettled, List.find?_eq_none, or_iff_not_imp_left]

namespace Waits

variable {queue : List (Held n)}

theorem applied_done {src : Fin n} {msg : DepMsg n} {id : Uid} (hid : msg.id = some id)
    (hx : s.executed.contains id) : s.Applied src msg := fun v hv => by
  rw [hid, Option.some.injEq] at hv
  exact Or.inl (hv ▸ hx)

theorem deliver (hsane : Sane c me s) (h : Waits c me heard s queue)
    (hp : ∀ entry ∈ queue, entry.2.id ≠ none ∧ entry.2.isPreAccept = false)
    (ho : ∀ id i, s.instances.get id = some i → i.coordinatorDeps ≠ none) :
    Waits c me heard (s.deliverTurn c me queue).1 (s.deliverTurn c me queue).2 := by
  cases queue with
  | nil => exact h
  | cons entry rest =>
    obtain ⟨src, msg⟩ := entry
    obtain ⟨hidn, hpre⟩ := hp _ List.mem_cons_self
    obtain ⟨id, hid⟩ := Option.ne_none_iff_exists'.1 hidn
    have hseen : s.seen.contains id := h.known _ List.mem_cons_self id hid
    have hrest : ∀ entry ∈ rest, ∀ v, entry.2.id = some v → s.seen.contains v := fun entry he =>
      h.known entry (List.mem_cons_of_mem _ he)
    simp only [deliverTurn, hid]
    by_cases hx : s.executed.contains id
    · rw [if_pos hx]
      refine ⟨hrest, h.keyed, fun src' packet hh hnp => ?_⟩
      rcases h.taken src' packet hh hnp with ha | hq | hd
      · exact Or.inl ha
      · rcases List.mem_cons.1 hq with heq | hq
        · refine Or.inl (applied_done ?_ hx)
          rw [(Prod.mk.inj heq).2, hid]
        · exact Or.inr (Or.inl hq)
      · exact Or.inr (Or.inr hd)
    · rw [if_neg hx]
      cases hb : s.blockedBy c me msg with
      | some dep =>
        obtain ⟨hsw, hr, v, deps, rfl, hfirst⟩ := blockedBy_some hb
        obtain ⟨hdep, hne, hset⟩ := firstUnsettled_some hfirst
        cases hid
        refine ⟨hrest, fun key entry he => ?_, fun src' packet hh hnp => ?_⟩
        · rcases List.mem_append.1 he with he | he
          · exact (h.keyed key entry he).spared rfl (.inl ⟨rfl, Iff.rfl⟩)
          · cases List.mem_singleton.1 he
            exact .dependency hsw hr hne hseen hdep hset
        · rcases h.taken src' packet hh hnp with ha | hq | ⟨key, hd⟩
          · exact Or.inl ha
          · rcases List.mem_cons.1 hq with heq | hq
            · exact Or.inr (Or.inr ⟨dep, List.mem_append_right _ (by rw [heq]; exact List.mem_cons_self)⟩)
            · exact Or.inr (Or.inl hq)
          · exact Or.inr (Or.inr ⟨key, List.mem_append_left _ hd⟩)
      | none =>
        have hfix := fixed_dispatch c me src hpre hid s
        obtain ⟨i, hi⟩ := Option.ne_none_iff_exists'.1
          (((hsane.known id).1 hseen).resolve_left hx)
        have hdone : (s.dispatch c me src msg).Applied src msg :=
          applied_dispatch hsane.counted hid hpre hi (ho id i hi)
        refine ⟨fun entry he v hv => ?_, fun key entry he => ?_, fun src' packet hh hnp => ?_⟩
        · show (s.dispatch c me src msg).seen.contains v
          rw [hfix.seen]
          rcases List.mem_append.1 he with he | he
          · exact hrest entry he v hv
          · rw [mem_heldFor, hfix.deferred] at he
            exact (h.keyed id entry he).seen hseen hv
        · obtain ⟨he, hne⟩ := List.mem_filter.1 he
          rw [hfix.deferred] at he
          exact (h.keyed key entry he).spared hfix.seen
            (spared_dispatch c me src hpre hid s (of_decide_eq_true hne))
        · have hmoves : ∀ heard : Fin n → Packet n → Prop, heard src ⟨msg, none⟩ →
              Moves c me heard s (s.dispatch c me src msg) := fun _ hm =>
            dispatch_moves hsane.counted hm hpre
          rcases h.taken src' packet hh hnp with ha | hq | ⟨key, hd⟩
          · exact Or.inl ((hmoves (fun _ _ => True) trivial).applied ha)
          · rcases List.mem_cons.1 hq with heq | hq
            · obtain ⟨rfl, hmsg⟩ := Prod.mk.inj heq
              exact Or.inl (hmsg ▸ hdone)
            · exact Or.inr (Or.inl (List.mem_append_left _ hq))
          · rw [← hfix.deferred] at hd
            by_cases hkey : key = id
            · exact Or.inr (Or.inl (List.mem_append_right _ ((mem_heldFor _ _ _).2 (hkey ▸ hd))))
            · exact Or.inr (Or.inr ⟨key, List.mem_filter.2 ⟨hd, decide_eq_true hkey⟩⟩)

theorem same (h : Waits c me heard s queue) (hs : s'.seen = s.seen)
    (hd : s'.deferred = s.deferred) (hk : ∀ v, Spared s s' v)
    (ha : ∀ src msg, s.Applied src msg → s'.Applied src msg) : Waits c me heard s' queue where
  known := fun entry he id hid => hs ▸ h.known entry he id hid
  keyed := fun key entry he => (h.keyed key entry (hd ▸ he)).spared hs (hk key)
  taken := fun src packet hh hp =>
    (h.taken src packet hh hp).imp (ha src _) (Or.imp_right fun ⟨key, hm⟩ => ⟨key, hd ▸ hm⟩)

theorem quiet (h : Waits c me heard s queue) (hs : s'.seen = s.seen)
    (hd : s'.deferred = s.deferred) (hi : s'.instances = s.instances)
    (he : s'.executed = s.executed) : Waits c me heard s' queue := by
  refine h.same hs hd (fun v => Or.inl ⟨by rw [hi], by rw [he]⟩) fun src msg ha id hid => ?_
  rw [hi, he]
  exact ha id hid

theorem hear {heard' : Fin n → Packet n → Prop} (h : Waits c me heard s queue)
    (hh : ∀ src packet, heard' src packet → heard src packet ∨ packet.msg.isPreAccept = true ∨
      s.Applied src packet.msg ∨ (src, packet.msg) ∈ queue ∨
        ∃ key, (key, (src, packet.msg)) ∈ s.deferred) : Waits c me heard' s queue where
  known := h.known
  keyed := h.keyed
  taken := fun src packet hp hnp => by
    rcases hh src packet hp with hold | hpre | hnew
    · exact h.taken src packet hold hnp
    · rw [hnp] at hpre
      cases hpre
    · exact hnew

theorem grow (h : Waits c me heard s []) {id : Uid} {r : Fin n} (hid : id = uidAt (s.seen.marks r) r)
    (hs : s'.seen = s.seen.insert id) (hd : s'.deferred = s.deferred)
    (hk : ∀ v, v ≠ id → Spared s s' v) (ha : ∀ src msg, s.Applied src msg → s'.Applied src msg) :
    Waits c me heard (s'.release id) (s'.heldFor id) := by
  have hins : ∀ v, s'.seen.contains v ↔ s.seen.contains v ∨ v = id := fun v => by
    rw [hs, hid]
    exact seen_insert_next v
  refine ⟨fun entry he v hv => ?_, fun key entry he => ?_, fun src packet hh hp => ?_⟩
  · show s'.seen.contains v
    obtain ⟨src, msg⟩ := entry
    rw [mem_heldFor, hd] at he
    cases h.keyed id (src, msg) he with
    | payload hkey _ =>
      rw [hv, Option.some.injEq] at hkey
      exact (hins v).2 (Or.inr hkey)
    | dependency _ _ _ hseen _ _ =>
      cases hv
      exact (hins v).2 (Or.inl hseen)
  · obtain ⟨src, msg⟩ := entry
    obtain ⟨he, hkeep⟩ := List.mem_filter.1 he
    have hne : key ≠ id := of_decide_eq_true hkeep
    rw [hd] at he
    cases h.keyed key (src, msg) he with
    | payload hkey hseen => exact .payload hkey fun hk' => ((hins key).1 hk').elim hseen hne
    | dependency hsw hr hkey hseen hdep hset =>
      exact .dependency hsw hr hkey ((hins _).2 (Or.inl hseen)) hdep fun hk' =>
        hset ((hk key hne).settledHere.1 hk')
  · rcases h.taken src packet hh hp with happ | hq | ⟨key, hm⟩
    · exact Or.inl (ha src _ happ)
    · cases hq
    · rw [← hd] at hm
      by_cases hkey : key = id
      · exact Or.inr (Or.inl ((mem_heldFor _ _ _).2 (hkey ▸ hm)))
      · exact Or.inr (Or.inr ⟨key, List.mem_filter.2 ⟨hm, decide_eq_true hkey⟩⟩)

end Waits

theorem release_free {key : Uid} (h : ∀ entry ∈ s.deferred, entry.1 ≠ key) :
    s.heldFor key = [] ∧ (s.release key).deferred = s.deferred := by
  have hnone : s.heldFor key = [] := by
    refine List.map_eq_nil_iff.2 (List.filter_eq_nil_iff.2 fun entry he => ?_)
    simpa using h entry he
  refine ⟨hnone, List.filter_eq_self.2 fun entry he => ?_⟩
  simpa using h entry he

theorem spared_insert {id v : Uid} (hv : v ≠ id) (hi : ∃ i, s'.instances = s.instances.insert id i)
    (he : s'.executed = s.executed) : Spared s s' v := by
  obtain ⟨i, hi⟩ := hi
  exact Or.inl ⟨by rw [hi, InstanceTable.get_insert, if_neg hv], by rw [he]⟩

namespace Waits

theorem opens (hsane : Sane c me s) (h : Waits c me heard s [])
    (hown : ∀ entry ∈ s.deferred, entry.1 ≠ s.nextUid) (commands : List (Command n))
    (hc : ∀ coordinator, c.mode = .ePaxos coordinator → coordinator me = me) :
    Waits c me heard ((s.openInstance c me s.nextUid commands).tryCommit c me s.nextUid) [] := by
  have hwork := works_tryCommit c me s.nextUid
    (s.openInstance c me s.nextUid commands)
  have hmove : Move c me (fun _ _ => True) s (s.openInstance c me s.nextUid commands) :=
    .start commands hc hsane.next_free hsane.next_unexecuted (Or.inr ⟨me, trivial⟩)
  have hmoves := ReflTransGen.head hmove
    (tryCommit_moves s.nextUid (hmove.counted hsane.counted))
  have hopened : (s.openInstance c me s.nextUid commands).seen = s.seen.insert s.nextUid ∧
      (s.openInstance c me s.nextUid commands).deferred = s.deferred ∧
      (s.openInstance c me s.nextUid commands).executed = s.executed ∧
      ∃ i, (s.openInstance c me s.nextUid commands).instances =
        s.instances.insert s.nextUid i := by
    rw [openInstance_eq]
    exact ⟨rfl, rfl, rfl, _, rfl⟩
  have hd := hwork.fixed.deferred.trans hopened.2.1
  have hgrow := h.grow hsane.nextUid (hwork.fixed.seen.trans hopened.1) hd
    (fun v hv => (spared_insert hv hopened.2.2.2 hopened.2.2.1).trans (hwork.spared hv))
    fun src msg ha => Moves.applied hmoves ha
  have hfree : ∀ entry ∈ ((s.openInstance c me s.nextUid commands).tryCommit c me
      s.nextUid).deferred, entry.1 ≠ s.nextUid := fun entry he => hown entry (hd ▸ he)
  obtain ⟨hheld, hdef⟩ := release_free hfree
  rw [hheld] at hgrow
  exact hgrow.quiet rfl hdef.symm rfl rfl

theorem submit (hsane : Sane c me s) (h : Waits c me heard s [])
    (hown : ∀ entry ∈ s.deferred, entry.1 ≠ s.nextUid) (commands : List (Command n)) :
    Waits c me heard (s.submit c me commands) [] := by
  unfold DepShard.submit
  cases hm : c.mode with
  | ePaxos coordinator =>
    simp only []
    split
    · rename_i hne
      rw [send, if_neg hne]
      exact h.quiet rfl rfl rfl rfl
    · rename_i heq
      refine h.opens hsane hown commands fun _ hc => ?_
      rw [hm] at hc
      cases hc
      exact not_not.1 heq
  | swiftPaxos leader quorum =>
    exact h.opens hsane hown commands fun _ hc => by cases hm.symm.trans hc

theorem handleAbout (hsane : Sane c me s) (h : Waits c me heard s []) {src : Fin n}
    {packet : Packet n} {id : Uid} (hid : packet.msg.id = some id) (hv : packet.value = none)
    (hp : packet.msg.isPreAccept = false)
    (ho : ∀ id i, s.instances.get id = some i → i.coordinatorDeps ≠ none) :
    Waits c me (fun src' packet' => heard src' packet' ∨ (src', packet') = (src, packet))
      (s.handleAbout c me id src packet).1 (s.handleAbout c me id src packet).2 := by
  rw [DepShard.handleAbout, hv]
  split
  · rename_i hx
    refine h.hear fun src' packet' hh => hh.imp_right fun heq => Or.inr (Or.inl ?_)
    cases heq
    exact applied_done hid hx
  · rename_i hx
    split
    · rename_i hk
      rw [InstanceTable.containsKey, Option.isSome_iff_ne_none] at hk
      have hqueue : Waits c me (fun src' packet' => heard src' packet' ∨ (src', packet') = (src, packet))
          s [(src, packet.msg)] := by
        refine ⟨fun entry he v hv' => ?_, h.keyed, fun src' packet' hh hnp => ?_⟩
        · rw [List.mem_singleton.1 he, hid, Option.some.injEq] at hv'
          exact hv' ▸ (hsane.known id).2 (Or.inr hk)
        · rcases hh with hh | heq
          · exact (h.taken src' packet' hh hnp).imp_right (Or.imp_left fun hq => (by cases hq))
          · cases heq
            exact Or.inr (Or.inl List.mem_cons_self)
      refine hqueue.deliver hsane (fun entry he => ?_) ho
      rw [List.mem_singleton.1 he]
      exact ⟨by simp [hid], hp⟩
    · rename_i hk
      rw [InstanceTable.containsKey, Bool.not_eq_true, Option.isSome_eq_false_iff,
        Option.isNone_iff_eq_none] at hk
      have hunseen : ¬ s.seen.contains id := fun hs => ((hsane.known id).1 hs).elim hx fun h => h hk
      refine ⟨fun entry he => (by cases he), fun key entry he => ?_, fun src' packet' hh hnp => ?_⟩
      · rcases List.mem_append.1 he with he | he
        · exact (h.keyed key entry he).spared rfl (.inl ⟨rfl, Iff.rfl⟩)
        · cases List.mem_singleton.1 he
          exact .payload hid hunseen
      · rcases hh with hh | heq
        · rcases h.taken src' packet' hh hnp with ha | hq | ⟨key, hm⟩
          · exact Or.inl ha
          · cases hq
          · exact Or.inr (Or.inr ⟨key, List.mem_append_left _ hm⟩)
        · cases heq
          exact Or.inr (Or.inr ⟨id, List.mem_append_right _ List.mem_cons_self⟩)

theorem handle (hsane : Sane c me s) (h : Waits c me heard s []) {src : Fin n} {packet : Packet n}
    (hsrc : src ≠ me) (ht : Timely src s packet)
    (ho : ∀ id i, s.instances.get id = some i → i.coordinatorDeps ≠ none)
    (hown : ∀ entry ∈ s.deferred, entry.1 ≠ s.nextUid) :
    Waits c me (fun src' packet' => heard src' packet' ∨ (src', packet') = (src, packet))
      (s.handle c me src packet).1 (s.handle c me src packet).2 := by
  have hear : ∀ {t : DepShard n} {queue : List (Held n)}, packet.msg.id = none →
      Waits c me heard t queue →
      Waits c me (fun src' packet' => heard src' packet' ∨ (src', packet') = (src, packet)) t queue :=
    fun hid hw => hw.hear fun src' packet' hh => hh.imp_right fun heq => Or.inr (Or.inl (by
      cases heq
      exact fun v hv => nomatch hid.symm.trans hv))
  obtain ⟨msg, value⟩ := packet
  cases msg with
  | forward =>
    cases value with
    | none => exact hear rfl (h.quiet rfl rfl rfl rfl)
    | some commands => exact hear rfl (h.submit hsane hown commands)
  | readRequest id key =>
    simp only [DepShard.handle, send, if_neg hsrc]
    exact hear rfl (h.quiet rfl rfl rfl rfl)
  | readResponse id seen => exact hear rfl (h.quiet rfl rfl rfl rfl)
  | preAccept id deps =>
    obtain ⟨hid, hv⟩ := ht.fresh id deps rfl
    obtain ⟨commands, rfl⟩ := Option.isSome_iff_exists.1 hv
    have hunseen : ¬ s.seen.contains id := by simp [hid]
    have hn := hsane.free hunseen
    have he := hsane.unexecuted hunseen
    rw [handle_preAccept hn he]
    have hmove : Move c me (fun _ _ => True) s ((s.createInstance c id commands).answerPreAccept c me
        src id deps (Instance.fresh c id commands)) := .learn trivial hid hsrc hn he
    have hmoves := ReflTransGen.head hmove (tryCommit_moves id (hmove.counted hsane.counted))
    have hwork := works_tryCommit c me id ((s.createInstance c id
      commands).answerPreAccept c me src id deps (Instance.fresh c id commands))
    have hopened : ((s.createInstance c id commands).answerPreAccept c me src id deps
        (Instance.fresh c id commands)).seen = s.seen.insert id ∧
        ((s.createInstance c id commands).answerPreAccept c me src id deps
          (Instance.fresh c id commands)).deferred = s.deferred ∧
        ((s.createInstance c id commands).answerPreAccept c me src id deps
          (Instance.fresh c id commands)).executed = s.executed ∧
        ∃ i, ((s.createInstance c id commands).answerPreAccept c me src id deps
          (Instance.fresh c id commands)).instances = s.instances.insert id i := by
      rw [learn_eq]
      exact ⟨rfl, rfl, rfl, _, rfl⟩
    have hgrow := h.grow hid (hwork.fixed.seen.trans hopened.1)
      (hwork.fixed.deferred.trans hopened.2.1)
      (fun v hv => (spared_insert hv hopened.2.2.2 hopened.2.2.1).trans (hwork.spared hv))
      fun src msg ha => Moves.applied hmoves ha
    exact hgrow.hear fun src' packet' hh => hh.imp_right fun heq => Or.inl (by cases heq; rfl)
  | preAcceptOk id deps =>
    exact h.handleAbout hsane rfl (ht.bare rfl (by simp)) rfl ho
  | accept id deps =>
    exact h.handleAbout hsane rfl (ht.bare rfl (by simp)) rfl ho
  | acceptOk id =>
    exact h.handleAbout hsane rfl (ht.bare rfl (by simp)) rfl ho
  | commit id deps =>
    exact h.handleAbout hsane rfl (ht.bare rfl (by simp)) rfl ho

end Waits

end DepShard

end KCensus.Deps

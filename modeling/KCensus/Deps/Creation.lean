import KCensus.Deps.Kept

namespace KCensus.Deps

variable {n : Nat} [NeZero n]

-- Whether an event brings a command, or a view of one, into the system.
def Event.founds : Event n → Bool
  | .created _ _ | .proposed _ _ | .broadcast ⟨.preAccept _ _, _⟩ _ => true
  | _ => false

namespace DepShard

variable {c : Cluster n} {me : Fin n} {heard : Fin n → Packet n → Prop} {s s' : DepShard n}
  {events : List (Event n)}

theorem founds_ackEvent (id : Uid) {msg : DepMsg n} (hm : msg.isPreAccept = false) :
    (ackEvent c id msg).founds = false := by
  unfold ackEvent
  split
  · rfl
  · cases msg <;> first | rfl | cases hm

theorem mem_openEvents {id : Uid} {deps : DepSet n} {commands : List (Command n)} {e : Event n}
    (he : e ∈ openEvents c me id deps commands) :
    e = .created id commands ∨ e = .proposed id deps ∨
      e = .broadcast ⟨.preAccept id deps, some commands⟩ none ∨
      c.isSwift = true ∧ me = c.leader me ∧ e = ackEvent c id (.accept id deps) := by
  unfold openEvents at he
  rcases List.mem_append.1 he with he | he
  · simp only [List.mem_cons, List.not_mem_nil, or_false] at he
    tauto
  · split at he
    · rename_i hl
      rw [Bool.and_eq_true, decide_eq_true_eq] at hl
      exact Or.inr (Or.inr (Or.inr ⟨hl.1, hl.2, List.mem_singleton.1 he⟩))
    · cases he

theorem mem_preAcceptEvents {src : Fin n} {id : Uid} {deps myDeps : DepSet n} {i : Instance n}
    {e : Event n} (he : e ∈ preAcceptEvents c me src id deps myDeps i) :
    c.inFastQuorum me = true ∧
      (e = .proposed id myDeps ∨
        (c.isSwift = true ∧ c.leader me = me ∧ e = ackEvent c id (.accept id myDeps)) ∨
        ∃ acked, (acked = some myDeps ∨ acked = none ∧ myDeps = deps) ∧
          (c.isSwift = true ∧ c.leader me ≠ me ∧ e = ackEvent c id (.preAcceptOk id acked) ∨
            c.isSwift = false ∧ src ≠ me ∧ e = .send ⟨.preAcceptOk id acked, none⟩ src)) := by
  unfold preAcceptEvents at he
  split at he
  · rename_i hv
    refine ⟨hv.2, ?_⟩
    unfold voteEvents at he
    have hacked : (if decide (myDeps = deps) then none else some myDeps) = some myDeps ∨
        (if decide (myDeps = deps) then none else some myDeps) = none ∧ myDeps = deps := by
      by_cases h : myDeps = deps
      · exact Or.inr ⟨by simp [h], h⟩
      · exact Or.inl (by simp [h])
    rcases List.mem_cons.1 he with rfl | he
    · exact Or.inl rfl
    · cases hs : c.isSwift with
      | true =>
        rw [hs, if_pos rfl] at he
        split at he
        · rename_i hl
          exact Or.inr (Or.inl ⟨rfl, hl, List.mem_singleton.1 he⟩)
        · rename_i hl
          exact Or.inr (Or.inr ⟨_, hacked, Or.inl ⟨rfl, hl, List.mem_singleton.1 he⟩⟩)
      | false =>
        rw [hs, if_neg (by simp)] at he
        unfold sendEvents at he
        split at he
        · cases he
        · rename_i hne
          exact Or.inr (Or.inr ⟨_, hacked, Or.inr ⟨rfl, hne, List.mem_singleton.1 he⟩⟩)
  · cases he

theorem proposed_of_mem {src : Fin n} {id : Uid} {deps myDeps : DepSet n} {i : Instance n}
    {e : Event n} (he : e ∈ preAcceptEvents c me src id deps myDeps i) :
    Event.proposed id myDeps ∈ preAcceptEvents c me src id deps myDeps i := by
  unfold preAcceptEvents at he ⊢
  split
  · exact List.mem_cons_self
  · rename_i hn
    rw [if_neg hn] at he
    cases he

theorem mem_acceptEvents {src : Fin n} {id : Uid} {i : Instance n} {e : Event n}
    (he : e ∈ acceptEvents c me src id i) : c.isReplica me = true ∧
      (e = ackEvent c id (.acceptOk id) ∨ e = .send ⟨.acceptOk id, none⟩ src) := by
  unfold acceptEvents sendEvents at he
  split at he
  · rename_i hr
    refine ⟨hr.2, ?_⟩
    split at he
    · exact Or.inl (List.mem_singleton.1 he)
    · split at he
      · cases he
      · exact Or.inr (List.mem_singleton.1 he)
  · cases he

-- The two moves after which a shard knows one more command.
inductive Founds (c : Cluster n) (me : Fin n) (heard : Fin n → Packet n → Prop) (s : DepShard n) :
    DepShard n → Prop where
  | start (commands : List (Command n)) :
      (∀ coordinator, c.mode = .ePaxos coordinator → coordinator me = me) →
      Requested heard s commands → Founds c me heard s (s.openInstance c me s.nextUid commands)
  | learn {src : Fin n} {id : Uid} {deps : DepSet n} {commands : List (Command n)} :
      heard src ⟨.preAccept id deps, some commands⟩ → id = uidAt (s.seen.marks src) src → src ≠ me →
      Founds c me heard s ((s.createInstance c id commands).answerPreAccept c me src id deps
        (Instance.fresh c id commands))

def Event.plain (c : Cluster n) (e : Event n) : Prop :=
  e.founds = false ∧ e.executedId = none ∧ (c.isSwift = true → e.acceptance = none)

structure Quiet (c : Cluster n) (s s' : DepShard n) (events : List (Event n)) : Prop where
  seen : s'.seen = s.seen
  conflicts : s'.conflicts = s.conflicts
  executed : s'.executed = s.executed
  plain : ∀ e ∈ events, Event.plain c e

theorem executedId_ackEvent (id : Uid) (msg : DepMsg n) :
    (ackEvent c id msg).executedId = none := by
  unfold ackEvent
  split <;> rfl

theorem plain_acceptOk (id : Uid) : Event.plain c (ackEvent c id (.acceptOk id)) := by
  refine ⟨founds_ackEvent id rfl, executedId_ackEvent id _, fun _ => ?_⟩
  unfold ackEvent
  split <;> rfl

theorem Move.kinds (hm : Move c me heard s s') (he : s'.sinks = s.sinks ++ events) :
    Founds c me heard s s' ∨
      (∃ uid i, s.instances.get uid = some i ∧ i.isCommitted = true ∧
        (nextExecutable s.instances s.executed = some uid ∨
          ∃ order, Event.ordered order ∈ s.sinks ∧ uid ∈ order) ∧
        s' = s.execute uid ∧ events = [.executed uid i.commands]) ∨
      Quiet c s s' events := by
  have hmany : ∀ {more : List (Event n)}, s'.seen = s.seen → s'.conflicts = s.conflicts →
      s'.executed = s.executed → s'.sinks = s.sinks ++ more →
      (∀ e ∈ more, Event.plain c e) → Quiet c s s' events := by
    intro more h₁ h₂ h₃ h hq
    rw [he] at h
    rw [List.append_cancel_left h]
    exact ⟨h₁, h₂, h₃, hq⟩
  have hone : ∀ {e : Event n}, s'.seen = s.seen → s'.conflicts = s.conflicts →
      s'.executed = s.executed → s'.sinks = s.sinks ++ [e] → Event.plain c e → Quiet c s s' events :=
    fun h₁ h₂ h₃ h hq => hmany h₁ h₂ h₃ h fun e' he' => List.mem_singleton.1 he' ▸ hq
  have hnone : s'.seen = s.seen → s'.conflicts = s.conflicts → s'.executed = s.executed →
      s'.sinks = s.sinks → Quiet c s s' events := fun h₁ h₂ h₃ h =>
    hmany h₁ h₂ h₃ (h.trans (List.append_nil _).symm) fun e he' => nomatch he'
  cases hm with
  | start commands hc _ _ ho => exact Or.inl (.start commands hc ho)
  | learn h hid hsrc _ _ => exact Or.inl (.learn h hid hsrc)
  | execute hi hc hw =>
    refine Or.inr (Or.inl ⟨_, _, hi, hc, hw, rfl, ?_⟩)
    rw [DepShard.execute, withInstance_some hi] at he
    exact (List.append_cancel_left he).symm
  | note hn =>
    refine Or.inr (Or.inr (hone rfl rfl rfl rfl ?_))
    rcases hn with rfl | ⟨_, rfl⟩ | ⟨_, _, rfl⟩ | ⟨_, _, rfl⟩ <;> exact ⟨rfl, rfl, fun _ => rfl⟩
  | announce _ ha =>
    refine Or.inr (Or.inr (hone rfl rfl rfl rfl ?_))
    rcases ha with ⟨-, rfl⟩ | ⟨-, _, rfl, -⟩ <;> exact ⟨rfl, rfl, fun _ => rfl⟩
  | forward _ _ _ => exact Or.inr (Or.inr (hone rfl rfl rfl rfl ⟨rfl, rfl, fun _ => rfl⟩))
  | accept _ _ =>
    rw [answerAccept_eq] at hmany ⊢
    refine Or.inr (Or.inr (hmany rfl rfl rfl rfl fun e hmem => ?_))
    rcases (mem_acceptEvents hmem).2 with rfl | rfl
    · exact plain_acceptOk _
    · exact ⟨rfl, rfl, fun _ => rfl⟩
  | slowPath hs _ _ _ _ _ =>
    exact Or.inr (Or.inr (hone rfl rfl rfl rfl ⟨rfl, rfl, fun hsw => absurd (hs.symm.trans hsw) (by simp)⟩))
  | commit _ _ _ => exact Or.inr (Or.inr (hone rfl rfl rfl rfl ⟨rfl, rfl, fun _ => rfl⟩))
  | order _ => exact Or.inr (Or.inr (hone rfl rfl rfl rfl ⟨rfl, rfl, fun _ => rfl⟩))
  | serve =>
    refine Or.inr (Or.inr (hmany rfl rfl rfl rfl fun e hmem => ?_))
    obtain ⟨entry, -, rfl⟩ := List.mem_map.1 hmem
    exact ⟨rfl, rfl, fun _ => rfl⟩
  | ask command =>
    refine Or.inr (Or.inr (hmany ?_ ?_ ?_ (askReplicas_sinks s command) fun e hmem => ?_))
    · unfold askReplicas
      split <;> rfl
    · unfold askReplicas
      split <;> rfl
    · unfold askReplicas
      split <;> rfl
    · simp only [List.mem_cons, List.not_mem_nil, or_false] at hmem
      rcases hmem with rfl | rfl <;> exact ⟨rfl, rfl, fun _ => rfl⟩
  | drain => exact Or.inr (Or.inr (hone rfl rfl rfl rfl ⟨rfl, rfl, fun _ => rfl⟩))
  | vote _ _ _ _ _ | ack _ _ _ | leavePath _ _ | hold _ _ _ _ | release _ | sleep _ =>
    exact Or.inr (Or.inr (hnone rfl rfl rfl rfl))

theorem Move.founds_or (hm : Move c me heard s s') (he : s'.sinks = s.sinks ++ events) :
    Founds c me heard s s' ∨
      (s'.seen = s.seen ∧ s'.conflicts = s.conflicts ∧ ∀ e ∈ events, e.founds = false) := by
  rcases hm.kinds he with hf | ⟨uid, i, hi, -, -, rfl, rfl⟩ | hq
  · exact Or.inl hf
  · refine Or.inr ?_
    rw [DepShard.execute, withInstance_some hi]
    exact ⟨rfl, rfl, fun e hmem => List.mem_singleton.1 hmem ▸ rfl⟩
  · exact Or.inr ⟨hq.seen, hq.conflicts, fun e hmem => (hq.plain e hmem).1⟩

theorem Founds.executed (hf : Founds c me heard s s') (he : s'.sinks = s.sinks ++ events) :
    s'.executed = s.executed ∧ ∀ e ∈ events, e.executedId = none := by
  cases hf with
  | start commands _ =>
    rw [openInstance_eq] at he ⊢
    rw [← List.append_cancel_left he]
    refine ⟨rfl, fun e hmem => ?_⟩
    rcases mem_openEvents hmem with rfl | rfl | rfl | ⟨-, -, rfl⟩
    · rfl
    · rfl
    · rfl
    · exact executedId_ackEvent _ _
  | learn _ _ _ =>
    rw [learn_eq] at he ⊢
    rw [← List.append_cancel_left he]
    refine ⟨rfl, fun e hmem => ?_⟩
    rcases List.mem_cons.1 hmem with rfl | hmem
    · rfl
    · obtain ⟨-, rfl | ⟨-, -, rfl⟩ | ⟨_, -, ⟨-, -, rfl⟩ | ⟨-, -, rfl⟩⟩⟩ := mem_preAcceptEvents hmem
      · rfl
      · exact executedId_ackEvent _ _
      · exact executedId_ackEvent _ _
      · rfl

theorem Move.executed_or (hm : Move c me heard s s') (he : s'.sinks = s.sinks ++ events) :
    (∃ uid i, s.instances.get uid = some i ∧ i.isCommitted = true ∧
        (nextExecutable s.instances s.executed = some uid ∨
          ∃ order, Event.ordered order ∈ s.sinks ∧ uid ∈ order) ∧
        s' = s.execute uid ∧ events = [.executed uid i.commands]) ∨
      (s'.executed = s.executed ∧ ∀ e ∈ events, e.executedId = none) := by
  rcases hm.kinds he with hf | hr | hq
  · exact Or.inr (hf.executed he)
  · exact Or.inl hr
  · exact Or.inr ⟨hq.executed, fun e hmem => (hq.plain e hmem).2.1⟩

theorem Arrives.founds {src : Fin n} {packet : Packet n} (ha : Arrives c me src s packet s')
    (he : s'.sinks = s.sinks ++ events) :
    s'.seen = s.seen ∧ s'.conflicts = s.conflicts ∧ ∀ e ∈ events, e.founds = false := by
  cases ha with
  | request =>
    rw [emit, emit, List.append_assoc] at he
    rw [← List.append_cancel_left he]
    refine ⟨rfl, rfl, fun e hmem => ?_⟩
    simp only [List.singleton_append, List.mem_cons, List.not_mem_nil, or_false] at hmem
    rcases hmem with rfl | rfl <;> rfl
  | response | plain =>
    rw [← List.append_cancel_left he]
    exact ⟨rfl, rfl, fun e hmem => List.mem_singleton.1 hmem ▸ rfl⟩

end DepShard

namespace DepShard

-- What is true of a shard at the moment it logs an event that founds nothing.
def Logs (c : Cluster n) (me : Fin n) (heard : Fin n → Packet n → Prop) (s s' : DepShard n) :
    Event n → Prop
  | .committed id deps => ∃ i, s.instances.get id = some i ∧ i.isCommitted = false ∧
      Decides c me heard id i deps ∧
      s' = (s.put id (fillReport (commitReport me id deps i s) (i.commit deps))).emit
        (.committed id deps)
  | .executed id commands => ∃ i, s.instances.get id = some i ∧ i.isCommitted = true ∧
      commands = i.commands
  | .ordered order => nextExecutable s.instances s.executed = none ∧
      order = executableOrder s.instances s.executed
  | .served id command => (id, command) ∈ s.reads.ready s.executed
  | .handed commands => commands = s.ready
  | .readSubmitted id command => id = s.reads.nextId ∧ command.readOnly = true
  | .send ⟨.forward, value⟩ _ => (∃ coordinator, c.mode = .ePaxos coordinator ∧ coordinator me ≠ me) ∧
      ∃ commands, value = some commands ∧ Requested heard s commands
  | .dispatchedAccept id deps settled => settled = s.depsAreSettled id deps
  | .received _ _ | .broadcast ⟨.forward, _⟩ _ => False
  | _ => True

variable {c : Cluster n} {me : Fin n} {heard : Fin n → Packet n → Prop} {s s' : DepShard n}
  {events : List (Event n)}

theorem logs_ackEvent (id : Uid) {msg : DepMsg n} (hm : msg.isAck = true) :
    Logs c me heard s s' (ackEvent c id msg) := by
  unfold ackEvent
  split
  · trivial
  · cases msg <;> trivial

theorem Move.logs (hm : Move c me heard s s') (he : s'.sinks = s.sinks ++ events) {e : Event n}
    (hmem : e ∈ events) : Logs c me heard s s' e := by
  have hnone : s'.sinks = s.sinks → False := by
    intro h
    rw [h] at he
    rw [List.self_eq_append_right.1 he] at hmem
    cases hmem
  have hone : ∀ {e' : Event n}, s'.sinks = s.sinks ++ [e'] → e = e' := by
    intro e' h
    rw [he] at h
    rw [List.append_cancel_left h] at hmem
    exact List.mem_singleton.1 hmem
  cases hm with
  | note hn =>
    rcases hn with rfl | ⟨_, rfl⟩ | ⟨_, _, rfl⟩ | ⟨_, _, rfl⟩ <;> cases hone rfl <;>
      trivial
  | announce _ ha =>
    rcases ha with ⟨-, rfl⟩ | ⟨-, _, rfl, -⟩ <;> cases hone rfl <;> trivial
  | start commands _ _ _ =>
    rw [openInstance_eq] at he
    rw [← List.append_cancel_left he] at hmem
    rcases mem_openEvents hmem with rfl | rfl | rfl | ⟨-, -, rfl⟩
    · trivial
    · trivial
    · trivial
    · exact logs_ackEvent _ rfl
  | learn _ _ _ _ _ =>
    rw [learn_eq] at he
    rw [← List.append_cancel_left he] at hmem
    rcases List.mem_cons.1 hmem with rfl | hmem
    · trivial
    · obtain ⟨-, rfl | ⟨-, -, rfl⟩ | ⟨_, -, ⟨-, -, rfl⟩ | ⟨-, -, rfl⟩⟩⟩ := mem_preAcceptEvents hmem
      · trivial
      · exact logs_ackEvent _ rfl
      · exact logs_ackEvent _ rfl
      · trivial
  | accept _ _ =>
    rw [answerAccept_eq] at he
    rw [← List.append_cancel_left he] at hmem
    rcases (mem_acceptEvents hmem).2 with rfl | rfl
    · exact logs_ackEvent _ rfl
    · trivial
  | forward commands hm hne ho =>
    cases hone rfl
    exact ⟨⟨_, hm, hne⟩, commands, rfl, ho⟩
  | slowPath _ _ _ _ _ _ =>
    cases hone rfl
    trivial
  | commit hi hc hd =>
    cases hone rfl
    exact ⟨_, hi, hc, hd, rfl⟩
  | order hn =>
    cases hone rfl
    exact ⟨hn, rfl⟩
  | execute hi hc _ =>
    rw [DepShard.execute, withInstance_some hi] at hone
    cases hone rfl
    exact ⟨_, hi, hc, rfl⟩
  | serve =>
    rw [← List.append_cancel_left he] at hmem
    obtain ⟨entry, hentry, rfl⟩ := List.mem_map.1 hmem
    exact hentry
  | ask command hr =>
    rw [List.append_cancel_left (he.symm.trans (askReplicas_sinks s command))] at hmem
    simp only [List.mem_cons, List.not_mem_nil, or_false] at hmem
    rcases hmem with rfl | rfl
    · exact ⟨rfl, hr⟩
    · trivial
  | drain =>
    cases hone rfl
    rfl
  | vote _ _ _ _ _ | ack _ _ _ | leavePath _ _ | hold _ _ _ _ | release _ | sleep _ =>
    exact (hnone rfl).elim

theorem Arrives.logs {src : Fin n} {packet : Packet n} (ha : Arrives c me src s packet s')
    (he : s'.sinks = s.sinks ++ events) {e : Event n} (hmem : e ∈ events) :
    e = .received src packet ∨
      ∃ id key value seen, packet = ⟨.readRequest id key, value⟩ ∧ seen = s.depsFor c [key] ∧
        e = .send ⟨.readResponse id seen, none⟩ src := by
  cases ha with
  | request =>
    rw [emit, emit, List.append_assoc] at he
    rw [← List.append_cancel_left he] at hmem
    simp only [List.singleton_append, List.mem_cons, List.not_mem_nil, or_false] at hmem
    rcases hmem with rfl | rfl
    · exact Or.inl rfl
    · exact Or.inr ⟨_, _, _, _, rfl, rfl, rfl⟩
  | response | plain =>
    rw [← List.append_cancel_left he] at hmem
    exact Or.inl (List.mem_singleton.1 hmem)

theorem Arrives.same {src : Fin n} {packet : Packet n} (ha : Arrives c me src s packet s') :
    ∃ sinks reads, s' = { s with sinks := sinks, reads := reads } := by
  cases ha with
  | request => exact ⟨_, _, rfl⟩
  | response => exact ⟨_, _, rfl⟩
  | plain => exact ⟨_, _, rfl⟩

end DepShard

-- What the log says about the commands a process has heard of and its own views of them.
structure Created (c : Cluster n) (hist : List (Fin n × Event n)) (p : Fin n) (s : DepShard n) :
    Prop where
  seen : ∀ id, s.seen.contains id ↔ ∃ commands, (p, Event.created id commands) ∈ hist
  once : ∀ id commands commands', (p, Event.created id commands) ∈ hist →
    (p, Event.created id commands') ∈ hist → commands = commands'
  source : ∀ id commands, (p, Event.created id commands) ∈ hist →
    (requesterOf n id, Event.created id commands) ∈ hist
  home : ∀ id commands, (p, Event.created id commands) ∈ hist → c.isSwift = false →
    c.isReplica (requesterOf n id) = true
  proposal : ∀ id deps, (p, Event.proposed id deps) ∈ hist →
    ∃ commands, (p, Event.created id commands) ∈ hist
  proposal_once : ∀ id deps deps', (p, Event.proposed id deps) ∈ hist →
    (p, Event.proposed id deps') ∈ hist → deps = deps'
  voter : ∀ id deps, (p, Event.proposed id deps) ∈ hist → requesterOf n id ≠ p →
    c.inFastQuorum p = true
  offer : ∀ id deps commands priority,
    (p, Event.broadcast ⟨.preAccept id deps, some commands⟩ priority) ∈ hist →
    (p, Event.created id commands) ∈ hist ∧ (p, Event.proposed id deps) ∈ hist

namespace Created

variable {c : Cluster n} {hist : List (Fin n × Event n)} {p : Fin n} {s s' : DepShard n}
  {events : List (Event n)}

omit [NeZero n] in
theorem mem_quiet (hq : ∀ e ∈ events, e.founds = false) {q : Fin n} {e : Event n}
    (hf : e.founds = true) :
    (q, e) ∈ hist ++ events.map (Prod.mk p) ↔ (q, e) ∈ hist := by
  refine ⟨fun h => ?_, List.mem_append_left _⟩
  rcases mem_log h with h | ⟨-, h⟩
  · exact h
  · rw [hq e h] at hf
    cases hf

theorem quiet (h : Created c hist p s) (hs : s'.seen = s.seen) {q : Fin n}
    (hq : ∀ e ∈ events, e.founds = false) : Created c (hist ++ events.map (Prod.mk q)) p s' := by
  have hmem : ∀ {r : Fin n} {e : Event n}, e.founds = true →
      ((r, e) ∈ hist ++ events.map (Prod.mk q) ↔ (r, e) ∈ hist) := fun hf => mem_quiet hq hf
  refine ⟨fun id => ?_, fun id a b ha hb => ?_, fun id a ha => ?_, fun id a ha => ?_,
    fun id d hd => ?_, fun id d d' hd hd' => ?_, fun id d hd => ?_, fun id d a o ha => ?_⟩
  · simp only [hs, h.seen, hmem (show (Event.created id _).founds = true from rfl)]
  · exact h.once id a b ((hmem rfl).1 ha) ((hmem rfl).1 hb)
  · exact (hmem rfl).2 (h.source id a ((hmem rfl).1 ha))
  · exact h.home id a ((hmem rfl).1 ha)
  · obtain ⟨commands, hc⟩ := h.proposal id d ((hmem rfl).1 hd)
    exact ⟨commands, (hmem rfl).2 hc⟩
  · exact h.proposal_once id d d' ((hmem rfl).1 hd) ((hmem rfl).1 hd')
  · exact h.voter id d ((hmem rfl).1 hd)
  · obtain ⟨hc, hd⟩ := h.offer id d a o ((hmem rfl).1 ha)
    exact ⟨(hmem rfl).2 hc, (hmem rfl).2 hd⟩

theorem other {q : Fin n} {e : Event n} (hq : q ≠ p) (h : Created c hist p s) :
    Created c (hist ++ [(q, e)]) p s := by
  have hold : ∀ {x : Event n}, (p, x) ∈ hist ++ [(q, e)] → (p, x) ∈ hist := fun hx =>
    mem_other hq hx
  refine ⟨fun id => ?_, fun id a b ha hb => h.once id a b (hold ha) (hold hb),
    fun id a ha => List.mem_append_left _ (h.source id a (hold ha)),
    fun id a ha => h.home id a (hold ha), fun id d hd => ?_,
    fun id d d' hd hd' => h.proposal_once id d d' (hold hd) (hold hd'),
    fun id d hd => h.voter id d (hold hd), fun id d a o ha => ?_⟩
  · rw [h.seen]
    exact ⟨fun ⟨a, ha⟩ => ⟨a, List.mem_append_left _ ha⟩, fun ⟨a, ha⟩ => ⟨a, hold ha⟩⟩
  · obtain ⟨a, ha⟩ := h.proposal id d (hold hd)
    exact ⟨a, List.mem_append_left _ ha⟩
  · obtain ⟨hc, hd⟩ := h.offer id d a o (hold ha)
    exact ⟨List.mem_append_left _ hc, List.mem_append_left _ hd⟩

theorem unseen (h : Created c hist p s) {id : Uid} (hid : ¬ s.seen.contains id)
    (commands : List (Command n)) : (p, Event.created id commands) ∉ hist := fun hm =>
  hid ((h.seen id).2 ⟨commands, hm⟩)

theorem unproposed (h : Created c hist p s) {id : Uid} (hid : ¬ s.seen.contains id)
    (deps : DepSet n) : (p, Event.proposed id deps) ∉ hist := fun hm => by
  obtain ⟨commands, hc⟩ := h.proposal id deps hm
  exact h.unseen hid commands hc

theorem found (h : Created c hist p s) {id : Uid} {commands : List (Command n)}
    (deps : DepSet n) (hid : id = uidAt (s.seen.marks (requesterOf n id)) (requesterOf n id))
    (hs : s'.seen = s.seen.insert id) (hc : Event.created id commands ∈ events)
    (hevents : ∀ e ∈ events, e = .created id commands ∨ e = .proposed id deps ∨
      (e = .broadcast ⟨.preAccept id deps, some commands⟩ none ∧
        Event.proposed id deps ∈ events) ∨ e.founds = false)
    (hvoter : Event.proposed id deps ∈ events → requesterOf n id ≠ p → c.inFastQuorum p = true)
    (hsource : requesterOf n id ≠ p → (requesterOf n id, Event.created id commands) ∈ hist)
    (hhome : c.isSwift = false → c.isReplica (requesterOf n id) = true) :
    Created c (hist ++ events.map (Prod.mk p)) p s' := by
  have hunseen : ¬ s.seen.contains id := by
    rw [hid]
    simp
  have hcreated : ∀ {id' : Uid} {a : List (Command n)},
      (p, Event.created id' a) ∈ hist ++ events.map (Prod.mk p) →
      (p, Event.created id' a) ∈ hist ∨ id' = id ∧ a = commands := by
    intro id' a ha
    rcases mem_log ha with ha | ⟨-, ha⟩
    · exact Or.inl ha
    · rcases hevents _ ha with heq | heq | ⟨heq, -⟩ | hf
      · cases heq
        exact Or.inr ⟨rfl, rfl⟩
      · cases heq
      · cases heq
      · cases hf
  have hproposed : ∀ {id' : Uid} {d : DepSet n},
      (p, Event.proposed id' d) ∈ hist ++ events.map (Prod.mk p) →
      (p, Event.proposed id' d) ∈ hist ∨ id' = id ∧ d = deps ∧ Event.proposed id deps ∈ events := by
    intro id' d hd
    rcases mem_log hd with hd | ⟨-, hd⟩
    · exact Or.inl hd
    · rcases hevents _ hd with heq | heq | ⟨heq, -⟩ | hf
      · cases heq
      · cases heq
        exact Or.inr ⟨rfl, rfl, hd⟩
      · cases heq
      · cases hf
  have hnew : ∀ e ∈ events, (p, e) ∈ hist ++ events.map (Prod.mk p) := fun e he =>
    List.mem_append_right _ (List.mem_map.2 ⟨e, he, rfl⟩)
  refine ⟨fun id' => ?_, fun id' a b ha hb => ?_, fun id' a ha => ?_, fun id' a ha hsw => ?_,
    fun id' d hd => ?_, fun id' d d' hd hd' => ?_, fun id' d hd hr => ?_, fun id' d a o ha => ?_⟩
  · have hins : s'.seen.contains id' ↔ s.seen.contains id' ∨ id' = id := by
      rw [hs, hid]
      exact DepShard.seen_insert_next id'
    rw [hins, h.seen]
    constructor
    · rintro (⟨a, ha⟩ | rfl)
      · exact ⟨a, List.mem_append_left _ ha⟩
      · exact ⟨commands, hnew _ hc⟩
    · rintro ⟨a, ha⟩
      rcases hcreated ha with ha | ⟨rfl, -⟩
      · exact Or.inl ⟨a, ha⟩
      · exact Or.inr rfl
  · rcases hcreated ha with ha | ⟨rfl, rfl⟩ <;> rcases hcreated hb with hb | ⟨heq, rfl⟩
    · exact h.once id' a b ha hb
    · subst heq
      exact absurd ha (h.unseen hunseen a)
    · exact absurd hb (h.unseen hunseen b)
    · rfl
  · rcases hcreated ha with ha | ⟨rfl, rfl⟩
    · exact List.mem_append_left _ (h.source id' a ha)
    · by_cases hr : requesterOf n id' = p
      · rw [hr]
        exact hnew _ hc
      · exact List.mem_append_left _ (hsource hr)
  · rcases hcreated ha with ha | ⟨rfl, rfl⟩
    · exact h.home id' a ha hsw
    · exact hhome hsw
  · rcases hproposed hd with hd | ⟨rfl, rfl, -⟩
    · obtain ⟨a, ha⟩ := h.proposal id' d hd
      exact ⟨a, List.mem_append_left _ ha⟩
    · exact ⟨commands, hnew _ hc⟩
  · rcases hproposed hd with hd | ⟨rfl, rfl, -⟩ <;> rcases hproposed hd' with hd' | ⟨heq, rfl, -⟩
    · exact h.proposal_once id' d d' hd hd'
    · subst heq
      exact absurd hd (h.unproposed hunseen d)
    · exact absurd hd' (h.unproposed hunseen d')
    · rfl
  · rcases hproposed hd with hd | ⟨rfl, rfl, hmem⟩
    · exact h.voter id' d hd hr
    · exact hvoter hmem hr
  · rcases mem_log ha with ha | ⟨-, ha⟩
    · obtain ⟨hc', hd'⟩ := h.offer id' d a o ha
      exact ⟨List.mem_append_left _ hc', List.mem_append_left _ hd'⟩
    · rcases hevents _ ha with heq | heq | ⟨heq, hmem⟩ | hf
      · cases heq
      · cases heq
      · cases heq
        exact ⟨hnew _ hc, hnew _ hmem⟩
      · cases hf

theorem move (hsc : Scene c (fun _ _ _ => True) (Created c) hist p s)
    (hm : DepShard.Move c p (heardBy hist p) s s') (he : s'.sinks = s.sinks ++ events) :
    Created c (hist ++ events.map (Prod.mk p)) p s' := by
  rcases hm.founds_or he with hf | ⟨hs, -, hq⟩
  · cases hf with
    | start commands hc =>
      have hnext := hsc.sane.nextUid
      have hr : requesterOf n s.nextUid = p := by rw [hnext, requesterOf_uidAt]
      rw [DepShard.openInstance_eq] at he ⊢
      rw [← List.append_cancel_left he]
      refine hsc.own.found (s.depsFor c (keysOf commands)) ?_ rfl
        (List.mem_append_left _ List.mem_cons_self) (fun e hmem => ?_)
        (fun _ hne => absurd hr hne) (fun hne => absurd hr hne) fun hsw => ?_
      · rw [hr]
        exact hnext
      · rcases DepShard.mem_openEvents hmem with h | h | h | ⟨-, -, rfl⟩
        · exact Or.inl h
        · exact Or.inr (Or.inl h)
        · exact Or.inr (Or.inr (Or.inl ⟨h, by simp [openEvents]⟩))
        · exact Or.inr (Or.inr (Or.inr (DepShard.founds_ackEvent _ rfl)))
      · rw [hr]
        exact c.isReplica_of_coordinates hsw hc
    | @learn src id deps commands hh hid hsrc =>
      have hr : requesterOf n id = src := by rw [hid, requesterOf_uidAt]
      obtain ⟨-, e, hsaid, hpk⟩ := hsc.faithful.arrived p src _ hh
      obtain ⟨t, -, ht⟩ := hsc.all src
      have hoffer : (src, Event.created id commands) ∈ hist := by
        cases e <;> simp only [Event.packetTo, Option.some.injEq, reduceCtorEq] at hpk
        case broadcast packet priority =>
          subst hpk
          exact (ht.offer id deps commands priority hsaid).1
        case send packet d =>
          rcases hsc.faithful.valid _ _ hsaid with ⟨-, -, -, hp, -⟩ | ⟨_, _, h⟩
          · rw [Option.some.inj (Option.ite_none_right_eq_some.1 hpk).2] at hp
            cases hp
          · cases h
        case queueAck msg requester => cases hpk
      rw [DepShard.learn_eq] at he ⊢
      rw [← List.append_cancel_left he]
      refine hsc.own.found ((s.noteSeen c id (keysOf commands)).ownDeps c id deps (keysOf commands))
        ?_ rfl List.mem_cons_self (fun e hmem => ?_) (fun hmem _ => ?_) (fun _ => ?_) fun hsw => ?_
      · rw [hr]
        exact hid
      · rcases List.mem_cons.1 hmem with h | h
        · exact Or.inl h
        · obtain ⟨-, h | ⟨-, -, rfl⟩ | ⟨acked, -, ⟨-, -, rfl⟩ | ⟨-, -, rfl⟩⟩⟩ :=
            DepShard.mem_preAcceptEvents h
          · exact Or.inr (Or.inl h)
          · exact Or.inr (Or.inr (Or.inr (DepShard.founds_ackEvent _ rfl)))
          · exact Or.inr (Or.inr (Or.inr (DepShard.founds_ackEvent _ rfl)))
          · exact Or.inr (Or.inr (Or.inr rfl))
      · rcases List.mem_cons.1 hmem with h | h
        · cases h
        · exact (DepShard.mem_preAcceptEvents h).1
      · rw [hr]
        exact hoffer
      · have := ht.home id commands hoffer hsw
        exact this
  · exact hsc.own.quiet hs hq

theorem kept : Kept c (Created c) where
  new := fun p => ⟨by simp [DepShard.new], by simp, by simp, by simp, by simp, by simp, by simp,
    by simp⟩
  clear := fun h => ⟨h.seen, h.once, h.source, h.home, h.proposal, h.proposal_once, h.voter, h.offer⟩
  other := fun hq h => h.other hq
  arrive := fun hsc _ _ _ ha he => by
    obtain ⟨hs, -, hq⟩ := ha.founds he
    exact hsc.own.quiet hs hq
  move := move

end Created

end KCensus.Deps

import KCensus.Deps.Reads

namespace KCensus.Deps

variable {n : Nat} [NeZero n]

-- A process that proposes the commands of its clients itself.
def Cluster.Coordinates (c : Cluster n) (p : Fin n) : Prop :=
  ∀ coordinator, c.mode = .ePaxos coordinator → coordinator p = p

def reportTo (coordinatorPid : Fin n) (commands : List (Command n)) :
    Option CommitReport → List (Command n)
  | none => commands
  | some report => commands.map fun command =>
      if command.requester = coordinatorPid ∧ command.readOnly = false then
        { command with report := some report }
      else command

omit [NeZero n] in
theorem commands_fillReport (report : Option CommitReport) (i : Instance n) :
    (DepShard.fillReport report i).commands = reportTo i.coordinatorPid i.commands report := by
  cases report <;> rfl

omit [NeZero n] in
theorem committed_fillReport (report : Option CommitReport) (i : Instance n) :
    (DepShard.fillReport report i).isCommitted = i.isCommitted := by
  cases report <;> rfl

theorem isSome_commitReport (me : Fin n) (id : Uid) (deps : DepSet n) {i : Instance n}
    (hc : i.isCommitted = false) (s : DepShard n) :
    (DepShard.commitReport me id deps i s).isSome = i.commands.any (·.requester = me) := by
  unfold DepShard.commitReport
  rw [hc, Bool.not_false, Bool.true_and]
  cases i.commands.any (·.requester = me) <;> rfl

omit [NeZero n] in
theorem mem_reportTo {coordinatorPid : Fin n} {commands : List (Command n)}
    {report : Option CommitReport} {x : Command n}
    (hx : x ∈ reportTo coordinatorPid commands report) :
    ∃ y ∈ commands, x.request = y.request ∧
      (x = y ∧ (report = none ∨ ¬ (y.requester = coordinatorPid ∧ y.readOnly = false)) ∨
        x.report = report ∧ report.isSome = true ∧ y.requester = coordinatorPid) := by
  cases report with
  | none => exact ⟨x, hx, rfl, Or.inl ⟨rfl, Or.inl rfl⟩⟩
  | some report =>
    obtain ⟨y, hy, rfl⟩ := List.mem_map.1 hx
    refine ⟨y, hy, ?_⟩
    split
    · rename_i hfill
      exact ⟨rfl, Or.inr ⟨rfl, rfl, hfill.1⟩⟩
    · rename_i hkeep
      exact ⟨rfl, Or.inl ⟨rfl, Or.inr hkeep⟩⟩

section

variable (c : Cluster n) (hist : List (Fin n × Event n)) (p : Fin n)

-- What the log says about where commands come from.
structure Traced : Prop where
  forwarded : ∀ commands, said hist p ⟨.forward, some commands⟩ →
    ∃ q, (q, Event.submitted commands) ∈ hist ∧ ¬ c.Coordinates q
  opened : ∀ id commands, (p, Event.created id commands) ∈ hist → requesterOf n id = p →
    c.Coordinates p ∧ ∃ q, (q, Event.submitted commands) ∈ hist ∧ (c.Coordinates q → q = p)
  asked : ∀ id command, (p, Event.readSubmitted id command) ∈ hist → command.readOnly = true

-- The commands an instance carries are those of its creation, with what `on_commit` fills in.
def Filled (id : Uid) (committed : Bool) (commands : List (Command n)) : Prop :=
  ∃ created report, (p, Event.created id created) ∈ hist ∧
    commands = reportTo (requesterOf n id) created report ∧
    report.isSome = (committed && created.any (·.requester = p))

structure Filed (s : DepShard n) : Prop where
  instances : ∀ id i, s.instances.get id = some i → Filled hist p id i.isCommitted i.commands
  executed : ∀ id commands, (p, Event.executed id commands) ∈ hist → Filled hist p id true commands

end

namespace Traced

variable {c : Cluster n} {hist : List (Fin n × Event n)} {p : Fin n} {s s' : DepShard n}
  {events : List (Event n)}

theorem grow (h : Traced c hist p) {more : List (Fin n × Event n)}
    (hforward : ∀ commands, said more p ⟨.forward, some commands⟩ →
      ∃ q, (q, Event.submitted commands) ∈ hist ∧ ¬ c.Coordinates q)
    (hopened : ∀ id commands, (p, Event.created id commands) ∈ more → requesterOf n id = p →
      c.Coordinates p ∧ ∃ q, (q, Event.submitted commands) ∈ hist ∧ (c.Coordinates q → q = p))
    (hasked : ∀ id command, (p, Event.readSubmitted id command) ∈ more → command.readOnly = true) :
    Traced c (hist ++ more) p where
  forwarded := fun commands ⟨e, he, hp⟩ => by
    have hfrom := (List.mem_append.1 he).elim (fun he => h.forwarded commands ⟨e, he, hp⟩)
      fun he => hforward commands ⟨e, he, hp⟩
    obtain ⟨q, hq, hn⟩ := hfrom
    exact ⟨q, List.mem_append_left _ hq, hn⟩
  opened := fun id commands he hr => by
    have hfrom := (List.mem_append.1 he).elim (fun he => h.opened id commands he hr)
      fun he => hopened id commands he hr
    obtain ⟨hc, q, hq, hn⟩ := hfrom
    exact ⟨hc, q, List.mem_append_left _ hq, hn⟩
  asked := fun id command he => (List.mem_append.1 he).elim (h.asked id command) (hasked id command)

theorem requested (hsc : Scene c (fun _ _ _ => True) (fun hist p _ => Traced c hist p) hist p s)
    {commands : List (Command n)} (h : DepShard.Requested (heardBy hist p) s commands) :
    ∃ q, (q, Event.submitted commands) ∈ hist ∧ (c.Coordinates q → q = p) := by
  rcases h with h | ⟨src, h⟩
  · exact ⟨p, hsc.logged _ h, fun _ => rfl⟩
  · obtain ⟨-, ht⟩ := (hsc.all src).choose_spec
    obtain ⟨q, hq, hn⟩ := ht.forwarded commands (hsc.faithful.arrived p src _ h).2.said
    exact ⟨q, hq, fun hc => absurd hc hn⟩

theorem kept : Kept c fun hist p _ => Traced c hist p where
  new := fun _ => ⟨fun _ ⟨_, he, _⟩ => (nomatch he), fun _ _ he => (nomatch he),
    fun _ _ he => (nomatch he)⟩
  clear := fun h => h
  other := fun hq h => by
    refine h.grow (fun commands ⟨e, he, _⟩ => ?_) (fun id commands he => ?_) fun id command he => ?_
    all_goals exact absurd (Prod.mk.inj (List.mem_singleton.1 he)).1.symm hq
  arrive := fun hsc _ _ _ ha he => by
    refine hsc.own.grow (fun commands ⟨e, hmem, hp⟩ => ?_) (fun id commands hmem => ?_)
      fun id command hmem => ?_
    all_goals
      obtain ⟨e', he', heq⟩ := List.mem_map.1 hmem
      cases heq
      rcases ha.logs he he' with h | ⟨_, _, _, _, -, -, h⟩ <;> cases h
    all_goals cases hp
  move := fun {hist p s s' events} hsc hm he => by
    refine hsc.own.grow (fun commands ⟨e, hmem, hp⟩ => ?_) (fun id commands hmem hr => ?_)
      fun id command hmem => ?_
    all_goals
      obtain ⟨e', he', heq⟩ := List.mem_map.1 hmem
      cases heq
      have hlog := hm.logs he he'
    · cases e <;> simp only [Event.packet?, Option.some.injEq, reduceCtorEq] at hp
      case broadcast packet priority =>
        subst hp
        exact hlog.elim
      case send packet dest =>
        subst hp
        obtain ⟨⟨coordinator, hm, hne⟩, commands', heq, ho⟩ := hlog
        cases heq
        obtain ⟨q, hq, hc⟩ := requested hsc ho
        exact ⟨q, hq, fun hco => hne (by rw [← hc hco]; exact hco coordinator hm)⟩
      case queueAck msg requester => cases hp
    · rcases hm.founds_or he with hf | ⟨-, -, hq⟩
      · cases hf with
        | start commands' hc ho =>
          rw [DepShard.openInstance_eq] at he
          rw [← List.append_cancel_left he] at he'
          rcases DepShard.mem_openEvents he' with heq | heq | heq | ⟨-, -, heq⟩
          · cases heq
            exact ⟨hc, requested hsc ho⟩
          · cases heq
          · cases heq
          · exact absurd (heq ▸ DepShard.founds_ackEvent _ rfl) (by simp [Event.founds])
        | @learn src id' deps commands' _ hid hsrc =>
          rw [DepShard.learn_eq] at he
          rw [← List.append_cancel_left he] at he'
          rcases List.mem_cons.1 he' with heq | hmem
          · cases heq
            rw [hid, requesterOf_uidAt] at hr
            exact absurd hr hsrc
          · obtain ⟨-, heq | ⟨-, -, heq⟩ | ⟨_, -, ⟨-, -, heq⟩ | ⟨-, -, heq⟩⟩⟩ :=
              DepShard.mem_preAcceptEvents hmem
            · cases heq
            · exact absurd (heq ▸ DepShard.founds_ackEvent _ rfl) (by simp [Event.founds])
            · exact absurd (heq ▸ DepShard.founds_ackEvent _ rfl) (by simp [Event.founds])
            · cases heq
      · exact absurd (hq _ he') (by simp [Event.founds])
    · exact hlog.2

end Traced

namespace Filed

variable {c : Cluster n} {hist : List (Fin n × Event n)} {p : Fin n} {s s' : DepShard n}
  {events : List (Event n)}

theorem filled_mono {id : Uid} {committed : Bool} {commands : List (Command n)}
    (h : Filled hist p id committed commands) (more : List (Fin n × Event n)) :
    Filled (hist ++ more) p id committed commands := by
  obtain ⟨created, report, hm, hc, hr⟩ := h
  exact ⟨created, report, List.mem_append_left _ hm, hc, hr⟩

theorem filled_new {id : Uid} {commands : List (Command n)}
    (hm : (p, Event.created id commands) ∈ hist) : Filled hist p id false commands :=
  ⟨commands, none, hm, rfl, rfl⟩

theorem filled_commit {id : Uid} {i : Instance n} {deps : DepSet n} {s : DepShard n}
    (h : Filled hist p id i.isCommitted i.commands) (hi : i.isCommitted = false)
    (hco : i.coordinatorPid = requesterOf n id) :
    Filled hist p id true
      (DepShard.fillReport (DepShard.commitReport p id deps i s) (i.commit deps)).commands := by
  obtain ⟨created, report, hm, hc, hr⟩ := h
  rw [hi, Bool.false_and, Option.isSome_eq_false_iff, Option.isNone_iff_eq_none] at hr
  subst hr
  refine ⟨created, DepShard.commitReport p id deps i s, hm, ?_, ?_⟩
  · rw [commands_fillReport]
    change reportTo i.coordinatorPid i.commands _ = _
    rw [hco, hc]
    rfl
  · rw [isSome_commitReport p id deps hi, hc]
    rfl

omit [NeZero n] in
theorem committed_recordPreaccept (i : Instance n) (src : Fin n) (deps : DepSet n) :
    (i.recordPreaccept src deps).isCommitted = i.isCommitted := by
  unfold Instance.recordPreaccept
  split <;> rfl

theorem grow (h : Filed hist p s) {more : List (Fin n × Event n)} (hi : s'.instances = s.instances)
    (he : ∀ id commands, (p, Event.executed id commands) ∉ more) : Filed (hist ++ more) p s' where
  instances := fun id i hget => filled_mono (h.instances id i (hi ▸ hget)) more
  executed := fun id commands hm =>
    (List.mem_append.1 hm).elim (fun hm => filled_mono (h.executed id commands hm) more)
      fun hm => absurd hm (he id commands)

theorem instances_move
    (hsc : Scene c (fun hist p s => Created c hist p s ∧ Recorded c hist p s)
      (fun hist p s => Filed hist p s) hist p s)
    (hm : DepShard.Move c p (heardBy hist p) s s') (he : s'.sinks = s.sinks ++ events)
    (v : Uid) (k : Instance n) (hk : s'.instances.get v = some k) :
    Filled (hist ++ events.map (Prod.mk p)) p v k.isCommitted k.commands := by
  have hold : ∀ v k, s.instances.get v = some k →
      Filled (hist ++ events.map (Prod.mk p)) p v k.isCommitted k.commands :=
    fun v k hk => filled_mono (hsc.own.instances v k hk) _
  have hput : ∀ {id : Uid} {j : Instance n},
      Filled hist p id j.isCommitted j.commands → (s.put id j).instances.get v = some k →
      Filled (hist ++ events.map (Prod.mk p)) p v k.isCommitted k.commands := by
    intro id j hj hk
    rw [DepShard.get_put] at hk
    split at hk
    · rename_i hv
      obtain ⟨i, hi, rfl⟩ := Option.map_eq_some_iff.1 hk
      exact hv ▸ filled_mono hj _
    · exact hold v k hk
  have hsame : ∀ {id : Uid} {i j : Instance n}, s.instances.get id = some i →
      (s.put id j).instances.get v = some k →
      j.isCommitted = i.isCommitted → j.commands = i.commands →
      Filled (hist ++ events.map (Prod.mk p)) p v k.isCommitted k.commands := by
    intro id i j hi hk hc hcommands
    refine hput ?_ hk
    rw [hc, hcommands]
    exact hsc.own.instances id i hi
  have hinsert : ∀ {id : Uid} {j : Instance n}, j.isCommitted = false →
      Event.created id j.commands ∈ events → (s.instances.insert id j).get v = some k →
      Filled (hist ++ events.map (Prod.mk p)) p v k.isCommitted k.commands := by
    intro id j hc hmem hk
    rw [InstanceTable.get_insert] at hk
    split at hk
    · rename_i hv
      cases hk
      rw [hc, hv]
      exact filled_new (Recorded.mem_new _ _ hmem)
    · exact hold v k hk
  cases hm with
  | note _ | announce _ _ | forward _ _ _ | order _ | serve | hold _ _ _ _ | release _ | drain =>
    exact hold v k hk
  | start commands _ _ _ =>
    rw [DepShard.openInstance_eq] at he hk
    refine hinsert (DepShard.committed_opened _ _) ?_ hk
    rw [← List.append_cancel_left he, Recorded.commands_opened]
    exact List.mem_append_left _ List.mem_cons_self
  | learn _ _ _ _ _ =>
    rw [DepShard.learn_eq] at he hk
    refine hinsert (DepShard.committed_preAccepted _ _ _ rfl) ?_ hk
    rw [← List.append_cancel_left he, Recorded.commands_preAccepted]
    exact List.mem_cons_self
  | vote _ hi _ _ _ => exact hsame hi hk (committed_recordPreaccept _ _ _) (by simp)
  | @accept src id deps i _ _ hi =>
    rw [DepShard.answerAccept_eq] at hk
    refine hsame hi hk ?_ (Recorded.commands_acceptedFrom _ _ _)
    refine Bool.eq_iff_iff.2 ⟨fun h => (DepShard.committed_acceptedFrom _ _ _ h).1, fun h => ?_⟩
    exact ((Instance.grown_acceptedFrom c p src deps i).committed h).1
  | ack _ hi _ => exact hsame hi hk rfl rfl
  | slowPath _ hi _ hset _ _ =>
    exact hsame hi hk (Instance.committed_of_settled_false hset).symm rfl
  | leavePath left hi => exact hsame hi hk rfl rfl
  | @commit id i deps hi hc _ =>
    refine hput ?_ hk
    rw [committed_fillReport]
    exact filled_commit (hsc.own.instances id i hi) hc (hsc.known.2.instances id i hi).coordinator
  | execute hi _ _ =>
    rw [DepShard.execute, DepShard.withInstance_some hi] at hk
    simp only [InstanceTable.get_remove] at hk
    split at hk
    · cases hk
    · exact hold v k hk
  | ask command _ =>
    unfold DepShard.askReplicas at hk
    split at hk <;> exact hold v k hk
  | sleep _ => simp at hk

theorem stable : Stable c (fun hist p s => Created c hist p s ∧ Recorded c hist p s)
    fun hist p s => Filed hist p s where
  new := fun p => ⟨by simp [DepShard.new], fun _ _ he => (nomatch he)⟩
  clear := fun h => ⟨h.instances, h.executed⟩
  other := fun hq h => h.grow rfl fun id commands hm =>
    hq (Prod.mk.inj (List.mem_singleton.1 hm)).1.symm
  arrive := fun hsc _ _ _ ha he => by
    obtain ⟨sinks, reads, hs⟩ := ha.same
    refine hsc.own.grow (by rw [hs]) fun id commands hm => ?_
    obtain ⟨e, hmem, heq⟩ := List.mem_map.1 hm
    cases heq
    rcases ha.logs he hmem with h | ⟨_, _, _, _, -, -, h⟩ <;> cases h
  move := fun {hist p s s' events} hsc hm he => by
    refine ⟨instances_move hsc hm he, fun id commands hmem => ?_⟩
    rcases mem_log hmem with hmem | ⟨-, hmem⟩
    · exact filled_mono (hsc.own.executed id commands hmem) _
    · obtain ⟨i, hi, hc, rfl⟩ := hm.logs he hmem
      exact hc ▸ filled_mono (hsc.own.instances id i hi) _

theorem kept : Kept c fun hist p s =>
    (Created c hist p s ∧ Recorded c hist p s) ∧ Filed hist p s := Recorded.kept.and stable

end Filed

namespace World

variable {c : Cluster n} {w : World n}

-- A client stamps its commands with the process it submits them at, and reports nothing.
def Stamped (w : World n) : Bool :=
  w.hist.all fun (p, e) =>
    match e with
    | .submitted commands => commands.all fun x => x.requester = p && x.report.isNone
    | _ => true

theorem Stamped.of_submitted (hs : w.Stamped = true) {p : Fin n} {commands : List (Command n)}
    (hm : (p, Event.submitted commands) ∈ w.hist) :
    ∀ x ∈ commands, x.requester = p ∧ x.report = none := by
  intro x hx
  have hall := List.all_eq_true.1 (List.all_eq_true.1 hs _ hm) x hx
  rw [Bool.and_eq_true, decide_eq_true_eq, Option.isNone_iff_eq_none] at hall
  exact hall

theorem Reachable.output (h : Reachable c w) {p : Fin n} {commands : List (Command n)}
    (hm : (p, Event.handed commands) ∈ w.hist) {x : Command n} (hx : x ∈ commands)
    (hr : x.readOnly = false) : ∃ id ran, (p, Event.executed id ran) ∈ w.hist ∧ x ∈ ran := by
  have hout : x ∈ (logOf w.hist p).flatMap Event.output := by
    rw [h.kept handed_kept p]
    exact List.mem_append_left _ (List.mem_flatMap.2 ⟨_, mem_logOf.2 hm, hx⟩)
  obtain ⟨e, he, hxe⟩ := List.mem_flatMap.1 hout
  have he := mem_logOf.1 he
  cases e with
  | executed id ran => exact ⟨id, ran, he, hxe⟩
  | served id command =>
    have heq : x = command := List.mem_singleton.1 hxe
    obtain ⟨before, after, hsplit⟩ := List.append_of_mem he
    obtain ⟨⟨asked, hasked, hrequest⟩, -⟩ :=
      (h.kept Waiting.kept p).2.served before after id command hsplit
    have hread : asked.readOnly = true :=
      (h.kept Traced.kept p).asked id asked (hsplit ▸ List.mem_append_left _ hasked)
    rw [heq, show command.readOnly = asked.readOnly from congrArg (·.2.2.2) hrequest, hread] at hr
    cases hr
  | _ => cases hxe

theorem Reachable.stems (h : Reachable c w) (hs : w.Stamped = true) {p : Fin n} {id : Uid}
    {created : List (Command n)} (hm : (p, Event.created id created) ∈ w.hist) :
    c.Coordinates (requesterOf n id) ∧ ∃ q, (c.Coordinates q → q = requesterOf n id) ∧
      ∀ y ∈ created, y.requester = q ∧ y.report = none := by
  have hsource := (h.settled p).1.1.source id created hm
  obtain ⟨hc, q, hq, hown⟩ := (h.kept Traced.kept _).opened id created hsource rfl
  exact ⟨hc, q, hown, Stamped.of_submitted hs hq⟩

theorem reported_to_requester (h : Reachable c w) (hs : w.Stamped = true) {p : Fin n}
    {commands : List (Command n)} (hm : (p, Event.handed commands) ∈ w.hist) {x : Command n}
    (hx : x ∈ commands) (hr : x.readOnly = false) :
    (x.report.isSome = true ↔ x.requester = p) ↔ (x.requester = p → c.Coordinates p) := by
  obtain ⟨id, ran, hran, hx⟩ := h.output hm hx hr
  obtain ⟨created, report, hcreated, rfl, hreport⟩ := (h.kept Filed.kept p).2.executed id ran hran
  obtain ⟨hc, q, hown, hstamp⟩ := h.stems hs hcreated
  rw [Bool.true_and] at hreport
  obtain ⟨y, hy, hrequest, hfill⟩ := mem_reportTo hx
  have hxq : x.requester = q :=
    (show x.requester = y.requester from congrArg (·.1) hrequest).trans (hstamp y hy).1
  rcases hfill with ⟨rfl, hkeep⟩ | ⟨hxr, hsome, hyr⟩
  · have hnone : x.report = none := (hstamp x hy).2
    rw [hnone, hxq]
    suffices hn : q = p → ¬ c.Coordinates p by
      simp only [Option.isSome_none, Bool.false_eq_true, false_iff]
      exact ⟨fun hne hq => absurd hq hne, fun hco hq => hn hq (hco hq)⟩
    rintro rfl hco
    rcases hkeep with rfl | hnot
    · have hany : created.any (fun command => decide (command.requester = q)) = true :=
        List.any_eq_true.2 ⟨x, hy, decide_eq_true hxq⟩
      rw [hany] at hreport
      cases hreport
    · exact hnot ⟨hxq.trans (hown hco), hr⟩
  · rw [hsome] at hreport
    obtain ⟨z, hz, hzp⟩ := List.any_eq_true.1 hreport.symm
    have hqp : q = p := (hstamp z hz).1.symm.trans (of_decide_eq_true hzp)
    have hqr : q = requesterOf n id := (hstamp y hy).1.symm.trans hyr
    rw [hxr, hsome, hxq]
    exact ⟨fun _ hq => by rw [← hqp, hqr]; exact hc, fun _ => ⟨fun _ => hqp, fun _ => rfl⟩⟩

def reportedPair : World 2 :=
  World.init.run DepShard.pair
    [.submit 0 [writeOf 0 0] false, .receive 0 1 false, .receive 1 0 false, .receive 0 1 false,
      .drain 0]

theorem reportedPair_reports :
    (some (⟨true, 0⟩ : CommitReport)).isSome = true ↔ (writeOf 0 0 : Command 2).requester = 0 := by
  have h : Reachable DepShard.pair reportedPair := Reachable.init.run _
  have hm : (0, Event.handed [⟨0, 0, [], false, 0, some ⟨true, 0⟩⟩]) ∈ reportedPair.hist := by
    decide +kernel
  refine (reported_to_requester h (by decide +kernel) hm (List.mem_singleton_self _) rfl).2 ?_
  intro _ coordinator hc
  cases hc
  rfl

-- Process 2 casts no vote and hands its write over to process 0.
def handingOver : Cluster 3 where
  alive := {0, 1}
  nbReplicas := 2
  mode := .ePaxos fun p => if p = 2 then 0 else p
  acks := false
  crossShard := false
  alive_le := by simp
  mode_valid := by simp [DepMode.Valid]; decide

def handedBack : World 3 :=
  World.init.run handingOver
    [.submit 2 [writeOf 2 0] false, .receive 2 0 false, .receive 0 1 false, .receive 1 0 false,
      .receive 0 2 false, .receive 0 2 false, .drain 2]

theorem handedBack_unreported : Reachable handingOver handedBack ∧ handedBack.Stamped = true ∧
    (2, Event.handed [writeOf 2 0]) ∈ handedBack.hist ∧ (writeOf 2 0 : Command 3).readOnly = false ∧
    ¬ ((writeOf 2 0 : Command 3).report.isSome = true ↔ (writeOf 2 0 : Command 3).requester = 2) :=
  ⟨Reachable.init.run _, by decide +kernel, by decide +kernel, rfl, by decide⟩

end World

end KCensus.Deps

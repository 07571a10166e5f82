import KCensus.Deps.ReadRounds

namespace KCensus.Deps

variable {n : Nat} [NeZero n]

def upToRead (p : Fin n) (rid : Nat) (hist : List (Fin n × Event n)) : List (Fin n × Event n) :=
  hist.takeWhile fun entry => !(decide (entry.1 = p) && entry.2.submits rid)

section

variable {hist more : List (Fin n × Event n)} {p : Fin n} {rid : Nat} {command : Command n}

omit [NeZero n] in
theorem upToRead_subset : upToRead p rid hist ⊆ hist := (List.takeWhile_prefix _).subset

omit [NeZero n] in
theorem upToRead_append (h : (p, Event.readSubmitted rid command) ∈ hist) :
    upToRead p rid (hist ++ more) = upToRead p rid hist := by
  induction hist with
  | nil => cases h
  | cons entry hist ih =>
    simp only [upToRead, List.cons_append, List.takeWhile_cons]
    cases he : !(decide (entry.1 = p) && entry.2.submits rid) with
    | false => rfl
    | true =>
      refine congrArg (entry :: ·) (ih ?_)
      rcases List.mem_cons.1 h with rfl | h
      · simp [Event.submits, Event.submittedId] at he
      · exact h

omit [NeZero n] in
theorem upToRead_split (h : ∀ command, (p, Event.readSubmitted rid command) ∉ hist) :
    upToRead p rid (hist ++ (p, .readSubmitted rid command) :: more) = hist := by
  induction hist with
  | nil => simp [upToRead, Event.submits, Event.submittedId]
  | cons entry hist ih =>
    have hentry : (!(decide (entry.1 = p) && entry.2.submits rid)) = true := by
      obtain ⟨q, e⟩ := entry
      cases e with
      | readSubmitted id command =>
        have := h command
        have hne : ¬ (q = p ∧ id = rid) := by
          rintro ⟨rfl, rfl⟩
          exact this List.mem_cons_self
        simpa [Event.submits, Event.submittedId, imp_iff_not_or] using hne
      | _ => simp [Event.submits, Event.submittedId]
    rw [List.cons_append, upToRead, List.takeWhile_cons, hentry]
    exact congrArg (entry :: ·) (ih fun command hm => h command (List.mem_cons_of_mem _ hm))

end

omit [NeZero n] in
theorem throughout_append {P : List (Fin n × Event n) → Fin n × Event n → Prop}
    {hist new : List (Fin n × Event n)}
    (h : ∀ pre e post, hist = pre ++ e :: post → P pre e)
    (hnew : ∀ more e rest, new = more ++ e :: rest → P (hist ++ more) e)
    {pre post : List (Fin n × Event n)} {e : Fin n × Event n}
    (heq : hist ++ new = pre ++ e :: post) : P pre e := by
  rcases List.append_eq_append_iff.1 heq with ⟨more, rfl, hrest⟩ | ⟨more, rfl, hrest⟩
  · exact hnew more e post hrest
  · cases more with
    | nil =>
      have := hnew [] e post hrest.symm
      rwa [List.append_nil, List.append_nil] at this
    | cons x more =>
      obtain ⟨rfl, -⟩ := List.cons.inj hrest
      exact h pre _ more rfl

-- What a view has to hold of the commands `q` had heard of by then.
def Covers (c : Cluster n) (hist : List (Fin n × Event n)) (q : Fin n) (keys : List Nat)
    (view : DepSet n) : Prop :=
  ∀ id commands, (q, Event.created id commands) ∈ hist → Conflicting c (keysOf commands) keys →
    view.contains id

structure Informed (c : Cluster n) (hist : List (Fin n × Event n)) (p : Fin n) (s : DepShard n) :
    Prop where
  settled : Settled c hist p s
  viewed : Viewed c hist p s
  asked : Asked c hist p s
  arrived : ∀ q, q ≠ p → (gotFrom hist p q).filterMap Packet.askedId <+:
    (sentTo c hist q p).filterMap Packet.askedId

theorem Informed.created {c : Cluster n} {hist : List (Fin n × Event n)} {p : Fin n} {s : DepShard n}
    (h : Informed c hist p s) : Created c hist p s := h.settled.1.1

theorem informed_kept {c : Cluster n} : Kept c (Informed c) := by
  have hall := (Viewed.kept.and (Asked.kept.under fun _ => trivial)).and
    ((arrivals_kept fun _ => lane_asked (c := c)).under fun _ => trivial)
  have heq : (fun hist p s => ((Settled c hist p s ∧ Viewed c hist p s) ∧ Asked c hist p s) ∧
      ∀ q, q ≠ p → (gotFrom hist p q).filterMap Packet.askedId <+:
        (sentTo c hist q p).filterMap Packet.askedId) = Informed c := by
    funext hist p s
    exact propext ⟨fun h => ⟨h.1.1.1, h.1.1.2, h.1.2, h.2⟩,
      fun h => ⟨⟨⟨h.settled, h.viewed⟩, h.asked⟩, h.arrived⟩⟩
  exact heq ▸ hall

section

variable {c : Cluster n} {hist : List (Fin n × Event n)} {p q : Fin n} {s s' : DepShard n}
  {events : List (Event n)}

-- What a replica answers covers all it had heard of when the read was submitted.
def Candid (c : Cluster n) (hist : List (Fin n × Event n)) (p : Fin n) (_ : DepShard n) : Prop :=
  ∀ rid seen value dest, saidTo hist p dest ⟨.readResponse rid seen, value⟩ →
    c.isReplica p = true ∧ ∃ command, (dest, Event.readSubmitted rid command) ∈ hist ∧
      Covers c (upToRead dest rid hist) p [command.shard] seen

omit [NeZero n] in
theorem saidTo_settle {src dest : Fin n} {packet : Packet n}
    (h : saidTo (hist ++ events.map (Prod.mk p)) src dest packet) :
    saidTo hist src dest packet ∨ src = p ∧ ∃ e ∈ events, e.packetTo dest = some packet := by
  obtain ⟨e, he, hp⟩ := h
  rcases mem_log he with hold | ⟨rfl, hnew⟩
  · exact Or.inl ⟨e, hold, hp⟩
  · exact Or.inr ⟨rfl, e, hnew, hp⟩

theorem Candid.quiet (h : Candid c hist p s) {more : List (Fin n × Event n)}
    (hq : ∀ rid seen value dest, saidTo (hist ++ more) p dest ⟨.readResponse rid seen, value⟩ →
      saidTo hist p dest ⟨.readResponse rid seen, value⟩) : Candid c (hist ++ more) p s' := by
  intro rid seen value dest hs
  obtain ⟨hr, command, hm, hc⟩ := h rid seen value dest (hq rid seen value dest hs)
  exact ⟨hr, command, List.mem_append_left _ hm, (upToRead_append hm).symm ▸ hc⟩

theorem Candid.arrive {src : Fin n} {packet : Packet n}
    (hsc : Scene c (Informed c) (Candid c) hist p s) (hsrc : src ≠ p)
    (hsaid : saidTo hist src p packet) (hdue : Due c hist src p packet)
    (ha : DepShard.Arrives c p src s packet s') (he : s'.sinks = s.sinks ++ events) :
    Candid c (hist ++ events.map (Prod.mk p)) p s' := by
  intro rid seen value dest hs
  rcases saidTo_settle hs with hs | ⟨-, e, hmem, hp⟩
  · obtain ⟨hr, command, hm, hc⟩ := hsc.own rid seen value dest hs
    exact ⟨hr, command, List.mem_append_left _ hm, (upToRead_append hm).symm ▸ hc⟩
  · rcases ha.logs he hmem with rfl | ⟨rid', key, value', seen', rfl, rfl, rfl⟩
    · cases hp
    · obtain ⟨rfl, heq⟩ := Option.ite_none_right_eq_some.1 hp
      cases heq
      obtain ⟨t, ht, -⟩ := hsc.all src
      have hasked := ht.asked
      obtain ⟨command, hm, rfl⟩ := hasked.request rid key value' hsaid.said
      have hrep : c.isReplica p = true := by
        have := hdue Nat Packet.askedId lane_asked
        rw [hasked.asks p hsrc.symm] at this
        cases hr : c.isReplica p with
        | true => rfl
        | false =>
          rw [hr] at this
          have := List.prefix_nil.1 this
          simp [Packet.askedId] at this
      refine ⟨hrep, command, List.mem_append_left _ hm, ?_⟩
      rw [upToRead_append hm]
      exact fun id commands hcreated hk =>
        hsc.known.viewed.sees id commands _ (upToRead_subset hcreated) hk

theorem candid_stable : Stable c (Informed c) (Candid c) where
  new := fun _ _ _ _ _ ⟨_, hm, _⟩ => nomatch hm
  clear := fun h => h
  other := fun hq h => h.quiet fun rid seen value dest ⟨e, hm, hp⟩ => ⟨e, mem_other hq hm, hp⟩
  arrive := fun hsc hsrc hsaid hdue ha he => Candid.arrive hsc hsrc hsaid hdue ha he
  move := fun {hist p s s' events} hsc hm he => hsc.own.quiet fun rid seen value dest hs => by
    rcases saidTo_settle hs with hs | ⟨-, e, hmem, hp⟩
    · exact hs
    · refine (?_ : False).elim
      have hpacket := Event.packet_of_packetTo hp
      rcases hm.reads_or he with ⟨-, hq, -⟩ | ⟨-, rfl⟩ | ⟨command, -, rfl⟩
      · exact nomatch Event.ofRead_packet (hq e hmem) hpacket
      · obtain ⟨entry, -, rfl⟩ := List.mem_map.1 hmem
        cases hpacket
      · simp only [List.mem_cons, List.not_mem_nil, or_false] at hmem
        rcases hmem with rfl | rfl <;> cases hpacket

-- Whatever was executed had by then reached a majority, and the leader.
def Grounded (c : Cluster n) (hist : List (Fin n × Event n)) (p : Fin n) (_ : DepShard n) : Prop :=
  ∀ pre post id commands, hist = pre ++ (p, .executed id commands) :: post →
    (∃ members : Finset (Fin n), members ⊆ c.alive ∧ c.slowQuorum ≤ members.card ∧
      ∀ q ∈ members, ∃ created, (q, Event.created id created) ∈ pre ∧
        keysOf created = keysOf commands) ∧
    ∀ leader, c.readLeader = some leader → ∃ created, (leader, Event.created id created) ∈ pre ∧
      keysOf created = keysOf commands

omit [NeZero n] in
theorem keysOf_requests {commands commands' : List (Command n)}
    (h : requests commands = requests commands') : keysOf commands = keysOf commands' := by
  have := congrArg (List.map fun r => r.2.1) h
  rwa [requests, requests, List.map_map, List.map_map] at this

theorem created_agree {t : DepShard n} {id : Uid} {a b : List (Command n)}
    (ha : (p, Event.created id a) ∈ hist) (hb : (q, Event.created id b) ∈ hist)
    (hp : Created c hist p s) (hq : Created c hist q s') (ht : Created c hist (requesterOf n id) t) :
    a = b := ht.once id a b (hp.source id a ha) (hq.source id b hb)

theorem Grounded.executed (hsc : Scene c (Informed c) (Grounded c) hist p s) {id : Uid} {i : Instance n}
    (hi : s.instances.get id = some i) (hc : i.isCommitted = true) :
    (∃ members : Finset (Fin n), members ⊆ c.alive ∧ c.slowQuorum ≤ members.card ∧
      ∀ q ∈ members, ∃ created, (q, Event.created id created) ∈ hist ∧
        keysOf created = keysOf i.commands) ∧
    ∀ leader, c.readLeader = some leader → ∃ created, (leader, Event.created id created) ∈ hist ∧
      keysOf created = keysOf i.commands := by
  obtain ⟨⟨hcr, hrec⟩, hdec⟩ := hsc.known.settled
  obtain ⟨own, hown, hreq⟩ := hrec.commands id i hi
  obtain ⟨hbacked, members, hsub, hcard, hm⟩ := hrec.committed id i.deps (hdec.done id i hi hc)
  have hkeys : ∀ q created, (q, Event.created id created) ∈ hist →
      keysOf created = keysOf i.commands := by
    intro q created hq
    obtain ⟨t, ht, -⟩ := hsc.all q
    obtain ⟨r, hr, -⟩ := hsc.all (requesterOf n id)
    rw [created_agree hq hown ht.created hcr hr.created, keysOf_requests hreq]
  refine ⟨⟨members, hsub, hcard, fun q hq => ?_⟩, fun leader hl => ?_⟩
  · obtain ⟨created, hcreated⟩ := hm q hq
    exact ⟨created, hcreated, hkeys q created hcreated⟩
  · cases hmode : c.mode with
    | ePaxos coordinator =>
      rw [Cluster.readLeader, hmode] at hl
      cases hl
    | swiftPaxos leader' quorum =>
      rw [Cluster.readLeader, hmode] at hl
      cases hl
      rw [Backed, hmode] at hbacked
      obtain ⟨t, ht, -⟩ := hsc.all leader
      obtain ⟨created, hcreated⟩ := ht.created.proposal id _ hbacked
      exact ⟨created, hcreated, hkeys leader created hcreated⟩

theorem Grounded.quiet (h : Grounded c hist p s) {new : List (Fin n × Event n)}
    (hq : ∀ id commands, (p, Event.executed id commands) ∉ new) :
    Grounded c (hist ++ new) p s' := by
  intro pre post id commands heq
  refine throughout_append (P := fun pre e => ∀ id commands, e = (p, .executed id commands) → _)
    (fun pre e post heq id commands he => h pre post id commands (he ▸ heq))
    (fun more e rest hnew id commands he => ?_) heq id commands rfl
  exact absurd (hnew ▸ he ▸ List.mem_append_right more List.mem_cons_self) (hq id commands)

theorem grounded_stable : Stable c (Informed c) (Grounded c) where
  new := fun _ pre _ _ _ heq => by cases pre <;> cases heq
  clear := fun h => h
  other := fun hq h => h.quiet fun id commands hm =>
    hq (Prod.mk.inj (List.mem_singleton.1 hm)).1.symm
  arrive := fun hsc _ _ _ ha he => hsc.own.quiet fun id commands hm => by
    obtain ⟨e, hmem, heq⟩ := List.mem_map.1 hm
    cases heq
    rcases ha.logs he hmem with h | ⟨_, _, _, _, -, -, h⟩ <;> cases h
  move := fun {hist p s s' events} hsc hm he => by
    rcases hm.executed_or he with ⟨uid, i, hi, hc, -, -, rfl⟩ | ⟨-, hev⟩
    · intro pre post id commands heq
      refine throughout_append (P := fun pre e => ∀ id commands, e = (p, .executed id commands) → _)
        (fun pre e post heq id commands he => hsc.own pre post id commands (he ▸ heq))
        (fun more e rest hnew id commands he => ?_) heq id commands rfl
      cases more with
      | nil =>
        cases he
        cases hnew
        rw [List.append_nil]
        exact Grounded.executed hsc hi hc
      | cons x more => cases more <;> cases hnew
    · refine hsc.own.quiet fun id commands hmem => ?_
      obtain ⟨e, he, heq⟩ := List.mem_map.1 hmem
      cases heq
      exact nomatch hev _ he

-- The answers a pending read has counted, and what its views are good for.
structure Gathered (c : Cluster n) (hist : List (Fin n × Event n)) (p : Fin n) (rid : Nat)
    (read : PendingRead n) (voters : Finset (Fin n)) : Prop where
  alive : voters ⊆ c.alive
  count : voters.card = read.answers
  heard : ∀ r ∈ voters, r = p ∨ rid ∈ (gotFrom hist p r).filterMap Packet.answeredId
  union : ∀ r ∈ voters, Covers c (upToRead p rid hist) r [read.command.shard] read.union
  leader : ∀ view, read.leaderSeen = some view → ∃ leader, c.readLeader = some leader ∧
    Covers c (upToRead p rid hist) leader [read.command.shard] view

namespace Gathered

variable {rid : Nat} {read : PendingRead n} {voters : Finset (Fin n)} {src : Fin n}

theorem mono (h : Gathered c hist p rid read voters) {command : Command n}
    (hm : (p, Event.readSubmitted rid command) ∈ hist) (new : List (Fin n × Event n)) :
    Gathered c (hist ++ new) p rid read voters where
  alive := h.alive
  count := h.count
  heard := fun r hr => (h.heard r hr).imp_right fun hgot => by
    rw [gotFrom, logOf, List.filterMap_append, List.filterMap_append, List.filterMap_append]
    exact List.mem_append_left _ hgot
  union := (upToRead_append hm).symm ▸ h.union
  leader := (upToRead_append hm).symm ▸ h.leader

theorem receive (h : Gathered c hist p rid read voters) (hfresh : src ∉ voters)
    (halive : c.isReplica src = true)
    (hheard : src = p ∨ rid ∈ (gotFrom hist p src).filterMap Packet.answeredId) {seen : DepSet n}
    (hseen : Covers c (upToRead p rid hist) src [read.command.shard] seen) (quorum : Nat)
    {leader : Option (Fin n)} (hleader : leader = c.readLeader) :
    ∃ voters', Gathered c hist p rid (read.receive quorum leader src seen) voters' := by
  subst hleader
  unfold PendingRead.receive
  split
  · refine ⟨insert src voters, ?_, ?_, fun r hr => ?_, fun r hr => ?_, fun view hv => ?_⟩
    · exact Finset.insert_subset (of_decide_eq_true halive) h.alive
    · rw [Finset.card_insert_of_notMem hfresh, h.count]
    · rcases Finset.mem_insert.1 hr with rfl | hr
      · exact hheard
      · exact h.heard r hr
    · intro id commands hm hk
      refine (DepSet.contains_unionWith _ _ _).2 ?_
      rcases Finset.mem_insert.1 hr with rfl | hr
      · exact Or.inr (hseen id commands hm hk)
      · exact Or.inl (h.union r hr id commands hm hk)
    · simp only at hv
      split at hv
      · rename_i heq
        cases hs : read.leaderSeen with
        | none =>
          rw [hs] at hv
          cases hv
          exact ⟨src, heq, hseen⟩
        | some view' =>
          rw [hs] at hv
          cases hv
          exact h.leader view hs
      · exact h.leader view hv
  · exact ⟨voters, h⟩

theorem noteReport (h : Gathered c hist p rid read voters) (executed : Executed n) :
    Gathered c hist p rid (read.noteReport executed) voters :=
  ⟨h.alive, h.count, h.heard, h.union, h.leader⟩

end Gathered

structure Waiting (c : Cluster n) (hist : List (Fin n × Event n)) (p : Fin n) (s : DepShard n) :
    Prop where
  asked : ∀ rid read, (rid, read) ∈ s.reads.reads → (p, Event.readSubmitted rid read.command) ∈ hist
  gathered : ∀ rid read, (rid, read) ∈ s.reads.reads → ∃ voters, Gathered c hist p rid read voters
  served : ∀ pre post rid served, hist = pre ++ (p, .served rid served) :: post →
    (∃ command, (p, Event.readSubmitted rid command) ∈ pre ∧ served.request = command.request) ∧
      ∀ q id commands, (q, Event.executed id commands) ∈ upToRead p rid pre →
        Conflicting c (keysOf commands) [served.shard] →
        ∃ commands', (p, Event.executed id commands') ∈ pre

namespace Waiting

theorem quiet (h : Waiting c hist p s) (hr : s'.reads = s.reads) {new : List (Fin n × Event n)}
    (hq : ∀ id command, (p, Event.served id command) ∉ new) : Waiting c (hist ++ new) p s' where
  asked := fun rid read hm => List.mem_append_left _ (h.asked rid read (hr ▸ hm))
  gathered := fun rid read hm => by
    obtain ⟨voters, hg⟩ := h.gathered rid read (hr ▸ hm)
    exact ⟨voters, hg.mono (h.asked rid read (hr ▸ hm)) new⟩
  served := fun pre post rid served heq => by
    refine throughout_append (P := fun pre e => ∀ id served, e = (p, .served id served) → _)
      (fun pre e post heq id served he => h.served pre post id served (he ▸ heq))
      (fun more e rest hnew id served he => ?_) heq rid served rfl
    exact absurd (hnew ▸ he ▸ List.mem_append_right more List.mem_cons_self) (hq id served)

theorem other {e : Event n} (hq : q ≠ p) (h : Waiting c hist p s) : Waiting c (hist ++ [(q, e)]) p s :=
  h.quiet rfl fun _ _ hm => hq (Prod.mk.inj (List.mem_singleton.1 hm)).1.symm

abbrev Knows (c : Cluster n) (hist : List (Fin n × Event n)) (p : Fin n) (s : DepShard n) : Prop :=
  (Informed c hist p s ∧ Candid c hist p s) ∧ Grounded c hist p s

theorem arrive {src : Fin n} {packet : Packet n} (hsc : Scene c (Knows c) (Waiting c) hist p s)
    (hsrc : src ≠ p) (hsaid : saidTo hist src p packet) (hdue : Due c hist src p packet)
    (ha : DepShard.Arrives c p src s packet s') (he : s'.sinks = s.sinks ++ events) :
    Waiting c (hist ++ events.map (Prod.mk p)) p s' := by
  have hserved : ∀ rid read, (p, Event.served rid read) ∉ events.map (Prod.mk p) := by
    intro rid read hm
    obtain ⟨e, hmem, heq⟩ := List.mem_map.1 hm
    cases heq
    rcases ha.logs he hmem with h | ⟨_, _, _, _, -, -, h⟩ <;> cases h
  cases ha with
  | request | plain => exact hsc.own.quiet (by exact rfl) hserved
  | @response rid seen value =>
    have hnew : Waiting c (hist ++ events.map (Prod.mk p)) p s := hsc.own.quiet rfl hserved
    obtain rfl : events = [.received src ⟨.readResponse rid seen, value⟩] :=
      (List.append_cancel_left he).symm
    obtain ⟨t, ⟨⟨hinformed, hcandid⟩, -⟩, -⟩ := hsc.all src
    obtain ⟨hrep, command, hm, hcovers⟩ := hcandid rid seen value p hsaid
    have hfresh : rid ∉ (gotFrom hist p src).filterMap Packet.answeredId := by
      have hlane := hdue Nat Packet.answeredId lane_answered
      rw [hinformed.asked.answers p hsrc.symm] at hlane
      have hprefix := (hlane.trans (hinformed.arrived p hsrc.symm)).sublist
      rw [hsc.known.1.1.asked.asks src hsrc] at hprefix
      have hnodup := hprefix.nodup (by split <;> simp [List.nodup_range])
      exact fun hmem => List.disjoint_of_nodup_append hnodup hmem List.mem_cons_self
    have hgot : rid ∈ (gotFrom (hist ++ [.received src ⟨.readResponse rid seen, value⟩].map (Prod.mk p)) p
        src).filterMap Packet.answeredId := by
      rw [gotFrom_self, got_received _ src rfl, if_pos rfl, List.filterMap_append]
      exact List.mem_append_right _ List.mem_cons_self
    refine ⟨fun id read hread => ?_, fun id read hread => ?_, hnew.served⟩
    · obtain ⟨read', hread', ⟨-, rfl⟩ | ⟨rfl, rfl⟩⟩ := ReadTracker.mem_receive hread
      · exact hnew.asked id read hread'
      · rw [PendingRead.command_receive]
        exact hnew.asked id read' hread'
    · obtain ⟨read', hread', ⟨-, rfl⟩ | ⟨rfl, rfl⟩⟩ := ReadTracker.mem_receive hread
      · exact hnew.gathered id read hread'
      · obtain ⟨voters, hg⟩ := hsc.own.gathered id read' hread'
        have hown := hsc.own.asked id read' hread'
        have hout : src ∉ voters := fun hmem => (hg.heard src hmem).elim hsrc hfresh
        have hcommand := hsc.known.1.1.asked.once hm hown
        refine (hg.mono hown _).receive hout hrep (Or.inr hgot) ?_ _ hsc.sane.leader
        rw [upToRead_append hm, ← hcommand]
        exact hcovers

theorem serve (hsc : Scene c (Knows c) (Waiting c) hist p s)
    (he : events = (s.reads.ready s.executed).map fun (id, command) => .served id command) :
    Waiting c (hist ++ events.map (Prod.mk p)) p s.serveReadyReads := by
  have h := hsc.own
  have hinformed := hsc.known.1.1
  refine ⟨fun id read hread => ?_, fun id read hread => ?_, fun pre post rid served heq => ?_⟩
  · obtain ⟨read', hread', rfl | rfl⟩ := ReadTracker.mem_takeReady hread
    · exact List.mem_append_left _ (h.asked id read hread')
    · exact List.mem_append_left _ (h.asked id read' hread')
  · obtain ⟨read', hread', hor⟩ := ReadTracker.mem_takeReady hread
    obtain ⟨voters, hg⟩ := h.gathered id read' hread'
    have hg := hg.mono (h.asked id read' hread') (events.map (Prod.mk p))
    rcases hor with rfl | rfl
    · exact ⟨voters, hg⟩
    · exact ⟨voters, hg.noteReport s.executed⟩
  · refine throughout_append (P := fun pre e => ∀ id served, e = (p, .served id served) → _)
      (fun pre e post heq id served he => h.served pre post id served (he ▸ heq))
      (fun more e rest hnew id served hserved => ?_) heq rid served rfl
    have hready : (id, served) ∈ s.reads.ready s.executed := by
      have hmem : (p, Event.served id served) ∈ events.map (Prod.mk p) :=
        hnew ▸ hserved ▸ List.mem_append_right more List.mem_cons_self
      obtain ⟨e', he', heq'⟩ := List.mem_map.1 hmem
      cases heq'
      rw [he] at he'
      obtain ⟨entry, hentry, heq''⟩ := List.mem_map.1 he'
      cases heq''
      exact hentry
    obtain ⟨read, hread, hisReady, rfl⟩ := ReadTracker.mem_ready hready
    have hasked := h.asked id read hread
    obtain ⟨voters, hg⟩ := h.gathered id read hread
    refine ⟨⟨read.command, List.mem_append_left _ hasked, rfl⟩, fun q v commands hexecuted hk => ?_⟩
    rw [upToRead_append hasked] at hexecuted
    obtain ⟨hcount, hcovered⟩ := Bool.and_eq_true_iff.1 hisReady
    rw [decide_eq_true_eq, hsc.sane.quorum, ← hg.count] at hcount
    obtain ⟨t, ⟨-, hground⟩, -⟩ := hsc.all q
    obtain ⟨before, after, hsplit⟩ := List.append_of_mem hexecuted
    obtain ⟨later, hlater⟩ := List.takeWhile_prefix (l := hist)
      fun entry => !(decide (entry.1 = p) && entry.2.submits id)
    have hsub : before ⊆ upToRead p id hist := by
      rw [hsplit]
      exact fun x hx => List.mem_append_left _ hx
    obtain ⟨⟨members, hmembers, hcard, hcreated⟩, hleader⟩ :=
      hground before (after ++ later) v commands (by
        rw [← hlater, ← upToRead, hsplit, List.append_assoc, List.cons_append])
    have hsees : ∀ {r : Fin n} {view : DepSet n}, Covers c (upToRead p id hist) r [read.command.shard] view →
        (∃ created, (r, Event.created v created) ∈ before ∧ keysOf created = keysOf commands) →
        view.contains v := by
      rintro r view hcov ⟨created, hm, hkeys⟩
      exact hcov v created (hsub hm) (hkeys ▸ hk)
    have hrequired : read.required.contains v := by
      obtain ⟨r, hr, hr'⟩ := Cluster.quorums_meet hg.alive hmembers hcount hcard
      have hunion := hsees (hg.union r hr) (hcreated r hr')
      unfold PendingRead.required
      cases hl : read.leaderSeen with
      | none => exact hunion
      | some view =>
        obtain ⟨leader, hlead, hcov⟩ := hg.leader view hl
        exact (DepSet.contains_intersectWith _ _ _).2 ⟨hunion, hsees hcov (hleader leader hlead)⟩
    have hdone : s.executed.contains v := by
      by_contra hn
      have hpending := (DepSet.mem_pendingOver read.required s.executed v).2 ⟨hrequired, hn⟩
      rw [PendingRead.covered, List.isEmpty_iff] at hcovered
      rw [hcovered] at hpending
      cases hpending
    obtain ⟨commands', hran⟩ := hinformed.settled.2.ran v hdone
    exact ⟨commands', List.mem_append_left _ hran⟩

theorem ask (hsc : Scene c (Knows c) (Waiting c) hist p s) (command : Command n)
    (he : events = [.readSubmitted s.reads.nextId command,
      .broadcast ⟨.readRequest s.reads.nextId command.shard, none⟩ none]) :
    Waiting c (hist ++ events.map (Prod.mk p)) p (s.askReplicas c p command) := by
  have hasks := hsc.known.1.1.asked
  have hquiet : Waiting c (hist ++ events.map (Prod.mk p)) p s := by
    refine hsc.own.quiet rfl fun rid served hm => ?_
    rw [he] at hm
    simp at hm
  have hfresh : ∀ a, (p, Event.readSubmitted s.reads.nextId a) ∉ hist := fun a hm =>
    Nat.lt_irrefl _ (hasks.asked_before hm)
  have hnow : upToRead p s.reads.nextId (hist ++ events.map (Prod.mk p)) = hist := by
    rw [he]
    exact upToRead_split hfresh
  have hold : ∀ {rid read}, (rid, read) ∈ s.reads.reads → rid ≠ s.reads.nextId := fun hread =>
    Nat.ne_of_lt (hasks.asked_before (hsc.own.asked _ _ hread))
  have hnew : Gathered c (hist ++ events.map (Prod.mk p)) p s.reads.nextId
      ⟨command, DepSet.new n, 0, none, none⟩ ∅ :=
    ⟨Finset.empty_subset _, rfl, fun r hr => absurd hr (Finset.notMem_empty r),
      fun r hr => absurd hr (Finset.notMem_empty r), fun view hv => nomatch hv⟩
  have hcommand : (p, Event.readSubmitted s.reads.nextId command) ∈ hist ++ events.map (Prod.mk p) :=
    Recorded.mem_new _ _ (he ▸ List.mem_cons_self)
  have hinsert : ∀ {rid read}, (rid, read) ∈ (s.reads.insert command).reads →
      (p, Event.readSubmitted rid read.command) ∈ hist ++ events.map (Prod.mk p) ∧
      ∃ voters, Gathered c (hist ++ events.map (Prod.mk p)) p rid read voters := by
    intro rid read hread
    rcases ReadTracker.mem_insert hread with hread | ⟨rfl, rfl⟩
    · exact ⟨hquiet.asked rid read hread, hquiet.gathered rid read hread⟩
    · exact ⟨hcommand, ∅, hnew⟩
  suffices h : ∀ rid read, (rid, read) ∈ (s.askReplicas c p command).reads.reads →
      (p, Event.readSubmitted rid read.command) ∈ hist ++ events.map (Prod.mk p) ∧
      ∃ voters, Gathered c (hist ++ events.map (Prod.mk p)) p rid read voters from
    ⟨fun rid read hread => (h rid read hread).1, fun rid read hread => (h rid read hread).2,
      hquiet.served⟩
  intro rid read hread
  unfold DepShard.askReplicas at hread
  split at hread
  · rename_i hrep
    obtain ⟨read', hread', ⟨-, rfl⟩ | ⟨rfl, rfl⟩⟩ := ReadTracker.mem_receive hread
    · exact hinsert hread'
    · rcases ReadTracker.mem_insert hread' with hread' | ⟨-, rfl⟩
      · exact absurd rfl (hold hread')
      · rw [PendingRead.command_receive]
        refine ⟨hcommand, hnew.receive (Finset.notMem_empty p) hrep (Or.inl rfl) ?_ _ hsc.sane.leader⟩
        rw [hnow]
        exact fun id commands hm hk => hsc.known.1.1.viewed.sees id commands _ hm hk
  · exact hinsert hread

theorem stable : Stable c (Knows c) (Waiting c) where
  new := fun _ => ⟨fun _ _ hm => (nomatch hm), fun _ _ hm => (nomatch hm),
    fun pre _ _ _ heq => by cases pre <;> cases heq⟩
  clear := fun h => ⟨h.asked, h.gathered, h.served⟩
  other := fun hq h => h.other hq
  arrive := fun hsc hsrc hsaid hdue ha he => arrive hsc hsrc hsaid hdue ha he
  move := fun {hist p s s' events} hsc hm he => by
    rcases hm.reads_or he with ⟨hr, hq, -⟩ | ⟨rfl, hevents⟩ | ⟨command, rfl, hevents⟩
    · refine hsc.own.quiet hr fun rid served hmem => ?_
      obtain ⟨e, he', heq⟩ := List.mem_map.1 hmem
      cases heq
      exact nomatch hq _ he'
    · exact serve hsc hevents
    · exact ask hsc command hevents

theorem kept : Kept c fun hist p s => Knows c hist p s ∧ Waiting c hist p s :=
  ((informed_kept.and candid_stable).and
    (grounded_stable.under fun h => h.1)).and stable

end Waiting

theorem handed_kept : Kept c fun hist p s =>
    (logOf hist p).flatMap Event.output = (logOf hist p).flatMap Event.handover ++ s.ready where
  new := fun _ => rfl
  clear := fun h => h
  other := fun {hist p s q e} hq h => by
    change (logOf (hist ++ [e].map (Prod.mk q)) p).flatMap _ = (logOf (hist ++ [e].map (Prod.mk q)) p).flatMap _ ++ _
    rwa [logOf_other hq]
  arrive := fun {hist p s src packet s₁ events} hsc _ _ _ ha he => by
    have hnone : ∀ e ∈ events, e.output = [] ∧ e.handover = [] := fun e hmem => by
      rcases ha.logs he hmem with rfl | ⟨_, _, _, _, -, -, rfl⟩ <;> exact ⟨rfl, rfl⟩
    obtain ⟨sinks, reads, rfl⟩ := ha.same
    rw [logOf_self, List.flatMap_append, List.flatMap_append,
      List.flatMap_eq_nil_iff.2 fun e hmem => (hnone e hmem).1,
      List.flatMap_eq_nil_iff.2 fun e hmem => (hnone e hmem).2, List.append_nil, List.append_nil]
    exact hsc.own
  move := fun {hist p s s' events} hsc hm he => by
    rw [logOf_self, List.flatMap_append, List.flatMap_append, hsc.own, List.append_assoc, hm.hands he,
      List.append_assoc]

end

namespace World

variable {c : Cluster n} {w : World n}

theorem reads_linearizable (h : Reachable c w) :
    (∀ p q rid id command served commands before after before' after',
      w.hist = before ++ (p, .readSubmitted rid command) :: after →
      (q, Event.executed id commands) ∈ before →
      Conflicting c (keysOf commands) [command.shard] →
      w.hist = before' ++ (p, .served rid served) :: after' →
      served.request = command.request ∧ ∃ commands', (p, Event.executed id commands') ∈ before') ∧
    ∀ p, (logOf w.hist p).flatMap Event.handover <+: (logOf w.hist p).flatMap Event.output := by
  refine ⟨fun p q rid id command served commands before after before' after' hasked hexecuted hk hserved => ?_,
    fun p => ?_⟩
  · obtain ⟨⟨⟨hinformed, -⟩, -⟩, hwaiting⟩ := h.kept Waiting.kept p
    obtain ⟨⟨command', hcommand, hrequest⟩, hdone⟩ := hwaiting.served before' after' rid served hserved
    have honce : command' = command := hinformed.asked.once
      (hserved ▸ List.mem_append_left _ hcommand) (hasked ▸ List.mem_append_right _ List.mem_cons_self)
    subst honce
    refine ⟨hrequest, hdone q id commands ?_ ?_⟩
    · have hup : upToRead p rid w.hist = before := by
        rw [hasked]
        exact upToRead_split (hinformed.asked.first hasked)
      rw [hserved, upToRead_append hcommand] at hup
      exact hup ▸ hexecuted
    · rwa [show served.shard = command'.shard from congrArg (·.2.1) hrequest]
  · rw [h.kept handed_kept p]
    exact List.prefix_append _ _

-- A read submitted where the write has been voted on but not executed.
def readBehind : World 2 :=
  World.init.run DepShard.pair
    [.submit 0 [writeOf 0 0] false, .receive 0 1 false, .receive 1 0 false,
      .submitRead 1 ⟨1, 0, [], true, 0, none⟩, .receive 1 0 false, .receive 0 1 false,
      .receive 0 1 false]

theorem readBehind_waits :
    ∃ commands, (1, Event.executed (uidAt 0 (0 : Fin 2)) commands) ∈ readBehind.hist.take 20 := by
  have h : Reachable DepShard.pair readBehind := Reachable.init.run _
  exact ((reads_linearizable h).1 1 0 0 (uidAt 0 (0 : Fin 2)) ⟨1, 0, [], true, 0, none⟩
    ⟨1, 0, [], true, 0, some ⟨true, 0⟩⟩ [⟨0, 0, [], false, 0, some ⟨true, 0⟩⟩]
    (readBehind.hist.take 12) (readBehind.hist.drop 13) (readBehind.hist.take 20)
    (readBehind.hist.drop 21) (by decide +kernel) (by decide +kernel) (Or.inl rfl)
    (by decide +kernel)).2

end World

end KCensus.Deps

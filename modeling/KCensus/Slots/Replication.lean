import KCensus.Lib.Prefixes
import KCensus.Slots.Agreement
import KCensus.Slots.Handovers

namespace KCensus.Slots

open Lib (journal)
open Lib.Turn (Meets)
open Turn Conduct ConsensusShard

variable {n : Nat} {R : Type}

namespace Event

def commit : Event n → Option (Nat × Nat)
  | committed slot v => some (slot, v)
  | _ => none

def line (e : Event n) : Option (Nat × Nat) := e.delivery.map fun d => (d.1, d.2.1)

structure Aside (e : Event n) : Prop where
  commit : e.commit = none
  line : e.line = none

theorem Quiet.aside {me : Fin n} {e : Event n} (h : e.Quiet me) : e.Aside := by
  refine ⟨?_, congrArg (Option.map _) h.mute.delivery⟩
  cases e with
  | committed slot v => exact h.elim
  | _ => rfl

end Event

def payloadOf (hist : List (Fin n × Event n)) (v : Nat) : Option (CommandBatch n) :=
  hist.findSome? fun x => x.2.creation.bind fun c => if c.1 = v then some c.2 else none

def CommandBatch.lines (slot v : Nat) : CommandBatch n → List (Nat × Nat)
  | .single _ => [(slot, v)]
  | .batch _ vs => vs.map fun w => (slot, w)

-- What there is to hand over for a uid that is decided in a slot.
def spell (hist : List (Fin n × Event n)) (x : Nat × Nat) : List (Nat × Nat) :=
  ((payloadOf hist x.2).map (CommandBatch.lines x.1 x.2)).getD []

theorem CommandBatch.lines_received {slot v : Nat} {value : CommandBatch n} :
    value.received.lines slot v = value.lines slot v := by
  cases value with
  | single command => rfl
  | batch slot' vs => rfl

section payloads

variable {hist more : List (Fin n × Event n)} {v : Nat} {value : CommandBatch n}

theorem created_of_payloadOf (h : payloadOf hist v = some value) :
    ∃ q, (q, .created v value) ∈ hist := by
  obtain ⟨x, hx, hcreation⟩ := List.exists_of_findSome?_eq_some h
  obtain ⟨c, hc, hvalue⟩ := Option.bind_eq_some_iff.1 hcreation
  obtain ⟨q, e⟩ := x
  cases e with
  | created u created =>
    cases hc
    split at hvalue
    · rename_i heq
      cases heq
      cases hvalue
      exact ⟨q, hx⟩
    · cases hvalue
  | _ => cases hc

theorem payloadOf_append (h : payloadOf hist v = some value) :
    payloadOf (hist ++ more) v = some value := by
  rw [payloadOf, List.findSome?_append]
  exact (congrArg (Option.or · _) h).trans rfl

theorem Accounts.unique [NeZero n] (h : Accounts hist) {p q : Fin n} {value' : CommandBatch n}
    (hp : (p, .created v value) ∈ hist) (hq : (q, .created v value') ∈ hist) : value = value' := by
  cases (h.owner p v value hp).1.symm.trans (h.owner q v value' hq).1
  have hnodup : ((journal Event.creation p hist).map Prod.fst).Nodup := by
    rw [← Lib.journal_map]
    exact h.lone p
  have hsame := List.inj_on_of_nodup_map hnodup (Lib.mem_journal.2 ⟨_, hp, rfl⟩)
    (Lib.mem_journal.2 ⟨_, hq, rfl⟩) rfl
  cases hsame
  rfl

theorem Accounts.payloadOf [NeZero n] (h : Accounts hist) {q : Fin n}
    (hcreated : (q, .created v value) ∈ hist) : payloadOf hist v = some value := by
  have hsome : (Slots.payloadOf hist v).isSome = true := by
    rw [Slots.payloadOf, List.findSome?_isSome_iff]
    exact ⟨_, hcreated, by simp [Event.creation]⟩
  obtain ⟨found, hfound⟩ := Option.isSome_iff_exists.1 hsome
  obtain ⟨p, hp⟩ := created_of_payloadOf hfound
  rw [hfound, h.unique hp hcreated]

theorem spell_append {xs : List (Nat × Nat)}
    (hknown : ∀ x ∈ xs, ∃ value, payloadOf hist x.2 = some value) :
    xs.flatMap (spell (hist ++ more)) = xs.flatMap (spell hist) := by
  refine List.flatMap_congr fun x hx => ?_
  obtain ⟨value, hvalue⟩ := hknown x hx
  rw [spell, spell, hvalue, payloadOf_append hvalue]

end payloads

-- What is handed over follows what is decided, slot by slot.
structure Minutes (hist : List (Fin n × Event n)) : Prop where
  known : ∀ p, ∀ x ∈ journal Event.commit p hist, ∃ value, payloadOf hist x.2 = some value
  slots : ∀ p, (journal Event.commit p hist).map Prod.fst = List.range (journal Event.commit p hist).length
  spelled : ∀ p, journal Event.line p hist <+: (journal Event.commit p hist).flatMap (spell hist)

-- The shard has the lines `pending` of what it decided left to hand over.
structure Minuted (past : List (Fin n × Event n)) (me : Fin n) (pending : List (Nat × Nat))
    (s : ConsensusShard n R) : Prop where
  minutes : Minutes (soFar past me s)
  slot : (journal Event.commit me (soFar past me s)).length = s.slot
  spelled : journal Event.line me (soFar past me s) ++ pending =
    (journal Event.commit me (soFar past me s)).flatMap (spell (soFar past me s))

namespace Minutes

variable {hist : List (Fin n × Event n)} {p : Fin n}

theorem nil : Minutes ([] : List (Fin n × Event n)) :=
  ⟨fun _ _ hx => absurd hx List.not_mem_nil, fun _ => rfl, fun _ => List.prefix_rfl⟩

theorem extend (h : Minutes hist) {said : List (Event n)}
    (hknown : ∀ x ∈ journal Event.commit p (hist ++ said.map (Prod.mk p)),
      ∃ value, payloadOf (hist ++ said.map (Prod.mk p)) x.2 = some value)
    (hslots : (journal Event.commit p (hist ++ said.map (Prod.mk p))).map Prod.fst =
      List.range (journal Event.commit p (hist ++ said.map (Prod.mk p))).length)
    (hspelled : journal Event.line p (hist ++ said.map (Prod.mk p)) <+:
      (journal Event.commit p (hist ++ said.map (Prod.mk p))).flatMap
        (spell (hist ++ said.map (Prod.mk p)))) :
    Minutes (hist ++ said.map (Prod.mk p)) := by
  refine ⟨fun q => ?_, fun q => ?_, fun q => ?_⟩
  · rcases eq_or_ne p q with rfl | hne
    · exact hknown
    · rw [Lib.journal_elsewhere hne]
      intro x hx
      obtain ⟨value, hvalue⟩ := h.known q x hx
      exact ⟨value, payloadOf_append hvalue⟩
  · rcases eq_or_ne p q with rfl | hne
    · exact hslots
    · rw [Lib.journal_elsewhere hne]
      exact h.slots q
  · rcases eq_or_ne p q with rfl | hne
    · exact hspelled
    · rw [Lib.journal_elsewhere hne, Lib.journal_elsewhere hne, spell_append (h.known q)]
      exact h.spelled q

end Minutes

namespace Minuted

variable {past : List (Fin n × Event n)} {me : Fin n} {pending : List (Nat × Nat)}
  {s t : ConsensusShard n R} {v : Nat} {value : CommandBatch n}

theorem aside (h : Minuted past me pending s) (hslot : t.slot = s.slot) (hsaid : Said Event.Aside s t) :
    Minuted past me pending t := by
  obtain ⟨said, hsinks, haside⟩ := hsaid
  have hlog : soFar past me t = soFar past me s ++ said.map (Prod.mk me) := soFar_said hsinks
  have hcommit : journal Event.commit me (soFar past me s ++ said.map (Prod.mk me)) =
      journal Event.commit me (soFar past me s) := Lib.journal_silent fun e he => (haside e he).commit
  have hline : journal Event.line me (soFar past me s ++ said.map (Prod.mk me)) =
      journal Event.line me (soFar past me s) := Lib.journal_silent fun e he => (haside e he).line
  have hspell : (journal Event.commit me (soFar past me s)).flatMap
      (spell (soFar past me s ++ said.map (Prod.mk me))) =
      (journal Event.commit me (soFar past me s)).flatMap (spell (soFar past me s)) :=
    spell_append (h.minutes.known me)
  refine ⟨hlog ▸ h.minutes.extend (fun x hx => ?_) ?_ ?_, ?_, ?_⟩
  · obtain ⟨value, hvalue⟩ := h.minutes.known me x (hcommit ▸ hx)
    exact ⟨value, payloadOf_append hvalue⟩
  · rw [hcommit]
    exact h.minutes.slots me
  · rw [hline, hcommit, hspell]
    exact h.minutes.spelled me
  · rw [hlog, hcommit, hslot]
    exact h.slot
  · rw [hlog, hline, hcommit, hspell]
    exact h.spelled

theorem committed (h : Minuted past me [] s) (hsinks : t.sinks = s.sinks ++ [.committed s.slot v])
    (hslot : t.slot = s.slot + 1) (hv : payloadOf (soFar past me s) v = some value) :
    Minuted past me (value.lines s.slot v) t := by
  have hlog : soFar past me t = soFar past me s ++ [Event.committed s.slot v].map (Prod.mk me) :=
    soFar_said hsinks
  have hcommit : journal Event.commit me (soFar past me t) =
      journal Event.commit me (soFar past me s) ++ [(s.slot, v)] := hlog ▸ Lib.journal_snoc
  have hline : journal Event.line me (soFar past me t) = journal Event.line me (soFar past me s) :=
    soFar_silent past me hsinks rfl
  have hspell : (journal Event.commit me (soFar past me t)).flatMap (spell (soFar past me t)) =
      journal Event.line me (soFar past me s) ++ value.lines s.slot v := by
    have hlast : spell (soFar past me t) (s.slot, v) = value.lines s.slot v := by
      rw [spell, hlog, payloadOf_append hv]
      rfl
    have hspelled := h.spelled
    rw [List.append_nil] at hspelled
    rw [hcommit, List.flatMap_append, List.flatMap_singleton, hlast, hlog,
      spell_append (h.minutes.known me), hspelled]
  refine ⟨?_, ?_, ?_⟩
  · rw [hlog]
    refine h.minutes.extend (fun x hx => ?_) ?_ ?_
    · rw [← hlog, hcommit] at hx
      rcases List.mem_append.1 hx with hold | hnew
      · obtain ⟨value', hvalue'⟩ := h.minutes.known me x hold
        exact ⟨value', payloadOf_append hvalue'⟩
      · cases List.mem_singleton.1 hnew
        exact ⟨value, payloadOf_append hv⟩
    · rw [← hlog, hcommit, List.map_append, h.minutes.slots me, h.slot, List.length_append, h.slot]
      exact List.range_succ.symm
    · rw [← hlog, hspell, hline]
      exact List.prefix_append _ _
  · rw [hcommit, List.length_append, h.slot, hslot]
    rfl
  · rw [hspell, hline]

theorem delivered {slot : Nat} {command : Command n} (h : Minuted past me ((slot, v) :: pending) s)
    (hsinks : t.sinks = s.sinks ++ [.handed (some (slot, v)) command]) (hslot : t.slot = s.slot) :
    Minuted past me pending t := by
  have hlog : soFar past me t =
      soFar past me s ++ [Event.handed (some (slot, v)) command].map (Prod.mk me) := soFar_said hsinks
  have hcommit : journal Event.commit me (soFar past me t) = journal Event.commit me (soFar past me s) :=
    soFar_silent past me hsinks rfl
  have hspell : (journal Event.commit me (soFar past me t)).flatMap (spell (soFar past me t)) =
      journal Event.line me (soFar past me t) ++ pending := by
    have hline : journal Event.line me (soFar past me t) =
        journal Event.line me (soFar past me s) ++ [(slot, v)] := hlog ▸ Lib.journal_snoc
    rw [hcommit, hlog, spell_append (h.minutes.known me), ← h.spelled, ← hlog, hline, List.append_assoc]
    rfl
  refine ⟨?_, ?_, hspell.symm⟩
  · rw [hlog]
    refine h.minutes.extend (fun x hx => ?_) ?_ ?_
    · rw [← hlog, hcommit] at hx
      obtain ⟨value, hvalue⟩ := h.minutes.known me x hx
      exact ⟨value, payloadOf_append hvalue⟩
    · rw [← hlog, hcommit]
      exact h.minutes.slots me
    · rw [← hlog, hspell]
      exact List.prefix_append _ _
  · rw [hcommit, hslot]
    exact h.slot

theorem flush (h : Minuted past me pending s) :
    Minuted (soFar past me s) me pending { s with sinks := [] } := by
  have hlog : soFar (soFar past me s) me { s with sinks := [] } = soFar past me s := soFar_flushed rfl
  refine ⟨?_, ?_, ?_⟩
  · rw [hlog]
    exact h.minutes
  · rw [hlog]
    exact h.slot
  · rw [hlog]
    exact h.spelled

theorem others {p : Fin n} (h : Minuted past me pending s) (hne : me ≠ p) (hsinks : s.sinks = [])
    {said : List (Event n)} (hminutes : Minutes (past ++ said.map (Prod.mk p))) :
    Minuted (past ++ said.map (Prod.mk p)) me pending s := by
  have hlog : soFar (past ++ said.map (Prod.mk p)) me s = past ++ said.map (Prod.mk p) :=
    soFar_flushed hsinks
  obtain ⟨hold, hslot, hspelled⟩ := h
  rw [soFar_flushed hsinks] at hold hslot hspelled
  refine ⟨?_, ?_, ?_⟩
  · rw [hlog]
    exact hminutes
  · rw [hlog, Lib.journal_elsewhere hne.symm]
    exact hslot
  · rw [hlog, Lib.journal_elsewhere hne.symm, Lib.journal_elsewhere hne.symm,
      spell_append (hold.known me)]
    exact hspelled

end Minuted

section turns

variable [NeZero n] {past : List (Fin n × Event n)} {me : Fin n} {algo : ConsensusShardTrait n R}
  {s t : ConsensusShard n R} {v : Nat} {value : CommandBatch n}

def Outgoing (past : List (Fin n × Event n)) (me : Fin n) (value : CommandBatch n)
    (s : ConsensusShard n R) : Prop :=
  (value.isRead = true ∧ Minuted past me [] s) ∨
    value.isRead = false ∧ ∃ v, s.lastV = some v ∧ Minuted past me (value.lines (s.slot - 1) v) s

def minuting (past : List (Fin n × Event n)) (me : Fin n) : Upkeep n R where
  good s := Books past me [] [] s ∧ Minuted past me [] s
  taken command s := Books past me [] (if command.readOnly then [] else [command.request]) s ∧
    Minuted past me [] s
  handing value s := Owing past me value s ∧ Outgoing past me value s
  fair s := Accounts (soFar past me s) ∧ Minutes (soFar past me s)
  heard _ := True

omit [NeZero n] in
theorem Outgoing.minutes (h : Outgoing past me value s) : Minutes (soFar past me s) := by
  rcases h with ⟨-, h⟩ | ⟨-, v, -, h⟩
  · exact h.minutes
  · exact h.minutes

theorem outgoing_of_advanced (hbooks : Books past me [] [] s) (h : Minuted past me [] s)
    (ht : Advanced s v value t) : Outgoing past me value t := by
  obtain ⟨q, created, hcreated, hsame⟩ := hbooks.genuine v value ht.found
  have hwrite : value.isRead = false := by
    rw [← CommandBatch.isRead_received, hsame, CommandBatch.isRead_received]
    exact (hbooks.accounts.owner q v created hcreated).2
  have hcommitted := h.committed ht.sinks ht.slot (hbooks.accounts.payloadOf hcreated)
  rw [← CommandBatch.lines_received, ← hsame, CommandBatch.lines_received] at hcommitted
  refine Or.inr ⟨hwrite, v, ht.lastV, ?_⟩
  rwa [ht.slot, Nat.add_sub_cancel]

omit [NeZero n] in
theorem Minuted.hushed (h : Minuted past me [] s) (ht : Hushed me s t) : Minuted past me [] t :=
  h.aside ht.slot (ht.said.mono fun _ he => he.aside)

omit [NeZero n] in
theorem Minuted.introduced (h : Minuted past me [] s) (ht : Introduced me s value t) :
    Minuted past me [] t := by
  have hcreated : Minuted past me [] (withCreated s (freshUid s value) value) :=
    h.aside rfl ⟨[_], rfl, fun e he => List.mem_singleton.1 he ▸ ⟨rfl, rfl⟩⟩
  obtain ⟨said, hsinks, hsends⟩ := ht.said
  refine hcreated.aside ht.slot ⟨said, hsinks, fun e he => ?_⟩
  rcases hsends with hquiet | ⟨before, packet, priority, rfl, -, -, -, hquiet⟩
  · exact (hquiet e he).aside
  · rcases List.mem_append.1 he with hbefore | hlast
    · exact (hquiet e hbefore).aside
    · exact List.mem_singleton.1 hlast ▸ ⟨rfl, rfl⟩

theorem minuting_handover : Handover (minuting past me : Upkeep n R) me fun k vs s =>
    Books past me [] [] s ∧ Minuted past me (vs.map fun w => (k, w)) s where
  fair h := ⟨h.1.books.accounts, h.2.minutes⟩
  fairDue h := ⟨h.1.accounts, h.2.minutes⟩
  same hsinks h := by
    change Accounts _ ∧ Minutes _ at h ⊢
    rwa [soFar, hsinks]
  hushed h ht := ⟨h.1.hushed ht, h.2.hushed ht⟩
  read h hread := by
    refine ⟨books_handover.read h.1 hread, ?_⟩
    rcases h.2 with ⟨-, hminuted⟩ | ⟨hwrite, -⟩
    · exact hminuted.aside rfl ⟨[_], rfl, fun e he => List.mem_singleton.1 he ▸ ⟨rfl, rfl⟩⟩
    · cases hread.symm.trans hwrite
  write fast left h hwrite := by
    refine ⟨books_handover.write fast left h.1 hwrite, ?_⟩
    rcases h.2 with ⟨hread, -⟩ | ⟨-, v, hlast, hminuted⟩
    · cases hread.symm.trans hwrite
    · exact hminuted.delivered (by rw [hlast]; rfl) rfl
  batch left h := by
    refine ⟨books_handover.batch left h.1, ?_⟩
    rcases h.2 with ⟨hread, -⟩ | ⟨-, v, -, hminuted⟩
    · cases hread
    · exact hminuted.aside rfl (.of_eq rfl)
  next fast h hfound hwrite :=
    ⟨(h.1.removed hfound).delivered (h.1.genuine _ _ hfound).stamped rfl rfl rfl rfl rfl,
      h.2.delivered rfl rfl⟩
  done h := h

theorem minuting_upheld (c : Cluster n) (order : HashOrder n) (hfrugal : Frugal me algo) :
    (minuting past me : Upkeep n R).Upheld c me order algo := by
  refine .of_frugal hfrugal (fun _ => trivial) (fun h => ⟨h.1.accounts, h.2.minutes⟩) (fun h => h.1.mine)
    (fun h ht => ⟨h.1.hushed ht, h.2.hushed ht⟩)
    (fun h => ⟨h.1.same rfl (fun _ _ hv => hv) rfl h.1.mine h.1.reads, h.2.aside rfl (.of_eq rfl)⟩)
    (fun h => ⟨h.1.submitted, h.2.aside rfl ⟨[_], rfl, fun e he => List.mem_singleton.1 he ▸ ⟨rfl, rfl⟩⟩⟩)
    (fun h hread ht => ⟨h.1.read hread ht, h.2.hushed ht⟩)
    (fun h hwrite ht => ⟨h.1.write hwrite ht, h.2.introduced ht⟩)
    (fun h _ ht => ⟨(h.1.hushed ht).accounts, (h.2.hushed ht).minutes⟩)
    (fun h hnew ht => ⟨h.1.batch hnew ht, h.2.introduced ht⟩) (fun h => h.1.reads)
    (fun h hread => ⟨h.1.serve hread, Or.inl ⟨hread, h.2⟩⟩)
    (fun h ht => ⟨h.1.advance ht, outgoing_of_advanced h.1 h.2 ht⟩)
    fun h => minuting_handover.commitCommands (fun h => ⟨h.1.accounts, h.2.minutes⟩) h

omit [NeZero n] in
theorem Minuted.arrive (h : Minuted past me [] s) {packet : Packet n} :
    Meets (do
      emit (.received packet.msg.src packet)
      storeValue packet) s (fun _ => Minuted past me []) (fun _ => Minuted past me []) := by
  have hquiet : ∀ {t : ConsensusShard n R}, t.slot = s.slot →
      t.sinks = s.sinks ++ [.received packet.msg.src packet] → Minuted past me [] t := fun hslot hsinks =>
    h.aside hslot ⟨[_], hsinks, fun e he => List.mem_singleton.1 he ▸ ⟨rfl, rfl⟩⟩
  rw [Lib.Turn.meets_bind, emit, Lib.Turn.meets_modify, storeValue]
  split
  · exact hquiet rfl rfl
  · split
    · exact hquiet (t := { s with sinks := _ }) rfl rfl
    · rw [storeRemoteCommand, Lib.Turn.meets_modify]
      split
      · exact hquiet rfl rfl
      · exact hquiet rfl rfl

end turns

namespace World

variable [NeZero n] {d : Deployment n R} {mentions : (Nat → Prop) → (Nat → Prop) → R → Prop}
  {committer : Nat → Option (Fin n)} {named : Prop} {w : World n R}

theorem minuting_lasting (hfrugal : ∀ p order, Frugal p (d.algorithm p order))
    (hr : Regular d mentions committer named) :
    Lasting d minuting (fun hist => Accounts hist ∧ Minutes hist) where
  upheld _ p order := minuting_upheld d.cluster order (hfrugal p order)
  ended h := h
  start := ⟨.nil, .nil⟩
  fresh p := ⟨(books_lasting hfrugal hr).fresh p, .nil, rfl, rfl⟩
  flush h := ⟨h.1.flush, h.2.flush⟩
  others hne hbase hsinks h := ⟨h.1.others hne hsinks hbase.1, h.2.others hne hsinks hbase.2⟩
  heard _ _ _ := trivial
  arrive h he hp := (((books_lasting hfrugal hr).arrive h.1 he hp).and h.2.arrive).mono
    (fun _ _ ht => ht) fun _ _ ht => ⟨ht.1, ht.2.minutes⟩
  drop h hvalue := ⟨(books_lasting hfrugal hr).drop h.1 hvalue,
    h.2.aside rfl ⟨[_], rfl, fun _ he => List.mem_singleton.1 he ▸ ⟨rfl, rfl⟩⟩⟩
  wake ho hs h := ⟨(books_lasting hfrugal hr).wake ho hs h.1,
    h.2.aside rfl (.of_eq ((ho.sound hr).spare hs).sinks)⟩
  doze hw hc hplace hsleep h := ⟨(books_lasting hfrugal hr).doze hw hc hplace hsleep h.1,
    h.2.aside rfl (.of_eq ((hw.sound hr).awake _ _ hplace).2.symm)⟩

theorem Reachable.minutes (hfrugal : ∀ p order, Frugal p (d.algorithm p order))
    (hr : Regular d mentions committer named) (h : Reachable d w) : Minutes w.hist :=
  (h.lasts (minuting_lasting hfrugal hr) hr).base.2

end World

theorem Accounts.request_eq [NeZero n] {hist : List (Fin n × Event n)} (h : Accounts hist) {v : Nat}
    {command command' : Command n} (hv : Genuine hist v (.single command))
    (hv' : Genuine hist v (.single command')) : command.request = command'.request := by
  obtain ⟨q, created, hcreated, hsame⟩ := hv
  obtain ⟨q', created', hcreated', hsame'⟩ := hv'
  cases h.unique hcreated hcreated'
  exact request_of_received (hsame.trans hsame'.symm)

theorem Accounts.delivery_eq [NeZero n] {hist : List (Fin n × Event n)} (h : Accounts hist) {p q : Fin n}
    {x y : Nat × Nat × (Fin n × Nat × List UInt8 × Bool)} (hx : x ∈ journal Event.delivery p hist)
    (hy : y ∈ journal Event.delivery q hist) (hsame : (x.1, x.2.1) = (y.1, y.2.1)) : x = y := by
  have hgenuine : ∀ {p : Fin n} {x : Nat × Nat × (Fin n × Nat × List UInt8 × Bool)},
      x ∈ journal Event.delivery p hist → ∃ command, Genuine hist x.2.1 (.single command) ∧
        x.2.2 = command.request := by
    intro p x hx
    obtain ⟨e, he, hdelivery⟩ := Lib.mem_journal.1 hx
    cases e with
    | handed write command =>
      cases write with
      | none => cases hdelivery
      | some write =>
        cases hdelivery
        exact ⟨command, h.handed p _ _ command he, rfl⟩
    | _ => cases hdelivery
  obtain ⟨command, hcommand, hrequest⟩ := hgenuine hx
  obtain ⟨command', hcommand', hrequest'⟩ := hgenuine hy
  obtain ⟨slot, v, request⟩ := x
  obtain ⟨slot', v', request'⟩ := y
  cases hsame
  cases hrequest.trans ((h.request_eq hcommand hcommand').trans hrequest'.symm)
  rfl

-- Any two processes hand over the same writes in the same order, as far as both have come.
theorem replicated_log [NeZero n] (f : PaxosFamily n) (hswift : f.mode.isSwift = false)
    {w : World n (PaxosFamilyRoundState n)} (h : World.Reachable f.deployment w) (p q : Fin n) :
    journal Event.delivery p w.hist <+: journal Event.delivery q w.hist ∨
      journal Event.delivery q w.hist <+: journal Event.delivery p w.hist := by
  have hfrugal : ∀ p order, Frugal p (f.deployment.algorithm p order) := fun _ _ =>
    PaxosFamily.Hushes.frugal
  have hr := (SlotAlgorithm.paxosFamily f).regular
  have haccounts := h.accounts hfrugal hr
  have hminutes := h.minutes hfrugal hr
  have hcommitted : ∀ p k v, (k, v) ∈ journal Event.commit p w.hist → (p, .committed k v) ∈ w.hist := by
    intro p k v hx
    obtain ⟨e, he, hcommit⟩ := Lib.mem_journal.1 hx
    cases e with
    | committed slot u =>
      cases hcommit
      exact he
    | _ => cases hcommit
  have hcommits := Lib.prefix_of_numbered (hminutes.slots p) (hminutes.slots q) fun k a b ha hb =>
    (PaxosFamily.recorded hswift h).agreement (hcommitted p k a ha) (hcommitted q k b hb)
  have hlines : journal Event.line p w.hist <+: journal Event.line q w.hist ∨
      journal Event.line q w.hist <+: journal Event.line p w.hist := by
    rcases hcommits with hle | hle
    · exact List.prefix_or_prefix_of_prefix
        ((hminutes.spelled p).trans (Lib.prefix_flatMap _ hle)) (hminutes.spelled q)
    · exact List.prefix_or_prefix_of_prefix (hminutes.spelled p)
        ((hminutes.spelled q).trans (Lib.prefix_flatMap _ hle))
  have hline : ∀ r, journal Event.line r w.hist =
      (journal Event.delivery r w.hist).map fun d => (d.1, d.2.1) := fun r => Lib.journal_map _
  rw [hline, hline] at hlines
  exact hlines.imp (Lib.prefix_of_map _ fun x hx y hy => haccounts.delivery_eq hx hy)
    (Lib.prefix_of_map _ fun x hx y hy => haccounts.delivery_eq hx hy)

-- Here 1 hands over the write of the client and then its own, and the client has its own so far.
theorem replicated_log_ePaxosFour : ∃ w, World.Reachable ePaxosFour.deployment w ∧
    (journal Event.delivery 1 w.hist).map Prod.fst = [0, 1] ∧
    (journal Event.delivery 3 w.hist).map Prod.fst = [0] ∧
    (journal Event.delivery 3 w.hist <+: journal Event.delivery 1 w.hist ∨
      journal Event.delivery 1 w.hist <+: journal Event.delivery 3 w.hist) := by
  have hrun : (World.init.follow ePaxosFour.deployment ePaxosFour.twoSlots).any (fun w =>
      decide ((journal Event.delivery 1 w.hist).map Prod.fst = [0, 1]) &&
        decide ((journal Event.delivery 3 w.hist).map Prod.fst = [0])) = true := by
    decide +kernel
  obtain ⟨w, hw, hchecks⟩ := (Option.any_eq_true _ _).1 hrun
  have h : World.Reachable ePaxosFour.deployment w := .follow (fun _ => rfl) .init hw
  obtain ⟨hone, hthree⟩ := Bool.and_eq_true_iff.1 hchecks
  exact ⟨w, h, of_decide_eq_true hone, of_decide_eq_true hthree,
    replicated_log ePaxosFour rfl h 3 1⟩

end KCensus.Slots

import KCensus.Deps.Reach

namespace KCensus.Deps

variable {n : Nat} [NeZero n]

def logOf (hist : List (Fin n × Event n)) (p : Fin n) : List (Event n) :=
  hist.filterMap fun entry => if entry.1 = p then some entry.2 else none

section

variable {hist : List (Fin n × Event n)} {p q : Fin n} {events : List (Event n)}

omit [NeZero n] in
theorem mem_logOf {e : Event n} : e ∈ logOf hist p ↔ (p, e) ∈ hist := by
  unfold logOf
  rw [List.mem_filterMap]
  constructor
  · rintro ⟨⟨q, e'⟩, hm, he⟩
    obtain ⟨hq, he⟩ := Option.ite_none_right_eq_some.1 he
    simp only at hq
    rw [← hq, ← Option.some.inj he]
    exact hm
  · exact fun h => ⟨(p, e), h, if_pos rfl⟩

omit [NeZero n] in
theorem logOf_self (hist : List (Fin n × Event n)) (p : Fin n) (events : List (Event n)) :
    logOf (hist ++ events.map (Prod.mk p)) p = logOf hist p ++ events := by
  unfold logOf
  rw [List.filterMap_append, List.filterMap_map]
  congr 1
  simp

omit [NeZero n] in
theorem logOf_other (hq : q ≠ p) (hist : List (Fin n × Event n)) (events : List (Event n)) :
    logOf (hist ++ events.map (Prod.mk q)) p = logOf hist p := by
  unfold logOf
  rw [List.filterMap_append, List.filterMap_map]
  conv_rhs => rw [← List.append_nil (List.filterMap _ hist)]
  congr 1
  exact List.filterMap_eq_nil_iff.2 fun e _ => if_neg hq

end

-- What an event puts on its way to `dest`, at once or with the next bundle of acks.
def Event.goesTo (c : Cluster n) (me dest : Fin n) (e : Event n) : Option (Packet n) :=
  match e with
  | .queueAck msg _ => if dest ≠ me ∧ c.isReplica dest = true then some ⟨msg, none⟩ else none
  | _ => e.sendsTo c me dest

def Event.receivedFrom (src : Fin n) : Event n → Option (Packet n)
  | .received q packet => if q = src then some packet else none
  | _ => none

def sentTo (c : Cluster n) (hist : List (Fin n × Event n)) (src dest : Fin n) : List (Packet n) :=
  (logOf hist src).filterMap (Event.goesTo c src dest)

def gotFrom (hist : List (Fin n × Event n)) (dest src : Fin n) : List (Packet n) :=
  (logOf hist dest).filterMap (Event.receivedFrom src)

-- Packets of one kind that keep their order on the way to `dest`.
inductive Lane {β : Type} (c : Cluster n) (dest : Fin n) (f : Packet n → Option β) : Prop where
  | direct : (∀ msg, msg.isAck = true → f ⟨msg, none⟩ = none) → Lane c dest f
  | acks : c.isReplica dest = true → (∀ packet, packet.msg.isAck = false → f packet = none) →
      (∀ id, f ⟨.acceptOk id, none⟩ = none) → Lane c dest f

namespace MultiSink

variable {c : Cluster n} {me dest : Fin n} {β : Type} {f : Packet n → Option β} {m : MultiSink n}

def onWay (f : Packet n → Option β) (dest : Fin n) (m : MultiSink n) : List β :=
  (m.links dest).filterMap f ++ m.pendingFast.filterMap fun msg => f ⟨msg, none⟩

def Prompt (c : Cluster n) (m : MultiSink n) : Prop :=
  c.batchAcks = false → m.pendingFast = [] ∧ m.pendingSlow = []

omit [NeZero n] in
theorem prompt_new : (MultiSink.new : MultiSink n).Prompt c := fun _ => ⟨rfl, rfl⟩

omit [NeZero n] in
theorem prompt_flushAcks : (m.flushAcks c me).Prompt c := fun _ => ⟨rfl, rfl⟩

theorem Prompt.apply (h : m.Prompt c) (full : Bool) {e : Event n} (he : e.Valid c me) :
    (m.apply c me full e).Prompt c := by
  cases e with
  | broadcast packet priority => exact h
  | send packet d =>
    simp only [MultiSink.apply, MultiSink.send]
    split <;> exact h
  | queueAck msg requester =>
    intro hb
    rw [he.2.2] at hb
    cases hb
  | submitted | received | created | proposed | dispatchedAccept | blocked | committed | executed
  | ordered | readSubmitted | served | handed | panicked => exact h

theorem Prompt.foldl (h : m.Prompt c) (full : Bool) (events : List (Event n))
    (he : ∀ e ∈ events, e.Valid c me) : (events.foldl (MultiSink.apply c me full) m).Prompt c := by
  induction events generalizing m with
  | nil => exact h
  | cons e events ih =>
    exact ih (h.apply full (he e List.mem_cons_self)) fun e' he' => he e' (List.mem_cons_of_mem _ he')

section

variable (hf : Lane c dest f) (hd : dest ≠ me) (ha : m.Acks)

include hf hd ha

omit [NeZero n] in
theorem onWay_flushAcks : (m.flushAcks c me).onWay f dest = m.onWay f dest := by
  cases hf with
  | direct hdirect =>
    have hpend : m.pendingFast.filterMap (fun msg => f ⟨msg, none⟩) = [] :=
      List.filterMap_eq_nil_iff.2 fun msg hm => hdirect msg (ha.fast msg hm)
    rw [onWay, filterMap_flushAcks hdirect ha, onWay, hpend]
    rfl
  | acks hr _ hslow =>
    have hpend : m.pendingSlow.filterMap (fun msg => f ⟨msg, none⟩) = [] := by
      refine List.filterMap_eq_nil_iff.2 fun msg hm => ?_
      obtain ⟨id, rfl⟩ := ha.slow msg hm
      exact hslow id
    rw [onWay, onWay, flushAcks]
    simp only [if_pos (show dest ≠ me ∧ (c.isReplica dest = true ∨ dest ∈ m.ackRecipients) from
      ⟨hd, Or.inl hr⟩), bundle, List.filterMap_append, List.filterMap_map, List.filterMap_nil,
      List.append_nil]
    rw [show (f ∘ fun msg : DepMsg n => (⟨msg, none⟩ : Packet n)) = fun msg => f ⟨msg, none⟩ from rfl,
      hpend, List.append_nil]

theorem onWay_apply (hp : m.Prompt c) (full : Bool) {e : Event n} (he : e.Valid c me) :
    (m.apply c me full e).onWay f dest =
      m.onWay f dest ++ (e.goesTo c me dest).toList.filterMap f := by
  cases hq : e.isQueueAck with
  | false =>
    have hgo : e.goesTo c me dest = e.sendsTo c me dest := by
      cases e <;> first | rfl | cases hq
    obtain ⟨hlinks, hfast, -, -⟩ : (∀ dest, (m.apply c me full e).links dest =
      m.links dest ++ (e.sendsTo c me dest).toList) ∧ _ ∧ _ ∧ _ := apply_prompt m full hq
    rw [onWay, onWay, hlinks, hfast, hgo, List.filterMap_append, List.append_assoc,
      List.append_assoc]
    congr 1
    cases hs : e.sendsTo c me dest with
    | none => simp
    | some packet =>
      have hack : packet.msg.isAck = true → c.batchAcks = false := by
        cases e <;> simp only [Event.sendsTo, reduceCtorEq] at hs
        all_goals
          rw [← Option.some.inj (Option.ite_none_right_eq_some.1 hs).2]
          exact he.2.1
      cases hf with
      | direct hdirect =>
        have hpend : m.pendingFast.filterMap (fun msg => f ⟨msg, none⟩) = [] :=
          List.filterMap_eq_nil_iff.2 fun msg hm => hdirect msg (ha.fast msg hm)
        rw [hpend, List.append_nil, List.nil_append]
      | acks _ hnone _ =>
        cases hk : packet.msg.isAck with
        | false => simp [hnone packet hk]
        | true => simp [(hp (hack hk)).1]
  | true =>
    cases e <;> try cases hq
    rename_i msg requester
    have hack := he.2.1
    have hqueue : (m.queueAck msg requester).onWay f dest =
        m.onWay f dest ++ ((Event.queueAck msg requester).goesTo c me dest).toList.filterMap f := by
      rw [onWay, onWay, queueAck_links]
      cases hf with
      | direct hdirect =>
        have hpend : ∀ m : MultiSink n, m.Acks →
            m.pendingFast.filterMap (fun msg => f ⟨msg, none⟩) = [] := fun m ha =>
          List.filterMap_eq_nil_iff.2 fun msg hm => hdirect msg (ha.fast msg hm)
        rw [hpend _ ha, hpend _ (ha.queueAck msg requester)]
        simp only [Event.goesTo]
        split <;> simp [hdirect msg hack]
      | acks hr _ hslow =>
        simp only [Event.goesTo, if_pos (show dest ≠ me ∧ c.isReplica dest = true from ⟨hd, hr⟩),
          Option.toList_some]
        rw [List.append_assoc]
        congr 1
        cases msg with
        | preAcceptOk id acked | accept id deps =>
          simp [queueAck, List.filterMap_append, List.filterMap_cons]
        | acceptOk id => simp [queueAck, hslow]
        | forward | preAccept | commit | readRequest | readResponse => cases hack
    simp only [MultiSink.apply]
    split
    · rw [onWay_flushAcks hf hd (ha.queueAck msg requester), hqueue]
    · exact hqueue

theorem onWay_foldl (hp : m.Prompt c) (full : Bool) (events : List (Event n))
    (he : ∀ e ∈ events, e.Valid c me) :
    (events.foldl (MultiSink.apply c me full) m).onWay f dest =
      m.onWay f dest ++ (events.filterMap (Event.goesTo c me dest)).filterMap f := by
  induction events generalizing m with
  | nil => simp
  | cons e events ih =>
    have hv := he e List.mem_cons_self
    rw [List.foldl_cons, ih (ha.apply full e) (hp.apply full hv)
      fun e' he' => he e' (List.mem_cons_of_mem _ he'), onWay_apply hf hd ha hp full hv,
      List.append_assoc, List.filterMap_cons]
    cases e.goesTo c me dest with
    | none => rfl
    | some packet =>
      rw [List.filterMap_cons]
      cases hfp : f packet <;> simp [hfp]

end

end MultiSink

section

variable {c : Cluster n} {hist : List (Fin n × Event n)} {p src dest : Fin n}
  {events : List (Event n)}

omit [NeZero n] in
theorem sentTo_self : sentTo c (hist ++ events.map (Prod.mk src)) src dest =
    sentTo c hist src dest ++ events.filterMap (Event.goesTo c src dest) := by
  rw [sentTo, logOf_self, List.filterMap_append]
  rfl

omit [NeZero n] in
theorem sentTo_other (hp : p ≠ src) :
    sentTo c (hist ++ events.map (Prod.mk p)) src dest = sentTo c hist src dest := by
  rw [sentTo, logOf_other hp]
  rfl

omit [NeZero n] in
theorem gotFrom_self : gotFrom (hist ++ events.map (Prod.mk dest)) dest src =
    gotFrom hist dest src ++ events.filterMap (Event.receivedFrom src) := by
  rw [gotFrom, logOf_self, List.filterMap_append]
  rfl

omit [NeZero n] in
theorem gotFrom_other (hp : p ≠ dest) :
    gotFrom (hist ++ events.map (Prod.mk p)) dest src = gotFrom hist dest src := by
  rw [gotFrom, logOf_other hp]
  rfl

theorem gotFrom_valid (he : ∀ e ∈ events, e.Valid c p) :
    events.filterMap (Event.receivedFrom src) = [] := by
  refine List.filterMap_eq_nil_iff.2 fun e hm => ?_
  have hv := he e hm
  cases e with
  | received q packet => cases hv
  | broadcast | send | queueAck | submitted | created | proposed | dispatchedAccept | blocked
  | committed | executed | ordered | readSubmitted | served | handed | panicked => rfl

end

namespace World

variable {c : Cluster n} {w w' : World n} {p src dest : Fin n} {β : Type} {f : Packet n → Option β}

theorem sinks_popLink_self (w : World n) (src p : Fin n) :
    (w.popLink src p).sinks src = (w.sinks src).pop p := Function.update_self _ _ _

theorem sinks_popLink_ne {q : Fin n} (hq : q ≠ src) (w : World n) (p : Fin n) :
    (w.popLink src p).sinks q = w.sinks q := Function.update_of_ne hq _ _

theorem Flow.prompt {events : List (Event n)} (hf : Flow c w w' p events)
    (h : ∀ q, (w.sinks q).Prompt c) (q : Fin n) : (w'.sinks q).Prompt c := by
  by_cases hq : q = p
  · subst hq
    cases hf with
    | turn full hv hs =>
      rw [hs, Function.update_self]
      exact (h q).foldl full events hv
    | arrival full more hsrc hl he hv hs =>
      rw [hs, Function.update_self]
      exact (h q).foldl full more hv
    | flush he hs =>
      rw [hs, Function.update_self]
      exact MultiSink.prompt_flushAcks
    | owe _ he hs =>
      rw [hs, Function.update_self]
      exact h q
  · cases hf with
    | turn full hv hs =>
      rw [hs, Function.update_of_ne hq]
      exact h q
    | @arrival r _ _ full more hsrc hl he hv hs =>
      rw [hs, Function.update_of_ne hq]
      by_cases hr : q = r
      · subst hr
        rw [sinks_popLink_self]
        exact h q
      · rw [sinks_popLink_ne hr]
        exact h q
    | flush he hs | owe _ he hs =>
      rw [hs, Function.update_of_ne hq]
      exact h q

theorem Reachable.prompt (h : Reachable c w) (q : Fin n) : (w.sinks q).Prompt c := by
  induction h generalizing q with
  | init => exact MultiSink.prompt_new
  | step hr hs ih =>
    obtain ⟨-, p, s₁, s', ht⟩ := hr.sound.step hs
    exact ht.flow.prompt ih q

-- What was sent has arrived or is still on its way, in the order it was sent.
def Fifo (c : Cluster n) (w : World n) (src dest : Fin n) (f : Packet n → Option β) : Prop :=
  (sentTo c w.hist src dest).filterMap f =
    (gotFrom w.hist dest src).filterMap f ++ (w.sinks src).onWay f dest

omit [NeZero n] in
theorem onWay_pop (m : MultiSink n) (q : Fin n) : (m.pop q).onWay f dest =
    if dest = q then (m.links dest).tail.filterMap f ++ m.pendingFast.filterMap fun msg => f ⟨msg, none⟩
    else m.onWay f dest := by
  simp only [MultiSink.onWay, MultiSink.pop]
  split <;> rfl

section

variable (hw : Base c w) (hp : ∀ q, (w.sinks q).Prompt c) (hlane : Lane c dest f)
  (hne : src ≠ dest) (hf : w.Fifo c src dest f) {events : List (Event n)}

include hw hp hlane hne hf

theorem Flow.fifo_self (hflow : Flow c w w' src events)
    (hhist : w'.hist = w.hist ++ events.map (Prod.mk src)) : w'.Fifo c src dest f := by
  rw [Fifo, hhist, sentTo_self, gotFrom_other hne, List.filterMap_append, hf, List.append_assoc]
  congr 1
  cases hflow with
  | turn full hv hs =>
    rw [hs, Function.update_self]
    exact (MultiSink.onWay_foldl hlane hne.symm (hw.acks src) (hp src) full events hv).symm
  | arrival full more hsrc hl he hv hs =>
    rw [hs, Function.update_self, he, List.filterMap_cons_none rfl]
    exact (MultiSink.onWay_foldl hlane hne.symm (hw.acks src) (hp src) full more hv).symm
  | flush he hs =>
    rw [hs, Function.update_self, he, MultiSink.onWay_flushAcks hlane hne.symm (hw.acks src)]
    exact List.append_nil _
  | owe _ he hs =>
    rw [hs, Function.update_self, he]
    exact List.append_nil _

omit hw hp hlane in
theorem Flow.fifo_dest (hflow : Flow c w w' dest events)
    (hhist : w'.hist = w.hist ++ events.map (Prod.mk dest)) : w'.Fifo c src dest f := by
  rw [Fifo, hhist, sentTo_other hne.symm, gotFrom_self, List.filterMap_append, hf, List.append_assoc]
  congr 1
  cases hflow with
  | turn full hv hs =>
    rw [hs, Function.update_of_ne hne, gotFrom_valid hv]
    rfl
  | @arrival q packet rest full more hsrc hl he hv hs =>
    rw [hs, Function.update_of_ne hne, he]
    by_cases hq : src = q
    · subst hq
      rw [sinks_popLink_self, onWay_pop, if_pos rfl,
        List.filterMap_cons_some (show Event.receivedFrom src (.received src packet) = some packet from
          if_pos rfl), gotFrom_valid hv, MultiSink.onWay, show (w.sinks src).links dest = packet :: rest
          from hl, List.tail_cons, List.filterMap_cons, List.filterMap_cons]
      cases f packet <;> simp
    · rw [sinks_popLink_ne hq,
        List.filterMap_cons_none (show Event.receivedFrom src (.received q packet) = none from
          if_neg (Ne.symm hq)), gotFrom_valid hv]
      rfl
  | flush he hs | owe _ he hs =>
    rw [hs, Function.update_of_ne hne, he]
    rfl

omit hw hp hlane hne in
theorem Flow.fifo_other (hs : p ≠ src) (hd : p ≠ dest) (hflow : Flow c w w' p events)
    (hhist : w'.hist = w.hist ++ events.map (Prod.mk p)) : w'.Fifo c src dest f := by
  rw [Fifo, hhist, sentTo_other hs, gotFrom_other hd, hf]
  congr 1
  cases hflow with
  | turn full hv hsinks => rw [hsinks, Function.update_of_ne hs.symm]
  | @arrival q packet rest full more hsrc hl he hv hsinks =>
    rw [hsinks, Function.update_of_ne hs.symm]
    by_cases hq : src = q
    · subst hq
      rw [sinks_popLink_self, onWay_pop, if_neg hd.symm]
    · rw [sinks_popLink_ne hq]
  | flush he hsinks | owe _ he hsinks => rw [hsinks, Function.update_of_ne hs.symm]

end

theorem Reachable.fifo (h : Reachable c w) (hlane : Lane c dest f) (hne : src ≠ dest) :
    w.Fifo c src dest f := by
  induction h with
  | init => rfl
  | step hr hs ih =>
    obtain ⟨-, p, s₁, s', ht⟩ := hr.sound.step hs
    have hbase := hr.sound.toBase
    by_cases hsp : p = src
    · subst hsp
      exact ht.flow.fifo_self hbase hr.prompt hlane hne ih ht.hist
    · by_cases hdp : p = dest
      · subst hdp
        exact ht.flow.fifo_dest hne ih ht.hist
      · exact ht.flow.fifo_other ih hsp hdp ht.hist

theorem Flow.link {events : List (Event n)} (hf : Flow c w w' p events) {packet : Packet n}
    (he : Event.received src packet ∈ events) : src ≠ p ∧ ∃ rest, w.link src p = packet :: rest := by
  cases hf with
  | turn full hv _ => exact (hv _ he).elim
  | arrival full more hsrc hl hevents hv _ =>
    rw [hevents] at he
    rcases List.mem_cons.1 he with heq | he
    · cases heq
      exact ⟨hsrc, _, hl⟩
    · exact (hv _ he).elim
  | flush hevents _ | owe _ hevents _ =>
    rw [hevents] at he
    cases he

end World

-- The packet is the next of its kind from `src` that `p` has not received.
def Due (c : Cluster n) (hist : List (Fin n × Event n)) (src p : Fin n) (packet : Packet n) :
    Prop :=
  ∀ (β : Type) (f : Packet n → Option β), Lane c p f →
    (gotFrom hist p src).filterMap f ++ (f packet).toList <+: (sentTo c hist src p).filterMap f

theorem World.Reachable.due {c : Cluster n} {w : World n} {src p : Fin n} {packet : Packet n}
    {rest : List (Packet n)} (h : World.Reachable c w) (hne : src ≠ p)
    (hl : w.link src p = packet :: rest) : Due c w.hist src p packet := by
  intro β f hlane
  have hfifo := h.fifo hlane hne
  rw [World.Fifo, MultiSink.onWay, show (w.sinks src).links p = packet :: rest from hl,
    List.filterMap_cons] at hfifo
  rw [hfifo]
  cases f packet <;> simp

end KCensus.Deps

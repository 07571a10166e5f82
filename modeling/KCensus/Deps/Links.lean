import KCensus.Deps.World

namespace KCensus.Deps

variable {n : Nat}

def Event.packet? : Event n → Option (Packet n)
  | .broadcast packet _ | .send packet _ => some packet
  | .queueAck msg _ => some ⟨msg, none⟩
  | _ => none

-- What an event has in store for `dest`, at once or with the next bundle of acks.
def Event.packetTo (dest : Fin n) : Event n → Option (Packet n)
  | .broadcast packet _ => some packet
  | .send packet d => if d = dest then some packet else none
  | .queueAck msg _ => some ⟨msg, none⟩
  | _ => none

theorem Event.packet_of_packetTo {dest : Fin n} {e : Event n} {packet : Packet n}
    (h : e.packetTo dest = some packet) : e.packet? = some packet := by
  cases e <;> simp only [packetTo, reduceCtorEq] at h
  case send => exact (Option.ite_none_right_eq_some.1 h).2
  all_goals exact h

-- What an event puts on the link to `dest` at once.
def Event.sendsTo (c : Cluster n) (me dest : Fin n) : Event n → Option (Packet n)
  | .broadcast packet priority =>
      if dest ≠ me ∧ (priority = some dest ∨ packet.msg.replicasOnly = false ∨
        c.isReplica dest = true) then some packet else none
  | .send packet d =>
      if d = dest ∧ (packet.msg.replicasOnly = false ∨ c.isReplica d = true) then some packet
      else none
  | _ => none

theorem Event.packet_of_sendsTo {c : Cluster n} {me dest : Fin n} {e : Event n}
    {packet : Packet n} (h : e.sendsTo c me dest = some packet) : e.packet? = some packet := by
  cases e <;> simp only [sendsTo] at h <;> first | exact (Option.ite_none_right_eq_some.1 h).2 | cases h

def Event.isQueueAck : Event n → Bool
  | .queueAck _ _ => true
  | _ => false

namespace MultiSink

variable {c : Cluster n} {me : Fin n}

structure Acks (m : MultiSink n) : Prop where
  fast : ∀ msg ∈ m.pendingFast, msg.isAck = true
  slow : ∀ msg ∈ m.pendingSlow, ∃ id, msg = .acceptOk id

theorem acks_new : (MultiSink.new : MultiSink n).Acks := ⟨by simp [new], by simp [new]⟩

theorem Acks.bundle {m : MultiSink n} (h : m.Acks) {packet : Packet n} (hp : packet ∈ m.bundle) :
    packet.msg.isAck = true ∧ packet.value = none := by
  obtain ⟨msg, hm, rfl⟩ := List.mem_map.1 hp
  rcases List.mem_append.1 hm with hm | hm
  · exact ⟨h.fast msg hm, rfl⟩
  · obtain ⟨id, rfl⟩ := h.slow msg hm
    exact ⟨rfl, rfl⟩

theorem Acks.queueAck {m : MultiSink n} (h : m.Acks) (msg : DepMsg n) (requester : Fin n) :
    (m.queueAck msg requester).Acks := by
  cases msg with
  | preAcceptOk | accept =>
    refine ⟨fun x hx => ?_, h.slow⟩
    rcases List.mem_append.1 hx with hx | hx
    · exact h.fast x hx
    · rw [List.mem_singleton.1 hx]
      rfl
  | acceptOk =>
    refine ⟨h.fast, fun x hx => ?_⟩
    rcases List.mem_append.1 hx with hx | hx
    · exact h.slow x hx
    · exact ⟨_, List.mem_singleton.1 hx⟩
  | forward | preAccept | commit | readRequest | readResponse => exact h

theorem acks_flushAcks (m : MultiSink n) : (m.flushAcks c me).Acks := ⟨by simp [flushAcks], by simp [flushAcks]⟩

theorem queueAck_links (m : MultiSink n) (msg : DepMsg n) (requester dest : Fin n) :
    (m.queueAck msg requester).links dest = m.links dest := by
  cases msg <;> rfl

theorem Acks.apply {m : MultiSink n} (h : m.Acks) (full : Bool) (e : Event n) :
    (m.apply c me full e).Acks := by
  cases e with
  | broadcast packet priority => exact ⟨h.fast, h.slow⟩
  | send packet d =>
    simp only [MultiSink.apply, MultiSink.send]
    split
    · exact h
    · exact ⟨h.fast, h.slow⟩
  | queueAck msg requester =>
    simp only [MultiSink.apply]
    split
    · exact acks_flushAcks _
    · exact h.queueAck msg requester
  | submitted | received | created | proposed | dispatchedAccept | blocked | committed | executed
  | ordered | readSubmitted | served | handed | panicked => exact h

theorem Acks.foldl {m : MultiSink n} (h : m.Acks) (full : Bool) (events : List (Event n)) :
    (events.foldl (MultiSink.apply c me full) m).Acks := by
  induction events generalizing m with
  | nil => exact h
  | cons e events ih => exact ih (h.apply full e)

theorem apply_prompt (m : MultiSink n) (full : Bool) {e : Event n} (he : e.isQueueAck = false) :
    (∀ dest, (m.apply c me full e).links dest =
      m.links dest ++ (e.sendsTo c me dest).toList) ∧
      (m.apply c me full e).pendingFast = m.pendingFast ∧
      (m.apply c me full e).pendingSlow = m.pendingSlow ∧
      (m.apply c me full e).ackRecipients = m.ackRecipients := by
  cases e with
  | broadcast packet priority =>
    refine ⟨fun dest => ?_, rfl, rfl, rfl⟩
    simp only [MultiSink.apply, broadcast, push, Event.sendsTo, Bool.and_eq_true, Bool.or_eq_true,
      decide_eq_true_eq, Bool.not_eq_true', or_assoc]
    split <;> simp
  | send packet d =>
    simp only [MultiSink.apply, MultiSink.send, Event.sendsTo, Bool.and_eq_true, Bool.not_eq_true']
    by_cases hr : packet.msg.replicasOnly = true ∧ c.isReplica d = false
    · simp [hr]
    · rw [if_neg hr]
      have hr' : packet.msg.replicasOnly = false ∨ c.isReplica d = true := by
        cases h : packet.msg.replicasOnly <;> simp_all
      refine ⟨fun dest => ?_, rfl, rfl, rfl⟩
      by_cases hd : d = dest
      · subst hd
        simp [hr', push]
      · simp [hd, Ne.symm hd, push]
  | queueAck msg requester => cases he
  | submitted | received | created | proposed | dispatchedAccept | blocked | committed | executed
  | ordered | readSubmitted | served | handed | panicked =>
    exact ⟨fun _ => (List.append_nil _).symm, rfl, rfl, rfl⟩

section

variable {β : Type} {f : Packet n → Option β} (hf : ∀ msg, msg.isAck = true → f ⟨msg, none⟩ = none)

include hf

theorem filterMap_flushAcks {m : MultiSink n} (h : m.Acks) (dest : Fin n) :
    ((m.flushAcks c me).links dest).filterMap f = (m.links dest).filterMap f := by
  have hb : m.bundle.filterMap f = [] := by
    refine List.filterMap_eq_nil_iff.2 fun packet hp => ?_
    obtain ⟨hack, hv⟩ := h.bundle hp
    obtain ⟨msg, value⟩ := packet
    simp only at hv hack
    subst hv
    exact hf msg hack
  simp only [flushAcks]
  split
  · rw [List.filterMap_append, hb, List.append_nil]
  · rfl

theorem filterMap_apply {m : MultiSink n} (h : m.Acks) (full : Bool) (e : Event n) (dest : Fin n) :
    ((m.apply c me full e).links dest).filterMap f =
      (m.links dest).filterMap f ++ (e.sendsTo c me dest).toList.filterMap f := by
  cases hq : e.isQueueAck with
  | false => rw [(apply_prompt m full hq).1 dest, List.filterMap_append]
  | true =>
    cases e <;> try cases hq
    rename_i msg requester
    simp only [MultiSink.apply, Event.sendsTo, Option.toList_none, List.filterMap_nil,
      List.append_nil]
    split
    · rw [filterMap_flushAcks hf (h.queueAck msg requester), queueAck_links]
    · rw [queueAck_links]

theorem filterMap_foldl (full : Bool) (events : List (Event n)) {m : MultiSink n} (h : m.Acks)
    (dest : Fin n) :
    ((events.foldl (MultiSink.apply c me full) m).links dest).filterMap f =
      (m.links dest).filterMap f ++
        (events.filterMap (Event.sendsTo c me dest)).filterMap f := by
  induction events generalizing m with
  | nil => simp
  | cons e events ih =>
    rw [List.foldl_cons, ih (h.apply full e), filterMap_apply hf h, List.append_assoc,
      List.filterMap_cons]
    cases Event.sendsTo c me dest e with
    | none => rfl
    | some packet =>
      rw [List.filterMap_cons]
      cases hfp : f packet <;> simp [hfp]

end

structure All (P : Fin n → Packet n → Prop) (m : MultiSink n) : Prop where
  links : ∀ dest, ∀ packet ∈ m.links dest, P dest packet
  bundle : ∀ dest, ∀ packet ∈ m.bundle, P dest packet

section

variable {P : Fin n → Packet n → Prop} {m : MultiSink n}

theorem All.push (h : m.All P) {packet : Packet n} {goesTo : Fin n → Bool}
    (hp : ∀ dest, goesTo dest = true → P dest packet) : (m.push packet goesTo).All P := by
  refine ⟨fun dest q hq => ?_, h.bundle⟩
  simp only [MultiSink.push] at hq
  split at hq
  · rename_i hgoes
    rcases List.mem_append.1 hq with hq | hq
    · exact h.links dest q hq
    · rw [List.mem_singleton.1 hq]
      exact hp dest hgoes
  · exact h.links dest q hq

theorem All.flushAcks (h : m.All P) : (m.flushAcks c me).All P := by
  refine ⟨fun dest q hq => ?_, by simp [MultiSink.flushAcks, MultiSink.bundle]⟩
  simp only [MultiSink.flushAcks] at hq
  split at hq
  · rcases List.mem_append.1 hq with hq | hq
    · exact h.links dest q hq
    · exact h.bundle dest q hq
  · exact h.links dest q hq

theorem All.queueAck (h : m.All P) {msg : DepMsg n} (hp : ∀ dest, P dest ⟨msg, none⟩)
    (requester : Fin n) : (m.queueAck msg requester).All P := by
  refine ⟨fun dest q hq => h.links dest q (queueAck_links m msg requester dest ▸ hq),
    fun dest q hq => ?_⟩
  have hq' : q ∈ m.bundle ∨ q = ⟨msg, none⟩ := by
    cases msg <;> simp only [MultiSink.queueAck, MultiSink.bundle, List.map_append, List.mem_append,
      List.map_cons, List.map_nil, List.mem_singleton] at hq ⊢ <;> tauto
  rcases hq' with hq | rfl
  · exact h.bundle dest q hq
  · exact hp dest

theorem All.apply (h : m.All P) (full : Bool) {e : Event n}
    (he : ∀ dest packet, e.packetTo dest = some packet → P dest packet) :
    (m.apply c me full e).All P := by
  cases e with
  | broadcast packet priority => exact h.push fun dest _ => he dest packet rfl
  | send packet d =>
    simp only [MultiSink.apply, MultiSink.send]
    split
    · exact h
    · refine h.push fun dest hd => he dest packet ?_
      rw [Event.packetTo, if_pos (of_decide_eq_true hd).symm]
  | queueAck msg requester =>
    have hq := h.queueAck (fun dest => he dest _ rfl) requester
    simp only [MultiSink.apply]
    split
    · exact hq.flushAcks
    · exact hq
  | submitted | received | created | proposed | dispatchedAccept | blocked | committed | executed
  | ordered | readSubmitted | served | handed | panicked => exact h

theorem All.foldl (h : m.All P) (full : Bool) (events : List (Event n))
    (he : ∀ e ∈ events, ∀ dest packet, e.packetTo dest = some packet → P dest packet) :
    (events.foldl (MultiSink.apply c me full) m).All P := by
  induction events generalizing m with
  | nil => exact h
  | cons e events ih =>
    exact ih (h.apply full (he e List.mem_cons_self))
      fun e' he' => he e' (List.mem_cons_of_mem _ he')

theorem All.imp {Q : Fin n → Packet n → Prop} (h : m.All P)
    (hpq : ∀ dest packet, P dest packet → Q dest packet) : m.All Q :=
  ⟨fun dest packet hp => hpq dest packet (h.links dest packet hp),
    fun dest packet hp => hpq dest packet (h.bundle dest packet hp)⟩

theorem All.pop (h : m.All P) (dest : Fin n) : (m.pop dest).All P := by
  refine ⟨fun d q hq => ?_, h.bundle⟩
  simp only [MultiSink.pop] at hq
  split at hq
  · exact h.links d q (List.mem_of_mem_tail hq)
  · exact h.links d q hq

end

end MultiSink

end KCensus.Deps

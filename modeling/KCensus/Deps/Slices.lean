import KCensus.Deps.DepConsensus
import KCensus.Deps.Links

namespace KCensus.Deps

variable {n : Nat}

-- What of a message is about the shard `k`.
def Message.about (k : Nat) : Message n → List (Packet n)
  | consensusM shard packet => if shard = k then [packet] else []
  | depAcks acks => acks.filterMap fun (shard, msg) => if shard = k then some ⟨msg, none⟩ else none

def Task.about (k : Nat) (src : Fin n) : Task n → Option (Packet n)
  | applyDepMsg shard src' packet => if shard = k ∧ src' = src then some packet else none
  | _ => none

def ofShard {α : Type} (k : Nat) (entries : List (Nat × α)) : List α :=
  entries.filterMap fun (shard, a) => if shard = k then some a else none

section

variable {α : Type} {k k' : Nat}

theorem ofShard_append (l l' : List (Nat × α)) : ofShard k (l ++ l') = ofShard k l ++ ofShard k l' :=
  List.filterMap_append

theorem ofShard_map_self (l : List α) : ofShard k (l.map (Prod.mk k)) = l := by
  induction l with
  | nil => rfl
  | cons a l ih =>
    simp only [ofShard, List.map_cons, List.filterMap_cons, if_true] at ih ⊢
    rw [ih]

theorem ofShard_map_other (hk : k' ≠ k) (l : List α) : ofShard k (l.map (Prod.mk k')) = [] := by
  induction l with
  | nil => rfl
  | cons a l ih =>
    simp only [ofShard, List.map_cons, List.filterMap_cons, if_neg hk] at ih ⊢
    exact ih

end

theorem about_depAcks (k : Nat) (acks : List (Nat × DepMsg n)) :
    (Message.depAcks acks).about k = (ofShard k acks).map fun msg => ⟨msg, none⟩ := by
  rw [Message.about, ofShard, List.map_filterMap]
  congr 1
  funext ⟨shard, msg⟩
  dsimp only
  split <;> rfl

theorem tasks_about (k : Nat) (src src' : Fin n) (message : Message n) :
    (message.tasks src).filterMap (Task.about k src') =
      if src = src' then message.about k else [] := by
  cases message with
  | consensusM shard packet =>
    by_cases hs : src = src'
    · by_cases hk : shard = k <;> simp [Message.tasks, Task.about, Message.about, hs, hk]
    · simp [Message.tasks, Task.about, hs]
  | depAcks acks =>
    rw [Message.tasks, List.filterMap_map]
    split
    · rename_i hs
      rw [Message.about]
      congr 1
      funext entry
      simp [Task.about, hs]
    · rename_i hs
      refine List.filterMap_eq_nil_iff.2 fun entry _ => ?_
      simp [Task.about, hs]

namespace MultiSink

-- The sinks with `pre` still to be delivered before all else.
def behind (pre : Fin n → List (Packet n)) (m : MultiSink n) : MultiSink n :=
  { m with links := fun dest => pre dest ++ m.links dest }

variable {c : Cluster n} {me : Fin n} {pre : Fin n → List (Packet n)}

theorem push_behind (packet : Packet n) (goesTo : Fin n → Bool) (m : MultiSink n) :
    (m.behind pre).push packet goesTo = (m.push packet goesTo).behind pre := by
  simp only [push, behind, MultiSink.mk.injEq, and_true]
  funext dest
  split
  · exact List.append_assoc _ _ _
  · rfl

theorem flushAcks_behind (m : MultiSink n) :
    (m.behind pre).flushAcks c me = (m.flushAcks c me).behind pre := by
  simp only [flushAcks, behind, bundle, MultiSink.mk.injEq, and_true]
  funext dest
  split
  · rename_i hd
    exact (if_pos hd).trans (List.append_assoc _ _ _)
  · rename_i hd
    exact if_neg hd

theorem queueAck_behind (msg : DepMsg n) (requester : Fin n) (m : MultiSink n) :
    (m.behind pre).queueAck msg requester = (m.queueAck msg requester).behind pre := by
  cases msg <;> rfl

theorem apply_behind (full : Bool) (e : Event n) (m : MultiSink n) :
    (m.behind pre).apply c me full e = (m.apply c me full e).behind pre := by
  cases e with
  | broadcast packet priority => exact push_behind _ _ _
  | send packet dest =>
    simp only [apply, send]
    split
    · rfl
    · exact push_behind _ _ _
  | queueAck msg requester =>
    simp only [apply, queueAck_behind]
    split
    · exact flushAcks_behind _
    · rfl
  | _ => rfl

theorem foldl_apply_behind (full : Bool) (events : List (Event n)) (m : MultiSink n) :
    events.foldl (apply c me full) (m.behind pre) =
      (events.foldl (apply c me full) m).behind pre := by
  induction events generalizing m with
  | nil => rfl
  | cons e events ih => rw [List.foldl_cons, List.foldl_cons, apply_behind, ih]

end MultiSink

namespace ProcessSink

variable {c : Cluster n} {me : Fin n} {k k' : Nat}

-- What of the shared sinks belongs to the shard `k`.
def slice (k : Nat) (m : ProcessSink n) : MultiSink n where
  links := fun dest => (m.links dest).flatMap (Message.about k)
  pendingFast := ofShard k m.pendingFast
  pendingSlow := ofShard k m.pendingSlow
  ackRecipients := m.ackRecipients

theorem slice_push_self (packet : Packet n) (goesTo : Fin n → Bool) (m : ProcessSink n) :
    (m.push (.consensusM k packet) goesTo).slice k = (m.slice k).push packet goesTo := by
  simp only [push, slice, MultiSink.push, MultiSink.mk.injEq, and_true]
  funext dest
  split
  · rw [List.flatMap_append]
    simp [Message.about]
  · rfl

theorem slice_push_other (hk : k' ≠ k) (packet : Packet n) (goesTo : Fin n → Bool)
    (m : ProcessSink n) : (m.push (.consensusM k' packet) goesTo).slice k = m.slice k := by
  simp only [push, slice, MultiSink.mk.injEq, and_true]
  funext dest
  split
  · rw [List.flatMap_append]
    simp [Message.about, hk]
  · rfl

theorem slice_flushAcks (c : Cluster n) (me : Fin n) (k : Nat) (m : ProcessSink n) :
    (m.flushAcks c me).slice k = m.slice k ∨
      (m.flushAcks c me).slice k = (m.slice k).flushAcks c me := by
  unfold flushAcks
  split
  · exact Or.inl rfl
  · right
    simp only [sendAcks, push, slice, MultiSink.flushAcks, MultiSink.bundle, MultiSink.mk.injEq]
    refine ⟨?_, rfl, rfl, trivial⟩
    funext dest
    have hto : (decide (dest ≠ me) && (c.isReplica dest || decide (dest ∈ m.ackRecipients))) = true ↔
        dest ≠ me ∧ (c.isReplica dest = true ∨ dest ∈ m.ackRecipients) := by
      simp
    split
    · rename_i hd
      rw [List.flatMap_append, List.flatMap_singleton, about_depAcks, ofShard_append]
      exact (if_pos (hto.1 hd)).symm
    · rename_i hd
      exact (if_neg (mt hto.2 hd)).symm

-- The ack of a shard before the bundle may leave.
def hold (shard : Nat) (msg : DepMsg n) (requester : Fin n) (m : ProcessSink n) : ProcessSink n :=
  match msg with
  | .acceptOk _ =>
      { m with
        pendingSlow := m.pendingSlow ++ [(shard, msg)]
        ackRecipients := insert requester m.ackRecipients }
  | _ =>
      { m with
        pendingFast := m.pendingFast ++ [(shard, msg)]
        ackRecipients := insert requester m.ackRecipients }

theorem queueAck_cases (c : Cluster n) (me : Fin n) (shard : Nat) {msg : DepMsg n}
    (hm : msg.isAck = true) (requester : Fin n) (m : ProcessSink n) :
    m.queueAck c me shard msg requester = m.hold shard msg requester ∨
      m.queueAck c me shard msg requester = (m.hold shard msg requester).flushAcks c me := by
  have hif : ∀ (p : Prop) [Decidable p] (a b : ProcessSink n),
      (if p then a else b) = b ∨ (if p then a else b) = a := by
    intro p _ a b
    split
    · exact Or.inr rfl
    · exact Or.inl rfl
  cases msg <;> cases hm <;> exact hif _ _ _

theorem slice_hold_self {msg : DepMsg n} (hm : msg.isAck = true) (requester : Fin n)
    (m : ProcessSink n) : (m.hold k msg requester).slice k = (m.slice k).queueAck msg requester := by
  have hadd : ∀ l : List (Nat × DepMsg n), ofShard k (l ++ [(k, msg)]) = ofShard k l ++ [msg] := by
    intro l
    rw [ofShard_append]
    exact congrArg _ (ofShard_map_self [msg])
  cases msg <;> cases hm <;>
    simp only [hold, slice, MultiSink.queueAck, hadd]

theorem slice_hold_other (hk : k' ≠ k) (msg : DepMsg n) (requester : Fin n) (m : ProcessSink n) :
    (m.hold k' msg requester).slice k = (m.slice k).owe {requester} := by
  have hadd : ∀ l : List (Nat × DepMsg n), ofShard k (l ++ [(k', msg)]) = ofShard k l := by
    intro l
    rw [ofShard_append]
    exact (congrArg _ (ofShard_map_other hk [msg])).trans (List.append_nil _)
  have hunion : insert requester m.ackRecipients = m.ackRecipients ∪ {requester} := by
    rw [Finset.insert_eq, Finset.union_comm]
  cases msg <;> simp only [hold, slice, MultiSink.owe, hadd, hunion]

-- The events of a turn, of which at most one is an ack, on the shard's own part of the sinks.
theorem slice_foldl_self (events : List (Event n)) (hv : ∀ e ∈ events, e.isQueueAck = false)
    (full : Bool) (m : ProcessSink n) :
    (events.foldl (apply c me k) m).slice k = events.foldl (MultiSink.apply c me full) (m.slice k) := by
  induction events generalizing m with
  | nil => rfl
  | cons e events ih =>
    rw [List.foldl_cons, List.foldl_cons, ih fun e' he => hv e' (List.mem_cons_of_mem _ he)]
    congr 1
    have he := hv e List.mem_cons_self
    cases e with
    | broadcast packet priority => exact slice_push_self _ _ _
    | send packet dest =>
      simp only [apply, send, MultiSink.apply, MultiSink.send]
      split
      · rfl
      · exact slice_push_self _ _ _
    | queueAck => cases he
    | _ => rfl

theorem slice_foldl_one (before after : List (Event n)) {msg : DepMsg n} (hm : msg.isAck = true)
    (requester : Fin n) (hb : ∀ e ∈ before, e.isQueueAck = false)
    (ha : ∀ e ∈ after, e.isQueueAck = false) (m : ProcessSink n) : ∃ full,
    ((before ++ .queueAck msg requester :: after).foldl (apply c me k) m).slice k =
      (before ++ .queueAck msg requester :: after).foldl (MultiSink.apply c me full) (m.slice k) := by
  have hsplit : ∀ full,
      (before ++ .queueAck msg requester :: after).foldl (MultiSink.apply c me full) (m.slice k) =
        after.foldl (MultiSink.apply c me full) (MultiSink.apply c me full
          ((before.foldl (apply c me k) m).slice k) (.queueAck msg requester)) := by
    intro full
    rw [List.foldl_append, List.foldl_cons, slice_foldl_self before hb full]
  have hone : ∀ m' : ProcessSink n, ∃ full,
      (apply c me k m' (.queueAck msg requester)).slice k =
        MultiSink.apply c me full (m'.slice k) (.queueAck msg requester) := by
    intro m'
    rcases queueAck_cases c me k hm requester m' with h | h
    · exact ⟨false, by rw [apply, h, slice_hold_self hm]; rfl⟩
    · rcases slice_flushAcks c me k (m'.hold k msg requester) with hf | hf
      · exact ⟨false, by rw [apply, h, hf, slice_hold_self hm]; rfl⟩
      · exact ⟨true, by rw [apply, h, hf, slice_hold_self hm]; rfl⟩
  obtain ⟨full, hfull⟩ := hone (before.foldl (apply c me k) m)
  refine ⟨full, ?_⟩
  rw [hsplit full, List.foldl_append, List.foldl_cons, slice_foldl_self after ha full, hfull]

end ProcessSink

end KCensus.Deps

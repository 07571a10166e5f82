import KCensus.Slots.Shard

namespace KCensus.Slots

variable {n : Nat} {K K' : Nat → Prop}

section owner

variable {p : Fin n} {u : Nat}

-- What the uid counter of `p` goes through.
def CounterOf (p : Fin n) (u : Nat) : Prop := u % (2 * n) = 2 * p

theorem CounterOf.first : CounterOf p (2 * p) := by
  have := p.isLt
  rw [CounterOf, Nat.mod_eq_of_lt (by omega)]

theorem CounterOf.next (h : CounterOf p u) : CounterOf p (u + 2 * n) := by
  rw [CounterOf, Nat.add_mod_right]
  exact h

theorem CounterOf.even (h : CounterOf p u) : u % 2 = 0 := by
  have hmod : u % (2 * n) % 2 = u % 2 := Nat.mod_mul_right_mod u 2 n
  rw [CounterOf] at h
  omega

variable [NeZero n]

def uidOwner (v : Nat) : Fin n := Fin.ofNat n (v / 2)

theorem CounterOf.owner_of (h : CounterOf p u) {v : Nat} (hv : v / 2 = u / 2) :
    (uidOwner v : Fin n) = p := by
  apply Fin.ext
  have hdiv : u % (2 * n) / 2 = u / 2 % n := Nat.mod_mul_right_div_self u 2 n
  rw [CounterOf] at h
  rw [uidOwner, Fin.val_ofNat, hv, ← hdiv, h]
  omega

end owner

def CommandBatch.parts : CommandBatch n → List Nat
  | .single _ => []
  | .batch _ vs => vs

@[simp] theorem CommandBatch.parts_received (value : CommandBatch n) :
    value.received.parts = value.parts := by
  cases value with
  | single command => rfl
  | batch slot vs => rfl

@[simp] theorem CommandBatch.isSingle_received (value : CommandBatch n) :
    value.received.isSingle = value.isSingle := by
  cases value with
  | single command => rfl
  | batch slot vs => rfl

-- A read is never proposed; it comes as a batch of its own only where it is served.
def CommandBatch.isRead : CommandBatch n → Bool
  | .single command => command.readOnly
  | .batch _ _ => false

@[simp] theorem CommandBatch.isRead_received (value : CommandBatch n) :
    value.received.isRead = value.isRead := by
  cases value with
  | single command => rfl
  | batch slot vs => rfl

-- What may be stored under a uid: single commands have even uids, and batches are of these.
structure Proposable (K : Nat → Prop) (value : CommandBatch n) : Prop where
  nodup : value.parts.Nodup
  even : ∀ w ∈ value.parts, w % 2 = 0
  known : ∀ w ∈ value.parts, K w
  write : value.isRead = false

structure Stored (K : Nat → Prop) (v : Nat) (value : CommandBatch n) : Prop
    extends Proposable K value where
  uid : K v
  single : value.isSingle = true ↔ v % 2 = 0

theorem Proposable.single {command : Command n} (h : command.readOnly = false) :
    Proposable K (.single command) :=
  ⟨List.nodup_nil, fun _ h => absurd h List.not_mem_nil, fun _ h => absurd h List.not_mem_nil, h⟩

theorem Proposable.mono {value : CommandBatch n} (h : Proposable K value) (hK : ∀ v, K v → K' v) :
    Proposable K' value :=
  ⟨h.nodup, h.even, fun w hw => hK w (h.known w hw), h.write⟩

theorem Stored.mono {v : Nat} {value : CommandBatch n} (h : Stored K v value)
    (hK : ∀ v, K v → K' v) : Stored K' v value :=
  ⟨h.toProposable.mono hK, hK v h.uid, h.single⟩

theorem Stored.received {v : Nat} {value : CommandBatch n} (h : Stored K v value) :
    Stored K v value.received :=
  ⟨⟨by simpa using h.nodup, by simpa using h.even, by simpa using h.known,
    by simpa using h.write⟩, h.uid, by simpa using h.single⟩

-- Every uid that a message mentions is in `K`.
def ConsensusMsg.Tells (K : Nat → Prop) : ConsensusMsg n → Prop
  | .kcensusM (.spread _ v _ remoteStates _ _) =>
      K v ∧ ∀ states, remoteStates = some states → ∀ pid w, (states pid).v = some w → K w
  | .kcensusM (.spreadValueOnly v _) => K v
  | .kcensusM (.paxosAccept _ _ v _) => K v
  | .paxosM msg => K msg.getV
  | .commit _ v => K v
  | .readRequest _ => True
  | .readResponse _ _ => True

theorem ConsensusMsg.Tells.mono {msg : ConsensusMsg n} (h : msg.Tells K) (hK : ∀ v, K v → K' v) :
    msg.Tells K' := by
  cases msg with
  | kcensusM msg =>
    cases msg with
    | spread slot v msgId remoteStates withValue newValue =>
      exact ⟨hK v h.1, fun states hs pid w hw => hK w (h.2 states hs pid w hw)⟩
    | spreadValueOnly v msgId => exact hK v h
    | paxosAccept slot leader v newValue => exact hK v h
  | paxosM msg => exact hK _ h
  | commit slot v => exact hK v h
  | readRequest id => trivial
  | readResponse id slot => trivial

theorem ConsensusMsg.Tells.getV {m : ConsensusMessage n} (h : m.msg.Tells K) {v : Nat}
    (hv : m.getV = some v) : K v := by
  obtain ⟨msg, src, lastV⟩ := m
  cases msg with
  | kcensusM msg =>
    cases msg with
    | spread slot w msgId remoteStates withValue newValue =>
      cases hv
      exact h.1
    | spreadValueOnly w msgId =>
      cases hv
      exact h
    | paxosAccept slot leader w newValue =>
      cases hv
      exact h
  | paxosM msg =>
    cases hv
    exact h
  | commit slot w =>
    cases hv
    exact h
  | readRequest id => cases hv
  | readResponse id slot => cases hv

structure Packet.Tells (K : Nat → Prop) (packet : Packet n) : Prop where
  msg : packet.msg.msg.Tells K
  value : ∀ value, packet.value = some value → ∃ v, packet.msg.getV = some v ∧ Stored K v value

theorem Packet.Tells.mono {packet : Packet n} (h : packet.Tells K) (hK : ∀ v, K v → K' v) :
    packet.Tells K' := by
  refine ⟨h.msg.mono hK, fun value hvalue => ?_⟩
  obtain ⟨v, hv, hs⟩ := h.value value hvalue
  exact ⟨v, hv, hs.mono hK⟩

theorem Packet.Tells.received {packet : Packet n} (h : packet.Tells K) :
    packet.received.Tells K := by
  refine ⟨h.msg, fun value hvalue => ?_⟩
  simp only [Packet.received, Option.map_eq_some_iff] at hvalue
  obtain ⟨sent, hsent, rfl⟩ := hvalue
  obtain ⟨v, hv, hs⟩ := h.value sent hsent
  exact ⟨v, hv, hs.received⟩

def Event.Tells (K : Nat → Prop) : Event n → Prop
  | .broadcast packet _ => packet.Tells K
  | .send packet _ => packet.Tells K
  | _ => True

theorem Event.Tells.mono {e : Event n} (h : e.Tells K) (hK : ∀ v, K v → K' v) : e.Tells K' := by
  cases e with
  | broadcast packet priority => exact Packet.Tells.mono h hK
  | send packet dest => exact Packet.Tells.mono h hK
  | _ => trivial

end KCensus.Slots

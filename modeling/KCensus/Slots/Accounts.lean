import KCensus.Lib.Journal
import KCensus.Slots.Deliveries

namespace KCensus.Slots

open Lib (journal)
open Lib.Turn (Meets)
open Turn Conduct ConsensusShard

variable {n : Nat} {R : Type}

namespace Event

def creation : Event n → Option (Nat × CommandBatch n)
  | created v value => some (v, value)
  | _ => none

def issue : Event n → Option (Nat × (Fin n × Nat × List UInt8 × Bool))
  | created v (.single command) => some (v, command.request)
  | _ => none

def submission : Event n → Option (Fin n × Nat × List UInt8 × Bool)
  | submitted command => if command.readOnly then none else some command.request
  | _ => none

def dispatch : Event n → Option Nat
  | broadcast packet _ => packet.value.bind fun _ => packet.msg.getV
  | _ => none

def gain : Event n → Option Nat
  | created v _ => some v
  | received _ packet => packet.value.bind fun _ => packet.msg.getV
  | _ => none

def delivery : Event n → Option (Nat × Nat × (Fin n × Nat × List UInt8 × Bool))
  | handed (some (slot, v)) command => some (slot, v, command.request)
  | _ => none

def createdUid (e : Event n) : Option Nat := e.creation.map Prod.fst

def handedUid (e : Event n) : Option Nat := e.delivery.map fun d => d.2.1

-- Of no account.
structure Mute (e : Event n) : Prop where
  creation : e.creation = none
  submission : e.submission = none
  dispatch : e.dispatch = none
  gain : e.gain = none
  delivery : e.delivery = none
  send : ∀ packet dest, e = .send packet dest → packet.value = none
  broadcast : ∀ packet priority, e = .broadcast packet priority → packet.value = none

variable {me : Fin n} {e : Event n}

theorem Quiet.mute (h : e.Quiet me) : e.Mute := by
  have hother : ∀ {e : Event n}, e.creation = none → e.submission = none → e.dispatch = none →
      e.gain = none → e.delivery = none → e.carried = none → e.Mute := fun hc hs hd hg hl hsilent =>
    ⟨hc, hs, hd, hg, hl, fun _ _ he => (by cases he; cases hsilent),
      fun _ _ he => (by cases he; cases hsilent)⟩
  cases e with
  | broadcast packet priority =>
    refine ⟨rfl, rfl, ?_, rfl, rfl, fun _ _ he => (by cases he), fun _ _ he => ?_⟩
    · rw [Event.dispatch, h.2]
      rfl
    · cases he
      exact h.2
  | send packet dest =>
    refine ⟨rfl, rfl, rfl, rfl, rfl, fun _ _ he => ?_, fun _ _ he => (by cases he)⟩
    cases he
    exact h.2
  | received src packet => exact h.elim
  | submitted command => exact h.elim
  | created v value => exact h.elim
  | committed slot v => exact h.elim
  | handed write command =>
    cases write with
    | none => exact hother rfl rfl rfl rfl rfl rfl
    | some write => cases h
  | _ => exact hother rfl rfl rfl rfl rfl rfl

theorem issue_of_creation (h : e.creation = none) : e.issue = none := by
  cases e with
  | created v value => cases h
  | _ => rfl

end Event

-- The uids that `p` gave out, sent the payload of, got the payload of, or handed over.
def createdBy (p : Fin n) (hist : List (Fin n × Event n)) : List Nat :=
  journal Event.createdUid p hist

def handedAt (p : Fin n) (hist : List (Fin n × Event n)) : List Nat :=
  journal Event.handedUid p hist

theorem handedAt_eq {hist : List (Fin n × Event n)} {p : Fin n} :
    handedAt p hist = (journal Event.delivery p hist).map fun d => d.2.1 := Lib.journal_map _

-- The payload is what the one that gave the uid created, up to its bookkeeping.
def Genuine (hist : List (Fin n × Event n)) (v : Nat) (value : CommandBatch n) : Prop :=
  ∃ q created, (q, .created v created) ∈ hist ∧ value.received = created.received

structure Accounts [NeZero n] (hist : List (Fin n × Event n)) : Prop where
  owner : ∀ p v value, (p, .created v value) ∈ hist → uidOwner v = p ∧ value.isRead = false
  lone : ∀ p, (createdBy p hist).Nodup
  paid : ∀ p v, (journal Event.dispatch p hist).count v ≤ (createdBy p hist).count v
  sent : ∀ p packet priority, (p, .broadcast packet priority) ∈ hist → ∀ value,
    packet.value = some value → ∃ v, packet.msg.getV = some v ∧ (p, .created v value) ∈ hist
  unsent : ∀ p packet dest, (p, .send packet dest) ∈ hist → packet.value = none
  stock : ∀ p v, (handedAt p hist).count v ≤ (journal Event.gain p hist).count v
  handed : ∀ p slot v command, (p, .handed (some (slot, v)) command) ∈ hist →
    Genuine hist v (.single command)
  issued : ∀ p, (journal Event.issue p hist).map Prod.snd <+: journal Event.submission p hist

theorem Genuine.mono {hist hist' : List (Fin n × Event n)} {v : Nat} {value : CommandBatch n}
    (h : Genuine hist v value) (hsub : hist ⊆ hist') : Genuine hist' v value := by
  obtain ⟨q, created, hcreated, hsame⟩ := h
  exact ⟨q, created, hsub hcreated, hsame⟩

theorem Genuine.stamped {me : Fin n} {hist : List (Fin n × Event n)} {v slot : Nat} {fast : Bool}
    {command : Command n} (h : Genuine hist v (.single command)) :
    Genuine hist v (.single (stamp me fast slot command)) := by
  obtain ⟨q, created, hcreated, hsame⟩ := h
  refine ⟨q, created, hcreated, ?_⟩
  rw [← hsame, stamp]
  split
  · rfl
  · rfl

namespace Accounts

variable [NeZero n] {hist : List (Fin n × Event n)} {p : Fin n} {e : Event n}

theorem nil : Accounts ([] : List (Fin n × Event n)) where
  owner _ _ _ he := absurd he List.not_mem_nil
  lone _ := List.nodup_nil
  paid _ _ := le_rfl
  sent _ _ _ he := absurd he List.not_mem_nil
  unsent _ _ _ he := absurd he List.not_mem_nil
  stock _ _ := le_rfl
  handed _ _ _ _ he := absurd he List.not_mem_nil
  issued _ := List.prefix_rfl

-- What the next event of `p` has to be for the accounts to stand.
structure Admits (hist : List (Fin n × Event n)) (p : Fin n) (e : Event n) : Prop where
  created : ∀ v value, e = .created v value →
    uidOwner v = p ∧ value.isRead = false ∧ v ∉ createdBy p hist
  dispatch : ∀ v, e.dispatch = some v →
    (journal Event.dispatch p hist).count v < (createdBy p hist).count v
  sent : ∀ packet priority, e = .broadcast packet priority → ∀ value, packet.value = some value →
    ∃ v, packet.msg.getV = some v ∧ (p, .created v value) ∈ hist
  unsent : ∀ packet dest, e = .send packet dest → packet.value = none
  stock : ∀ slot v request, e.delivery = some (slot, v, request) →
    (handedAt p hist).count v < (journal Event.gain p hist).count v
  handed : ∀ slot v command, e = .handed (some (slot, v)) command → Genuine hist v (.single command)
  issued : (journal Event.issue p (hist ++ [(p, e)])).map Prod.snd <+:
    journal Event.submission p (hist ++ [(p, e)])

theorem snoc (h : Accounts hist) (he : Admits hist p e) : Accounts (hist ++ [(p, e)]) := by
  have hsub : hist ⊆ hist ++ [(p, e)] := List.subset_append_left _ _
  have hcases : ∀ q e', (q, e') ∈ hist ++ [(p, e)] → (q, e') ∈ hist ∨ q = p ∧ e' = e := by
    intro q e' hmem
    rcases List.mem_append.1 hmem with hold | hnew
    · exact Or.inl hold
    · cases List.mem_singleton.1 hnew
      exact Or.inr ⟨rfl, rfl⟩
  refine ⟨fun q v value hq => ?_, fun q => ?_, fun q v => ?_, fun q packet priority hq value hvalue => ?_,
    fun q packet dest hq => ?_, fun q v => ?_, fun q slot v command hq => ?_, fun q => ?_⟩
  · rcases hcases q _ hq with hold | ⟨rfl, hnew⟩
    · exact h.owner q v value hold
    · exact ⟨(he.created v value hnew.symm).1, (he.created v value hnew.symm).2.1⟩
  · rcases eq_or_ne p q with rfl | hne
    · rw [createdBy, Lib.journal_snoc]
      cases e with
      | created v value =>
        refine List.nodup_append.2 ⟨h.lone p, List.nodup_singleton v, fun a ha b hb => ?_⟩
        rintro rfl
        cases List.mem_singleton.1 hb
        exact (he.created v value rfl).2.2 ha
      | _ => exact (List.append_nil (createdBy p hist)).symm ▸ h.lone p
    · rw [createdBy, Lib.journal_snoc_other hne]
      exact h.lone q
  · rcases eq_or_ne p q with rfl | hne
    · have hmore : (createdBy p hist).count v ≤ (createdBy p (hist ++ [(p, e)])).count v := by
        rw [createdBy, createdBy, Lib.journal_snoc, List.count_append]
        exact Nat.le_add_right _ _
      rw [Lib.journal_snoc, List.count_append]
      cases hd : e.dispatch with
      | none => exact (h.paid p v).trans hmore
      | some u =>
        rw [Option.toList_some, List.count_singleton]
        split
        · rename_i heq
          have hlt := he.dispatch u hd
          rw [beq_iff_eq] at heq
          subst heq
          exact Nat.succ_le_of_lt (hlt.trans_le hmore)
        · exact (h.paid p v).trans hmore
    · rw [createdBy, Lib.journal_snoc_other hne, Lib.journal_snoc_other hne]
      exact h.paid q v
  · rcases hcases q _ hq with hold | ⟨rfl, hnew⟩
    · obtain ⟨v, hv, hcreated⟩ := h.sent q packet priority hold value hvalue
      exact ⟨v, hv, hsub hcreated⟩
    · obtain ⟨v, hv, hcreated⟩ := he.sent packet priority hnew.symm value hvalue
      exact ⟨v, hv, hsub hcreated⟩
  · rcases hcases q _ hq with hold | ⟨rfl, hnew⟩
    · exact h.unsent q packet dest hold
    · exact he.unsent packet dest hnew.symm
  · rcases eq_or_ne p q with rfl | hne
    · have hmore : (journal Event.gain p hist).count v ≤
          (journal Event.gain p (hist ++ [(p, e)])).count v := by
        rw [Lib.journal_snoc, List.count_append]
        exact Nat.le_add_right _ _
      rw [handedAt, Lib.journal_snoc, Event.handedUid, List.count_append]
      cases hd : e.delivery with
      | none => exact (h.stock p v).trans hmore
      | some d =>
        obtain ⟨slot, u, request⟩ := d
        rw [Option.map_some, Option.toList_some, List.count_singleton]
        split
        · rename_i heq
          have hlt := he.stock slot u request hd
          rw [beq_iff_eq] at heq
          subst heq
          exact Nat.succ_le_of_lt (hlt.trans_le hmore)
        · exact (h.stock p v).trans hmore
    · rw [handedAt, Lib.journal_snoc_other hne, Lib.journal_snoc_other hne]
      exact h.stock q v
  · rcases hcases q _ hq with hold | ⟨rfl, hnew⟩
    · exact (h.handed q slot v command hold).mono hsub
    · exact (he.handed slot v command hnew.symm).mono hsub
  · rcases eq_or_ne p q with rfl | hne
    · exact he.issued
    · rw [Lib.journal_snoc_other hne, Lib.journal_snoc_other hne]
      exact h.issued q

theorem Admits.mute (h : Accounts hist) (he : e.Mute) : Admits hist p e where
  created v value heq := by
    subst heq
    cases he.creation
  dispatch v hv := by cases he.dispatch.symm.trans hv
  sent packet priority heq value hvalue := by cases (he.broadcast packet priority heq).symm.trans hvalue
  unsent := he.send
  stock slot v request hd := by cases he.delivery.symm.trans hd
  handed slot v command heq := by
    subst heq
    cases he.delivery
  issued := by
    rw [Lib.journal_snoc, Lib.journal_snoc, Event.issue_of_creation he.creation, he.submission]
    simpa using h.issued p

theorem mute {said : List (Event n)} (h : Accounts hist) (hsaid : ∀ e ∈ said, e.Mute) :
    Accounts (hist ++ said.map (Prod.mk p)) := by
  induction said generalizing hist with
  | nil => exact (List.append_nil hist).symm ▸ h
  | cons e said ih =>
    have hone := h.snoc (p := p) (.mute h (hsaid e List.mem_cons_self))
    have hrest := ih hone fun e' he' => hsaid e' (List.mem_cons_of_mem _ he')
    rwa [List.append_assoc] at hrest

end Accounts

theorem soFar_silent (past : List (Fin n × Event n)) (me : Fin n) {s t : ConsensusShard n R}
    {β : Type} {g : Event n → Option β} {e : Event n} (hsinks : t.sinks = s.sinks ++ [e])
    (hg : g e = none) : journal g me (soFar past me t) = journal g me (soFar past me s) := by
  rw [soFar_snoc hsinks, Lib.journal_snoc, hg]
  exact List.append_nil _

def held (s : ConsensusShard n R) (v : Nat) : Nat := if v ∈ s.queuedCommands then 1 else 0

def CommandBatch.requests : CommandBatch n → List (Fin n × Nat × List UInt8 × Bool)
  | .single command => [command.request]
  | .batch _ _ => []

-- What the shard of `me` has agrees with them, while it owes the writes `owed` and has requests
-- `pending` that got no uid so far.
structure Books [NeZero n] (past : List (Fin n × Event n)) (me : Fin n) (owed : List Nat)
    (pending : List (Fin n × Nat × List UInt8 × Bool)) (s : ConsensusShard n R) : Prop where
  accounts : Accounts (soFar past me s)
  counter : CounterOf me s.nextUid
  fresh : ∀ v ∈ createdBy me (soFar past me s), v / 2 < s.nextUid / 2
  stock : ∀ v, held s v + (handedAt me (soFar past me s)).count v + owed.count v ≤
    (journal Event.gain me (soFar past me s)).count v
  genuine : ∀ v value, s.queuedCommands.lookup v = some value → Genuine (soFar past me s) v value
  issued : (journal Event.issue me (soFar past me s)).map Prod.snd ++ pending =
    journal Event.submission me (soFar past me s)
  mine : s.myQueuedCommands = []
  reads : s.readTracker.ReadsOnly

theorem half_freshUid {me : Fin n} {s : ConsensusShard n R} {value : CommandBatch n}
    (hcounter : CounterOf me s.nextUid) :
    freshUid s value / 2 = s.nextUid / 2 := by
  have heven := hcounter.even
  rw [freshUid]
  split
  · rfl
  · omega

theorem newBatch_batch {order : HashOrder n} {s : ConsensusShard n R} {batch : CommandBatch n}
    (h : newBatchToPropose order s = some batch) : ∃ vs, batch = .batch s.slot vs := by
  rw [newBatchToPropose] at h
  split at h
  · cases h
  · dsimp only at h
    split at h
    · cases h
    · cases h
      exact ⟨_, rfl⟩

section held

variable {s t : ConsensusShard n R} {v : Nat}

theorem held_mono (h : v ∈ t.queuedCommands → v ∈ s.queuedCommands) : held t v ≤ held s v := by
  rw [held, held]
  split
  · rw [if_pos (h ‹_›)]
  · exact Nat.zero_le _

theorem held_drop (hkept : ∀ w ∈ t.queuedCommands, w ≠ v ∧ w ∈ s.queuedCommands)
    (hv : v ∈ s.queuedCommands) (w : Nat) : held t w + [v].count w ≤ held s w := by
  rcases eq_or_ne w v with rfl | hne
  · rw [held, if_neg fun hw => (hkept w hw).1 rfl, held, if_pos hv, List.count_singleton_self]
  · rw [List.count_eq_zero_of_not_mem fun hw => hne (List.mem_singleton.1 hw)]
    exact held_mono fun hw => (hkept w hw).2

theorem held_le_one : held s v ≤ 1 := by
  rw [held]
  split
  · exact le_rfl
  · exact Nat.zero_le 1

end held

namespace Books

variable [NeZero n] {past : List (Fin n × Event n)} {me : Fin n} {owed : List Nat}
  {pending : List (Fin n × Nat × List UInt8 × Bool)} {s t : ConsensusShard n R} {v : Nat}
  {value : CommandBatch n} {command : Command n}

theorem mute (h : Books past me owed pending s) (hcommands : t.queuedCommands = s.queuedCommands)
    (hnext : t.nextUid = s.nextUid) (hmine : t.myQueuedCommands = s.myQueuedCommands)
    (hreads : t.readTracker.ReadsOnly) (hsaid : Said Event.Mute s t) :
    Books past me owed pending t := by
  obtain ⟨said, hsinks, hmute⟩ := hsaid
  have hlog : soFar past me t = soFar past me s ++ said.map (Prod.mk me) := soFar_said hsinks
  have hcreated : createdBy me (soFar past me t) = createdBy me (soFar past me s) :=
    hlog ▸ Lib.journal_silent fun e he => congrArg (Option.map _) (hmute e he).creation
  have hhanded : handedAt me (soFar past me t) = handedAt me (soFar past me s) :=
    hlog ▸ Lib.journal_silent fun e he => congrArg (Option.map _) (hmute e he).delivery
  have hgain : journal Event.gain me (soFar past me t) = journal Event.gain me (soFar past me s) :=
    hlog ▸ Lib.journal_silent fun e he => (hmute e he).gain
  have hissue : journal Event.issue me (soFar past me t) = journal Event.issue me (soFar past me s) :=
    hlog ▸ Lib.journal_silent fun e he => Event.issue_of_creation (hmute e he).creation
  have hsubmission : journal Event.submission me (soFar past me t) =
      journal Event.submission me (soFar past me s) :=
    hlog ▸ Lib.journal_silent fun e he => (hmute e he).submission
  refine ⟨hlog ▸ h.accounts.mute hmute, hnext ▸ h.counter, ?_, fun v => ?_, fun v value hv => ?_, ?_,
    hmine.trans h.mine, hreads⟩
  · rw [hcreated, hnext]
    exact h.fresh
  · rw [held, hcommands, hhanded, hgain]
    exact h.stock v
  · exact (h.genuine v value (hcommands ▸ hv)).mono (hlog ▸ List.subset_append_left _ _)
  · rw [hissue, hsubmission]
    exact h.issued

theorem hushed (h : Books past me owed pending s) (ht : Hushed me s t) :
    Books past me owed pending t :=
  h.mute ht.commands ht.nextUid ht.mine (ht.reads h.reads) (ht.said.mono fun _ he => he.mute)

theorem submitted (h : Books past me [] [] s) :
    Books past me [] (if command.readOnly then [] else [command.request])
      { s with sinks := s.sinks ++ [.submitted command] } := by
  set t : ConsensusShard n R := { s with sinks := s.sinks ++ [.submitted command] }
  have hsinks : t.sinks = s.sinks ++ [.submitted command] := rfl
  have hlog : soFar past me t = soFar past me s ++ [(me, .submitted command)] := soFar_snoc hsinks
  have hissue := soFar_silent past me (g := Event.issue) hsinks rfl
  have hsubmission : journal Event.submission me (soFar past me t) =
      journal Event.submission me (soFar past me s) ++
        if command.readOnly then [] else [command.request] := by
    rw [hlog, Lib.journal_snoc, Event.submission]
    split
    · rfl
    · rfl
  have hissued := h.issued
  rw [List.append_nil] at hissued
  refine ⟨hlog ▸ h.accounts.snoc ⟨fun _ _ he => (by cases he), fun _ he => (by cases he),
    fun _ _ he => (by cases he), fun _ _ he => (by cases he), fun _ _ _ he => (by cases he),
    fun _ _ _ he => (by cases he), ?_⟩, h.counter, ?_, fun v => ?_, fun v value hv => ?_, ?_, h.mine,
    h.reads⟩
  · rw [← hlog, hissue, hsubmission, hissued]
    exact List.prefix_append _ _
  · rw [createdBy, soFar_silent past me (g := Event.createdUid) hsinks rfl]
    exact h.fresh
  · rw [handedAt, soFar_silent past me (g := Event.handedUid) hsinks rfl,
      soFar_silent past me (g := Event.gain) hsinks rfl]
    exact h.stock v
  · exact (h.genuine v value hv).mono (hlog ▸ List.subset_append_left _ _)
  · rw [hissue, hsubmission, hissued]

theorem created (h : Books past me [] value.requests s) (hwrite : value.isRead = false) :
    Books past me [] [] (withCreated s (freshUid s value) value) := by
  set v := freshUid s value with hv
  set t : ConsensusShard n R := withCreated s v value
  have hhalf : v / 2 = s.nextUid / 2 := half_freshUid h.counter
  have hnew : v ∉ createdBy me (soFar past me s) := fun hmem => by
    have := h.fresh v hmem
    omega
  have hsinks : t.sinks = s.sinks ++ [.created v value] := rfl
  have hlog : soFar past me t = soFar past me s ++ [(me, .created v value)] := soFar_snoc hsinks
  have hsub : soFar past me s ⊆ soFar past me t := hlog ▸ List.subset_append_left _ _
  have hgain : ∀ w, (journal Event.gain me (soFar past me t)).count w =
      (journal Event.gain me (soFar past me s)).count w + if v = w then 1 else 0 := fun w => by
    rw [hlog, Lib.journal_snoc, List.count_append]
    exact congrArg (_ + ·) (List.count_singleton.trans (by simp only [beq_iff_eq]))
  have hsubmission := soFar_silent past me (g := Event.submission) hsinks rfl
  have hissued : (journal Event.issue me (soFar past me t)).map Prod.snd =
      journal Event.submission me (soFar past me t) := by
    rw [hsubmission, ← h.issued, hlog, Lib.journal_snoc, List.map_append]
    cases value with
    | single command => rfl
    | batch slot vs => rfl
  refine ⟨hlog ▸ h.accounts.snoc ⟨fun w value' heq => ?_, fun _ he => (by cases he),
    fun _ _ he => (by cases he), fun _ _ he => (by cases he), fun _ _ _ he => (by cases he),
    fun _ _ _ he => (by cases he), ?_⟩, h.counter.next, fun w hw => ?_, fun w => ?_,
    fun w value' hw => ?_, ?_, h.mine, h.reads⟩
  · cases heq
    exact ⟨h.counter.owner_of hhalf, hwrite, hnew⟩
  · rw [← hlog, hissued]
  · have hpos : 0 < n := Nat.pos_of_neZero n
    have hnext : t.nextUid = s.nextUid + 2 * n := rfl
    rw [createdBy, hlog, Lib.journal_snoc] at hw
    rcases List.mem_append.1 hw with hold | hadded
    · have := h.fresh w hold
      omega
    · cases List.mem_singleton.1 hadded
      change v / 2 < t.nextUid / 2
      omega
  · have hheld : held t w ≤ held s w + if v = w then 1 else 0 := by
      split
      · exact held_le_one.trans (Nat.le_add_left 1 _)
      · rename_i hne
        exact held_mono fun hw => (AList.mem_insert _).1 hw |>.resolve_left (Ne.symm hne)
    have hstock := h.stock w
    rw [handedAt, soFar_silent past me (g := Event.handedUid) hsinks rfl, hgain]
    rw [handedAt] at hstock
    omega
  · change (s.queuedCommands.insert v value).lookup w = some value' at hw
    rcases eq_or_ne w v with rfl | hne
    · rw [AList.lookup_insert] at hw
      cases hw
      exact ⟨me, value, hlog ▸ List.mem_append_right _ List.mem_cons_self, rfl⟩
    · rw [AList.lookup_insert_ne hne] at hw
      exact (h.genuine w value' hw).mono hsub
  · rw [List.append_nil, hissued]

theorem announced (h : Books past me [] [] s) {packet : Packet n} {priority : Option (Fin n)}
    (hv : packet.msg.getV = some v) (hvalue : packet.value = some value)
    (hcreated : (me, .created v value) ∈ soFar past me s)
    (hunpaid : v ∉ journal Event.dispatch me (soFar past me s))
    (hcommands : t.queuedCommands = s.queuedCommands) (hnext : t.nextUid = s.nextUid)
    (hmine : t.myQueuedCommands = s.myQueuedCommands) (hreads : t.readTracker.ReadsOnly)
    (hsinks : t.sinks = s.sinks ++ [.broadcast packet priority]) : Books past me [] [] t := by
  have hlog : soFar past me t = soFar past me s ++ [(me, .broadcast packet priority)] :=
    soFar_snoc hsinks
  have hissued := h.issued
  rw [← soFar_silent past me (g := Event.issue) hsinks rfl,
    ← soFar_silent past me (g := Event.submission) hsinks rfl] at hissued
  refine ⟨hlog ▸ h.accounts.snoc ⟨fun _ _ he => (by cases he), fun u hu => ?_,
    fun packet' _ heq value' hvalue' => ?_, fun _ _ he => (by cases he), fun _ _ _ he => (by cases he),
    fun _ _ _ he => (by cases he), ?_⟩, hnext ▸ h.counter, ?_, fun w => ?_, fun w value' hw => ?_, hissued,
    hmine.trans h.mine, hreads⟩
  · rw [Event.dispatch, hvalue] at hu
    cases hv.symm.trans hu
    rw [List.count_eq_zero_of_not_mem hunpaid]
    exact List.count_pos_iff.2 (Lib.mem_journal.2 ⟨_, hcreated, rfl⟩)
  · cases heq
    cases hvalue.symm.trans hvalue'
    exact ⟨v, hv, hcreated⟩
  · rw [← hlog, ← hissued, List.append_nil]
  · rw [createdBy, soFar_silent past me (g := Event.createdUid) hsinks rfl, hnext]
    exact h.fresh
  · rw [held, hcommands, handedAt, soFar_silent past me (g := Event.handedUid) hsinks rfl,
      soFar_silent past me (g := Event.gain) hsinks rfl]
    exact h.stock w
  · exact (h.genuine w value' (hcommands ▸ hw)).mono (hlog ▸ List.subset_append_left _ _)

theorem introduced (h : Books past me [] value.requests s) (hwrite : value.isRead = false)
    (ht : Introduced me s value t) : Books past me [] [] t := by
  set v := freshUid s value with hv
  have hcreated : Books past me [] [] (withCreated s v value) := h.created hwrite
  have hlog : soFar past me (withCreated s v value) = soFar past me s ++ [(me, .created v value)] :=
    soFar_snoc rfl
  obtain ⟨said, hsinks, hsends⟩ := ht.said
  rcases hsends with hquiet | ⟨before, packet, priority, rfl, -, hgetV, hvalue, hquiet⟩
  · exact hcreated.mute ht.commands ht.nextUid ht.mine (ht.reads hcreated.reads)
      ⟨said, hsinks, fun e he => (hquiet e he).mute⟩
  · set u : ConsensusShard n R := { t with sinks := (withCreated s v value).sinks ++ before } with hu
    have hbefore : Books past me [] [] u :=
      hcreated.mute ht.commands ht.nextUid ht.mine (ht.reads hcreated.reads)
        ⟨before, rfl, fun e he => (hquiet e he).mute⟩
    have hmid : soFar past me u = soFar past me (withCreated s v value) ++ before.map (Prod.mk me) :=
      soFar_said rfl
    have hpaid : journal Event.dispatch me (soFar past me u) =
        journal Event.dispatch me (soFar past me s) := by
      rw [hmid, Lib.journal_silent fun e he => (hquiet e he).mute.dispatch, hlog, Lib.journal_snoc]
      exact List.append_nil _
    refine hbefore.announced hgetV hvalue ?_ ?_ rfl rfl rfl hbefore.reads
      (hsinks.trans (List.append_assoc _ _ _).symm)
    · rw [hmid, hlog]
      exact List.mem_append_left _ (List.mem_append_right _ List.mem_cons_self)
    · rw [hpaid]
      intro hmem
      have hold : v ∈ createdBy me (soFar past me s) :=
        List.count_pos_iff.1 ((List.count_pos_iff.2 hmem).trans_le (h.accounts.paid me v))
      have := h.fresh v hold
      have hhalf : v / 2 = s.nextUid / 2 := half_freshUid h.counter
      omega

theorem advanced (h : Books past me [] [] s) (ht : Advanced s v value t) : Books past me [v] [] t := by
  have hlog : soFar past me t = soFar past me s ++ [(me, .committed s.slot v)] := soFar_snoc ht.sinks
  have hmute : (Event.committed s.slot v : Event n).Mute :=
    ⟨rfl, rfl, rfl, rfl, rfl, fun _ _ he => (by cases he), fun _ _ he => (by cases he)⟩
  have hissued := h.issued
  rw [← soFar_silent past me (g := Event.issue) ht.sinks rfl,
    ← soFar_silent past me (g := Event.submission) ht.sinks rfl] at hissued
  have hkept : ∀ w ∈ t.queuedCommands, w ≠ v ∧ w ∈ s.queuedCommands := fun w hw => by
    obtain ⟨value', hvalue'⟩ := Lib.HashMap.exists_lookup hw
    obtain ⟨hne, hold⟩ := ht.kept w value' hvalue'
    exact ⟨hne, Lib.HashMap.mem_of_lookup hold⟩
  refine ⟨hlog ▸ h.accounts.snoc (.mute h.accounts hmute), ht.nextUid ▸ h.counter, ?_, fun w => ?_,
    fun w value' hw => ?_, hissued, ht.mine.trans h.mine, ht.reads ▸ h.reads⟩
  · rw [createdBy, soFar_silent past me (g := Event.createdUid) ht.sinks rfl, ht.nextUid]
    exact h.fresh
  · have hheld := held_drop hkept (Lib.HashMap.mem_of_lookup ht.found) w
    have hstock := h.stock w
    rw [handedAt, soFar_silent past me (g := Event.handedUid) ht.sinks rfl,
      soFar_silent past me (g := Event.gain) ht.sinks rfl]
    rw [handedAt, List.count_nil] at hstock
    omega
  · exact (h.genuine w value' (ht.kept w value' hw).2).mono (hlog ▸ List.subset_append_left _ _)

theorem forgiven (h : Books past me [v] [] s) : Books past me [] [] s :=
  ⟨h.accounts, h.counter, h.fresh, fun w => (Nat.le_add_right _ _).trans (h.stock w), h.genuine,
    h.issued, h.mine, h.reads⟩

theorem removed (h : Books past me [] [] s) (hv : s.queuedCommands.lookup v = some value) :
    Books past me [v] [] { s with queuedCommands := s.queuedCommands.erase v } := by
  set t : ConsensusShard n R := { s with queuedCommands := s.queuedCommands.erase v }
  have hkept : ∀ w ∈ t.queuedCommands, w ≠ v ∧ w ∈ s.queuedCommands := fun w => AList.mem_erase.1
  refine ⟨h.accounts, h.counter, h.fresh, fun w => ?_, fun w value' hw => ?_, h.issued, h.mine, h.reads⟩
  · have hheld := held_drop hkept (Lib.HashMap.mem_of_lookup hv) w
    have hstock := h.stock w
    rw [List.count_nil] at hstock
    change held t w + (handedAt me (soFar past me s)).count w + [v].count w ≤
      (journal Event.gain me (soFar past me s)).count w
    omega
  · change (s.queuedCommands.erase v).lookup w = some value' at hw
    rcases eq_or_ne w v with rfl | hne
    · rw [AList.lookup_erase] at hw
      cases hw
    · rw [AList.lookup_erase_ne hne] at hw
      exact h.genuine w value' hw

theorem delivered {slot : Nat} (h : Books past me [v] [] s)
    (hgenuine : Genuine (soFar past me s) v (.single command))
    (hcommands : t.queuedCommands = s.queuedCommands) (hnext : t.nextUid = s.nextUid)
    (hmine : t.myQueuedCommands = s.myQueuedCommands) (hreads : t.readTracker = s.readTracker)
    (hsinks : t.sinks = s.sinks ++ [.handed (some (slot, v)) command]) : Books past me [] [] t := by
  have hlog : soFar past me t = soFar past me s ++ [(me, .handed (some (slot, v)) command)] :=
    soFar_snoc hsinks
  have hissued := h.issued
  rw [← soFar_silent past me (g := Event.issue) hsinks rfl,
    ← soFar_silent past me (g := Event.submission) hsinks rfl] at hissued
  refine ⟨hlog ▸ h.accounts.snoc ⟨fun _ _ he => (by cases he), fun _ he => (by cases he),
    fun _ _ he => (by cases he), fun _ _ he => (by cases he), fun slot' w request heq => ?_,
    fun slot' w command' heq => ?_, ?_⟩, hnext ▸ h.counter, ?_, fun w => ?_, fun w value' hw => ?_,
    hissued, hmine.trans h.mine, hreads ▸ h.reads⟩
  · cases heq
    have hstock := h.stock v
    rw [List.count_singleton_self] at hstock
    omega
  · cases heq
    exact hgenuine
  · rw [← hlog, ← hissued, List.append_nil]
  · rw [createdBy, soFar_silent past me (g := Event.createdUid) hsinks rfl, hnext]
    exact h.fresh
  · have hcount : (handedAt me (soFar past me t)).count w =
        (handedAt me (soFar past me s)).count w + [v].count w := by
      rw [handedAt, hlog, Lib.journal_snoc, List.count_append]
      rfl
    have hstock := h.stock w
    rw [held, hcommands, hcount, soFar_silent past me (g := Event.gain) hsinks rfl, List.count_nil]
    rw [held] at hstock
    omega
  · exact (h.genuine w value' (hcommands ▸ hw)).mono (hlog ▸ List.subset_append_left _ _)

theorem gained (h : Books past me [] [] s) {src : Fin n} {packet : Packet n}
    (hv : packet.msg.getV = some v) (hvalue : packet.value = some value)
    (hgenuine : Genuine (soFar past me s) v value)
    (hcommands : t.queuedCommands = s.queuedCommands ∨
      t.queuedCommands = s.queuedCommands.insert v value)
    (hnext : t.nextUid = s.nextUid) (hmine : t.myQueuedCommands = s.myQueuedCommands)
    (hreads : t.readTracker = s.readTracker) (hsinks : t.sinks = s.sinks ++ [.received src packet]) :
    Books past me [] [] t := by
  have hlog : soFar past me t = soFar past me s ++ [(me, .received src packet)] := soFar_snoc hsinks
  have hsub : soFar past me s ⊆ soFar past me t := hlog ▸ List.subset_append_left _ _
  have hissued := h.issued
  rw [← soFar_silent past me (g := Event.issue) hsinks rfl,
    ← soFar_silent past me (g := Event.submission) hsinks rfl] at hissued
  refine ⟨hlog ▸ h.accounts.snoc ⟨fun _ _ he => (by cases he), fun _ he => (by cases he),
    fun _ _ he => (by cases he), fun _ _ he => (by cases he), fun _ _ _ he => (by cases he),
    fun _ _ _ he => (by cases he), ?_⟩, hnext ▸ h.counter, ?_, fun w => ?_, fun w value' hw => ?_,
    hissued, hmine.trans h.mine, hreads ▸ h.reads⟩
  · rw [← hlog, ← hissued, List.append_nil]
  · rw [createdBy, soFar_silent past me (g := Event.createdUid) hsinks rfl, hnext]
    exact h.fresh
  · have hgain : (journal Event.gain me (soFar past me t)).count w =
        (journal Event.gain me (soFar past me s)).count w + [v].count w := by
      rw [hlog, Lib.journal_snoc, List.count_append, Event.gain, hvalue]
      exact congrArg (_ + List.count w ·) (congrArg Option.toList hv)
    have hheld : held t w ≤ held s w + [v].count w := by
      rcases eq_or_ne w v with rfl | hne
      · rw [List.count_singleton_self]
        exact held_le_one.trans (Nat.le_add_left 1 _)
      · refine (held_mono fun hw => ?_).trans (Nat.le_add_right _ _)
        rcases hcommands with heq | heq
        · exact heq ▸ hw
        · exact ((AList.mem_insert _).1 (heq ▸ hw)).resolve_left hne
    have hstock := h.stock w
    rw [handedAt, soFar_silent past me (g := Event.handedUid) hsinks rfl, hgain]
    rw [handedAt] at hstock
    omega
  · rcases hcommands with heq | heq
    · exact (h.genuine w value' (heq ▸ hw)).mono hsub
    · rw [heq] at hw
      rcases eq_or_ne w v with rfl | hne
      · rw [AList.lookup_insert] at hw
        cases hw
        exact hgenuine.mono hsub
      · rw [AList.lookup_insert_ne hne] at hw
        exact (h.genuine w value' hw).mono hsub

theorem same (h : Books past me owed pending s) (hsinks : t.sinks = s.sinks)
    (hcommands : ∀ v value, t.queuedCommands.lookup v = some value →
      s.queuedCommands.lookup v = some value)
    (hnext : t.nextUid = s.nextUid) (hmine : t.myQueuedCommands = []) (hreads : t.readTracker.ReadsOnly) :
    Books past me owed pending t := by
  have hlog : soFar past me t = soFar past me s := by rw [soFar, soFar, hsinks]
  refine ⟨hlog ▸ h.accounts, hnext ▸ h.counter, ?_, fun w => ?_, fun w value' hw => ?_, ?_, hmine, hreads⟩
  · rw [hlog, hnext]
    exact h.fresh
  · have hheld : held t w ≤ held s w := held_mono fun hw => by
      obtain ⟨value', hvalue'⟩ := Lib.HashMap.exists_lookup hw
      exact Lib.HashMap.mem_of_lookup (hcommands w value' hvalue')
    have hstock := h.stock w
    rw [hlog]
    omega
  · exact hlog ▸ h.genuine w value' (hcommands w value' hw)
  · rw [hlog]
    exact h.issued

theorem flush (h : Books past me owed pending s) :
    Books (soFar past me s) me owed pending { s with sinks := [] } := by
  have hlog : soFar (soFar past me s) me { s with sinks := [] } = soFar past me s := soFar_flushed rfl
  refine ⟨?_, h.counter, ?_, fun w => ?_, fun w value' hw => ?_, ?_, h.mine, h.reads⟩
  · rw [hlog]
    exact h.accounts
  · rw [hlog]
    exact h.fresh
  · rw [hlog]
    exact h.stock w
  · rw [hlog]
    exact h.genuine w value' hw
  · rw [hlog]
    exact h.issued

theorem others {p : Fin n} (h : Books past me owed pending s) (hne : me ≠ p) (hsinks : s.sinks = [])
    {said : List (Event n)} (haccounts : Accounts (past ++ said.map (Prod.mk p))) :
    Books (past ++ said.map (Prod.mk p)) me owed pending s := by
  have hlog : soFar (past ++ said.map (Prod.mk p)) me s = past ++ said.map (Prod.mk p) :=
    soFar_flushed hsinks
  have hsame : ∀ {β : Type} (g : Event n → Option β), journal g me (past ++ said.map (Prod.mk p)) =
      journal g me past := fun g => Lib.journal_elsewhere hne.symm
  obtain ⟨-, hcounter, hfresh, hstock, hgenuine, hissued, hmine, hreads⟩ := h
  rw [soFar_flushed hsinks] at hfresh hstock hgenuine hissued
  refine ⟨?_, hcounter, ?_, fun w => ?_, fun w value' hw => ?_, ?_, hmine, hreads⟩
  · rw [hlog]
    exact haccounts
  · rw [hlog, createdBy, hsame]
    exact hfresh
  · rw [hlog, handedAt, hsame, hsame]
    exact hstock w
  · rw [hlog]
    exact (hgenuine w value' hw).mono (List.subset_append_left _ _)
  · rw [hlog, hsame, hsame]
    exact hissued

end Books

-- A decided value goes out once: a write itself, or what is stored for the uids of a batch.
structure Owing [NeZero n] (past : List (Fin n × Event n)) (me : Fin n) (value : CommandBatch n)
    (s : ConsensusShard n R) : Prop where
  books : Books past me [] [] s
  write : ∀ command, value = .single command → command.readOnly = false → ∃ v, s.lastV = some v ∧
    Genuine (soFar past me s) v value ∧ Books past me [v] [] s

section turns

variable [NeZero n] {past : List (Fin n × Event n)} {me : Fin n} {algo : ConsensusShardTrait n R}

def books (past : List (Fin n × Event n)) (me : Fin n) : Upkeep n R where
  good := Books past me [] []
  taken command := Books past me [] (if command.readOnly then [] else [command.request])
  handing := Owing past me
  fair s := Accounts (soFar past me s)
  heard _ := True

theorem books_handover : Handover (books past me : Upkeep n R) me fun _ _ => Books past me [] [] where
  fair h := h.books.accounts
  fairDue h := h.accounts
  same hsinks h := by
    change Accounts _ at h ⊢
    rwa [soFar, hsinks]
  hushed h ht := h.hushed ht
  read h _ := h.books.mute rfl rfl rfl h.books.reads ⟨[_], rfl, fun e he => List.mem_singleton.1 he ▸
    ⟨rfl, rfl, rfl, rfl, rfl, fun _ _ he => (by cases he), fun _ _ he => (by cases he)⟩⟩
  write fast left h hwrite := by
    obtain ⟨v, hlast, hgenuine, hbooks⟩ := h.write _ rfl hwrite
    exact hbooks.delivered hgenuine.stamped rfl rfl rfl rfl (by rw [hlast]; rfl)
  batch left h := h.books.same rfl (fun _ _ hv => hv) rfl h.books.mine h.books.reads
  next fast h hfound hwrite :=
    (h.removed hfound).delivered (h.genuine _ _ hfound).stamped rfl rfl rfl rfl rfl
  done h := h

namespace Books

variable {s t : ConsensusShard n R} {command : Command n} {value : CommandBatch n} {v : Nat}

theorem read (h : Books past me [] (if command.readOnly then [] else [command.request]) s)
    (hread : command.readOnly = true) (ht : Hushed me s t) : Books past me [] [] t := by
  rw [if_pos hread] at h
  exact h.hushed ht

theorem write (h : Books past me [] (if command.readOnly then [] else [command.request]) s)
    (hwrite : command.readOnly = false) (ht : Introduced me s (.single command) t) :
    Books past me [] [] t := by
  rw [if_neg (Bool.not_eq_true _ ▸ hwrite)] at h
  have hrequests : Books past me [] (CommandBatch.single command).requests s := h
  exact hrequests.introduced hwrite ht

theorem batch (h : Books past me [] [] s) {order : HashOrder n}
    (hnew : newBatchToPropose order s = some value) (ht : Introduced me s value t) :
    Books past me [] [] t := by
  obtain ⟨vs, rfl⟩ := newBatch_batch hnew
  have hrequests : Books past me [] (CommandBatch.batch s.slot vs).requests s := h
  exact hrequests.introduced rfl ht

theorem serve (h : Books past me [] [] s) (hread : value.isRead = true) : Owing past me value s := by
  refine ⟨h, fun command heq hwrite => ?_⟩
  subst heq
  cases hread.symm.trans hwrite

theorem advance (h : Books past me [] [] s) (ht : Advanced s v value t) : Owing past me value t := by
  have hbooks : Books past me [v] [] t := h.advanced ht
  have hsub : soFar past me s ⊆ soFar past me t :=
    soFar_snoc ht.sinks ▸ List.subset_append_left _ _
  exact ⟨hbooks.forgiven, fun _ _ _ => ⟨v, ht.lastV, (h.genuine v value ht.found).mono hsub, hbooks⟩⟩

end Books

theorem books_upheld (c : Cluster n) (order : HashOrder n) (hfrugal : Frugal me algo) :
    (books past me : Upkeep n R).Upheld c me order algo :=
  .of_frugal hfrugal (fun _ => trivial) (fun h => h.accounts) (fun h => h.mine) (fun h ht => h.hushed ht)
    (fun h => h.same rfl (fun _ _ hv => hv) rfl h.mine h.reads) (fun h => h.submitted)
    (fun h hread ht => h.read hread ht) (fun h hwrite ht => h.write hwrite ht)
    (fun h _ ht => (Books.hushed h ht).accounts) (fun h hnew ht => h.batch hnew ht) (fun h => h.reads)
    (fun h hread => h.serve hread) (fun h ht => h.advance ht)
    fun h => books_handover.commitCommands (fun h => h.accounts) h

end turns

end KCensus.Slots

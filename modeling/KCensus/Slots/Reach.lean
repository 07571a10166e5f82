import KCensus.Slots.Turns
import KCensus.Slots.World

namespace KCensus.Slots

open Lib.Turn (Meets)
open Turn Watch ConsensusShard

variable {n : Nat} [NeZero n] {R : Type} {d : Deployment n R}
  {mentions : (Nat → Prop) → (Nat → Prop) → R → Prop} {committer : Nat → Option (Fin n)} {named : Prop}
  {w w' other : World n R} {p q : Fin n} {s t : ConsensusShard n R}

structure Regular (d : Deployment n R) (mentions : (Nat → Prop) → (Nat → Prop) → R → Prop)
    (committer : Nat → Option (Fin n)) (named : Prop) : Prop where
  mono : ∀ {K K' held held' : Nat → Prop} {r : R}, (∀ v, K v → K' v) → (∀ v, held v → held' v) →
    mentions K held r → mentions K' held' r
  lawful : ∀ {x : Watch n R} (order : HashOrder n), x.mentions = mentions → (x.named → named) →
    Lawful x d.cluster committer (d.algorithm x.me order)
  fresh : ∀ p K held, mentions K held (d.newRoundState p)

namespace World

def nextUid (w : World n R) (p : Fin n) : Nat :=
  match w.places p with
  | .awake s => s.nextUid
  | .asleep state => state.nextUid

def Created (w : World n R) (v : Nat) : Prop := v < w.nextUid (uidOwner v)

def Clean (committer : Nat → Option (Fin n)) (w : World n R) (p : Fin n) : Prop :=
  ∀ v, (p, .unready v) ∈ w.hist → committer v ≠ some p

end World

def Regular.watch (hd : Regular d mentions committer named) (w : World n R) (p : Fin n) : Watch n R where
  me := p
  others := w.Created
  mentions := mentions
  supplied := True
  named := named
  mono := hd.mono

namespace World

structure Sound (hd : Regular d mentions committer named) (w : World n R) : Prop where
  awake : ∀ p s, w.places p = .awake s → (hd.watch w p).Sound s ∧ s.sinks = []
  asleep : ∀ p state, w.places p = .asleep state → CounterOf p state.nextUid
  links : ∀ src dest, ∀ packet ∈ w.links src dest, packet.Tells w.Created
  harmless : ∀ p e, w.Clean committer p → w.crashed p = some e → Harmless e
  announced : ∀ p slot v e, w.Clean committer p → (p, e) ∈ w.hist → AnnouncesValue slot v e →
    ∃ u, (p, .committed slot u) ∈ w.hist ∧ (named → u = v)

end World

theorem Watch.Sound.others {x : Watch n R} (h : x.Sound s) {others : Nat → Prop}
    (hmono : ∀ v, uidOwner v ≠ x.me → x.others v → others v) :
    ({ x with others := others } : Watch n R).Sound s := by
  have hknows : ∀ v, x.Knows s v → ({ x with others := others } : Watch n R).Knows s v :=
    fun v hv => ⟨hv.1, fun hne => hmono v hne (hv.2 hne)⟩
  exact ⟨h.counter, fun v value hv => (h.stored v value hv).mono hknows,
    fun m hm => (h.messages m hm).mono hknows, x.mono hknows (fun _ => id) h.round,
    fun e he => (h.sent e he).mono hknows, h.reads⟩

theorem Watch.Sound.flush {x : Watch n R} (h : x.Sound s) : x.Sound { s with sinks := [] } :=
  ⟨h.counter, h.stored, h.messages, h.round, fun _ he => absurd he List.not_mem_nil, h.reads⟩

omit [NeZero n] in
theorem Event.Tells.packetsTo {K : Nat → Prop} {e : Event n} (h : e.Tells K) {c : Cluster n}
    {src dest : Fin n} {packet : Packet n} (hp : packet ∈ e.packetsTo c src dest) :
    packet.Tells K := by
  cases e with
  | broadcast sent priority =>
    rw [Event.packetsTo] at hp
    split at hp
    · exact List.mem_singleton.1 hp ▸ Packet.Tells.received h
    · cases hp
  | send sent target =>
    rw [Event.packetsTo] at hp
    split at hp
    · exact List.mem_singleton.1 hp ▸ Packet.Tells.received h
    · cases hp
  | _ => cases hp

namespace World

variable {hd : Regular d mentions committer named}

theorem Sound.init : Sound hd (World.init : World n R) where
  awake _ _ h := nomatch h
  asleep p state h := by
    cases h
    exact .first
  links _ _ _ h := absurd h List.not_mem_nil
  harmless _ _ _ h := nomatch h
  announced _ _ _ _ _ h := absurd h List.not_mem_nil

def Ended (x : Watch n R) (committer : Nat → Option (Fin n)) (s : ConsensusShard n R) {α : Type} :
    EStateM.Result Panic (ConsensusShard n R) α → Prop
  | .ok _ t => Taken x committer s t
  | .error e t => Crashed x committer s e t

theorem Ended.taken {x : Watch n R} {α : Type}
    {r : EStateM.Result Panic (ConsensusShard n R) α} (h : Ended x committer s r) :
    Taken x committer s (Lib.Turn.state r) := by
  cases r with
  | ok a t => exact h
  | error e t => exact h.toTaken

theorem Sound.settle (h : Sound hd w) (hs : (hd.watch w p).Sound s) (hsinks : s.sinks = [])
    (hnext : s.nextUid = w.nextUid p) {α : Type} {r : EStateM.Result Panic (ConsensusShard n R) α}
    (hr : Ended (hd.watch w p) committer s r) : Sound hd (w.settle d p r) := by
  set w' := w.settle d p r with hw'
  set t := Lib.Turn.state r with ht
  have htaken := hr.taken
  rw [← ht] at htaken
  have hself : w'.places p = .awake { t with sinks := [] } := Function.update_self ..
  have hother : ∀ q, q ≠ p → w'.places q = w.places q := fun q hq => Function.update_of_ne hq ..
  have hhist : w'.hist = w.hist ++ t.sinks.map (Prod.mk p) := rfl
  have hnextp : w'.nextUid p = t.nextUid := by rw [nextUid, hself]
  have hnextq : ∀ q, q ≠ p → w'.nextUid q = w.nextUid q := fun q hq => by
    rw [nextUid, nextUid, hother q hq]
  have hknown : ∀ v, (hd.watch w p).Knows t v → w'.Created v := by
    intro v hv
    rw [Created]
    rcases eq_or_ne (uidOwner v) p with heq | hne
    · rw [heq, hnextp]
      exact hv.1 heq
    · rw [hnextq _ hne]
      exact hv.2 hne
  have hcreated : ∀ v, w.Created v → w'.Created v := by
    intro v hv
    rw [Created] at hv ⊢
    rcases eq_or_ne (uidOwner v) p with heq | hne
    · rw [heq, hnextp]
      rw [heq, ← hnext] at hv
      exact hv.trans_le htaken.grown.nextUid
    · rw [hnextq _ hne]
      exact hv
  have hclean : ∀ q, w'.Clean committer q → w.Clean committer q := fun q hc v hv =>
    hc v (hhist ▸ List.mem_append_left _ hv)
  have hsent : ∀ {e}, (p, e) ∈ t.sinks.map (Prod.mk p) → e ∈ t.sinks := fun he => by
    obtain ⟨e', he', heq⟩ := List.mem_map.1 he
    cases heq
    exact he'
  have hcleant : w'.Clean committer p → Slots.Clean committer p t := fun hc v hv =>
    hc v (hhist ▸ List.mem_append_right _ (List.mem_map_of_mem hv))
  constructor
  · intro q s' hq
    rcases eq_or_ne q p with rfl | hne
    · rw [hself] at hq
      cases hq
      refine ⟨(htaken.sound.others fun v hne hv => ?_).flush, rfl⟩
      exact hcreated v hv
    · rw [hother q hne] at hq
      exact ⟨(h.awake q s' hq).1.others fun v _ hv => hcreated v hv, (h.awake q s' hq).2⟩
  · intro q state hq
    rcases eq_or_ne q p with rfl | hne
    · rw [hself] at hq
      cases hq
    · rw [hother q hne] at hq
      exact h.asleep q state hq
  · intro src dest packet hp
    rcases eq_or_ne src p with rfl | hne
    · have hlinks : w'.links src dest =
          w.links src dest ++ t.sinks.flatMap (Event.packetsTo d.cluster src dest) := by
        simp only [hw', World.settle, Function.update_self, ht]
      rw [hlinks] at hp
      rcases List.mem_append.1 hp with hold | hnew
      · exact (h.links src dest packet hold).mono hcreated
      · obtain ⟨e, he, hpacket⟩ := List.mem_flatMap.1 hnew
        exact ((htaken.sound.sent e he).packetsTo hpacket).mono hknown
    · have hlinks : w'.links src dest = w.links src dest := by
        simp only [hw', World.settle, Function.update_of_ne hne]
      rw [hlinks] at hp
      exact (h.links src dest packet hp).mono hcreated
  · intro q e hc hcrash
    rcases eq_or_ne q p with rfl | hne
    · have hfail : failure r = some e := (Function.update_self q _ _).symm.trans hcrash
      cases r with
      | ok a t => cases hfail
      | error e' t' =>
        cases hfail
        exact hr.harmless (hcleant hc)
    · exact h.harmless q e (hclean q hc) ((Function.update_of_ne hne ..).symm.trans hcrash)
  · intro q slot v e hc he ha
    rw [hhist] at he ⊢
    rcases List.mem_append.1 he with hold | hnew
    · obtain ⟨u, hu, hnamed⟩ := h.announced q slot v e (hclean q hc) hold ha
      exact ⟨u, List.mem_append_left _ hu, hnamed⟩
    · have hq : q = p := by
        obtain ⟨e', -, heq⟩ := List.mem_map.1 hnew
        cases heq
        rfl
      subst hq
      have hempty : (hd.watch w q).Announced s slot := fun _ e' he' =>
        absurd (hsinks ▸ he') List.not_mem_nil
      obtain ⟨u, hu, hnamed⟩ := htaken.announced (hcleant hc) slot hempty v e (hsent hnew) ha
      exact ⟨u, List.mem_append_right _ (List.mem_map_of_mem hu), hnamed⟩

theorem Sound.popLink (h : Sound hd w) (src p : Fin n) : Sound hd (w.popLink src p) := by
  refine ⟨h.awake, h.asleep, fun src' dest packet hp => ?_, h.harmless, h.announced⟩
  refine h.links src' dest packet ?_
  simp only [World.popLink] at hp
  rcases eq_or_ne src' src with rfl | hne
  · simp only [Function.update_self] at hp
    rcases eq_or_ne dest p with rfl | hne
    · rw [Function.update_self] at hp
      exact List.mem_of_mem_tail hp
    · rwa [Function.update_of_ne hne] at hp
  · rwa [Function.update_of_ne hne] at hp

theorem Sound.note (h : Sound hd w) (p : Fin n) {e : Event n}
    (hquiet : ∀ slot, ¬ AnnouncesSlot slot e) : Sound hd (w.note p e) := by
  have hclean : ∀ q, (w.note p e).Clean committer q → w.Clean committer q := fun q hc v hv =>
    hc v (List.mem_append_left _ hv)
  refine ⟨h.awake, h.asleep, h.links, fun q e' hc => h.harmless q e' (hclean q hc), ?_⟩
  intro q slot v e' hc he ha
  rcases List.mem_append.1 he with hold | hnew
  · obtain ⟨u, hu, hnamed⟩ := h.announced q slot v e' (hclean q hc) hold ha
    exact ⟨u, List.mem_append_left _ hu, hnamed⟩
  · cases List.mem_singleton.1 hnew
    exact absurd ha.slot (hquiet slot)

-- A shard that may serve another logical one has nothing left in it.
structure Empty (mentions : (Nat → Prop) → (Nat → Prop) → R → Prop) (s : ConsensusShard n R) :
    Prop where
  sinks : s.sinks = []
  commands : s.queuedCommands = ∅
  messages : s.queuedMessages = []
  reads : s.readTracker.readCommands = []
  round : ∀ K held, mentions K held s.roundState

theorem Sound.spare (h : Sound hd other) (hs : Spare d p other s) : Empty mentions s := by
  obtain ⟨-, hphysical, hsleep⟩ := hs
  rw [physical] at hphysical
  split at hphysical
  · rename_i shard hplace
    subst hphysical
    have hrest := (hd.lawful .same rfl id).rests (h.awake p shard hplace).1 hsleep
    simp only [Deployment.canSleep, canSleep, hasQueuedCommands, Bool.and_eq_true,
      Bool.not_eq_true', Bool.not_eq_false', Lib.HashMap.isEmpty_iff, List.isEmpty_iff,
      ReadTracker.isEmpty] at hsleep
    exact ⟨(h.awake p shard hplace).2, hsleep.1.1.1.2, hsleep.1.1.2, hsleep.2, hrest⟩
  · subst hphysical
    exact ⟨rfl, rfl, rfl, rfl, fun K held => hd.fresh p K held⟩

theorem Sound.meet (h : Sound hd w) (hempty : Empty mentions s) :
    (hd.watch w p).Sound (w.meet s p) ∧ (w.meet s p).sinks = [] ∧
      (w.meet s p).nextUid = w.nextUid p := by
  rw [World.meet, nextUid]
  cases hplace : w.places p with
  | awake shard => exact ⟨(h.awake p shard hplace).1, (h.awake p shard hplace).2, rfl⟩
  | asleep state =>
    refine ⟨⟨h.asleep p state hplace, fun v value hv => ?_, fun m hm => ?_, hempty.round _ _,
      fun e he => ?_, fun entry he => ?_⟩, hempty.sinks, rfl⟩
    · simp only [ConsensusShard.wakeUp, hempty.commands, AList.lookup_empty] at hv
      cases hv
    · simp only [ConsensusShard.wakeUp, hempty.messages] at hm
      exact absurd hm List.not_mem_nil
    · simp only [ConsensusShard.wakeUp, hempty.sinks] at he
      exact absurd he List.not_mem_nil
    · simp only [ConsensusShard.wakeUp, hempty.reads] at he
      exact absurd he List.not_mem_nil

theorem Regular.supplied (hd : Regular d mentions committer named) (order : HashOrder n) (p : Fin n)
    (w : World n R) (supplied : Prop) :
    Lawful ((hd.watch w p).supply supplied) d.cluster committer (d.algorithm p order) :=
  hd.lawful (x := (hd.watch w p).supply supplied) order rfl id

theorem Sound.command (h : Sound hd w) (hempty : Empty mentions s) (order : HashOrder n)
    (command : Command n) :
    Meets (onCommand p order (d.algorithm p order) command) (w.meet s p)
      (fun _ t => Taken (hd.watch w p) committer (w.meet s p) t ∧
        (hd.watch w p).Frame (w.meet s p) t)
      (Crashed (hd.watch w p) committer (w.meet s p)) :=
  (onCommand_spec (Regular.supplied hd order p w True) (h.meet hempty).1.supply).mono
    (fun _ _ ht => ⟨ht.taken, ht.frame.unsupply⟩) fun _ _ ht => ht.always

theorem Sound.tells (h : Sound hd w) (hempty : Empty mentions s) {packet : Packet n}
    (hpacket : packet.Tells w.Created) : packet.Tells ((hd.watch w p).Knows (w.meet s p)) := by
  refine hpacket.mono fun v hv => ⟨fun ho => ?_, fun _ => hv⟩
  rw [(h.meet hempty).2.2]
  exact (congrArg w.nextUid ho) ▸ hv

theorem Sound.packet (h : Sound hd w) (hempty : Empty mentions s) (order : HashOrder n)
    {packet : Packet n} (hpacket : packet.Tells w.Created) :
    Meets (onPacket d.cluster p order (d.algorithm p order) packet (R := R)) (w.meet s p)
      (fun _ t => Taken (hd.watch w p) committer (w.meet s p) t ∧
        (Calm p (w.meet s p) → ¬ Overtaken p (w.meet s p) packet → Calm p t))
      (Crashed (hd.watch w p) committer (w.meet s p)) :=
  onPacket_spec (x := hd.watch w p) (Regular.supplied hd order p w) (h.meet hempty).1
    (h.tells hempty hpacket)

theorem Ended.of_meets {x : Watch n R} {α : Type} {m : Turn n R α}
    {P : α → ConsensusShard n R → Prop}
    (h : Meets m s (fun a t => Taken x committer s t ∧ P a t) (Crashed x committer s)) :
    Ended x committer s (m s) := by
  rw [Meets] at h
  cases hm : m s with
  | ok a t =>
    rw [hm] at h
    exact h.1
  | error e t =>
    rw [hm] at h
    exact h

theorem Sound.sleep (h : Sound hd w) {shard : ConsensusShard n R}
    (hplace : w.places p = .awake shard) :
    Sound hd { w with places := Function.update w.places p (.asleep shard.fallAsleep) } := by
  set w' : World n R :=
    { w with places := Function.update w.places p (.asleep shard.fallAsleep) } with hw'
  have hnext : ∀ q, w'.nextUid q = w.nextUid q := by
    intro q
    rw [nextUid, nextUid]
    rcases eq_or_ne q p with rfl | hne
    · simp only [hw', Function.update_self, hplace, ConsensusShard.fallAsleep]
    · simp only [hw', Function.update_of_ne hne]
  have hcreated : ∀ v, w.Created v → w'.Created v := fun v hv => by
    rw [Created, hnext]
    exact hv
  constructor
  · intro q s hq
    rcases eq_or_ne q p with rfl | hne
    · simp only [hw', Function.update_self] at hq
      cases hq
    · simp only [hw', Function.update_of_ne hne] at hq
      exact ⟨(h.awake q s hq).1.others fun v _ hv => hcreated v hv, (h.awake q s hq).2⟩
  · intro q state hq
    rcases eq_or_ne q p with rfl | hne
    · simp only [hw', Function.update_self] at hq
      cases hq
      exact (h.awake q shard hplace).1.counter
    · simp only [hw', Function.update_of_ne hne] at hq
      exact h.asleep q state hq
  · exact fun src dest packet hp => (h.links src dest packet hp).mono hcreated
  · exact h.harmless
  · exact h.announced

theorem Sound.step (h : Sound hd w) {l : Label n} (hempty : Empty mentions s)
    (hstep : w.step d s l = some w') : Sound hd w' := by
  cases l with
  | submit p command order =>
    rw [World.step] at hstep
    split at hstep
    · cases hstep
      obtain ⟨hs, hsinks, hnext⟩ := h.meet (p := p) hempty
      exact h.settle hs hsinks hnext (.of_meets (h.command hempty order command))
    · cases hstep
  | receive src p order =>
    rw [World.step] at hstep
    split at hstep
    · cases hstep
    · rename_i packet rest hlink
      split at hstep
      · have hpop := h.popLink src p
        dsimp only at hstep
        split at hstep
        · cases hstep
          exact hpop.note p fun _ hn => hn
        · cases hstep
          obtain ⟨hs, hsinks, hnext⟩ := hpop.meet (p := p) hempty
          refine hpop.settle hs hsinks hnext (.of_meets (hpop.packet hempty order ?_))
          exact h.links src p packet (hlink ▸ List.mem_cons_self)
      · cases hstep
  | sleep p =>
    rw [World.step] at hstep
    split at hstep
    · cases hstep
    · rename_i shard hplace
      split at hstep
      · cases hstep
        exact h.sleep hplace
      · cases hstep

theorem Reachable.sound (hd : Regular d mentions committer named) (h : Reachable d w) : Sound hd w := by
  induction h with
  | init => exact .init
  | step hw ho hs hstep ih iho => exact ih.step (iho.spare hs) hstep

end World

end KCensus.Slots

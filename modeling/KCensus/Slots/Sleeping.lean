import KCensus.Slots.FastReports
import KCensus.Slots.KCensusRest
import KCensus.Slots.PaxosFamily.Rest
import KCensus.Slots.Tidy
import KCensus.Slots.Wakeups

namespace KCensus.Slots

open Lib.Turn (Meets)
open Turn Watch Conduct ConsensusShard

variable {n : Nat} {R : Type}

section shards

variable {me : Fin n} {y : Rest me R} {s t : ConsensusShard n R} {algo : ConsensusShardTrait n R}
  {c : Cluster n} {order : HashOrder n} {msg : ConsensusMessage n}

namespace Rest

theorem Says.packetsTo {e : Event n} (h : y.Says e) {dest : Fin n} {packet : Packet n}
    (hp : packet ∈ e.packetsTo c me dest) : y.Proper packet := by
  have hreceived : ∀ {sent : Packet n}, y.Proper sent → y.Proper sent.received := fun hsent =>
    ⟨hsent.src, hsent.answer, by simpa [Packet.received] using hsent.speaks⟩
  cases e with
  | broadcast sent priority =>
    rw [Event.packetsTo] at hp
    split at hp
    · exact List.mem_singleton.1 hp ▸ hreceived h
    · cases hp
  | send sent target =>
    rw [Event.packetsTo] at hp
    split at hp
    · exact List.mem_singleton.1 hp ▸ hreceived h
    · cases hp
  | _ => cases hp

theorem Tidy.flush (h : y.Tidy s)
    (hquiet : y.follows = true → Strays s.sinks → y.Stocked s) : y.Tidy { s with sinks := [] } := by
  refine ⟨h.quorum, h.fit, ?_⟩
  rcases h.rest with hstocked | hidle | ⟨hfollows, hstrays⟩
  · exact Or.inl hstocked
  · exact Or.inr (Or.inl hidle)
  · exact Or.inl (hquiet hfollows hstrays)

theorem Tidy.idle (hy : y.Habitual algo) (h : y.Tidy s) (hsinks : s.sinks = [])
    (hsleep : s.canSleep algo = true) : y.Idle s := by
  simp only [canSleep, hasQueuedCommands, Bool.and_eq_true, Bool.not_eq_true', Bool.not_eq_false',
    Lib.HashMap.isEmpty_iff] at hsleep
  obtain ⟨⟨⟨⟨hongoing, hcommands⟩, -⟩, -⟩, -⟩ := hsleep
  rcases h.rest with (⟨v, hv⟩ | hvalued) | hidle | ⟨-, v, before, after, hevents, -⟩
  · rw [hcommands] at hv
    exact absurd hv (AList.notMem_empty v)
  · cases hongoing.symm.trans (hy.ongoing hvalued)
  · exact hidle
  · rw [hsinks] at hevents
    cases before with
    | nil => cases hevents
    | cons e before => cases hevents

-- A shard that may sleep is, but for what it takes along, one that was never used.
theorem Tidy.slept (hy : y.Habitual algo) (h : y.Tidy s) (hsinks : s.sinks = [])
    (hsleep : s.canSleep algo = true) (hquorum : y.readQuorum = c.majority) :
    s = wakeUp s.fallAsleep (ConsensusShard.new c me y.idle) := by
  obtain ⟨hround, hleft⟩ := h.idle hy hsinks hsleep
  have htracker := h.quorum.trans hquorum
  simp only [canSleep, hasQueuedCommands, Bool.and_eq_true, Bool.not_eq_true', Bool.not_eq_false',
    Lib.HashMap.isEmpty_iff, List.isEmpty_iff, ReadTracker.isEmpty] at hsleep
  obtain ⟨⟨⟨⟨-, hcommands⟩, hmessages⟩, hmine⟩, hreads⟩ := hsleep
  obtain ⟨sinks, nextUid, slot, commands, lastV, left, messages, mine, ⟨nextId, quorum, reads⟩, round⟩ := s
  dsimp only at hsinks hcommands hmessages hmine hreads hround hleft htracker
  subst hsinks hcommands hmessages hmine hreads hround hleft htracker
  rfl

end Rest

theorem ConsensusShard.ready_of_stale {slot : Nat} (hslot : msg.getSlot = some slot)
    (hlow : slot < s.slot) : s.readyToProcess me msg = .ok true := by
  rw [readyToProcess, hslot, if_neg fun heq => hlow.ne (Option.some.inj heq), Option.all_some,
    decide_eq_true hlow]

theorem ConsensusMessage.getV_of_answer (h : msg.isReadResponse = true) : msg.getV = none := by
  obtain ⟨msg, src, lastV⟩ := msg
  cases msg with
  | readResponse id slot => rfl
  | _ => cases h

theorem ConsensusShard.ready_of_answer (h : msg.isReadResponse = true) (hlast : msg.lastV = none)
    (hslot : ∀ slot, msg.getSlot = some slot → slot ≤ s.slot) :
    s.readyToProcess me msg = .ok true := by
  cases hcurrent : msg.getSlot with
  | none =>
    rw [readyToProcess, hcurrent, if_neg fun hslot => by cases hslot]
    rfl
  | some slot =>
    rcases (hslot slot hcurrent).lt_or_eq with hlow | rfl
    · exact ready_of_stale hcurrent hlow
    · rw [readyToProcess, if_pos hcurrent, if_pos (Or.inl hlast), valueReady,
        ConsensusMessage.getV_of_answer h]
      rfl

namespace Turn

theorem noteUnready_stale (h : ∀ v, msg.getV = some v → msg.getSlot ≠ some s.slot) :
    Meets (noteUnready msg : Turn n R Unit) s (fun _ t => t = s) fun _ _ => False := by
  refine Meets.get ?_
  split
  · rename_i v hv _
    rw [if_neg (h v hv)]
    rfl
  · rfl

theorem fullProcessMessage_noop (hy : y.Habitual algo) (hspeaks : y.speaks msg.msg false)
    (hreads : s.readTracker.readCommands = [])
    (hnoop : msg.isReadResponse = true ∨ ∃ slot, msg.getSlot = some slot ∧ slot < s.slot)
    {fromQueue : Bool} :
    Meets (fullProcessMessage c me algo msg fromQueue) s (fun r t => r = none ∧ t = s)
      fun _ _ => False := by
  have hstale : msg.isReadResponse = false → (∀ slot v, msg.msg ≠ .commit slot v) →
      Meets (algo.processMessage msg) s (fun r t => r = none ∧ t = s) fun _ _ => False := by
    intro hanswer hcommit
    obtain ⟨slot, hslot, hlow⟩ := hnoop.resolve_left (Bool.eq_false_iff.1 hanswer)
    exact .of_eq (hy.stale hslot hlow hspeaks hcommit hanswer) ⟨rfl, rfl⟩
  obtain ⟨msg, src, lastV⟩ := msg
  cases msg with
  | commit slot v =>
    obtain ⟨slot', hslot, hlow⟩ := hnoop.resolve_left fun hread => by cases hread
    cases hslot
    refine Meets.get ?_
    rw [if_pos hlow]
    exact ⟨rfl, rfl⟩
  | readRequest id =>
    obtain ⟨slot, hslot, -⟩ := hnoop.resolve_left fun hread => by cases hread
    cases hslot
  | readResponse id slot =>
    refine Meets.get ?_
    have hfind : s.readTracker.find id = none := by
      rw [ReadTracker.find, hreads]
      rfl
    dsimp only
    rw [ReadTracker.receiveReady, hfind]
    exact ⟨rfl, rfl⟩
  | kcensusM m => exact hstale rfl fun _ _ hm => by cases hm
  | paxosM m => exact hstale rfl fun _ _ hm => by cases hm

theorem onPacket_noop (hy : y.Habitual algo) {packet : Packet n} (hvalue : packet.value = none)
    (hspeaks : y.speaks packet.msg.msg packet.value.isSome)
    (hanswer : packet.msg.isReadResponse = true →
      packet.msg.lastV = none ∧ ∀ slot, packet.msg.getSlot = some slot → slot ≤ s.slot)
    (hreads : s.readTracker.readCommands = [])
    (hnoop : packet.msg.isReadResponse = true ∨
      ∃ slot, packet.msg.getSlot = some slot ∧ slot < s.slot) :
    Meets (onPacket c me order algo packet) s
      (fun _ t => t = { s with sinks := s.sinks ++ [.received packet.msg.src packet] })
      fun _ _ => False := by
  obtain ⟨msg, value⟩ := packet
  dsimp only at hvalue
  subst hvalue
  rw [onPacket, takeMessage, Lib.Turn.meets_bind, Lib.Turn.meets_bind, emit, Lib.Turn.meets_modify]
  set s₁ : ConsensusShard n R := { s with sinks := s.sinks ++ [.received msg.src ⟨msg, none⟩] }
  have hready : s₁.readyToProcess me msg = .ok true := by
    rcases hnoop with hread | ⟨slot, hslot, hlow⟩
    · obtain ⟨hlast, hlate⟩ := hanswer hread
      exact ready_of_answer hread hlast hlate
    · exact ready_of_stale hslot hlow
  have hquiet : ∀ v, msg.getV = some v → msg.getSlot ≠ some s₁.slot := by
    rintro v hv hcurrent
    rcases hnoop with hread | ⟨slot, hslot, hlow⟩
    · cases (ConsensusMessage.getV_of_answer hread).symm.trans hv
    · exact hlow.ne (Option.some.inj (hslot.symm.trans hcurrent))
  rw [Lib.Turn.meets_bind, storeValue, Lib.Turn.meets_pure, Lib.Turn.meets_bind, meets_lift]
  refine ⟨fun ready hr => ?_, fun e he => ?_⟩
  · obtain rfl : ready = true := Except.ok.inj (hr.symm.trans hready)
    rw [if_pos rfl, Lib.Turn.meets_bind, processAndCommit, Lib.Turn.meets_bind]
    refine (noteUnready_stale hquiet).post ?_
    rintro - _ rfl
    rw [Lib.Turn.meets_bind]
    refine (fullProcessMessage_noop (s := s₁) hy hspeaks hreads hnoop).post ?_
    rintro _ _ ⟨rfl, rfl⟩
    rfl
  · cases he.symm.trans hready

end Turn

end shards

-- What the main loop relies on in the algorithm of a deployment, at every process.
structure Accustomed (d : Deployment n R) (y : ∀ p : Fin n, Rest p R) : Prop where
  habitual : ∀ p order, (y p).Habitual (d.algorithm p order)
  idle : ∀ p, (y p).idle = d.newRoundState p
  quorum : ∀ p, (y p).readQuorum = d.cluster.majority
  speaks : ∀ p q, (y p).speaks = (y q).speaks

def Label.isSleep : Label n → Bool
  | sleep _ => true
  | _ => false

namespace World

variable (d : Deployment n R)

-- Every logical shard has a shard of its own, which never sleeps.
def vigil : World n R := { (init : World n R) with places := fun p => .awake (pristine d p) }

def sleepless (w : World n R) : World n R :=
  { w with places := fun p => .awake (w.meet (pristine d p) p) }

-- The answer to a read comes late, and names a slot that the sleeping shard has not reached.
def answeredLate (w : World n R) : Label n → Bool
  | .receive src p _ =>
      match w.links src p, w.places p with
      | packet :: _, .asleep state =>
          packet.msg.isReadResponse && packet.msg.getSlot.any (state.slot < ·)
      | _, _ => false
  | _ => false

-- The process of the step goes along with a round whose payload it does not hold, and is left
-- without anything that it could go on with.
def Drifts (follows : Fin n → Bool) (w : World n R) (l : Label n) (w' : World n R) : Prop :=
  follows l.pid = true ∧ ∃ s events, w'.places l.pid = .awake s ∧
    w'.hist = w.hist ++ events.map (Prod.mk l.pid) ∧ Strays events ∧
    s.hasQueuedCommands = false ∧ (d.algorithm l.pid .same).ongoing s = false

-- A run of `labels` in which every step is as `ok` says, and so in the runs of the shards that
-- serve it.
inductive Serving (ok : World n R → Label n → World n R → Prop) : List (Label n) → World n R → Prop where
  | init : Serving ok [] init
  | step {labels others : List (Label n)} {w w' other : World n R} {spare : ConsensusShard n R}
      {l : Label n} : Serving ok labels w → Serving ok others other → Spare d l.pid other spare →
      w.step d spare l = some w' → ok w l w' → Serving ok (labels ++ [l]) w'

variable {d} {w w' other : World n R} {p q : Fin n} {s : ConsensusShard n R} {l : Label n}

theorem Serving.reachable {ok : World n R → Label n → World n R → Prop} {labels : List (Label n)}
    (h : Serving d ok labels w) : Reachable d w := by
  induction h with
  | init => exact .init
  | step hw ho hs hstep hok ihw iho => exact .step ihw iho hs hstep

theorem sleepless_settle {α : Type} (r : EStateM.Result Panic (ConsensusShard n R) α) :
    (w.settle d p r).sleepless d = (w.sleepless d).settle d p r := by
  have hplaces : ∀ q, Place.awake ((w.settle d p r).meet (pristine d q) q) =
      ((w.sleepless d).settle d p r).places q := by
    intro q
    rcases eq_or_ne q p with rfl | hne
    · simp only [meet, settle, Function.update_self]
    · simp only [meet, settle, sleepless, Function.update_of_ne hne]
  rw [sleepless, funext hplaces]
  rfl

theorem sleepless_note {packet : Packet n} {α : Type} {m : Turn n R α} (hc : w.crashed p = none)
    (hsinks : (w.meet (pristine d p) p).sinks = [])
    (hm : Meets m (w.meet (pristine d p) p)
      (fun _ t => t = { w.meet (pristine d p) p with sinks := [.received q packet] })
      fun _ _ => False) :
    (w.sleepless d).settle d p (m (w.meet (pristine d p) p)) =
      (w.note p (.received q packet)).sleepless d := by
  set s := w.meet (pristine d p) p
  have hself : Place.awake { s with sinks := [] } = (w.sleepless d).places p :=
    congrArg (fun sinks => Place.awake { s with sinks }) hsinks.symm
  have hlinks : (fun dest => w.links p dest ++
      [Event.received q packet].flatMap (Event.packetsTo d.cluster p dest)) = w.links p :=
    funext fun dest => List.append_nil _
  rw [Meets] at hm
  cases hrun : m s with
  | error e t =>
    rw [hrun] at hm
    exact hm.elim
  | ok a t =>
    rw [hrun] at hm
    subst hm
    simp only [settle, Lib.Turn.state, failure, sleepless, note, World.mk.injEq]
    refine ⟨?_, ?_, ?_, rfl⟩
    · exact Function.update_eq_self_iff.2 hself
    · exact Function.update_eq_self_iff.2 hlinks
    · exact Function.update_eq_self_iff.2 hc.symm

structure Tidy (d : Deployment n R) (y : ∀ p : Fin n, Rest p R) (w : World n R) : Prop where
  awake : ∀ p s, w.places p = .awake s → w.crashed p = none → (y p).Tidy s ∧ s.sinks = []
  links : ∀ src dest, ∀ packet ∈ w.links src dest, (y src).Proper packet

variable {y : ∀ p : Fin n, Rest p R}

theorem Tidy.init : (World.init : World n R).Tidy d y where
  awake _ _ h := by cases h
  links _ _ _ h := absurd h List.not_mem_nil

theorem Tidy.spare (hd : Accustomed d y) (h : other.Tidy d y) (hs : Spare d p other s)
    (state : SleepingShard) : wakeUp state s = wakeUp state (pristine d p) := by
  obtain ⟨hc, hphysical, hsleep⟩ := hs
  rw [physical] at hphysical
  split at hphysical
  · rename_i shard hplace
    subst hphysical
    obtain ⟨htidy, hsinks⟩ := h.awake p shard hplace hc
    rw [htidy.slept (hd.habitual p .same) hsinks hsleep (hd.quorum p), hd.idle]
    rfl
  · rw [hphysical]

theorem Tidy.meet (hd : Accustomed d y) (h : w.Tidy d y) (hc : w.crashed p = none) :
    (y p).Tidy (w.meet (pristine d p) p) ∧ (w.meet (pristine d p) p).sinks = [] := by
  rw [World.meet]
  cases hplace : w.places p with
  | awake shard => exact h.awake p shard hplace hc
  | asleep state =>
    have hidle := (hd.habitual p .same).idle
    rw [hd.idle] at hidle
    exact ⟨⟨(hd.quorum p).symm, hidle, Or.inr (Or.inl ⟨(hd.idle p).symm, rfl⟩)⟩, rfl⟩

-- What the pool drops is nothing to the shard that it would wake up.
theorem Tidy.noop (hd : Accustomed d y) (h : w.Tidy d y) {src : Fin n} {order : HashOrder n}
    {packet : Packet n} {rest : List (Packet n)} (hlink : w.links src p = packet :: rest)
    (hnoop : (w.places p).isNoop packet = true)
    (hlate : w.answeredLate (.receive src p order) = false) :
    Meets (onPacket d.cluster p order (d.algorithm p order) packet) (w.meet (pristine d p) p)
      (fun _ t => t = { w.meet (pristine d p) p with sinks := [.received src packet] })
      fun _ _ => False := by
  obtain ⟨hsrc, hanswer, hspeaks⟩ := h.links src p packet (hlink ▸ List.mem_cons_self)
  rw [World.meet]
  cases hplace : w.places p with
  | awake shard =>
    rw [hplace] at hnoop
    cases hnoop
  | asleep state =>
    rw [hplace, Place.isNoop, Bool.and_eq_true, Option.isNone_iff_eq_none, SleepingShard.isNoop,
      Bool.or_eq_true, Option.any_eq_true] at hnoop
    obtain ⟨hvalue, hnoop⟩ := hnoop
    subst hsrc
    refine onPacket_noop (hd.habitual p order) hvalue ?_ (fun hread => ⟨hanswer hread, ?_⟩) rfl ?_
    · rwa [hd.speaks p packet.msg.src]
    · intro slot hslot
      rw [answeredLate, hlink, hplace] at hlate
      dsimp only at hlate
      rw [hread, hslot, Bool.true_and, Option.any_some, decide_eq_false_iff_not] at hlate
      exact not_lt.1 hlate
    · refine hnoop.imp_right ?_
      rintro ⟨slot, hslot, hlow⟩
      exact ⟨slot, hslot, of_decide_eq_true hlow⟩

theorem sleep_sleepless (hd : Accustomed d y) (h : w.Tidy d y)
    (hstep : w.step d s (.sleep p) = some w') : w'.sleepless d = w.sleepless d := by
  rw [World.step] at hstep
  split at hstep
  · cases hstep
  · rename_i shard hplace
    split at hstep
    · rename_i hrest
      cases hstep
      obtain ⟨htidy, hsinks⟩ := h.awake p shard hplace hrest.1
      have hslept := htidy.slept (hd.habitual p .same) hsinks hrest.2 (hd.quorum p)
      rw [hd.idle] at hslept
      rw [sleepless, sleepless, World.mk.injEq]
      refine ⟨funext fun q => ?_, rfl, rfl, rfl⟩
      rcases eq_or_ne q p with rfl | hne
      · simp only [World.meet, Function.update_self, hplace]
        exact congrArg _ hslept.symm
      · simp only [World.meet, Function.update_of_ne hne]
    · cases hstep

theorem step_sleepless (hd : Accustomed d y) (h : w.Tidy d y) (hevent : l.isSleep = false)
    (hspare : ∀ state, wakeUp state s = wakeUp state (pristine d l.pid))
    (hlate : w.answeredLate l = false) (hstep : w.step d s l = some w') :
    (w.sleepless d).step d (pristine d l.pid) l = some (w'.sleepless d) := by
  have hmeet : ∀ w : World n R, w.meet s l.pid = w.meet (pristine d l.pid) l.pid := by
    intro w
    rw [World.meet, World.meet]
    split
    · rfl
    · exact hspare _
  cases l with
  | submit p command order =>
    replace hmeet : w.meet s p = w.meet (pristine d p) p := hmeet w
    rw [World.step] at hstep
    split at hstep
    · rename_i hc
      cases hstep
      rw [hmeet, sleepless_settle]
      exact if_pos hc
    · cases hstep
  | receive src p order =>
    replace hmeet := hmeet (w.popLink src p)
    change World.meet s p _ = World.meet (pristine d p) p _ at hmeet
    rw [World.step] at hstep
    split at hstep
    · cases hstep
    · rename_i packet rest hlink
      split at hstep
      · rename_i hc
        dsimp only at hstep
        have hwake : (w.sleepless d).step d (pristine d p) (.receive src p order) =
            some (((w.popLink src p).sleepless d).settle d p
              (onPacket d.cluster p order (d.algorithm p order) packet
                ((w.popLink src p).meet (pristine d p) p))) := by
          have hlink' : (w.sleepless d).links src p = packet :: rest := hlink
          rw [World.step, hlink']
          exact if_pos hc
        rw [Label.pid, hwake]
        split at hstep
        · rename_i hnoop
          cases hstep
          refine congrArg some (sleepless_note hc (h.meet hd hc).2 ?_)
          exact h.noop hd hlink hnoop hlate
        · cases hstep
          rw [hmeet, sleepless_settle]
      · cases hstep
  | sleep p => cases hevent

theorem Tidy.popLink (h : w.Tidy d y) (src p : Fin n) : (w.popLink src p).Tidy d y := by
  refine ⟨h.awake, fun src' dest packet hp => h.links src' dest packet ?_⟩
  simp only [World.popLink] at hp
  rcases eq_or_ne src' src with rfl | hne
  · simp only [Function.update_self] at hp
    rcases eq_or_ne dest p with rfl | hne
    · rw [Function.update_self] at hp
      exact List.mem_of_mem_tail hp
    · rwa [Function.update_of_ne hne] at hp
  · rwa [Function.update_of_ne hne] at hp

theorem Tidy.settle (h : w.Tidy d y) {α : Type} {r : EStateM.Result Panic (ConsensusShard n R) α}
    (hsaid : ∀ e ∈ (Lib.Turn.state r).sinks, (y p).Says e)
    (hr : ∀ a t, r = .ok a t → (y p).Tidy { t with sinks := [] }) : (w.settle d p r).Tidy d y := by
  refine ⟨fun q s hplace hc => ?_, fun src dest packet hp => ?_⟩
  · rcases eq_or_ne q p with rfl | hne
    · have hs : Place.awake { Lib.Turn.state r with sinks := [] } = .awake s :=
        (Function.update_self q _ _).symm.trans hplace
      have hfail : failure r = none := (Function.update_self q _ _).symm.trans hc
      cases r with
      | ok a t =>
        cases hs
        exact ⟨hr a t rfl, rfl⟩
      | error e t => cases hfail
    · exact h.awake q s ((Function.update_of_ne hne ..).symm.trans hplace)
        ((Function.update_of_ne hne ..).symm.trans hc)
  · rcases eq_or_ne src p with rfl | hne
    · simp only [World.settle, Function.update_self, List.mem_append, List.mem_flatMap] at hp
      rcases hp with hold | ⟨e, he, hpacket⟩
      · exact h.links src dest packet hold
      · exact Rest.Says.packetsTo (hsaid e he) hpacket
    · simp only [World.settle, Function.update_of_ne hne] at hp
      exact h.links src dest packet hp

theorem Tidy.turn (hd : Accustomed d y) (h : w.Tidy d y) (hc : w.crashed p = none) {α : Type}
    {m : Turn n R α} (hm : (y p).Tends m (w.meet (pristine d p) p)) (hp : l.pid = p)
    (hquiet : ¬ w.Drifts d (fun p => (y p).follows) l
      (w.settle d p (m (w.meet (pristine d p) p)))) :
    (w.settle d p (m (w.meet (pristine d p) p))).Tidy d y := by
  subst hp
  have hsinks := (h.meet hd hc).2
  have hsaid : ∀ {t}, Said (y l.pid).Says (w.meet (pristine d l.pid) l.pid) t →
      ∀ e ∈ t.sinks, (y l.pid).Says e := by
    rintro t ⟨said, hsaid, hfits⟩ e he
    rw [hsaid, hsinks] at he
    exact hfits e he
  rw [Rest.Tends, Meets] at hm
  cases hrun : m (w.meet (pristine d l.pid) l.pid) with
  | ok a t =>
    rw [hrun] at hm hquiet
    refine h.settle (hsaid hm.2) ?_
    rintro _ _ ⟨⟩
    refine hm.1.flush fun hfollows hstrays => ?_
    by_contra hnot
    refine hquiet ⟨hfollows, _, t.sinks, Function.update_self .., rfl, hstrays, ?_, ?_⟩
    · exact Bool.eq_false_of_not_eq_true fun hqueued => hnot (Or.inl (exists_queued hqueued))
    · exact Bool.eq_false_of_not_eq_true fun hongoing =>
        hnot (Or.inr ((hd.habitual l.pid .same).valued (s := { t with sinks := [] }) hfollows hongoing))
  | error e t =>
    rw [hrun] at hm
    exact h.settle (hsaid hm) fun _ _ hok => by cases hok

variable [NeZero n] {mentions : (Nat → Prop) → (Nat → Prop) → R → Prop}
  {committer : Nat → Option (Fin n)} {named : Prop} {hr : Regular d mentions committer named}

theorem Tidy.step (hd : Accustomed d y) (h : w.Tidy d y) (hs : Sound hr w)
    (hspare : ∀ state, wakeUp state s = wakeUp state (pristine d l.pid))
    (hquiet : ¬ w.Drifts d (fun p => (y p).follows) l w') (hstep : w.step d s l = some w') :
    w'.Tidy d y := by
  have hmeet : ∀ w : World n R, w.meet s l.pid = w.meet (pristine d l.pid) l.pid := by
    intro w
    rw [World.meet, World.meet]
    split
    · rfl
    · exact hspare _
  have hempty : Empty mentions (pristine d l.pid) :=
    ⟨rfl, rfl, rfl, rfl, fun K held => hr.fresh l.pid K held⟩
  cases l with
  | submit p command order =>
    replace hmeet : w.meet s p = w.meet (pristine d p) p := hmeet w
    rw [World.step] at hstep
    split at hstep
    · rename_i hc
      rw [hmeet] at hstep
      cases hstep
      exact h.turn hd hc ((hd.habitual p order).onCommand_tends (h.meet hd hc).1) rfl hquiet
    · cases hstep
  | receive src p order =>
    replace hmeet := hmeet (w.popLink src p)
    change World.meet s p _ = World.meet (pristine d p) p _ at hmeet
    rw [World.step] at hstep
    split at hstep
    · cases hstep
    · rename_i packet rest hlink
      split at hstep
      · rename_i hc
        have hpop := h.popLink src p
        dsimp only at hstep
        split at hstep
        · cases hstep
          exact ⟨hpop.awake, hpop.links⟩
        · rw [hmeet] at hstep
          cases hstep
          refine hpop.turn hd hc ?_ rfl hquiet
          have hpacket := hs.links src p packet (hlink ▸ List.mem_cons_self)
          exact (hd.habitual p order).onPacket_tends (x := hr.watch (w.popLink src p) p)
            (Regular.supplied hr order p _) ((hs.popLink src p).meet hempty).1
            ((hs.popLink src p).tells hempty hpacket) (hpop.meet hd hc).1
      · cases hstep
  | sleep p =>
    rw [World.step] at hstep
    split at hstep
    · cases hstep
    · split at hstep
      · cases hstep
        refine ⟨fun q shard hplace hc => ?_, h.links⟩
        rcases eq_or_ne q p with rfl | hne
        · cases (Function.update_self q _ _).symm.trans hplace
        · exact h.awake q shard ((Function.update_of_ne hne ..).symm.trans hplace) hc
      · cases hstep

theorem Serving.tidy (hd : Accustomed d y) (hr : Regular d mentions committer named)
    {ok : World n R → Label n → World n R → Prop}
    (hok : ∀ w l w', ok w l w' → ¬ w.Drifts d (fun p => (y p).follows) l w')
    {labels : List (Label n)} (h : Serving d ok labels w) : w.Tidy d y := by
  induction h with
  | init => exact .init
  | step hw ho hs hstep hl ihw iho =>
    exact ihw.step hd (hw.reachable.sound hr) (iho.spare hd hs) (hok _ _ _ hl) hstep

-- The run with the pool and the one without it look the same from outside.
theorem Serving.sleepless (hd : Accustomed d y) (hr : Regular d mentions committer named)
    {ok : World n R → Label n → World n R → Prop}
    (hok : ∀ w l w', ok w l w' → ¬ w.Drifts d (fun p => (y p).follows) l w')
    (hlate : ∀ w l w', ok w l w' → w.answeredLate l = false)
    {labels : List (Label n)} (h : Serving d ok labels w) :
    (vigil d).follow d (labels.filter fun l => !l.isSleep) = some (w.sleepless d) := by
  induction h with
  | init => rfl
  | @step labels others w w' other spare l hw ho hs hstep hl ihw iho =>
    have htidy := hw.tidy hd hr hok
    rw [List.filter_append, follow, List.foldlM_append]
    rw [follow] at ihw
    rw [ihw]
    cases hsleep : l.isSleep with
    | true =>
      cases l with
      | sleep p => exact congrArg some (sleep_sleepless hd htidy hstep).symm
      | _ => cases hsleep
    | false =>
      have hawake := step_sleepless hd htidy hsleep ((ho.tidy hd hr hok).spare hd hs)
        (hlate _ _ _ hl) hstep
      rw [List.filter_cons_of_pos (by rw [hsleep]; rfl), List.filter_nil]
      change ((w.sleepless d).step d (pristine d l.pid) l).bind some = _
      rw [hawake]
      rfl

end World

namespace SlotAlgorithm

variable [NeZero n]

def roundStateIsClear : (a : SlotAlgorithm n) → a.RoundState → Bool
  | paxosFamily f => fun r => r.isClear f.startingRound
  | kcensus _ => Census.RoundState.isClear

-- A process that enters the rounds of others without a vote in them.
def follows : SlotAlgorithm n → Fin n → Bool
  | paxosFamily f => fun p => f.mode.isSwift && !f.replica p
  | kcensus _ => fun _ => false

def rest : (a : SlotAlgorithm n) → (p : Fin n) → Rest p a.RoundState
  | paxosFamily f => fun p => f.rest p
  | kcensus k => fun p => k.rest p

theorem accustomed (a : SlotAlgorithm n) : Accustomed a.deployment a.rest := by
  cases a with
  | paxosFamily f =>
    exact ⟨fun p order => PaxosFamily.Rests.habitual, fun _ => rfl, fun _ => rfl, fun _ _ => rfl⟩
  | kcensus k =>
    exact ⟨fun p order => KCensusSettings.Rests.habitual, fun _ => rfl, fun _ => rfl, fun _ _ => rfl⟩

theorem follows_rest (a : SlotAlgorithm n) (p : Fin n) : (a.rest p).follows = a.follows p := by
  cases a with
  | paxosFamily f => rfl
  | kcensus k => rfl

theorem fresh_clear (a : SlotAlgorithm n) (p : Fin n) :
    a.roundStateIsClear (a.deployment.newRoundState p) = true := by
  cases a with
  | paxosFamily f => simp [roundStateIsClear, deployment, PaxosFamily.deployment,
      PaxosFamily.newRoundState, PaxosFamilyRoundState.new, PaxosFamilyRoundState.isClear,
      Tally.empty, Lib.HashMap.isEmpty]
  | kcensus k => simp [roundStateIsClear, deployment, KCensusSettings.deployment,
      KCensusSettings.newRoundState, Census.RoundState.new, Census.RoundState.isClear,
      Census.NodeState.new]

-- The steps after which a shard is as if it had never slept.
def Undisturbed (a : SlotAlgorithm n) (w : World n a.RoundState) (l : Label n)
    (w' : World n a.RoundState) : Prop :=
  ¬ w.Drifts a.deployment a.follows l w' ∧ w.answeredLate l = false

end SlotAlgorithm

theorem slot_sleeping_invisible [NeZero n] (a : SlotAlgorithm n) {labels : List (Label n)}
    {w : World n a.RoundState} (h : World.Serving a.deployment a.Undisturbed labels w) :
    (∀ p s, w.places p = .awake s → w.crashed p = none → a.deployment.canSleep p s = true →
      a.roundStateIsClear s.roundState = true) ∧
    ∃ w', (World.vigil a.deployment).follow a.deployment (labels.filter fun l => !l.isSleep) = some w' ∧
      (∀ p, ∃ s, w'.places p = .awake s) ∧ w'.links = w.links ∧ w'.crashed = w.crashed ∧
      w'.hist = w.hist := by
  have hok : ∀ (w : World n a.RoundState) l w', a.Undisturbed w l w' →
      ¬ w.Drifts a.deployment (fun p => (a.rest p).follows) l w' := fun w l w' hl => by
    rw [funext a.follows_rest]
    exact hl.1
  have hlate : ∀ (w : World n a.RoundState) l w', a.Undisturbed w l w' → w.answeredLate l = false :=
    fun _ _ _ hl => hl.2
  refine ⟨fun p s hplace hc hsleep => ?_, w.sleepless a.deployment, ?_, fun p => ⟨_, rfl⟩, rfl, rfl, rfl⟩
  · obtain ⟨htidy, hsinks⟩ := (h.tidy a.accustomed a.regular hok).awake p s hplace hc
    rw [(htidy.idle (a.accustomed.habitual p .same) hsinks hsleep).1, a.accustomed.idle]
    exact a.fresh_clear p
  · exact h.sleepless a.accustomed a.regular hok hlate

namespace World

-- The steps of `labels`, as long as no answer comes late.
def followInTime (d : Deployment n R) (labels : List (Label n)) (w : World n R) :
    Option (World n R) :=
  labels.foldlM (fun w l => if w.answeredLate l then none else w.step d (pristine d l.pid) l) w

theorem Serving.followInTime {d : Deployment n R} {ok : World n R → Label n → World n R → Prop}
    (hfresh : ∀ p, d.canSleep p (pristine d p) = true)
    (hok : ∀ w l w', w.answeredLate l = false → ok w l w') {labels later : List (Label n)}
    {w w' : World n R} (h : Serving d ok labels w) (hw : w.followInTime d later = some w') :
    Serving d ok (labels ++ later) w' := by
  induction later generalizing labels w with
  | nil =>
    cases hw
    rwa [List.append_nil]
  | cons l later ih =>
    rw [World.followInTime, List.foldlM_cons, Option.bind_eq_bind, Option.bind_eq_some_iff] at hw
    obtain ⟨mid, hstep, hrest⟩ := hw
    split at hstep
    · cases hstep
    · rename_i htime
      have hnext := h.step .init ⟨rfl, rfl, hfresh l.pid⟩ hstep
        (hok w l mid (Bool.eq_false_of_not_eq_true htime))
      rw [List.append_cons]
      exact ih hnext hrest

end World

namespace ePaxosFour

def read (p : Fin 4) : Label 4 := .submit p ⟨p, 0, [], true, 0, none⟩ .same

-- A read of 0 is served by what 1 answers, and 0 sleeps when 2 answers too.
def timelyAnswer : List (Label 4) :=
  [read 0, receive 0 1, .sleep 1, receive 1 0, .sleep 0, receive 0 2, .sleep 2, receive 2 0, submit 0]

-- The same, but 2 has voted for the write of 1 by then; 0 proposes a write of its own next.
def lateAnswer : List (Label 4) :=
  [read 0, receive 0 1, .sleep 1, receive 1 0, .sleep 0, submit 1, receive 1 2, receive 0 2,
    receive 2 0, submit 0]

end ePaxosFour

theorem slot_sleeping_invisible_ePaxosFour : ∃ w w',
    World.init.followInTime ePaxosFour.deployment ePaxosFour.timelyAnswer = some w ∧
    (World.vigil ePaxosFour.deployment).follow ePaxosFour.deployment
      (ePaxosFour.timelyAnswer.filter fun l => !l.isSleep) = some w' ∧
    w'.links = w.links ∧ w'.hist = w.hist := by
  have hsome : (World.init.followInTime ePaxosFour.deployment ePaxosFour.timelyAnswer).isSome =
      true := by decide +kernel
  obtain ⟨w, hw⟩ := Option.isSome_iff_exists.1 hsome
  have h : World.Serving ePaxosFour.deployment (SlotAlgorithm.paxosFamily ePaxosFour).Undisturbed
      ePaxosFour.timelyAnswer w := by
    refine World.Serving.init.followInTime (fun _ => rfl) (fun _ l _ htime => ⟨?_, htime⟩) hw
    exact fun hdrifts => Bool.false_ne_true hdrifts.1
  obtain ⟨w', hw', -, hlinks, -, hhist⟩ := (slot_sleeping_invisible (.paxosFamily ePaxosFour) h).2
  exact ⟨w, w', hw, hw', hlinks, hhist⟩

-- Three replicas and a client.
def swiftFour : PaxosFamily 4 where
  cluster := { ePaxosFour.cluster with sendPaxosMessagesToAll := true }
  mode := .swiftPaxos none
  committers := none
  leaders_alive := by decide
  toAll_eq := rfl
  swift_leader := by decide
  swift_committers := by decide

namespace World

-- A process that may sleep in a round that it has entered.
def restsUnclear (f : PaxosFamily 4) (w : World 4 (PaxosFamilyRoundState 4)) (p : Fin 4) : Bool :=
  match w.places p with
  | .awake s => decide (w.crashed p = none) && f.deployment.canSleep p s &&
      !s.roundState.isClear f.startingRound
  | .asleep _ => false

end World

theorem slot_sleeping_visible :
    (∃ w, World.Reachable swiftFour.deployment w ∧ ∃ s, w.places 3 = .awake s ∧ w.crashed 3 = none ∧
      swiftFour.deployment.canSleep 3 s = true ∧
      SlotAlgorithm.roundStateIsClear (.paxosFamily swiftFour) s.roundState = false) ∧
    ∃ w w', World.init.follow ePaxosFour.deployment ePaxosFour.lateAnswer = some w ∧
      (World.vigil ePaxosFour.deployment).follow ePaxosFour.deployment
        (ePaxosFour.lateAnswer.filter fun l => !l.isSleep) = some w' ∧ w'.hist ≠ w.hist := by
  constructor
  · have hrun : (World.init.follow swiftFour.deployment
        [ePaxosFour.submit 1, ePaxosFour.receive 1 0, ePaxosFour.receive 0 3]).any
        (World.restsUnclear swiftFour · 3) = true := by decide +kernel
    obtain ⟨w, hw, hrest⟩ := (Option.any_eq_true _ _).1 hrun
    refine ⟨w, .follow (fun _ => rfl) .init hw, ?_⟩
    rw [World.restsUnclear] at hrest
    split at hrest
    · rename_i s hplace
      simp only [Bool.and_eq_true, decide_eq_true_eq, Bool.not_eq_true'] at hrest
      exact ⟨s, hplace, hrest.1.1, hrest.1.2, hrest.2⟩
    · cases hrest
  · have hrun : ((World.init.follow ePaxosFour.deployment ePaxosFour.lateAnswer).bind fun w =>
        ((World.vigil ePaxosFour.deployment).follow ePaxosFour.deployment
          (ePaxosFour.lateAnswer.filter fun l => !l.isSleep)).map fun w' =>
            decide (w'.hist ≠ w.hist)) = some true := by decide +kernel
    obtain ⟨w, hw, hawake⟩ := Option.bind_eq_some_iff.1 hrun
    obtain ⟨w', hw', hne⟩ := Option.map_eq_some_iff.1 hawake
    exact ⟨w, w', hw, hw', of_decide_eq_true hne⟩

end KCensus.Slots

import KCensus.Slots.Algorithms

namespace KCensus.Slots

open Lib.Turn (Meets)
open Watch ConsensusShard

variable {n : Nat} [NeZero n] {R : Type} {d : Deployment n R}
  {mentions : (Nat → Prop) → (Nat → Prop) → R → Prop} {committer : Nat → Option (Fin n)} {named : Prop}
  {w w' : World n R} {p : Fin n} {s : ConsensusShard n R}

namespace World

-- No process that runs has a message in its queue that it could handle.
def Settled (w : World n R) : Prop :=
  ∀ p s, w.places p = .awake s → w.crashed p = none → Slots.Settled p s

def Calm (w : World n R) : Prop :=
  ∀ p s, w.places p = .awake s → w.crashed p = none → Slots.Calm p s

-- The step takes in a message that has to wait, with the last value that one in the queue needs.
def Overtakes (w : World n R) : Label n → Prop
  | .receive src p _ => ∃ packet s, (w.links src p).head? = some packet ∧
      w.places p = .awake s ∧ s.Overtaken p packet
  | _ => False

omit [NeZero n] in
theorem overtakes_receive (w : World n R) (src p : Fin n) (order : HashOrder n) :
    w.Overtakes (.receive src p order) ↔ ∃ packet ∈ (w.links src p).head?,
      ∃ s ∈ (w.places p).shard?, s.Overtaken p packet := by
  simp only [Overtakes, Option.mem_def]
  refine exists_congr fun packet => ?_
  cases w.places p with
  | awake shard => simp [Place.shard?]
  | asleep state => simp [Place.shard?]

instance (w : World n R) : (l : Label n) → Decidable (w.Overtakes l)
  | .receive src p order => decidable_of_iff _ (w.overtakes_receive src p order).symm
  | .submit .. => isFalse id
  | .sleep _ => isFalse id

omit [NeZero n] in
theorem Calm.meet (h : w.Calm) (hc : w.crashed p = none) (hempty : Empty mentions s) :
    Slots.Calm p (w.meet s p) := by
  rw [World.meet]
  cases hplace : w.places p with
  | awake shard => exact h p shard hplace hc
  | asleep state =>
    intro m hm
    simp only [ConsensusShard.wakeUp, hempty.messages] at hm
    exact absurd hm List.not_mem_nil

omit [NeZero n] in
theorem Calm.settle (h : w.Calm) {α : Type}
    {r : EStateM.Result Panic (ConsensusShard n R) α}
    (hr : ∀ a t, r = .ok a t → Slots.Calm p t) : (w.settle d p r).Calm := by
  intro q s hplace hc
  rcases eq_or_ne q p with rfl | hne
  · have hs : Place.awake { Lib.Turn.state r with sinks := [] } = .awake s :=
      (Function.update_self q _ _).symm.trans hplace
    have hfail : failure r = none := (Function.update_self q _ _).symm.trans hc
    cases r with
    | ok a t =>
      cases hs
      exact hr a t rfl
    | error e t => cases hfail
  · exact h q s ((Function.update_of_ne hne ..).symm.trans hplace)
      ((Function.update_of_ne hne ..).symm.trans hc)

theorem Calm.step (h : w.Calm) (hd : Regular d mentions committer named) (hs : Sound hd w)
    {l : Label n} (hempty : Empty mentions s) (hnot : ¬ w.Overtakes l)
    (hstep : w.step d s l = some w') : w'.Calm := by
  cases l with
  | submit p command order =>
    rw [World.step] at hstep
    split at hstep
    · rename_i hc
      cases hstep
      refine h.settle fun a t hok => ?_
      have hturn := hs.command (p := p) hempty order command
      rw [Meets, hok] at hturn
      exact hturn.2.calm (hs.meet hempty).1 (h.meet hc hempty)
    · cases hstep
  | receive src p order =>
    rw [World.step] at hstep
    split at hstep
    · cases hstep
    · rename_i packet rest hlink
      split at hstep
      · rename_i hc
        have hpop : (w.popLink src p).Calm := h
        dsimp only at hstep
        split at hstep
        · cases hstep
          exact hpop
        · cases hstep
          refine hpop.settle fun a t hok => ?_
          have hpacket := hs.links src p packet (hlink ▸ List.mem_cons_self)
          have hturn := (hs.popLink src p).packet (p := p) hempty order hpacket
          rw [Meets, hok] at hturn
          refine hturn.2 (hpop.meet hc hempty) fun hover => hnot ?_
          rw [World.meet] at hover
          cases hplace : (w.popLink src p).places p with
          | awake shard =>
            rw [hplace] at hover
            exact ⟨packet, shard, by rw [hlink]; rfl, hplace, hover⟩
          | asleep state =>
            rw [hplace] at hover
            obtain ⟨-, m, hm, -⟩ := hover
            simp only [ConsensusShard.wakeUp, hempty.messages] at hm
            exact absurd hm List.not_mem_nil
      · cases hstep
  | sleep p =>
    rw [World.step] at hstep
    split at hstep
    · cases hstep
    · split at hstep
      · cases hstep
        intro q s' hplace hc
        rcases eq_or_ne q p with rfl | hne
        · simp only [Function.update_self] at hplace
          cases hplace
        · simp only [Function.update_of_ne hne] at hplace
          exact h q s' hplace hc
      · cases hstep

end World

theorem World.Run.calm {a : SlotAlgorithm n} {w : World n a.RoundState}
    (h : World.Run a.deployment (fun w l => ¬ w.Overtakes l) w) : w.Calm := by
  induction h with
  | init => exact fun p s hplace => nomatch hplace
  | step hw ho hs hok hstep ih =>
    exact ih.step a.regular (hw.reachable.sound a.regular) ((ho.sound a.regular).spare hs) hok hstep

theorem no_lost_wakeup (a : SlotAlgorithm n) {w : World n a.RoundState}
    (h : World.Run a.deployment (fun w l => ¬ w.Overtakes l) w) : w.Settled :=
  fun p s hplace hc m hm => (h.calm p s hplace hc m hm).1

-- Four processes a nanosecond apart, of which the last does not vote, with the graphs of the plan
-- for them: a proposer asks everyone, and the replicas answer the leader.
namespace uniformFour

open Propagation (KnowledgeState Schedule PropagationGraph MessageId)

def topology : Topology 4 where
  replicas := {0, 1, 2}
  aliveReplicas := {0, 1, 2}
  linkLatency := fun src dest => if src = dest then 0 else 1
  alive_subset := fun _ h => h

def asking (p : Fin 4) : KnowledgeState 4 where
  knowledge := fun q => if q = p then {p} else ∅
  remoteStates := fun _ => 0
  dependencies := ∅
  neededBy := ((List.finRange 4).filter (· ≠ p)).map fun dest => ⟨p, p, dest, 0⟩

def unaware : KnowledgeState 4 := ⟨fun _ => ∅, fun _ => 0, ∅, []⟩

def answering (p leader q : Fin 4) : KnowledgeState 4 where
  knowledge := fun i => if i = q then {p, q} else if i = p then {p} else ∅
  remoteStates := fun i => if i = q then 1 else 0
  dependencies := {⟨p, p, q, 0⟩}
  neededBy := if q ≠ 3 ∧ q ≠ leader then [⟨p, q, leader, 1⟩] else []

def deciding (p leader : Fin 4) : KnowledgeState 4 where
  knowledge := fun q =>
    if q = leader then {0, 1, 2, p} else if q ≠ 3 then {q, p} else if q = p then {p} else ∅
  remoteStates := fun q => if q = leader then 2 else if q ≠ 3 ∧ q ≠ p then 1 else 0
  dependencies := (Finset.univ.filter fun q => q ≠ 3 ∧ q ≠ leader).image fun q => ⟨p, q, leader, 1⟩
  neededBy := []

def states (p leader q : Fin 4) : List (Nat × KnowledgeState 4) :=
  (if q = p then [(0, asking p)] else [(0, unaware), (1, answering p leader q)]) ++
    if q = leader then [(2, deciding p leader)] else []

def schedule (p leader q : Fin 4) : Schedule 4 where
  states := states p leader q
  increasing := by
    rw [states]
    split <;> split <;> simp
  initial := by
    rw [states]
    split <;> split <;> rfl
  nanos := by
    rw [states]
    split <;> split <;> simp

def graph (p leader : Fin 4) : PropagationGraph 4 where
  shouldIncludeValue := (Finset.univ.filter (· ≠ p)).image fun dest => ⟨p, p, dest, 0⟩
  states := schedule p leader
  leader := leader

def settings : KCensusSettings 4 where
  cluster := ⟨topology, [0], false, by simp⟩
  graphs := ⟨fun p => graph p (if p = 3 then 0 else p), topology⟩

def deployment : Deployment 4 (Census.RoundState 4) := settings.deployment

def write (p : Fin 4) : Command 4 := ⟨p, 0, [], false, 0, none⟩

def submit (p : Fin 4) : Label 4 := .submit p (write p) .same

def receive (src p : Fin 4) : Label 4 := .receive src p .same

-- Three proposals meet; 2 decides for a batch of two, and 3 hears of it.
def decision : List (Label 4) :=
  [submit 0, submit 1, submit 2, receive 0 1, receive 1 0, receive 2 0, receive 0 2, receive 0 2,
    receive 2 0, receive 2 0, receive 0 2, receive 0 3, receive 2 3, receive 2 3, receive 2 3]

-- 3 proposes for the next slot. 1, which has not heard of the decision, opens a batch with this
-- value; 0 has to wait with it, and then has to wait with the message that brings the value.
def overtaking : List (Label 4) :=
  decision ++ [submit 3, receive 3 1, receive 0 1, receive 1 0, receive 1 0, receive 3 0]

end uniformFour

def World.holdsBack (w : World n R) (p : Fin n) : Bool :=
  (w.places p).shard?.any fun s => !s.queuedMessages.isEmpty

-- Up to the step that goes wrong below, 0 and 1 each have a message that waits.
theorem no_lost_wakeup_uniformFour : ∃ w,
    World.init.followIf uniformFour.deployment (fun w l => ¬ w.Overtakes l)
      uniformFour.overtaking.dropLast = some w ∧
    w.holdsBack 0 = true ∧ w.holdsBack 1 = true ∧ w.Settled := by
  have hrun : (World.init.followIf uniformFour.deployment (fun w l => ¬ w.Overtakes l)
      uniformFour.overtaking.dropLast).any (fun w => w.holdsBack 0 && w.holdsBack 1) = true := by
    decide +kernel
  obtain ⟨w, hw, hholds⟩ := (Option.any_eq_true _ _).1 hrun
  obtain ⟨hzero, hone⟩ := Bool.and_eq_true_iff.1 hholds
  have h : World.Run uniformFour.deployment (fun w l => ¬ w.Overtakes l) w :=
    .followIf (fun _ => rfl) .init hw
  exact ⟨w, hw, hzero, hone, no_lost_wakeup (.kcensus uniformFour.settings) h⟩

namespace World

def leavesReady (w : World n R) (p : Fin n) : Bool :=
  match w.places p with
  | .awake s => decide (w.crashed p = none) &&
      s.queuedMessages.any fun m => decide (s.readyToProcess p m = .ok true)
  | .asleep _ => false

omit [NeZero n] in
theorem not_settled (h : w.leavesReady p = true) : ¬ w.Settled := by
  intro hsettled
  rw [leavesReady] at h
  split at h
  · rename_i s hplace
    rw [Bool.and_eq_true, decide_eq_true_eq, List.any_eq_true] at h
    obtain ⟨hc, m, hm, hready⟩ := h
    exact hsettled p s hplace hc m hm (of_decide_eq_true hready)
  · cases h

end World

theorem overtaken_wakeup_lost :
    ∃ w, World.Reachable uniformFour.deployment w ∧ ¬ w.Settled := by
  have hrun : (World.init.follow uniformFour.deployment uniformFour.overtaking).any
      (World.leavesReady · 0) = true := by decide +kernel
  obtain ⟨w, hw, hready⟩ := (Option.any_eq_true _ _).1 hrun
  exact ⟨w, .follow (fun _ => rfl) .init hw, World.not_settled hready⟩

end KCensus.Slots

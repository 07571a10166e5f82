import KCensus.Slots.KCensusFrames
import KCensus.Slots.PaxosFamily.Frames
import KCensus.Slots.Reach

namespace KCensus.Slots

variable {n : Nat} [NeZero n]

-- The algorithms that decide one slot after another.
inductive SlotAlgorithm (n : Nat) where
  | paxosFamily (f : PaxosFamily n)
  | kcensus (k : KCensusSettings n)

namespace SlotAlgorithm

def RoundState : SlotAlgorithm n → Type
  | paxosFamily _ => PaxosFamilyRoundState n
  | kcensus _ => Census.RoundState n

def deployment : (a : SlotAlgorithm n) → Deployment n a.RoundState
  | paxosFamily f => f.deployment
  | kcensus k => k.deployment

def mentions : (a : SlotAlgorithm n) → (Nat → Prop) → (Nat → Prop) → a.RoundState → Prop
  | paxosFamily f => fun K _ => f.Mentions K
  | kcensus _ => KCensusSettings.Mentions

-- The process that may decide on a uid without leading its round.
def getCommitter : SlotAlgorithm n → Nat → Option (Fin n)
  | paxosFamily f => f.getCommitter
  | kcensus _ => fun _ => none

-- Whether a process knows by itself that its Commit names what it decides.
def Named : SlotAlgorithm n → Prop
  | paxosFamily f => f.mode ≠ .ePaxos
  | kcensus _ => True

theorem regular (a : SlotAlgorithm n) :
    Regular a.deployment a.mentions a.getCommitter a.Named := by
  cases a with
  | paxosFamily f =>
    exact ⟨fun hK _ h => h.mono hK, fun order hx hn => PaxosFamily.Watches.lawful ⟨hx, hn⟩,
      fun p K held => ⟨⟨nofun, fun _ p v hv => by cases hv⟩, fun _ _ => rfl⟩⟩
  | kcensus k =>
    exact ⟨fun hK hheld h => h.mono hK hheld, fun order hx _ => KCensusSettings.Watches.lawful hx,
      fun p K held => .of_empty fun _ => rfl⟩

end SlotAlgorithm

end KCensus.Slots

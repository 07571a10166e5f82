import KCensus.Command

namespace KCensus.Slots

variable {n : Nat}

structure ReadOnlyCommand (n : Nat) where
  command : Command n
  readyCount : Nat
  localReady : Bool
deriving DecidableEq

-- Ids grow, so the order of issue is the order of the ids.
structure ReadTracker (n : Nat) where
  nextId : Nat
  readQuorum : Nat
  readCommands : List (Nat × ReadOnlyCommand n)
deriving DecidableEq

def ReadOnlyCommand.serve (roc : ReadOnlyCommand n) (slot : Nat) (fast : Bool) : Command n :=
  { roc.command with report := some ⟨fast, slot - roc.command.arrivalSlot⟩ }

namespace ReadTracker

def new (readQuorum : Nat) : ReadTracker n := ⟨0, readQuorum, []⟩

def isEmpty (t : ReadTracker n) : Bool := t.readCommands.isEmpty

def insert (t : ReadTracker n) (command : Command n) (localReady : Bool) : ReadTracker n :=
  { t with
    nextId := t.nextId + 1
    readCommands := t.readCommands ++ [(t.nextId, ⟨command, localReady.toNat, localReady⟩)] }

def countLocal (roc : ReadOnlyCommand n) : ReadOnlyCommand n :=
  if roc.localReady then roc else { roc with readyCount := roc.readyCount + 1, localReady := true }

def afterCommit (t : ReadTracker n) : List (Nat × ReadOnlyCommand n) :=
  t.readCommands.map fun entry => (entry.1, countLocal entry.2)

def commitSlot (t : ReadTracker n) (slot : Nat) : ReadTracker n × List (Nat × Command n) :=
  ({ t with readCommands := t.afterCommit.filter fun entry => entry.2.readyCount < t.readQuorum },
    (t.afterCommit.filter fun entry => t.readQuorum ≤ entry.2.readyCount).map fun entry =>
      (entry.1, entry.2.serve slot false))

def find (t : ReadTracker n) (id : Nat) : Option (ReadOnlyCommand n) :=
  (t.readCommands.find? (·.1 = id)).map Prod.snd

def receiveReady (t : ReadTracker n) (id slot : Nat) (fast : Bool) :
    ReadTracker n × Option (Command n) :=
  match t.find id with
  | none => (t, none)
  | some roc =>
      let roc := { roc with readyCount := roc.readyCount + 1 }
      if t.readQuorum ≤ roc.readyCount then
        ({ t with readCommands := t.readCommands.filter (·.1 ≠ id) }, some (roc.serve slot fast))
      else
        ({ t with
            readCommands := t.readCommands.map fun entry =>
              if entry.1 = id then (id, roc) else entry },
          none)

-- Only reads are ever tracked.
def ReadsOnly (t : ReadTracker n) : Prop :=
  ∀ entry ∈ t.readCommands, entry.2.command.readOnly = true

namespace ReadsOnly

variable {t : ReadTracker n}

theorem insert (h : t.ReadsOnly) {command : Command n} (hread : command.readOnly = true)
    (localReady : Bool) : (t.insert command localReady).ReadsOnly := by
  intro entry he
  rcases List.mem_append.1 he with hold | hnew
  · exact h entry hold
  · exact List.mem_singleton.1 hnew ▸ hread

theorem afterCommit (h : t.ReadsOnly) :
    ∀ entry ∈ t.afterCommit, entry.2.command.readOnly = true := by
  intro entry he
  obtain ⟨old, hold, rfl⟩ := List.mem_map.1 he
  have hread := h old hold
  rw [countLocal]
  split
  · exact hread
  · exact hread

theorem commitSlot (h : t.ReadsOnly) (slot : Nat) : (t.commitSlot slot).1.ReadsOnly :=
  fun entry he => h.afterCommit entry (List.mem_filter.1 he).1

theorem receiveReady (h : t.ReadsOnly) (id slot : Nat) (fast : Bool) :
    (t.receiveReady id slot fast).1.ReadsOnly ∧
      ∀ command, (t.receiveReady id slot fast).2 = some command → command.readOnly = true := by
  rw [ReadTracker.receiveReady]
  split
  · exact ⟨h, nofun⟩
  · rename_i roc hfind
    obtain ⟨found, hfound, hroc⟩ := Option.map_eq_some_iff.1 hfind
    have hread : roc.command.readOnly = true := hroc ▸ h found (List.mem_of_find?_eq_some hfound)
    dsimp only
    split
    · refine ⟨fun entry he => h entry (List.mem_filter.1 he).1, ?_⟩
      rintro _ ⟨⟩
      exact hread
    · refine ⟨fun entry he => ?_, nofun⟩
      obtain ⟨old, hold, rfl⟩ := List.mem_map.1 he
      split
      · exact hread
      · exact h old hold

end ReadsOnly

end ReadTracker

end KCensus.Slots

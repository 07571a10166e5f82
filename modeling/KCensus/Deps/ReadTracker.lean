import KCensus.Command
import KCensus.Deps.Executed

namespace KCensus.Deps

variable {n : Nat}

structure PendingRead (n : Nat) where
  command : Command n
  union : DepSet n
  answers : Nat
  leaderSeen : Option (DepSet n)
  report : Option CommitReport

-- Ids grow, so the order of issue is the order of the ids.
structure ReadTracker (n : Nat) where
  nextId : Nat
  readQuorum : Nat
  leader : Option (Fin n)
  reads : List (Nat × PendingRead n)

namespace PendingRead

def required (read : PendingRead n) : DepSet n :=
  match read.leaderSeen with
  | some leaderSeen => read.union.intersectWith leaderSeen
  | none => read.union

def covered (read : PendingRead n) (executed : Executed n) : Bool :=
  (read.required.pendingOver executed).isEmpty

def receive (read : PendingRead n) (quorum : Nat) (leader : Option (Fin n)) (src : Fin n)
    (seen : DepSet n) : PendingRead n :=
  if read.answers < quorum then
    { read with
      answers := read.answers + 1
      union := read.union.unionWith seen
      leaderSeen := if leader = some src then read.leaderSeen.or (some seen) else read.leaderSeen }
  else read

def noteReport (read : PendingRead n) (executed : Executed n) : PendingRead n :=
  { read with
    report := read.report.or (some
      { fast := read.covered executed
        waitedFor := (read.required.pendingOver executed).length }) }

end PendingRead

namespace ReadTracker

def new (readQuorum : Nat) (leader : Option (Fin n)) : ReadTracker n := ⟨0, readQuorum, leader, []⟩

def isEmpty (t : ReadTracker n) : Bool := t.reads.isEmpty

def insert (t : ReadTracker n) (command : Command n) : ReadTracker n :=
  { t with
    nextId := t.nextId + 1
    reads := t.reads ++ [(t.nextId, ⟨command, DepSet.new n, 0, none, none⟩)] }

def receive (t : ReadTracker n) (id : Nat) (src : Fin n) (seen : DepSet n) : ReadTracker n :=
  { t with
    reads := t.reads.map fun (rid, read) =>
      (rid, if rid = id then read.receive t.readQuorum t.leader src seen else read) }

def isReady (t : ReadTracker n) (executed : Executed n) (read : PendingRead n) : Bool :=
  decide (t.readQuorum ≤ read.answers) && read.covered executed

def ready (t : ReadTracker n) (executed : Executed n) : List (Nat × Command n) :=
  (t.reads.filter fun entry => t.isReady executed entry.2).map fun (id, read) =>
    (id, { read.command with report := (read.noteReport executed).report })

def takeReady (t : ReadTracker n) (executed : Executed n) : ReadTracker n :=
  { t with
    reads := (t.reads.filter fun entry => !t.isReady executed entry.2).map fun (id, read) =>
      (id, if t.readQuorum ≤ read.answers then read.noteReport executed else read) }

theorem mem_receive {t : ReadTracker n} {id rid : Nat} {read : PendingRead n} {src : Fin n}
    {seen : DepSet n} (h : (id, read) ∈ (t.receive rid src seen).reads) :
    ∃ read', (id, read') ∈ t.reads ∧
      (id ≠ rid ∧ read = read' ∨ id = rid ∧ read = read'.receive t.readQuorum t.leader src seen) := by
  obtain ⟨⟨id', read'⟩, hmem, heq⟩ := List.mem_map.1 h
  simp only [Prod.mk.injEq] at heq
  obtain ⟨rfl, rfl⟩ := heq
  refine ⟨read', hmem, ?_⟩
  split
  · exact Or.inr ⟨‹_›, rfl⟩
  · exact Or.inl ⟨‹_›, rfl⟩

theorem mem_insert {t : ReadTracker n} {command : Command n} {id : Nat} {read : PendingRead n}
    (h : (id, read) ∈ (t.insert command).reads) :
    (id, read) ∈ t.reads ∨ id = t.nextId ∧ read = ⟨command, DepSet.new n, 0, none, none⟩ := by
  rcases List.mem_append.1 h with h | h
  · exact Or.inl h
  · cases List.mem_singleton.1 h
    exact Or.inr ⟨rfl, rfl⟩

theorem mem_takeReady {t : ReadTracker n} {executed : Executed n} {id : Nat} {read : PendingRead n}
    (h : (id, read) ∈ (t.takeReady executed).reads) :
    ∃ read', (id, read') ∈ t.reads ∧ (read = read' ∨ read = read'.noteReport executed) := by
  obtain ⟨⟨id', read'⟩, hmem, heq⟩ := List.mem_map.1 h
  simp only [Prod.mk.injEq] at heq
  obtain ⟨rfl, rfl⟩ := heq
  refine ⟨read', List.mem_of_mem_filter hmem, ?_⟩
  split
  · exact Or.inr rfl
  · exact Or.inl rfl

theorem mem_ready {t : ReadTracker n} {executed : Executed n} {id : Nat} {command : Command n}
    (h : (id, command) ∈ t.ready executed) :
    ∃ read, (id, read) ∈ t.reads ∧ t.isReady executed read = true ∧
      command = { read.command with report := (read.noteReport executed).report } := by
  obtain ⟨⟨id', read⟩, hmem, heq⟩ := List.mem_map.1 h
  obtain ⟨hmem, hready⟩ := List.mem_filter.1 hmem
  cases heq
  exact ⟨read, hmem, hready, rfl⟩

end ReadTracker

theorem PendingRead.command_receive (read : PendingRead n) (quorum : Nat) (leader : Option (Fin n))
    (src : Fin n) (seen : DepSet n) : (read.receive quorum leader src seen).command = read.command := by
  unfold PendingRead.receive
  split <;> rfl

end KCensus.Deps

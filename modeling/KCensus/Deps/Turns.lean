import KCensus.Deps.ExecutionOrder

namespace KCensus.Deps

variable {n : Nat} [NeZero n]

section

variable (c : Cluster n) (me : Fin n)

namespace Instance

def fresh (id : Uid) (commands : List (Command n)) : Instance n :=
  Instance.new (requesterOf n id) (c.leader (requesterOf n id)) commands (DepSet.new n)

def leaderAccepted (deps : DepSet n) (i : Instance n) : Instance n :=
  ((i.recordPreaccept me deps).accept deps).ackAccept me

def proposedBy (src : Fin n) (deps : DepSet n) (i : Instance n) : Instance n :=
  if c.inFastQuorum src then (i.setCoordinatorDeps deps).recordPreaccept src deps
  else i.setCoordinatorDeps deps

def voted (myDeps : DepSet n) (i : Instance n) : Instance n :=
  if c.isSwift = true ∧ c.leader me = me then (i.recordPreaccept me myDeps).leaderAccepted me myDeps
  else i.recordPreaccept me myDeps

def preAccepted (src : Fin n) (deps myDeps : DepSet n) (i : Instance n) : Instance n :=
  let i := i.proposedBy c src deps
  if i.isSettled then i
  else if c.inFastQuorum me then { i with deps := myDeps }.voted c me myDeps
  else { i with deps := myDeps }

def acceptedFrom (src : Fin n) (deps : DepSet n) (i : Instance n) : Instance n :=
  let i := if c.isSwift then i else i.markLeftFastPath
  if i.isSettled then i
  else
    let i := (i.accept deps).ackAccept src
    let i := if c.isSwift then i.recordPreaccept src deps else i
    if c.isReplica me then i.ackAccept me else i

def opened (initDeps : DepSet n) (commands : List (Command n)) : Instance n :=
  let i := Instance.new me (c.leader me) commands initDeps
  let i := if c.inFastQuorum me then i.recordPreaccept me initDeps else i
  let i := i.setCoordinatorDeps initDeps
  if c.isSwift && decide (me = c.leader me) then i.leaderAccepted me initDeps else i

omit [NeZero n] in
theorem settled_proposedBy (src : Fin n) (deps : DepSet n) (i : Instance n) :
    (i.proposedBy c src deps).isSettled = i.isSettled := by
  unfold proposedBy
  split
  · rw [settled_recordPreaccept]
    rfl
  · rfl

end Instance

-- SwiftPaxos answers to everybody, held back when acks are batched.
def ackEvent (id : Uid) (msg : DepMsg n) : Event n :=
  if c.batchAcks then .queueAck msg (requesterOf n id)
  else .broadcast ⟨msg, none⟩ (some (requesterOf n id))

def sendEvents (packet : Packet n) (dest : Fin n) : List (Event n) :=
  if dest = me then [] else [.send packet dest]

def voteEvents (src : Fin n) (id : Uid) (myDeps : DepSet n) (echoes : Bool) : List (Event n) :=
  .proposed id myDeps ::
    if c.isSwift then
      if c.leader me = me then [ackEvent c id (.accept id myDeps)]
      else [ackEvent c id (.preAcceptOk id (if echoes then none else some myDeps))]
    else sendEvents me ⟨.preAcceptOk id (if echoes then none else some myDeps), none⟩ src

def preAcceptEvents (src : Fin n) (id : Uid) (deps myDeps : DepSet n) (i : Instance n) :
    List (Event n) :=
  if i.isSettled = false ∧ c.inFastQuorum me = true then voteEvents c me src id myDeps (myDeps = deps)
  else []

def acceptEvents (src : Fin n) (id : Uid) (i : Instance n) : List (Event n) :=
  if i.isSettled = false ∧ c.isReplica me = true then
    if c.isSwift then [ackEvent c id (.acceptOk id)] else sendEvents me ⟨.acceptOk id, none⟩ src
  else []

def openEvents (id : Uid) (initDeps : DepSet n) (commands : List (Command n)) : List (Event n) :=
  [.created id commands, .proposed id initDeps,
    .broadcast ⟨.preAccept id initDeps, some commands⟩ none] ++
    if c.isSwift && decide (me = c.leader me) then [ackEvent c id (.accept id initDeps)] else []

end

namespace DepShard

variable {c : Cluster n} {me : Fin n} {s : DepShard n} {id : Uid} {i : Instance n}

def emitAll (events : List (Event n)) (s : DepShard n) : DepShard n :=
  { s with sinks := s.sinks ++ events }

theorem put_put (s : DepShard n) (id : Uid) (i j : Instance n) :
    (s.put id i).put id j = s.put id j := by
  simp only [put, InstanceTable.modify_modify]
  rfl

theorem get_put_self (h : s.instances.get id = some i) (j : Instance n) :
    (s.put id j).instances.get id = some j := by
  rw [get_put, if_pos rfl, h]
  rfl

theorem swiftLeaderAccept_eq (h : s.instances.get id = some i) (deps : DepSet n) :
    s.swiftLeaderAccept c me id deps =
      (s.put id (i.leaderAccepted me deps)).emitAll [ackEvent c id (.accept id deps)] := by
  rw [swiftLeaderAccept, withInstance_some h, ackEvent]
  split <;> rfl

theorem castVote_eq (h : s.instances.get id = some i) (src : Fin n) (deps : DepSet n)
    (echoes : Bool) : s.castVote c me src id deps echoes =
      (if c.isSwift = true ∧ c.leader me = me then s.put id (i.leaderAccepted me deps) else s).emitAll
        (voteEvents c me src id deps echoes) := by
  unfold castVote voteEvents sendEvents ackEvent Cluster.isSwift Cluster.leader
  cases hm : c.mode with
  | ePaxos coordinator =>
    simp only [send]
    split <;> simp [emitAll, emit]
  | swiftPaxos leader quorum =>
    by_cases hl : me = leader
    · simp only [hl, and_self, if_true]
      rw [swiftLeaderAccept_eq (by exact h)]
      simp [emitAll, emit, put, ackEvent]
    · have hl' : ¬ leader = me := Ne.symm hl
      simp only [if_neg hl, if_true]
      split <;> simp [hl', emitAll, emit, queueAck, priorityBroadcast]

theorem answerPreAccept_eq (h : s.instances.get id = some i) (src : Fin n) (deps : DepSet n) :
    s.answerPreAccept c me src id deps i =
      (s.put id (i.preAccepted c me src deps (s.ownDeps c id deps (keysOf i.commands)))).emitAll
        (preAcceptEvents c me src id deps (s.ownDeps c id deps (keysOf i.commands))
          (i.proposedBy c src deps)) := by
  unfold answerPreAccept preAcceptEvents Instance.preAccepted
  generalize s.ownDeps c id deps (keysOf i.commands) = myDeps
  have hp : (if c.inFastQuorum src then (i.setCoordinatorDeps deps).recordPreaccept src deps
      else i.setCoordinatorDeps deps) = i.proposedBy c src deps := rfl
  simp only [hp]
  generalize i.proposedBy c src deps = j
  by_cases hs : j.isSettled = true
  · simp [hs, emitAll]
  · simp only [hs, Bool.false_eq_true, if_false, true_and]
    by_cases hv : c.inFastQuorum me = true
    · simp only [hv, if_true]
      rw [castVote_eq (get_put_self h _)]
      unfold Instance.voted
      split <;> simp [put_put]
    · simp [hv, emitAll]

theorem answerAccept_eq (s : DepShard n) (src : Fin n) (id : Uid) (deps : DepSet n)
    (i : Instance n) : s.answerAccept c me src id deps i =
      (s.put id (i.acceptedFrom c me src deps)).emitAll (acceptEvents c me src id i) := by
  unfold answerAccept acceptEvents Instance.acceptedFrom sendEvents ackEvent
  have hset : (if c.isSwift then i else i.markLeftFastPath).isSettled = i.isSettled := by
    split <;> rfl
  simp only [hset]
  by_cases hs : i.isSettled = true
  · simp [hs, emitAll]
  · simp only [hs, Bool.false_eq_true, if_false, true_and]
    by_cases hr : c.isReplica me = true
    · simp only [hr, if_true]
      cases c.isSwift with
      | false =>
        simp only [Bool.false_eq_true, if_false, send]
        split <;> simp [emitAll, emit]
      | true =>
        simp only [if_true]
        split <;> simp [emitAll, emit, queueAck, priorityBroadcast]
    · simp [hr, emitAll]

theorem openInstance_eq (s : DepShard n) (id : Uid) (commands : List (Command n)) :
    s.openInstance c me id commands =
      { s.noteSeen c id (keysOf commands) with
        nextUid := s.nextUid.add n
        instances := s.instances.insert id
          (Instance.opened c me (s.depsFor c (keysOf commands)) commands)
        sinks := s.sinks ++ openEvents c me id (s.depsFor c (keysOf commands)) commands } := by
  unfold openInstance openEvents Instance.opened
  generalize s.depsFor c (keysOf commands) = deps
  simp only []
  split
  · rw [swiftLeaderAccept_eq (by
      simp only [broadcast, emit, InstanceTable.get_insert, if_true]
      rfl)]
    simp only [put, emitAll, emit, broadcast, InstanceTable.modify_insert, noteSeen]
    simp
  · simp [emit, broadcast, noteSeen]

theorem learn_eq (s : DepShard n) (src : Fin n) (id : Uid) (deps : DepSet n)
    (commands : List (Command n)) :
    (s.createInstance c id commands).answerPreAccept c me src id deps
        (Instance.fresh c id commands) =
      { s.noteSeen c id (keysOf commands) with
        instances := s.instances.insert id ((Instance.fresh c id commands).preAccepted c me src deps
          ((s.noteSeen c id (keysOf commands)).ownDeps c id deps (keysOf commands)))
        sinks := s.sinks ++ .created id commands ::
          preAcceptEvents c me src id deps
            ((s.noteSeen c id (keysOf commands)).ownDeps c id deps (keysOf commands))
            ((Instance.fresh c id commands).proposedBy c src deps) } := by
  have hget : (s.createInstance c id commands).instances.get id =
      some (Instance.fresh c id commands) := by
    simp only [createInstance, emit, InstanceTable.get_insert, if_true]
    rfl
  have hown : (s.createInstance c id commands).ownDeps c id deps
      (keysOf (Instance.fresh c id commands).commands) =
      (s.noteSeen c id (keysOf commands)).ownDeps c id deps (keysOf commands) := rfl
  rw [answerPreAccept_eq hget, hown]
  simp only [createInstance, put, emitAll, emit, InstanceTable.modify_insert, noteSeen]
  simp

end DepShard

end KCensus.Deps

import KCensus.Propagation.Knowledge

namespace KCensus.Propagation

variable {n : Nat}

structure MessageId (n : Nat) where
  proposer : Fin n
  src : Fin n
  dest : Fin n
  time : Nat
deriving DecidableEq

structure KnowledgeState (n : Nat) where
  knowledge : Fin n → Knowledge n
  remoteStates : Fin n → Nat
  dependencies : Finset (MessageId n)
  neededBy : List (MessageId n)

-- The schedule of one process: a map from times to knowledge states, every process having one at
-- time zero. Times are sums of a few link latencies, each a `u64` of nanoseconds below 2^62.
structure Schedule (n : Nat) where
  states : List (Nat × KnowledgeState n)
  increasing : states.Pairwise (·.1 < ·.1)
  initial : states.head?.map Prod.fst = some 0
  nanos : ∀ state ∈ states, state.1 < 2 ^ 64

namespace Schedule

variable (schedule : Schedule n)

def get (time : Nat) : Option (KnowledgeState n) :=
  (schedule.states.find? (·.1 = time)).map Prod.snd

def times : List Nat := schedule.states.map Prod.fst

def lastTime : Nat := schedule.times.getLast?.getD 0

end Schedule

structure PropagationGraph (n : Nat) where
  shouldIncludeValue : Finset (MessageId n)
  states : Fin n → Schedule n
  leader : Fin n

structure PropagationGraphs (n : Nat) where
  graphs : Fin n → PropagationGraph n
  topology : Topology n

namespace PropagationGraphs

variable (graphs : PropagationGraphs n)

def schedule (proposer node : Fin n) : Schedule n := (graphs.graphs proposer).states node

def finalState (proposer node : Fin n) (stateId : Nat) : Bool :=
  decide ((graphs.schedule proposer node).lastTime = stateId)

def getLeader (proposer : Fin n) : Fin n := (graphs.graphs proposer).leader

def shouldIncludeValue (msgId : MessageId n) : Bool :=
  msgId ∈ (graphs.graphs msgId.proposer).shouldIncludeValue

def getKnowledge (proposer node : Fin n) (stateId : Nat) : Option (Knowledge n) :=
  ((graphs.schedule proposer node).get stateId).map fun state => state.knowledge node

def getFinalStateId (proposer node : Fin n) : Nat := (graphs.schedule proposer node).lastTime

def getFinalKnowledge (proposer : Fin n) : Option (Fin n → Knowledge n) :=
  (graphs.schedule proposer (graphs.getLeader proposer)).states.getLast?.map
    fun state => state.2.knowledge

-- What the calls of `next_state` go through, starting from `prevStateId`.
def laterStates (proposer node : Fin n) (prevStateId : Nat) : List (Nat × KnowledgeState n) :=
  ((graphs.schedule proposer node).states.filter fun state => prevStateId ≤ state.1).drop 1

def msgArrivalStateId (msgId : MessageId n) : Nat :=
  msgId.time + graphs.topology.linkLatency msgId.src msgId.dest

def getNewMessagesToSpread (proposer node : Fin n) (time : Nat) : Option (List (MessageId n)) :=
  ((graphs.schedule proposer node).get time).map KnowledgeState.neededBy

end PropagationGraphs

end KCensus.Propagation

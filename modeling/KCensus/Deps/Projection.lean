import KCensus.Deps.AckCount
import KCensus.Deps.Reach

namespace KCensus.Deps

variable {n : Nat} [NeZero n]

def Task.Valid : Task n → Prop
  | applyDepMsg _ _ _ => True
  | submit _ commands => commands ≠ [] ∧ commands.all (!·.readOnly) = true
  | submitRead _ command => command.readOnly = true

omit [NeZero n] in
theorem valid_submitOne (c : Cluster n) (command : Command n) : (submitOne c command).Valid := by
  rw [submitOne]
  split
  · rename_i hr
    exact hr
  · rename_i hr
    exact ⟨List.cons_ne_nil _ _, by simpa using hr⟩

-- Every task of a batch is one command on its own or a run of its writes.
omit [NeZero n] in
theorem mem_submitBatch {c : Cluster n} {batch : List (Command n)} {task : Task n}
    (h : task ∈ submitBatch c batch) : (∃ command, task = submitOne c command) ∨
      ∃ k commands, task = .submit k commands ∧ commands ≠ [] ∧
        commands.all (!·.readOnly) = true := by
  unfold submitBatch at h
  split at h
  · exact Or.inl ⟨_, List.mem_singleton.1 h⟩
  · have hw : ∀ command ∈ batch.takeWhile (!·.readOnly), (!command.readOnly) = true :=
      List.all_eq_true.1 List.all_takeWhile
    rcases List.mem_append.1 h with h | h
    · right
      cases hcross : c.crossShard with
      | true =>
        rw [if_pos hcross] at h
        split at h
        · cases h
        · rename_i hne
          exact ⟨0, _, List.mem_singleton.1 h, hne, List.all_eq_true.2 hw⟩
      | false =>
        rw [if_neg (by simp [hcross])] at h
        obtain ⟨commands, hc, hr⟩ := List.mem_filterMap.1 h
        obtain ⟨command, hhead, rfl⟩ := Option.map_eq_some_iff.1 hr
        refine ⟨_, commands, rfl, fun hnil => ?_, List.all_eq_true.2 fun x hx => hw x ?_⟩
        · rw [hnil] at hhead
          cases hhead
        · rw [← List.flatten_splitBy (fun a b : Command n => decide (a.shard = b.shard))
            (batch.takeWhile (!·.readOnly))]
          exact List.mem_flatten.2 ⟨commands, hc, hx⟩
    · obtain ⟨command, -, rfl⟩ := List.mem_map.1 h
      exact Or.inl ⟨command, rfl⟩

omit [NeZero n] in
theorem valid_submitBatch (c : Cluster n) (batch : List (Command n)) :
    ∀ task ∈ submitBatch c batch, task.Valid := by
  intro task ht
  rcases mem_submitBatch ht with ⟨command, rfl⟩ | ⟨k, commands, rfl, hc⟩
  · exact valid_submitOne c command
  · exact hc

omit [NeZero n] in
theorem submitBatch_about (c : Cluster n) (batch : List (Command n)) (k : Nat) (src : Fin n) :
    (submitBatch c batch).filterMap (Task.about k src) = [] := by
  refine List.filterMap_eq_nil_iff.2 fun task ht => ?_
  rcases mem_submitBatch ht with ⟨command, rfl⟩ | ⟨k, commands, rfl, -⟩
  · rw [submitOne]
    split <;> rfl
  · rfl

namespace DepConsensus

variable {σ : Type} {store : ShardStore n σ} {c : Cluster n} {me : Fin n} {p : DepConsensus n σ}

-- Between two events nothing is left over, and what is left of one can be performed.
structure Tidy (p : DepConsensus n σ) : Prop where
  idle : p.busy = false → p.todo = [] ∧ p.queue = []
  valid : ∀ task ∈ p.todo, task.Valid

theorem Tidy.busy_of_todo (h : p.Tidy) (ht : p.todo ≠ []) : p.busy = true := by
  cases hb : p.busy with
  | true => rfl
  | false => exact absurd (h.idle hb).1 ht

theorem Tidy.busy_of_queue (h : p.Tidy) (hq : p.queue ≠ []) : p.busy = true := by
  cases hb : p.busy with
  | true => rfl
  | false => exact absurd (h.idle hb).2 hq

theorem turn_rest (k : Nat) (f : DepShard n → DepShard n × List (Held n)) :
    (p.turn store c me k f).1.busy = p.busy ∧ (p.turn store c me k f).1.todo = p.todo ∧
      (p.turn store c me k f).1.touched = p.touched := by
  rw [turn]
  split <;> exact ⟨rfl, rfl, rfl⟩

theorem drainAll_rest (store : ShardStore n σ) (c : Cluster n) (me : Fin n) (ks : List Nat)
    (p : DepConsensus n σ) :
    (p.drainAll store c me ks).1.busy = p.busy ∧ (p.drainAll store c me ks).1.todo = p.todo := by
  induction ks generalizing p with
  | nil => exact ⟨rfl, rfl⟩
  | cons k ks ih =>
    obtain ⟨hb, ht⟩ := ih (p.drain store c me k).1
    exact ⟨hb.trans (turn_rest _ _).1, ht.trans (turn_rest _ _).2.1⟩

theorem finish_eq (p : DepConsensus n σ) : p.finish store c me =
    ({ (p.drainAll store c me p.touched).1.sleepAll store p.touched with
        touched := [], busy := false },
      (p.drainAll store c me p.touched).2) := rfl

theorem turn_neverSleeping (k : Nat) (f : DepShard n → DepShard n × List (Held n))
    (p : DepConsensus n (Nat → DepShard n)) :
    p.turn ShardStore.neverSleeping c me k f =
      ({ p with
          pool := Function.update p.pool k { (f (p.pool k)).1 with sinks := [] }
          sinks := (f (p.pool k)).1.sinks.foldl (ProcessSink.apply c me k) p.sinks
          serving := k
          queue := (f (p.pool k)).2 },
        (f (p.pool k)).1.sinks.map (Prod.mk k)) := rfl

end DepConsensus

abbrev PlainSystem (n : Nat) [NeZero n] := System n (Nat → DepShard n)

abbrev plainStep (c : Cluster n) (sys : PlainSystem n) (act : Act n) : Option (PlainSystem n) :=
  sys.step (fun _ => ShardStore.neverSleeping) c act

-- What a run of the never-sleeping system looks like to whoever watches one shard.
structure Shows (c : Cluster n) (k : Nat) (sys : PlainSystem n) (w : World n) : Prop where
  shard : ∀ p, w.shard c p = (sys.procs p).pool k
  alert : ∀ p msg, (w.slots p).isNoop msg = false
  queues : ∀ p, w.queues p = if (sys.procs p).serving = k then (sys.procs p).queue else []
  sinks : ∀ p, w.sinks p = ((sys.procs p).sinks.slice k).behind fun dest =>
    (sys.procs dest).todo.filterMap (Task.about k p)
  hist : w.hist = sys.hist.filterMap fun (p, j, e) => if j = k then some (p, e) else none

section

variable {c : Cluster n} {k k' : Nat} {sys : PlainSystem n} {w : World n} {p : Fin n}

omit [NeZero n] in
theorem histOf_append (hist : List (Fin n × Nat × Event n)) (p : Fin n) (log : DepConsensus.Log n) :
    (hist ++ log.map (Prod.mk p)).filterMap
        (fun (p, j, e) => if j = k then some (p, e) else none) =
      hist.filterMap (fun (p, j, e) => if j = k then some (p, e) else none) ++
        (ofShard k log).map (Prod.mk p) := by
  rw [List.filterMap_append, List.filterMap_map, ofShard, List.map_filterMap]
  congr 2
  funext entry
  obtain ⟨j, e⟩ := entry
  dsimp only [Function.comp_apply]
  split <;> rfl

def DepConsensus.facet (k : Nat) (proc : DepConsensus n (Nat → DepShard n)) :
    DepShard n × List (Held n) × ProcessSink n × List (Task n) :=
  (proc.pool k, if proc.serving = k then proc.queue else [], proc.sinks, proc.todo)

theorem Shows.congr {sys' : PlainSystem n} (h : Shows c k sys w)
    (hf : ∀ q, (sys'.procs q).facet k = (sys.procs q).facet k) (hh : sys'.hist = sys.hist) :
    Shows c k sys' w := by
  have hpool := fun q => congrArg Prod.fst (hf q)
  have hqueue := fun q => congrArg (fun v => v.2.1) (hf q)
  have hsinks := fun q => congrArg (fun v => v.2.2.1) (hf q)
  have htodo := fun q => congrArg (fun v => v.2.2.2) (hf q)
  simp only [DepConsensus.facet] at hpool hqueue hsinks htodo
  refine ⟨fun q => ?_, h.alert, fun q => ?_, fun q => ?_, hh ▸ h.hist⟩
  · rw [hpool, h.shard]
  · rw [hqueue, h.queues]
  · simp only [hsinks, htodo]
    exact h.sinks q

theorem Shows.set_congr (h : Shows c k sys w) (p : Fin n)
    (proc : DepConsensus n (Nat → DepShard n)) (hf : proc.facet k = (sys.procs p).facet k) : Shows c k (sys.set p (proc, [])) w := by
  refine h.congr (fun q => ?_) (List.append_nil _)
  simp only [System.set, Function.update_apply]
  split
  · rename_i hq
    rw [hf, hq]
  · rfl

theorem Shows.turn_self (h : Shows c k sys w) (p : Fin n) (proc : DepConsensus n (Nat → DepShard n))
    {s s' : DepShard n} (hfew : DepShard.Few s s') (hs : acksOf s.sinks = [])
    (hpool : proc.pool k = { s' with sinks := [] }) (hserving : proc.serving = k)
    (htodo : proc.todo = (sys.procs p).todo)
    (hsinks : proc.sinks = s'.sinks.foldl (ProcessSink.apply c p k) (sys.procs p).sinks) :
    ∃ full, Shows c k (sys.set p (proc, s'.sinks.map (Prod.mk k))) (w.settle c p full s' proc.queue) := by
  obtain ⟨full, hfull⟩ := hfew.slice hs c p k (sys.procs p).sinks
  refine ⟨full, fun q => ?_, fun q msg => ?_, fun q => ?_, fun q => ?_, ?_⟩
  · simp only [World.shard, World.settle, System.set, Function.update_apply]
    split
    · exact hpool.symm
    · exact h.shard q
  · simp only [World.settle, Function.update_apply]
    split
    · rfl
    · exact h.alert q msg
  · rcases eq_or_ne q p with rfl | hq
    · simp [World.settle, System.set, hserving]
    · simp [World.settle, System.set, hq, h.queues q]
  · have hpre : ∀ dest : Fin n, (Function.update sys.procs p proc dest).todo =
        (sys.procs dest).todo := by
      intro dest
      rw [Function.update_apply]
      split
      · rename_i hd
        rw [htodo, hd]
      · rfl
    simp only [World.settle, System.set, hpre]
    simp only [Function.update_apply]
    split
    · rename_i hq
      subst hq
      rw [h.sinks q, MultiSink.foldl_apply_behind, hsinks, hfull]
    · exact h.sinks q
  · rw [World.settle, System.set, h.hist, histOf_append, ofShard_map_self]

omit [NeZero n] in
theorem foldl_apply_full {events : List (Event n)} (he : acksOf events = []) (full full' : Bool)
    (m : MultiSink n) : events.foldl (MultiSink.apply c p full) m =
      events.foldl (MultiSink.apply c p full') m := by
  induction events generalizing m with
  | nil => rfl
  | cons e events ih =>
    cases e with
    | queueAck msg requester => cases he
    | _ => exact ih he _

theorem settle_full {s : DepShard n} (he : acksOf s.sinks = []) (full full' : Bool)
    {queue : List (Held n)} : w.settle c p full s queue = w.settle c p full' s queue := by
  rw [World.settle, World.settle, foldl_apply_full he full full']

def World.withSinks (p : Fin n) (m : MultiSink n) (w : World n) : World n :=
  { w with sinks := Function.update w.sinks p m }

theorem Shows.sinks_other (hk : k' ≠ k) (hw : World.Reachable c w) {m : ProcessSink n}
    {pre : Fin n → List (Packet n)} (hm : w.sinks p = (m.slice k).behind pre)
    (events : List (Event n)) (hv : ∀ msg requester, .queueAck msg requester ∈ events →
      msg.isAck = true) :
    World.Reachable c
      (w.withSinks p (((events.foldl (ProcessSink.apply c p k') m).slice k).behind pre)) := by
  induction events generalizing w m with
  | nil =>
    rw [List.foldl_nil, ← hm, World.withSinks, Function.update_eq_self]
    exact hw
  | cons e events ih =>
    have hrest : ∀ msg requester, .queueAck msg requester ∈ events → msg.isAck = true :=
      fun msg requester he => hv msg requester (List.mem_cons_of_mem _ he)
    have hsame : ∀ m' : ProcessSink n, m'.slice k = m.slice k →
        World.Reachable c
          (w.withSinks p (((events.foldl (ProcessSink.apply c p k') m').slice k).behind pre)) :=
      fun m' hm' => ih hw (hm.trans (by rw [hm'])) hrest
    rw [List.foldl_cons]
    cases e with
    | broadcast packet priority => exact hsame _ (ProcessSink.slice_push_other hk _ _ _)
    | send packet dest =>
      simp only [ProcessSink.apply, ProcessSink.send]
      split
      · exact hsame _ rfl
      · exact hsame _ (ProcessSink.slice_push_other hk _ _ _)
    | queueAck msg requester =>
      have hack := hv msg requester List.mem_cons_self
      have howe := hw.step (l := .owe p {requester}) rfl
      have hheld := ProcessSink.slice_hold_other hk msg requester m
      have hafter : ∀ m' : ProcessSink n,
          World.Reachable c (w.withSinks p ((m'.slice k).behind pre)) →
          World.Reachable c
            (w.withSinks p (((events.foldl (ProcessSink.apply c p k') m').slice k).behind pre)) := by
        intro m' hr
        have := ih hr (m := m') (Function.update_self _ _ _) hrest
        simpa only [World.withSinks, Function.update_idem] using this
      have hheld' : World.Reachable c
          (w.withSinks p (((m.hold k' msg requester).slice k).behind pre)) := by
        rw [hheld]
        rw [hm] at howe
        exact howe
      rw [ProcessSink.apply]
      rcases ProcessSink.queueAck_cases c p k' hack requester m with hq | hq
      · rw [hq]
        exact hafter _ hheld'
      · rw [hq]
        refine hafter _ ?_
        rcases ProcessSink.slice_flushAcks c p k (m.hold k' msg requester) with hf | hf
        · rw [hf]
          exact hheld'
        · have hflush := hheld'.step (l := .flush p) rfl
          simp only [World.withSinks, Function.update_self, Function.update_idem,
            MultiSink.flushAcks_behind] at hflush
          rw [hf]
          exact hflush
    | _ => exact hsame _ rfl

theorem Shows.turn_other (hk : k' ≠ k) (hw : World.Reachable c w) (h : Shows c k sys w)
    {proc : DepConsensus n (Nat → DepShard n)} {s s' : DepShard n} (hfew : DepShard.Few s s')
    (hs : acksOf s.sinks = []) (hqueue : w.queues p = []) (hpool : proc.pool k = (sys.procs p).pool k)
    (hserving : proc.serving = k') (htodo : proc.todo = (sys.procs p).todo)
    (hsinks : proc.sinks = s'.sinks.foldl (ProcessSink.apply c p k') (sys.procs p).sinks) :
    ∃ w', World.Reachable c w' ∧ Shows c k (sys.set p (proc, s'.sinks.map (Prod.mk k'))) w' := by
  have hacks : ∀ msg requester, Event.queueAck msg requester ∈ s'.sinks → msg.isAck = true := by
    intro msg requester he
    have hmem : Event.queueAck msg requester ∈ acksOf s'.sinks := List.mem_filter.2 ⟨he, rfl⟩
    rcases hfew with hf | ⟨msg', requester', hack, hf⟩
    · rw [hf, hs] at hmem
      cases hmem
    · rw [hf, hs, List.nil_append, List.mem_singleton] at hmem
      cases hmem
      exact hack
  refine ⟨_, Shows.sinks_other hk hw (h.sinks p) s'.sinks hacks, fun q => ?_, h.alert, fun q => ?_,
    fun q => ?_, ?_⟩
  · simp only [World.shard, System.set, Function.update_apply]
    split
    · rename_i hq
      subst hq
      exact (h.shard q).trans hpool.symm
    · exact h.shard q
  · rcases eq_or_ne q p with rfl | hq
    · simp [World.withSinks, System.set, hserving, hk, hqueue]
    · simp [World.withSinks, System.set, hq, h.queues q]
  · have hpre : ∀ dest : Fin n, (Function.update sys.procs p proc dest).todo =
        (sys.procs dest).todo := by
      intro dest
      rw [Function.update_apply]
      split
      · rename_i hd
        rw [htodo, hd]
      · rfl
    simp only [World.withSinks, System.set, hpre]
    simp only [Function.update_apply]
    split
    · rename_i hq
      subst hq
      rw [hsinks]
    · exact h.sinks q
  · rw [System.set, histOf_append, ofShard_map_other hk, List.map_nil, List.append_nil]
    exact h.hist

theorem Shows.turn {w₁ : World n} (hw : World.Reachable c w) (h : Shows c k sys w₁)
    (proc : DepConsensus n (Nat → DepShard n)) (hpool : proc.pool = (sys.procs p).pool)
    (htodo : proc.todo = (sys.procs p).todo) (hsinks : proc.sinks = (sys.procs p).sinks)
    {f : DepShard n → DepShard n × List (Held n)}
    (hfew : DepShard.Few (proc.pool k') (f (proc.pool k')).1) (hclean : (proc.pool k').sinks = [])
    (hcase : (k' = k ∧ ∃ label : Bool → Label n, ∀ full, w.step c (label full) =
        some (w₁.settle c p full (f (proc.pool k')).1 (f (proc.pool k')).2)) ∨
      (k' ≠ k ∧ w₁ = w ∧ w.queues p = [])) :
    ∃ w', World.Reachable c w' ∧
      Shows c k (sys.set p (proc.turn ShardStore.neverSleeping c p k' f)) w' := by
  have hacks : acksOf (proc.pool k').sinks = [] := by
    rw [hclean]
    rfl
  rw [DepConsensus.turn_neverSleeping]
  rcases hcase with ⟨rfl, label, hstep⟩ | ⟨hk, rfl, hqueue⟩
  · obtain ⟨full, hshows⟩ := h.turn_self p
      (proc.turn ShardStore.neverSleeping c p k' f).1 hfew hacks
      (Function.update_self _ _ _) rfl htodo (by rw [← hsinks]; rfl)
    exact ⟨_, hw.step (hstep full), hshows⟩
  · refine h.turn_other hk hw hfew hacks hqueue ?_ rfl htodo (by rw [← hsinks])
    exact (Function.update_of_ne (Ne.symm hk) _ _).trans (congrFun hpool k)

def System.withTodo (p : Fin n) (rest : List (Task n)) (sys : PlainSystem n) : PlainSystem n :=
  { sys with procs := Function.update sys.procs p { sys.procs p with todo := rest } }

theorem withTodo_set (rest : List (Task n)) (result : DepConsensus n (Nat → DepShard n) ×
    DepConsensus.Log n) : (sys.withTodo p rest).set p result = sys.set p result := by
  simp only [System.withTodo, System.set, Function.update_idem]

theorem withTodo_procs (sys : PlainSystem n) (p : Fin n) (rest : List (Task n)) :
    (sys.withTodo p rest).procs p = { sys.procs p with todo := rest } :=
  Function.update_self _ _ _

theorem Shows.withTodo (h : Shows c k sys w) {rest : List (Task n)} {sinks : Fin n → MultiSink n}
    (hsinks : ∀ q, sinks q = ((sys.procs q).sinks.slice k).behind fun dest =>
      (if dest = p then rest else (sys.procs dest).todo).filterMap (Task.about k q)) :
    Shows c k (sys.withTodo p rest) { w with sinks := sinks } := by
  have hproc : ∀ q, (sys.withTodo p rest).procs q =
      { sys.procs q with todo := if q = p then rest else (sys.procs q).todo } := by
    intro q
    simp only [System.withTodo, Function.update_apply]
    split
    · rename_i hq
      rw [hq]
    · rfl
  refine ⟨fun q => ?_, h.alert, fun q => ?_, fun q => ?_, h.hist⟩
  · rw [hproc]
    exact h.shard q
  · rw [hproc]
    exact h.queues q
  · simp only [hproc]
    exact hsinks q

theorem Shows.skipTask (h : Shows c k sys w) {task : Task n} {rest : List (Task n)}
    (htodo : (sys.procs p).todo = task :: rest) (ha : ∀ src, task.about k src = none) :
    Shows c k (sys.withTodo p rest) w := by
  refine h.withTodo fun q => ?_
  rw [h.sinks q]
  congr 1
  funext dest
  split
  · rename_i hd
    rw [hd, htodo, List.filterMap_cons, ha]
  · rfl

theorem Shows.takeTask (h : Shows c k sys w) {src : Fin n} {packet : Packet n} {rest : List (Task n)}
    (htodo : (sys.procs p).todo = .applyDepMsg k src packet :: rest) :
    (∃ more, w.link src p = packet :: more) ∧
      Shows c k (sys.withTodo p rest) (w.popLink src p) := by
  have habout : ∀ q, (sys.procs p).todo.filterMap (Task.about k q) =
      if src = q then packet :: rest.filterMap (Task.about k q)
      else rest.filterMap (Task.about k q) := by
    intro q
    rw [htodo, List.filterMap_cons]
    simp only [Task.about, true_and]
    split <;> simp_all
  have hlink : w.link src p = (sys.procs p).todo.filterMap (Task.about k src) ++
      ((sys.procs src).sinks.slice k).links p := by
    rw [World.link, h.sinks src]
    rfl
  refine ⟨⟨_, by rw [hlink, habout, if_pos rfl]; rfl⟩, h.withTodo fun q => ?_⟩
  simp only [Function.update_apply, h.sinks]
  rcases eq_or_ne q src with rfl | hq
  · rw [if_pos rfl]
    simp only [MultiSink.pop, MultiSink.behind, MultiSink.mk.injEq, and_true]
    funext dest
    rcases eq_or_ne dest p with rfl | hd
    · rw [if_pos rfl, if_pos rfl, habout, if_pos rfl]
      rfl
    · rw [if_neg hd, if_neg hd]
  · rw [if_neg hq]
    congr 1
    funext dest
    rcases eq_or_ne dest p with rfl | hd
    · rw [if_pos rfl, habout, if_neg (Ne.symm hq)]
    · rw [if_neg hd]

-- No shard holds a message back between two calls.
structure PlainSound (sys : PlainSystem n) : Prop where
  tidy : ∀ p, (sys.procs p).Tidy
  clean : ∀ p k, ((sys.procs p).pool k).sinks = []

theorem Shows.perform (hw : World.Reachable c w) (h : Shows c k sys w) (hs : PlainSound sys)
    {task : Task n} {rest : List (Task n)} (htodo : (sys.procs p).todo = task :: rest)
    (hqueue : (sys.procs p).queue = []) :
    ∃ w', World.Reachable c w' ∧ Shows c k (sys.set p
      (({ sys.procs p with todo := rest } : DepConsensus n _).perform ShardStore.neverSleeping c p
        task)) w' := by
  have hempty : w.queues p = [] := by
    rw [h.queues, hqueue]
    split <;> rfl
  have hvalid := (hs.tidy p).valid task (htodo ▸ List.mem_cons_self)
  have hproc := withTodo_procs sys p rest
  -- What is left once the task is taken, with the process that goes on to perform it.
  have hturn : ∀ {w₁ : World n} {k' : Nat} {f : DepShard n → DepShard n × List (Held n)},
      Shows c k (sys.withTodo p rest) w₁ →
      DepShard.Few ((sys.procs p).pool k') (f ((sys.procs p).pool k')).1 →
      ((k' = k ∧ ∃ label : Bool → Label n, ∀ full, w.step c (label full) =
        some (w₁.settle c p full (f ((sys.procs p).pool k')).1 (f ((sys.procs p).pool k')).2)) ∨
        (k' ≠ k ∧ w₁ = w ∧ w.queues p = [])) →
      ∃ w', World.Reachable c w' ∧ Shows c k (sys.set p
        ((({ sys.procs p with todo := rest } : DepConsensus n _).wake ShardStore.neverSleeping
          k').turn ShardStore.neverSleeping c p k' f)) w' := by
    intro w₁ k' f h₁ hfew hcase
    rw [← withTodo_set rest]
    exact h₁.turn hw
      (({ sys.procs p with todo := rest } : DepConsensus n _).wake ShardStore.neverSleeping k')
      (by rw [hproc]; rfl) (by rw [hproc]; rfl) (by rw [hproc]; rfl) hfew (hs.clean p k') hcase
  cases task with
  | applyDepMsg k' src packet =>
    have hfew : DepShard.Few ((sys.procs p).pool k')
        ((((sys.procs p).pool k').emit (.received src packet)).handle c p src packet).1 :=
      .before (.emit _ rfl) (DepShard.few_handle _ src packet)
    rcases eq_or_ne k' k with rfl | hk
    · obtain ⟨⟨more, hlink⟩, htake⟩ := h.takeTask htodo
      refine hturn (f := fun s => (s.emit (.received src packet)).handle c p src packet) htake hfew
        (Or.inl ⟨rfl, fun full => .receive src p full, fun full => ?_⟩)
      have halert : ((w.popLink src p).slots p).isNoop packet.msg = false := h.alert p packet.msg
      have hshard : (w.popLink src p).shard c p = (sys.procs p).pool k' := h.shard p
      simp only [World.step, hempty, hlink, halert, hshard]
      rfl
    · exact hturn (f := fun s => (s.emit (.received src packet)).handle c p src packet)
        (h.skipTask htodo fun q => by simp [Task.about, hk]) hfew (Or.inr ⟨hk, rfl, hempty⟩)
  | submit k' commands =>
    have hfew : DepShard.Few ((sys.procs p).pool k')
        ((((sys.procs p).pool k').emit (.submitted commands)).submit c p commands) :=
      .before (.emit _ rfl) (DepShard.few_submit _ commands)
    refine hturn (f := fun s => ((s.emit (.submitted commands)).submit c p commands, []))
      (h.skipTask htodo fun q => rfl) hfew ?_
    rcases eq_or_ne k' k with rfl | hk
    · refine Or.inl ⟨rfl, fun full => .submit p commands full, fun full => ?_⟩
      rw [World.step, if_pos ⟨hempty, hvalid⟩, h.shard p]
    · exact Or.inr ⟨hk, rfl, hempty⟩
  | submitRead k' command =>
    have hmute := DepShard.mute_submitRead c p ((sys.procs p).pool k') command
    refine hturn (f := fun s => (s.submitRead c p command, []))
      (h.skipTask htodo fun q => rfl) hmute.few ?_
    rcases eq_or_ne k' k with rfl | hk
    · refine Or.inl ⟨rfl, fun _ => .submitRead p command, fun full => ?_⟩
      have hquiet : acksOf (((sys.procs p).pool k').submitRead c p command).sinks = [] := by
        rw [hmute, hs.clean]
        rfl
      rw [World.step, if_pos ⟨hempty, hvalid⟩, h.shard p, settle_full hquiet false full]
    · exact Or.inr ⟨hk, rfl, hempty⟩

theorem PlainSound.set (hs : PlainSound sys) {result : DepConsensus n (Nat → DepShard n) ×
    DepConsensus.Log n} (htidy : result.1.Tidy) (hclean : ∀ k, (result.1.pool k).sinks = []) :
    PlainSound (sys.set p result) := by
  refine ⟨fun q => ?_, fun q => ?_⟩
  · simp only [System.set, Function.update_apply]
    split
    · exact htidy
    · exact hs.tidy q
  · simp only [System.set, Function.update_apply]
    split
    · exact hclean
    · exact hs.clean q

theorem clean_turn (c : Cluster n) (p : Fin n) (proc : DepConsensus n (Nat → DepShard n))
    (hclean : ∀ k, (proc.pool k).sinks = [])
    (k' : Nat) (f : DepShard n → DepShard n × List (Held n)) (k : Nat) :
    ((proc.turn ShardStore.neverSleeping c p k' f).1.pool k).sinks = [] := by
  simp only [DepConsensus.turn_neverSleeping, Function.update_apply]
  split
  · rfl
  · exact hclean k

theorem tidy_turn (c : Cluster n) (p : Fin n) (proc : DepConsensus n (Nat → DepShard n)) (hb : proc.busy = true)
    (hv : ∀ task ∈ proc.todo, task.Valid) (k' : Nat) (f : DepShard n → DepShard n × List (Held n)) :
    (proc.turn ShardStore.neverSleeping c p k' f).1.Tidy :=
  ⟨fun h => (nomatch hb.symm.trans h), hv⟩

theorem Shows.drain (k' : Nat) (hw : World.Reachable c w) (h : Shows c k sys w)
    (hs : PlainSound sys) (hqueue : (sys.procs p).queue = []) :
    ∃ w', World.Reachable c w' ∧ Shows c k
      (sys.set p ((sys.procs p).drain ShardStore.neverSleeping c p k')) w' := by
  have hempty : w.queues p = [] := by
    rw [h.queues, hqueue]
    split <;> rfl
  by_cases hready : ((sys.procs p).pool k').ready = []
  · refine ⟨w, hw, ?_⟩
    have hdrain : (sys.procs p).drain ShardStore.neverSleeping c p k' =
        ({ sys.procs p with serving := k', queue := [] }, []) := by
      have hsame : Function.update (sys.procs p).pool k'
          { (sys.procs p).pool k' with sinks := [] } = (sys.procs p).pool := by
        rw [Function.update_eq_self_iff]
        have hclean := hs.clean p k'
        generalize (sys.procs p).pool k' = s at hclean ⊢
        cases s
        cases hclean
        rfl
      rw [DepConsensus.drain, DepConsensus.turn_neverSleeping, if_pos hready, hs.clean]
      dsimp only
      rw [hsame]
      rfl
    rw [hdrain]
    refine h.set_congr p _ ?_
    simp [DepConsensus.facet, hqueue]
  · have hmute : DepShard.Mute ((sys.procs p).pool k')
        ((((sys.procs p).pool k').emit (.handed ((sys.procs p).pool k').ready)).drainReady) :=
      .emit _ rfl
    have hf : (if ((sys.procs p).pool k').ready = [] then ((sys.procs p).pool k', [])
        else ((((sys.procs p).pool k').emit (.handed ((sys.procs p).pool k').ready)).drainReady,
          ([] : List (Held n)))) =
        ((((sys.procs p).pool k').emit (.handed ((sys.procs p).pool k').ready)).drainReady, []) :=
      if_neg hready
    refine h.turn hw (sys.procs p) rfl rfl rfl (by rw [hf]; exact hmute.few) (hs.clean p k') ?_
    rw [hf]
    rcases eq_or_ne k' k with rfl | hk
    · refine Or.inl ⟨rfl, fun _ => .drain p, fun full => ?_⟩
      have hquiet : acksOf ((((sys.procs p).pool k').emit
          (.handed ((sys.procs p).pool k').ready)).drainReady).sinks = [] := by
        rw [hmute, hs.clean]
        rfl
      rw [World.step, if_pos hempty, h.shard p, settle_full hquiet false full]
    · exact Or.inr ⟨hk, rfl, hempty⟩

theorem set_set (sys : PlainSystem n) (result result' : DepConsensus n (Nat → DepShard n) ×
    DepConsensus.Log n) :
    (sys.set p result).set p result' = sys.set p (result'.1, result.2 ++ result'.2) := by
  simp only [System.set, Function.update_idem, List.map_append, List.append_assoc]

theorem set_procs (sys : PlainSystem n) (result : DepConsensus n (Nat → DepShard n) ×
    DepConsensus.Log n) : (sys.set p result).procs p = result.1 := Function.update_self _ _ _

theorem Shows.drainAll (ks : List Nat) (hw : World.Reachable c w) (h : Shows c k sys w)
    (hs : PlainSound sys) (hb : (sys.procs p).busy = true) (hqueue : (sys.procs p).queue = []) :
    (∃ w', World.Reachable c w' ∧ Shows c k
      (sys.set p ((sys.procs p).drainAll ShardStore.neverSleeping c p ks)) w') ∧
      PlainSound (sys.set p ((sys.procs p).drainAll ShardStore.neverSleeping c p ks)) ∧
      ((sys.procs p).drainAll ShardStore.neverSleeping c p ks).1.queue = [] := by
  induction ks generalizing sys w with
  | nil =>
    have hself : sys.set p (sys.procs p, []) = sys := by
      simp [System.set]
    rw [DepConsensus.drainAll, hself]
    exact ⟨⟨w, hw, h⟩, hs, hqueue⟩
  | cons k' ks ih =>
    obtain ⟨w₁, hw₁, h₁⟩ := Shows.drain k' hw h hs hqueue
    have hs₁ : PlainSound (sys.set p ((sys.procs p).drain ShardStore.neverSleeping c p k')) :=
      hs.set (tidy_turn c p _ hb (hs.tidy p).valid k' _) (clean_turn c p _ (hs.clean p) k' _)
    have hqueue₁ : ((sys.procs p).drain ShardStore.neverSleeping c p k').1.queue = [] := by
      rw [DepConsensus.drain, DepConsensus.turn_neverSleeping]
      dsimp only
      split <;> rfl
    have := ih hw₁ h₁ hs₁ (by rw [set_procs]; exact hb) (by rw [set_procs]; exact hqueue₁)
    rw [set_procs, set_set] at this
    exact this

theorem sleepAll_neverSleeping (ks : List Nat) (proc : DepConsensus n (Nat → DepShard n)) :
    proc.sleepAll ShardStore.neverSleeping ks = proc := by
  have hpool : ks.foldl (fun pool k => ShardStore.neverSleeping.trySleep k pool) proc.pool =
      proc.pool := by
    induction ks with
    | nil => rfl
    | cons k' ks ih => exact ih
  rw [DepConsensus.sleepAll, hpool]

theorem Shows.finish (hw : World.Reachable c w) (h : Shows c k sys w) (hs : PlainSound sys)
    (hb : (sys.procs p).busy = true) (hqueue : (sys.procs p).queue = []) :
    ∃ w', World.Reachable c w' ∧ Shows c k
      (sys.set p ((sys.procs p).finish ShardStore.neverSleeping c p)) w' := by
  obtain ⟨⟨w', hw', h'⟩, -, -⟩ := Shows.drainAll (sys.procs p).touched hw h hs hb hqueue
  refine ⟨w', hw', ?_⟩
  have := h'.set_congr p { ((sys.procs p).drainAll ShardStore.neverSleeping c p
    (sys.procs p).touched).1 with touched := [], busy := false } (by rw [set_procs]; rfl)
  rw [set_set, List.append_nil] at this
  rw [DepConsensus.finish_eq, sleepAll_neverSleeping]
  exact this

theorem plainSound_finish (hw : World.Reachable c w) (h : Shows c k sys w) (hs : PlainSound sys)
    (hb : (sys.procs p).busy = true) (hqueue : (sys.procs p).queue = [])
    (htodo : (sys.procs p).todo = []) :
    PlainSound (sys.set p ((sys.procs p).finish ShardStore.neverSleeping c p)) := by
  obtain ⟨-, hs', hq'⟩ := Shows.drainAll (sys.procs p).touched hw h hs hb hqueue
  have htodo' := (DepConsensus.drainAll_rest ShardStore.neverSleeping c p (sys.procs p).touched
    (sys.procs p)).2.trans htodo
  rw [DepConsensus.finish_eq, sleepAll_neverSleeping]
  refine hs.set ⟨fun _ => ⟨htodo', hq'⟩, fun task ht => ?_⟩ fun j => ?_
  · rw [show _ = [] from htodo'] at ht
    cases ht
  · have := hs'.clean p j
    rw [set_procs] at this
    exact this

theorem Shows.deliver (hw : World.Reachable c w) (h : Shows c k sys w) (hs : PlainSound sys)
    {queue : List (Held n)} (hqueue : (sys.procs p).queue = queue) (hne : queue ≠ []) :
    ∃ w', World.Reachable c w' ∧ Shows c k (sys.set p
      ((sys.procs p).turn ShardStore.neverSleeping c p (sys.procs p).serving
        fun s => s.deliverTurn c p queue)) w' := by
  refine h.turn hw (sys.procs p) rfl rfl rfl (DepShard.few_deliverTurn _ _) (hs.clean p _) ?_
  have hqueues := h.queues p
  rw [hqueue] at hqueues
  rcases eq_or_ne (sys.procs p).serving k with hk | hk
  · rw [if_pos hk] at hqueues
    refine Or.inl ⟨hk, fun full => .deliver p full, fun full => ?_⟩
    rw [World.step, hqueues, h.shard p, hk]
    cases queue with
    | nil => exact absurd rfl hne
    | cons entry rest => rfl
  · rw [if_neg hk] at hqueues
    exact Or.inr ⟨hk, rfl, hqueues⟩

theorem Shows.flushAcks (hw : World.Reachable c w) (h : Shows c k sys w) :
    ∃ w', World.Reachable c w' ∧ Shows c k (sys.set p
      ({ sys.procs p with sinks := (sys.procs p).sinks.flushAcks c p }, [])) w' := by
  have hshow : ∀ m : MultiSink n, ((sys.procs p).sinks.flushAcks c p).slice k = m →
      Shows c k (sys.set p ({ sys.procs p with sinks := (sys.procs p).sinks.flushAcks c p }, []))
        (w.withSinks p (m.behind fun dest => (sys.procs dest).todo.filterMap (Task.about k p))) := by
    rintro m rfl
    have hproc : ∀ q, (Function.update sys.procs p
        { sys.procs p with sinks := (sys.procs p).sinks.flushAcks c p } q).todo =
          (sys.procs q).todo := by
      intro q
      rw [Function.update_apply]
      split
      · rename_i hq
        rw [hq]
      · rfl
    refine ⟨fun q => ?_, h.alert, fun q => ?_, fun q => ?_, ?_⟩
    · refine (h.shard q).trans ?_
      rcases eq_or_ne q p with rfl | hq
      · simp [System.set]
      · simp [System.set, hq]
    · refine (h.queues q).trans ?_
      rcases eq_or_ne q p with rfl | hq
      · simp [System.set]
      · simp [System.set, hq]
    · simp only [System.set, hproc, World.withSinks]
      rcases eq_or_ne q p with rfl | hq
      · rw [Function.update_self, Function.update_self]
      · rw [Function.update_of_ne hq, Function.update_of_ne hq]
        exact h.sinks q
    · rw [System.set, List.map_nil, List.append_nil]
      exact h.hist
  rcases ProcessSink.slice_flushAcks c p k (sys.procs p).sinks with hf | hf
  · have := hshow _ hf
    rw [← h.sinks p, World.withSinks, Function.update_eq_self] at this
    exact ⟨w, hw, this⟩
  · refine ⟨_, hw.step (l := .flush p) rfl, ?_⟩
    rw [h.sinks p, MultiSink.flushAcks_behind]
    exact hshow _ hf

theorem Shows.receive (h : Shows c k sys w) {src : Fin n} {message : Message n}
    {rest : List (Message n)} (hidle : (sys.procs p).todo = [])
    (hlink : (sys.procs src).sinks.links p = message :: rest) :
    Shows c k ((sys.popLink src p).set p
      ({ (sys.popLink src p).procs p with busy := true, todo := message.tasks src }, [])) w := by
  have hproc : ∀ q, ((sys.popLink src p).set p ({ (sys.popLink src p).procs p with
      busy := true, todo := message.tasks src }, [])).procs q =
      { sys.procs q with
        sinks := if q = src then (sys.procs q).sinks.pop p else (sys.procs q).sinks
        busy := if q = p then true else (sys.procs q).busy
        todo := if q = p then message.tasks src else (sys.procs q).todo } := by
    intro q
    simp only [System.set, System.popLink, Function.update_apply]
    rcases eq_or_ne q p with rfl | hq
    · rcases eq_or_ne q src with rfl | hs
      · simp
      · simp [hs]
    · rcases eq_or_ne q src with rfl | hs
      · simp [hq]
      · simp [hq, hs]
  refine ⟨fun q => ?_, h.alert, fun q => ?_, fun q => ?_, ?_⟩
  · rw [hproc]
    exact h.shard q
  · simp only [hproc]
    exact h.queues q
  · simp only [hproc, h.sinks q]
    rcases eq_or_ne q src with rfl | hq
    · rw [if_pos rfl]
      simp only [ProcessSink.slice, ProcessSink.pop, MultiSink.behind, MultiSink.mk.injEq, and_true]
      funext dest
      rcases eq_or_ne dest p with rfl | hd
      · rw [if_pos rfl, if_pos rfl, hidle, hlink, tasks_about, if_pos rfl, List.flatMap_cons]
        rfl
      · rw [if_neg hd, if_neg hd]
    · rw [if_neg hq]
      congr 1
      funext dest
      rcases eq_or_ne dest p with rfl | hd
      · rw [if_pos rfl, hidle, tasks_about, if_neg (Ne.symm hq)]
        rfl
      · rw [if_neg hd]
  · rw [System.set, List.map_nil, List.append_nil]
    exact h.hist

theorem Shows.submitBatch (h : Shows c k sys w) (hidle : (sys.procs p).todo = [])
    (batch : List (Command n)) :
    Shows c k (sys.set p ({ sys.procs p with busy := true, todo := submitBatch c batch }, [])) w := by
  have hproc : ∀ q, (sys.set p ({ sys.procs p with busy := true, todo := Deps.submitBatch c batch },
      [])).procs q = { sys.procs q with
        busy := if q = p then true else (sys.procs q).busy
        todo := if q = p then Deps.submitBatch c batch else (sys.procs q).todo } := by
    intro q
    rcases eq_or_ne q p with rfl | hq
    · simp [System.set]
    · simp [System.set, hq]
  refine ⟨fun q => ?_, h.alert, fun q => ?_, fun q => ?_, ?_⟩
  · rw [hproc]
    exact h.shard q
  · simp only [hproc]
    exact h.queues q
  · simp only [hproc, h.sinks q]
    congr 1
    funext dest
    rcases eq_or_ne dest p with rfl | hd
    · rw [if_pos rfl, hidle, submitBatch_about]
      rfl
    · rw [if_neg hd]
  · rw [System.set, List.map_nil, List.append_nil]
    exact h.hist

theorem PlainSound.popLink (hs : PlainSound sys) (src p : Fin n) : PlainSound (sys.popLink src p) := by
  refine ⟨fun q => ?_, fun q => ?_⟩
  · simp only [System.popLink, Function.update_apply]
    split
    · exact ⟨(hs.tidy src).idle, (hs.tidy src).valid⟩
    · exact hs.tidy q
  · simp only [System.popLink, Function.update_apply]
    split
    · exact hs.clean src
    · exact hs.clean q

theorem perform_sound (hs : PlainSound sys) {task : Task n} {rest : List (Task n)}
    (htodo : (sys.procs p).todo = task :: rest) :
    PlainSound (sys.set p (({ sys.procs p with todo := rest } : DepConsensus n _).perform
      ShardStore.neverSleeping c p task)) := by
  have hb := (hs.tidy p).busy_of_todo (by simp [htodo])
  have hv : ∀ task ∈ rest, task.Valid := fun task ht =>
    (hs.tidy p).valid task (htodo ▸ List.mem_cons_of_mem _ ht)
  have hturn : ∀ k' f, PlainSound (sys.set p
      ((({ sys.procs p with todo := rest } : DepConsensus n _).wake ShardStore.neverSleeping
        k').turn ShardStore.neverSleeping c p k' f)) := fun k' f =>
    hs.set (tidy_turn c p (({ sys.procs p with todo := rest } : DepConsensus n _).wake
      ShardStore.neverSleeping k') hb hv k' f) (clean_turn c p _ (hs.clean p) k' f)
  cases task with
  | applyDepMsg k' src packet =>
    exact hturn k' fun s => (s.emit (.received src packet)).handle c p src packet
  | submit k' commands => exact hturn k' _
  | submitRead k' command => exact hturn k' _

theorem Shows.step {sys' : PlainSystem n} {act : Act n} (hw : World.Reachable c w)
    (h : Shows c k sys w) (hs : PlainSound sys) (hstep : plainStep c sys act = some sys') :
    (∃ w', World.Reachable c w' ∧ Shows c k sys' w') ∧ PlainSound sys' := by
  cases act with
  | receive src p =>
    simp only [plainStep, System.step] at hstep
    split at hstep
    · rename_i message rest hbusy hlink
      cases hstep
      have hidle := (hs.tidy p).idle hbusy
      refine ⟨⟨w, hw, h.receive hidle.1 hlink⟩, (hs.popLink src p).set
        ⟨fun hb => (nomatch hb), fun task ht => ?_⟩ ((hs.popLink src p).clean p)⟩
      cases message with
      | consensusM shard packet =>
        rw [List.mem_singleton.1 ht]
        trivial
      | depAcks acks =>
        obtain ⟨entry, -, rfl⟩ := List.mem_map.1 ht
        trivial
    · cases hstep
  | submit p batch =>
    simp only [plainStep, System.step] at hstep
    split at hstep
    · rename_i hc
      cases hstep
      have hidle := (hs.tidy p).idle hc.1
      exact ⟨⟨w, hw, h.submitBatch hidle.1 batch⟩,
        hs.set ⟨fun hb => (nomatch hb), valid_submitBatch c batch⟩ (hs.clean p)⟩
    · cases hstep
  | work p =>
    simp only [plainStep, System.step] at hstep
    split at hstep
    · rename_i task rest hqueue htodo
      cases hstep
      exact ⟨h.perform hw hs htodo hqueue, perform_sound hs htodo⟩
    · cases hstep
  | deliver p =>
    simp only [plainStep, System.step] at hstep
    split at hstep
    · cases hstep
    · rename_i hne
      cases hstep
      exact ⟨h.deliver hw hs rfl hne, hs.set
        (tidy_turn c p _ ((hs.tidy p).busy_of_queue hne) (hs.tidy p).valid _ _)
        (clean_turn c p _ (hs.clean p) _ _)⟩
  | finish p =>
    simp only [plainStep, System.step] at hstep
    split at hstep
    · rename_i hc
      cases hstep
      exact ⟨h.finish hw hs hc.1 hc.2.1, plainSound_finish hw h hs hc.1 hc.2.1 hc.2.2⟩
    · cases hstep
  | flushAcks p =>
    simp only [plainStep, System.step] at hstep
    split at hstep
    · cases hstep
      exact ⟨h.flushAcks hw, hs.set ⟨(hs.tidy p).idle, (hs.tidy p).valid⟩ (hs.clean p)⟩
    · cases hstep

-- One shard of its own for every logical shard, at every process.
def PlainSystem.start (c : Cluster n) : PlainSystem n := System.init fun p _ => DepShard.new c p

theorem Shows.start (c : Cluster n) (k : Nat) : Shows c k (PlainSystem.start c) World.init := by
  refine ⟨fun p => rfl, fun p msg => ?_, fun p => (ite_self _).symm, fun p => rfl, rfl⟩
  change msg.id.any (fun id => decide ((DepSet.new n).contains id)) = false
  cases msg.id with
  | none => rfl
  | some id => simp

theorem plainSound_start (c : Cluster n) : PlainSound (PlainSystem.start c) :=
  ⟨fun _ => ⟨fun _ => ⟨rfl, rfl⟩, fun _ h => (nomatch h)⟩, fun _ _ => rfl⟩

end

end KCensus.Deps

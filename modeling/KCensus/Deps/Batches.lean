import KCensus.Deps.DepConsensus
import KCensus.Lib.Groups

namespace KCensus.Deps

variable {n : Nat}

-- `sort_unstable_by_key` may leave the commands of one key in any order.
structure BatchSort (n : Nat) where
  sort : List (Command n) → List (Command n)
  perm : ∀ batch, (sort batch).Perm batch
  sorted : ∀ batch, (sort batch).Pairwise fun a b => sortsBefore a b

structure Batching (n : Nat) where
  batch : List (Command n)
  touched : List Nat
  submitted : List (Task n)

instance : Nonempty (BatchSort n) :=
  ⟨fun batch => batch.mergeSort fun a b => sortsBefore a b, fun batch => batch.mergeSort_perm _,
    List.pairwise_mergeSort (by grind [sortsBefore]) (by grind [sortsBefore])⟩

namespace Batching

def submit (shardId : Nat) (commands : List (Command n)) (b : Batching n) : Batching n :=
  { b with
    touched := b.touched ++ [shardId]
    submitted := b.submitted ++ [.submit shardId commands] }

def submitOne (c : Cluster n) (command : Command n) (b : Batching n) : Batching n :=
  let shardId := c.route command.shard
  { b with
    touched := b.touched ++ [shardId]
    submitted := b.submitted ++
      [if command.readOnly then .submitRead shardId command else .submit shardId [command]] }

def drain (run shardId : Nat) (b : Batching n) : Batching n :=
  { b with batch := b.batch.drop run }.submit shardId (b.batch.take run)

def submitWrites (b : Batching n) : Batching n :=
  let writes := (b.batch.takeWhile (!·.readOnly)).length
  if writes > 0 then b.drain writes 0 else b

def runOf (shardId : Nat) (batch : List (Command n)) : Nat :=
  (batch.takeWhile fun command => !command.readOnly && command.shard = shardId).length

theorem length_drain (run shardId : Nat) (b : Batching n) :
    (b.drain run shardId).batch.length = b.batch.length - run :=
  List.length_drop

theorem runOf_pos {command : Command n} {batch rest : List (Command n)}
    (hb : batch = command :: rest) (hw : ¬command.readOnly) : 0 < runOf command.shard batch := by
  rw [runOf, hb, List.takeWhile_cons_of_pos (by simp [hw])]
  exact Nat.succ_pos _

def submitRuns (b : Batching n) : Batching n :=
  match _hb : b.batch with
  | [] => b
  | command :: _ =>
      if _hr : command.readOnly then b
      else submitRuns (b.drain (runOf command.shard b.batch) command.shard)
termination_by b.batch.length
decreasing_by
  have hrun := runOf_pos _hb _hr
  have hlength : 0 < b.batch.length := _hb ▸ Nat.succ_pos _
  rw [length_drain]
  omega

def popOnes (c : Cluster n) (b : Batching n) : Batching n :=
  match _hb : b.batch.getLast? with
  | none => b
  | some command => popOnes c ({ b with batch := b.batch.dropLast }.submitOne c command)
termination_by b.batch.length
decreasing_by
  have : b.batch ≠ [] := by
    intro hnil
    simp [hnil] at _hb
  simp [submitOne, List.length_pos_iff.mpr this]

def submitBatch (c : Cluster n) (sort : BatchSort n) (batch : List (Command n))
    (touched : List Nat) : Batching n :=
  match batch with
  | [command] => submitOne c command ⟨[], touched, []⟩
  | batch =>
      let b : Batching n := ⟨sort.sort batch, touched, []⟩
      let b := if c.crossShard then b.submitWrites else b
      b.submitRuns.popOnes c

-- Also what stays in the receiver; the buffer for the batch is empty before and after.
def submitClientCommands (c : Cluster n) (sort : BatchSort n) (batchCommands : Bool)
    (first : Command n) (queued : List (Command n)) (touched : List Nat) :
    Batching n × List (Command n) :=
  if batchCommands then (submitBatch c sort (first :: queued) touched, [])
  else (submitOne c first ⟨[], touched, []⟩, queued)

def isWriteOf (shardId : Nat) (command : Command n) : Bool :=
  !command.readOnly && command.shard = shardId

theorem isWriteOf_iff {shardId : Nat} {command : Command n} :
    isWriteOf shardId command ↔ command.readOnly = false ∧ command.shard = shardId := by
  simp [isWriteOf]

theorem isWriteOf_of_ne {shardId other : Nat} {command : Command n}
    (h : isWriteOf shardId command) (hne : other ≠ shardId) : isWriteOf other command = false := by
  obtain ⟨-, rfl⟩ := isWriteOf_iff.mp h
  simp [isWriteOf, hne.symm]

theorem sortsBefore_write {a b : Command n} (h : sortsBefore a b) (hb : b.readOnly = false) :
    a.readOnly = false ∧ a.shard ≤ b.shard := by
  simp only [sortsBefore, hb] at h
  split at h
  case isTrue ha => exact ⟨ha, by simpa using h⟩
  case isFalse => cases h

theorem writes_first {batch : List (Command n)}
    (hs : batch.Pairwise fun a b => sortsBefore a b) :
    batch.Pairwise fun a b => !b.readOnly → !a.readOnly := by
  refine hs.imp fun hab hb => ?_
  rw [(sortsBefore_write hab (by simpa using hb)).1]
  rfl

theorem all_reads {batch rest : List (Command n)} {command : Command n}
    (hs : batch.Pairwise fun a b => sortsBefore a b) (hb : batch = command :: rest)
    (hr : command.readOnly = true) : ∀ a ∈ batch, a.readOnly = true := by
  intro a ha
  rw [hb] at hs ha
  rcases List.mem_cons.mp ha with rfl | ha
  · exact hr
  · by_contra hw
    have := (sortsBefore_write (List.rel_of_pairwise_cons hs ha) (by simpa using hw)).1
    simp [hr] at this

theorem run_first {command : Command n} {rest : List (Command n)}
    (hs : (command :: rest).Pairwise fun a b => sortsBefore a b) :
    (command :: rest).Pairwise fun a b =>
      isWriteOf command.shard b → isWriteOf command.shard a := by
  obtain ⟨hfirst, hrest⟩ := List.pairwise_cons.mp hs
  refine List.pairwise_cons.mpr ⟨fun b hb hw => ?_, hrest.imp_of_mem fun {a b} ha _ hab hw => ?_⟩
  · have hbefore := sortsBefore_write (hfirst b hb) (isWriteOf_iff.mp hw).1
    exact isWriteOf_iff.mpr ⟨hbefore.1, rfl⟩
  · obtain ⟨hb, hshard⟩ := isWriteOf_iff.mp hw
    obtain ⟨haw, hle⟩ := sortsBefore_write hab hb
    have hge := (sortsBefore_write (hfirst a ha) haw).2
    exact isWriteOf_iff.mpr ⟨haw, by omega⟩

theorem popOnes_concat (c : Cluster n) (batch : List (Command n)) (command : Command n)
    (touched : List Nat) (submitted : List (Task n)) :
    popOnes c ⟨batch ++ [command], touched, submitted⟩ =
      popOnes c (submitOne c command ⟨batch, touched, submitted⟩) := by
  rw [popOnes]
  split
  case h_1 hnone => simp at hnone
  case h_2 last hlast =>
    obtain rfl : command = last := by simpa using hlast
    simp only [List.dropLast_concat]

theorem popOnes_eq (c : Cluster n) (batch : List (Command n)) (touched : List Nat)
    (submitted : List (Task n)) :
    popOnes c ⟨batch, touched, submitted⟩ =
      ⟨[], touched ++ batch.reverse.map (c.route ·.shard),
        submitted ++ batch.reverse.map (Deps.submitOne c)⟩ := by
  induction batch using List.reverseRecOn generalizing touched submitted with
  | nil =>
    rw [popOnes]
    simp
  | append_singleton batch command ih =>
    rw [popOnes_concat, submitOne, ih]
    simp [Deps.submitOne]

theorem submitted_popOnes (c : Cluster n) (b : Batching n) : (popOnes c b).submitted =
    b.submitted ++ b.batch.reverse.map (Deps.submitOne c) := by
  rcases b with ⟨batch, touched, submitted⟩
  rw [popOnes_eq]

theorem submitRuns_of_reads {b : Batching n}
    (h : ∀ command ∈ b.batch.head?, command.readOnly) : b.submitRuns = b := by
  rw [submitRuns]
  split
  case h_1 => rfl
  case h_2 command rest hb => rw [dif_pos (h command (by simp [hb]))]

theorem submitRuns_of_write {b : Batching n} {command : Command n} {rest : List (Command n)}
    (hb : b.batch = command :: rest) (hw : command.readOnly = false) :
    b.submitRuns = (b.drain (runOf command.shard b.batch) command.shard).submitRuns := by
  rw [submitRuns]
  split
  case h_1 hnil => simp [hb] at hnil
  case h_2 first rest' hb' =>
    obtain rfl : command = first := (List.cons.inj (hb.symm.trans hb')).1
    rw [dif_neg (by simp [hw])]

theorem drain_run {b : Batching n} {command : Command n} {rest : List (Command n)}
    (hs : b.batch.Pairwise fun a b => sortsBefore a b) (hb : b.batch = command :: rest) :
    b.drain (runOf command.shard b.batch) command.shard =
      ⟨b.batch.filter (!isWriteOf command.shard ·), b.touched ++ [command.shard],
        b.submitted ++ [.submit command.shard (b.batch.filter (isWriteOf command.shard))]⟩ := by
  have hrun := run_first (hb ▸ hs)
  rw [← hb] at hrun
  rw [← Lib.take_run hrun, ← Lib.drop_run hrun]
  rfl

-- The shards of the writes of a batch in order, as the loop meets them.
theorem submitRuns_eq (b : Batching n) (hs : b.batch.Pairwise fun a b => sortsBefore a b) :
    ∃ shards : List Nat, shards.Nodup ∧
      (∀ k, k ∈ shards ↔ ∃ command ∈ b.batch, isWriteOf k command) ∧
      b.submitRuns =
        ⟨b.batch.filter (·.readOnly), b.touched ++ shards,
          b.submitted ++ shards.map fun k => .submit k (b.batch.filter (isWriteOf k))⟩ := by
  induction b using submitRuns.induct with
  | case1 b hnil =>
    refine ⟨[], .nil, by simp [hnil], ?_⟩
    rw [submitRuns_of_reads (by simp [hnil])]
    rcases b with ⟨batch, touched, submitted⟩
    simp_all
  | case2 b command rest hb hr =>
    have hreads := all_reads hs hb hr
    refine ⟨[], .nil, fun k => ?_, ?_⟩
    · simp only [List.not_mem_nil, false_iff, not_exists, not_and]
      intro a ha hw
      exact absurd (hreads a ha) (by simp [(isWriteOf_iff.mp hw).1])
    · rw [submitRuns_of_reads (by simp [hb, hr]), List.filter_eq_self.mpr hreads]
      simp
  | case3 b command rest hb hr ih =>
    have hw : command.readOnly = false := by simpa using hr
    have hdrain := drain_run hs hb
    rw [hdrain] at ih
    obtain ⟨shards, hnodup, hmem, heq⟩ := ih (hs.filter _)
    have hfirst : isWriteOf command.shard command := isWriteOf_iff.mpr ⟨hw, rfl⟩
    have hnew : command.shard ∉ shards := by
      intro hin
      obtain ⟨a, ha, haw⟩ := (hmem _).mp hin
      simp [haw] at ha
    refine ⟨command.shard :: shards, List.nodup_cons.mpr ⟨hnew, hnodup⟩, fun k => ?_, ?_⟩
    · rcases eq_or_ne k command.shard with rfl | hne
      · simp only [List.mem_cons_self, true_iff]
        exact ⟨command, by simp [hb], hfirst⟩
      · simp only [List.mem_cons, hne, false_or, hmem, List.mem_filter]
        refine exists_congr fun a => and_congr_left fun ha => and_iff_left ?_
        simpa using isWriteOf_of_ne ha hne.symm
    · have hrest : ∀ k ∈ shards, (b.batch.filter (!isWriteOf command.shard ·)).filter (isWriteOf k) =
          b.batch.filter (isWriteOf k) := by
        intro k hk
        rw [List.filter_filter]
        refine List.filter_congr fun a _ => ?_
        cases ha : isWriteOf k a with
        | false => rfl
        | true =>
          have hne : command.shard ≠ k := fun h => hnew (h ▸ hk)
          simp [isWriteOf_of_ne ha hne]
      have hreads : (b.batch.filter (!isWriteOf command.shard ·)).filter (·.readOnly) =
          b.batch.filter (·.readOnly) := by
        rw [List.filter_filter]
        refine List.filter_congr fun a _ => ?_
        cases ha : a.readOnly <;> simp [isWriteOf, ha]
      rw [submitRuns_of_write hb hw, hdrain, heq, hreads]
      simp only [List.append_assoc, List.singleton_append, List.map_cons, Batching.mk.injEq,
        true_and, List.append_cancel_left_eq, List.cons.injEq]
      exact List.map_congr_left fun k hk => by rw [hrest k hk]

-- What a batch comes to: its instances, and its reads each on its own.
structure Exact (c : Cluster n) (batch : List (Command n)) (touched : List Nat) (b : Batching n)
    (instances : List (Nat × List (Command n))) (reads : List (Command n)) : Prop where
  left : b.batch = []
  submitted : b.submitted = instances.map (fun i => .submit i.1 i.2) ++
    reads.map fun read => .submitRead (c.route read.shard) read
  touched : b.touched = touched ++ instances.map (·.1) ++ reads.map (c.route ·.shard)
  each : (instances.flatMap (·.2) ++ reads).Perm batch
  writes : ∀ i ∈ instances, i.2 ≠ [] ∧ ∀ command ∈ i.2, command.readOnly = false
  reads : ∀ read ∈ reads, read.readOnly = true
  byShard : c.crossShard = false → (instances.map (·.1)).Nodup ∧
    ∀ i ∈ instances, i.2.Perm (batch.filter (isWriteOf i.1))
  together : c.crossShard = true → instances = [] ∨ ∃ commands, instances = [(0, commands)]

variable {c : Cluster n} {batch : List (Command n)} {touched : List Nat} {b : Batching n}

theorem exact_submitOne (c : Cluster n) (command : Command n) (touched : List Nat) :
    ∃ instances reads,
      Exact c [command] touched (submitOne c command ⟨[], touched, []⟩) instances reads := by
  cases hr : command.readOnly with
  | true =>
    refine ⟨[], [command], ?_⟩
    exact {
      left := rfl
      submitted := by simp [submitOne, hr]
      touched := by simp [submitOne]
      each := .refl _
      writes := by simp
      reads := by simpa using hr
      byShard := by simp
      together := fun _ => .inl rfl }
  | false =>
    refine ⟨[(c.route command.shard, [command])], [], ?_⟩
    exact {
      left := rfl
      submitted := by simp [submitOne, hr]
      touched := by simp [submitOne]
      each := .refl _
      writes := by simpa using hr
      reads := by simp
      byShard := by
        intro hc
        simp [Cluster.route, hc, isWriteOf, hr]
      together := by
        intro hc
        exact .inr ⟨_, by rw [Cluster.route, if_pos hc]⟩ }

theorem Exact.of_perm {batch' : List (Command n)} {instances : List (Nat × List (Command n))}
    {reads : List (Command n)} (h : Exact c batch touched b instances reads)
    (hperm : batch.Perm batch') : Exact c batch' touched b instances reads where
  __ := h
  each := h.each.trans hperm
  byShard := fun hc =>
    ⟨(h.byShard hc).1, fun i hi => ((h.byShard hc).2 i hi).trans (hperm.filter _)⟩

theorem exact_popOnes (instances : List (Nat × List (Command n))) {reads : List (Command n)}
    (hr : ∀ read ∈ reads, read.readOnly = true)
    (each : (instances.flatMap (·.2) ++ reads).Perm batch)
    (writes : ∀ i ∈ instances, i.2 ≠ [] ∧ ∀ command ∈ i.2, command.readOnly = false)
    (byShard : c.crossShard = false → (instances.map (·.1)).Nodup ∧
      ∀ i ∈ instances, i.2.Perm (batch.filter (isWriteOf i.1)))
    (together : c.crossShard = true → instances = [] ∨ ∃ commands, instances = [(0, commands)]) :
    Exact c batch touched
      (popOnes c ⟨reads, touched ++ instances.map (·.1), instances.map fun i => .submit i.1 i.2⟩)
      instances reads.reverse := by
  rw [popOnes_eq]
  exact {
    left := rfl
    submitted := by
      simp only [List.append_cancel_left_eq]
      refine List.map_congr_left fun read hread => ?_
      rw [Deps.submitOne, if_pos (hr read (List.mem_reverse.mp hread))]
    touched := rfl
    each := ((List.reverse_perm reads).append_left _).trans each
    writes := writes
    reads := fun read hread => hr read (List.mem_reverse.mp hread)
    byShard := byShard
    together := together }

theorem submitWrites_eq {batch : List (Command n)}
    (hs : batch.Pairwise fun a b => sortsBefore a b) (touched : List Nat) :
    submitWrites ⟨batch, touched, []⟩ =
      if batch.filter (!·.readOnly) = [] then ⟨batch, touched, []⟩
      else ⟨batch.filter (·.readOnly), touched ++ [0], [.submit 0 (batch.filter (!·.readOnly))]⟩ := by
  have hfirst := writes_first hs
  have hdrain : Batching.drain (batch.takeWhile (!·.readOnly)).length 0 ⟨batch, touched, []⟩ =
      ⟨batch.filter (·.readOnly), touched ++ [0], [.submit 0 (batch.filter (!·.readOnly))]⟩ := by
    rw [← Lib.take_run hfirst]
    simp only [drain, submit, Lib.drop_run hfirst, Bool.not_not, List.nil_append]
  rw [Lib.takeWhile_eq_filter hfirst] at hdrain
  simp only [submitWrites, Lib.takeWhile_eq_filter hfirst, hdrain, gt_iff_lt, List.length_pos_iff]
  exact ite_not ..

theorem reads_of_no_write {batch : List (Command n)} (h : batch.filter (!·.readOnly) = []) :
    batch.filter (·.readOnly) = batch := by
  simpa [List.filter_eq_nil_iff] using h

theorem submitRuns_submitWrites {batch : List (Command n)}
    (hs : batch.Pairwise fun a b => sortsBefore a b) (touched : List Nat) :
    (submitWrites ⟨batch, touched, []⟩).submitRuns = submitWrites ⟨batch, touched, []⟩ := by
  have hreads : ∀ read ∈ (batch.filter (·.readOnly)).head?, read.readOnly = true :=
    fun read h => (List.mem_filter.mp (List.mem_of_mem_head? h)).2
  rw [submitWrites_eq hs]
  split
  case isTrue hnone => exact submitRuns_of_reads (reads_of_no_write hnone ▸ hreads)
  case isFalse => exact submitRuns_of_reads hreads

theorem exact_cross (hc : c.crossShard = true) (hs : batch.Pairwise fun a b => sortsBefore a b)
    (touched : List Nat) :
    ∃ instances reads, Exact c batch touched
      ((submitWrites ⟨batch, touched, []⟩).submitRuns.popOnes c) instances reads := by
  have hreads : ∀ read ∈ batch.filter (·.readOnly), read.readOnly = true := by simp
  have heach : (batch.filter (!·.readOnly) ++ batch.filter (·.readOnly)).Perm batch :=
    List.perm_append_comm.trans (List.filter_append_perm _ batch)
  have hcross : ¬c.crossShard = false := by simp [hc]
  rw [submitRuns_submitWrites hs, submitWrites_eq hs]
  split
  case isTrue hnone =>
    rw [hnone, List.nil_append] at heach
    have h : Exact c batch touched (popOnes c ⟨batch.filter (·.readOnly), touched ++ [], []⟩) [] _ :=
      exact_popOnes [] hreads heach (by simp) (absurd · hcross) (fun _ => .inl rfl)
    rw [reads_of_no_write hnone, List.append_nil] at h
    exact ⟨[], _, h⟩
  case isFalse hsome =>
    refine ⟨[(0, batch.filter (!·.readOnly))], _, exact_popOnes _ hreads ?_ ?_ (absurd · hcross)
      (fun _ => .inr ⟨_, rfl⟩)⟩
    · simpa using heach
    · simpa using hsome

theorem exact_runs (hc : c.crossShard = false) (hs : batch.Pairwise fun a b => sortsBefore a b)
    (touched : List Nat) :
    ∃ instances reads, Exact c batch touched
      ((submitRuns ⟨batch, touched, []⟩).popOnes c) instances reads := by
  obtain ⟨shards, hnodup, hmem, heq⟩ := submitRuns_eq ⟨batch, touched, []⟩ hs
  have hreads : ∀ read ∈ batch.filter (·.readOnly), read.readOnly = true := by simp
  have hshards : (shards.map fun k => (k, batch.filter (isWriteOf k))).map (·.1) = shards := by
    simp [Function.comp_def]
  have hwrites : (shards.flatMap fun k => batch.filter (isWriteOf k)).Perm
      (batch.filter (!·.readOnly)) := by
    have hperm := Lib.flatMap_filter_perm Command.shard (batch.filter (!·.readOnly)) hnodup
    have hgroup (k : Nat) : (batch.filter (!·.readOnly)).filter (fun command => command.shard = k) =
        batch.filter (isWriteOf k) := by
      rw [List.filter_filter]
      exact List.filter_congr fun a _ => Bool.and_comm ..
    have hall : (batch.filter (!·.readOnly)).filter (fun command => command.shard ∈ shards) =
        batch.filter (!·.readOnly) := by
      refine List.filter_eq_self.mpr fun a ha => decide_eq_true ((hmem _).mpr ?_)
      obtain ⟨hin, hw⟩ := List.mem_filter.mp ha
      exact ⟨a, hin, isWriteOf_iff.mpr ⟨by simpa using hw, rfl⟩⟩
    simpa only [hgroup, hall] using hperm
  refine ⟨shards.map fun k => (k, batch.filter (isWriteOf k)),
    (batch.filter (·.readOnly)).reverse, ?_⟩
  have h : Exact c batch touched (popOnes c ⟨batch.filter (·.readOnly),
      touched ++ (shards.map fun k => (k, batch.filter (isWriteOf k))).map (·.1),
      (shards.map fun k => (k, batch.filter (isWriteOf k))).map fun i => .submit i.1 i.2⟩)
      (shards.map fun k => (k, batch.filter (isWriteOf k))) (batch.filter (·.readOnly)).reverse := by
    refine exact_popOnes _ hreads ?_ ?_ (fun _ => ⟨?_, ?_⟩) (fun hc' => ?_)
    · simp only [List.flatMap_map]
      exact (hwrites.append_right _).trans
        (List.perm_append_comm.trans (List.filter_append_perm _ batch))
    · intro i hi
      obtain ⟨k, hk, rfl⟩ := List.mem_map.mp hi
      obtain ⟨command, hcommand, hw⟩ := (hmem k).mp hk
      refine ⟨List.ne_nil_of_mem (List.mem_filter.mpr ⟨hcommand, hw⟩), fun a ha => ?_⟩
      exact (isWriteOf_iff.mp (List.mem_filter.mp ha).2).1
    · rwa [hshards]
    · intro i hi
      obtain ⟨k, -, rfl⟩ := List.mem_map.mp hi
      exact .refl _
    · simp [hc] at hc'
  rw [heq]
  simpa [Function.comp_def] using h

theorem exact_submitBatch (c : Cluster n) (sort : BatchSort n) (batch : List (Command n))
    (touched : List Nat) :
    ∃ instances reads,
      Exact c batch touched (submitBatch c sort batch touched) instances reads := by
  unfold submitBatch
  split
  case h_1 command => exact exact_submitOne c command touched
  case h_2 =>
    cases hc : c.crossShard with
    | true =>
      obtain ⟨instances, reads, h⟩ := exact_cross hc (sort.sorted batch) touched
      exact ⟨instances, reads, h.of_perm (sort.perm batch)⟩
    | false =>
      obtain ⟨instances, reads, h⟩ := exact_runs hc (sort.sorted batch) touched
      exact ⟨instances, reads, h.of_perm (sort.perm batch)⟩

theorem exact_submitClientCommands (c : Cluster n) (sort : BatchSort n) (batchCommands : Bool)
    (first : Command n) (queued : List (Command n)) (touched : List Nat) :
    ∃ taken instances reads,
      Exact c taken touched (submitClientCommands c sort batchCommands first queued touched).1
        instances reads ∧
      taken ++ (submitClientCommands c sort batchCommands first queued touched).2 =
        first :: queued := by
  cases batchCommands with
  | true =>
    obtain ⟨instances, reads, h⟩ := exact_submitBatch c sort (first :: queued) touched
    exact ⟨first :: queued, instances, reads, h, List.append_nil _⟩
  | false =>
    obtain ⟨instances, reads, h⟩ := exact_submitOne c first touched
    exact ⟨[first], instances, reads, h, rfl⟩

theorem splitBy_run {command : Command n} {batch rest : List (Command n)}
    (hs : batch.Pairwise fun a b => sortsBefore a b) (hb : batch = command :: rest)
    (hw : command.readOnly = false) :
    ((batch.filter (!·.readOnly)).splitBy fun a b => a.shard = b.shard) =
      batch.filter (isWriteOf command.shard) ::
        ((batch.filter (!isWriteOf command.shard ·)).filter (!·.readOnly)).splitBy
          fun a b => a.shard = b.shard := by
  have hrun := run_first (hb ▸ hs)
  rw [← hb] at hrun
  have hshard : ∀ a ∈ batch.filter (isWriteOf command.shard), a.shard = command.shard :=
    fun a ha => (isWriteOf_iff.mp (List.mem_filter.mp ha).2).2
  have hwrites : batch.filter (!·.readOnly) = batch.filter (isWriteOf command.shard) ++
      (batch.filter (!isWriteOf command.shard ·)).filter (!·.readOnly) := by
    conv_lhs => rw [← List.take_append_drop (batch.takeWhile (isWriteOf command.shard)).length batch,
      Lib.take_run hrun, Lib.drop_run hrun, List.filter_append]
    congr 1
    refine List.filter_eq_self.mpr fun a ha => ?_
    simp [(isWriteOf_iff.mp (List.mem_filter.mp ha).2).1]
  have hfirst : batch.filter (isWriteOf command.shard) ≠ [] := by
    refine List.ne_nil_of_mem (a := command) (List.mem_filter.mpr ⟨by simp [hb], ?_⟩)
    exact isWriteOf_iff.mpr ⟨hw, rfl⟩
  rw [hwrites, List.splitBy_append, List.splitBy_of_isChain hfirst, List.singleton_append]
  · refine List.Pairwise.isChain (List.pairwise_of_forall_mem_list fun a ha b hb => ?_)
    simp [hshard a ha, hshard b hb]
  · intro a ha b hb
    obtain ⟨hin, hbw⟩ := List.mem_filter.mp (List.mem_of_mem_head? hb)
    have hbw : b.readOnly = false := by simpa using hbw
    have hne : b.shard ≠ command.shard := by simpa [isWriteOf, hbw] using (List.mem_filter.mp hin).2
    rw [hshard a (List.mem_of_mem_getLast? ha)]
    exact decide_eq_false hne.symm

theorem submitRun_of_shard {shardId : Nat} {commands : List (Command n)} (hne : commands ≠ [])
    (h : ∀ command ∈ commands, command.shard = shardId) :
    submitRun commands = some (.submit shardId commands) := by
  obtain ⟨command, rest, rfl⟩ := List.exists_cons_of_ne_nil hne
  rw [submitRun, List.head?_cons, Option.map_some, h command List.mem_cons_self]

theorem submitted_submitRuns (b : Batching n) (hs : b.batch.Pairwise fun a b => sortsBefore a b) :
    b.submitRuns.submitted = b.submitted ++
      ((b.batch.filter (!·.readOnly)).splitBy fun a b => a.shard = b.shard).filterMap submitRun := by
  induction b using submitRuns.induct with
  | case1 b hnil =>
    rw [submitRuns_of_reads (by simp [hnil])]
    simp [hnil]
  | case2 b command rest hb hr =>
    have hnone : b.batch.filter (!·.readOnly) = [] := by
      simpa [List.filter_eq_nil_iff] using all_reads hs hb hr
    rw [submitRuns_of_reads (by simp [hb, hr]), hnone]
    simp
  | case3 b command rest hb hr ih =>
    have hw : command.readOnly = false := by simpa using hr
    rw [drain_run hs hb] at ih
    have hrun : submitRun (b.batch.filter (isWriteOf command.shard)) =
        some (.submit command.shard (b.batch.filter (isWriteOf command.shard))) := by
      refine submitRun_of_shard ?_ fun a ha => (isWriteOf_iff.mp (List.mem_filter.mp ha).2).2
      refine List.ne_nil_of_mem (a := command) (List.mem_filter.mpr ⟨by simp [hb], ?_⟩)
      exact isWriteOf_iff.mpr ⟨hw, rfl⟩
    rw [submitRuns_of_write hb hw, drain_run hs hb, ih (hs.filter _), splitBy_run hs hb hw,
      List.filterMap_cons, hrun, List.append_assoc]
    rfl

-- The batch as the system's step takes it up: the same tasks in the same order.
theorem submitted_submitBatch (c : Cluster n) (sort : BatchSort n) (batch : List (Command n))
    (touched : List Nat) :
    (submitBatch c sort batch touched).submitted = Deps.submitBatch c (sort.sort batch) := by
  have hs := sort.sorted batch
  have hperm := sort.perm batch
  unfold submitBatch
  split
  case h_1 command =>
    rw [List.perm_singleton.mp hperm]
    simp [submitOne, Deps.submitBatch, Deps.submitOne]
  case h_2 hmany =>
    generalize sort.sort batch = sorted at hs hperm
    have hfirst := writes_first hs
    have hone : ∀ command, sorted = [command] → False := by
      rintro command rfl
      exact hmany command (List.perm_singleton.mp hperm.symm)
    have hdrop : sorted.dropWhile (!·.readOnly) = sorted.filter (·.readOnly) := by
      simpa only [Bool.not_not] using Lib.dropWhile_eq_filter hfirst
    rw [Deps.submitBatch, hdrop, Lib.takeWhile_eq_filter hfirst]
    · cases hc : c.crossShard with
      | false =>
        obtain ⟨shards, -, -, heq⟩ := submitRuns_eq ⟨sorted, touched, []⟩ hs
        have hruns := submitted_submitRuns ⟨sorted, touched, []⟩ hs
        simp only [Bool.false_eq_true, if_false]
        rw [submitted_popOnes, hruns, heq]
        rfl
      | true =>
        simp only [if_true]
        rw [submitRuns_submitWrites hs, submitted_popOnes, submitWrites_eq hs]
        split
        case isTrue hnone => rw [reads_of_no_write hnone]
        case isFalse => rfl
    · exact hone

end Batching

end KCensus.Deps

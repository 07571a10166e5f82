import KCensus.Deps.CheckedTable
import KCensus.Deps.UidSets

namespace KCensus.Deps

variable {n : Nat} [NeZero n]

abbrev UidMap (n : Nat) := Finmap fun _ : Uid => Instance n

inductive TableOp (n : Nat) where
  | insert (uid : Uid) (instance' : Instance n)
  | remove (uid : Uid)
  | update (uid : Uid) (f : Instance n → Instance n)
  | reset

namespace TableOp

def apply : TableOp n → UidMap n → UidMap n
  | .insert uid i, m => m.insert uid i
  | .remove uid, m => m.erase uid
  | .update uid f, m =>
      match m.lookup uid with
      | some i => m.insert uid (f i)
      | none => m
  | .reset, _ => ∅

-- The table asserts that it holds no instance twice and is reset only when empty.
def Legal : TableOp n → UidMap n → Prop
  | .insert uid _, m => uid ∉ m
  | .remove _, _ => True
  | .update _ _, _ => True
  | .reset, m => m = ∅

def LegalFrom : List (TableOp n) → UidMap n → Prop
  | [], _ => True
  | op :: ops, m => op.Legal m ∧ LegalFrom ops (op.apply m)

def run (t : CheckedTable n) : TableOp n → Option (CheckedTable n)
  | .insert uid i => t.insert uid i
  | .remove uid => (t.remove uid).map Prod.fst
  | .update uid f => t.update uid f
  | .reset => t.reset

end TableOp

namespace InstanceTable

def logEntries (t : InstanceTable n) (replica : Fin n) : List (Uid × Instance n) :=
  (t.logs replica).zipIdx.filterMap fun (slot, index) =>
    slot.map fun i => (uidAt (indexOf n (t.front replica) + index) replica, i)

theorem iter_eq (t : InstanceTable n) : t.iter = (List.finRange n).flatMap t.logEntries := rfl

theorem increasing_slots (log : List (Option (Instance n))) (base start : Nat) (replica : Fin n) :
    ((log.zipIdx start).filterMap fun (slot, index) =>
        slot.map fun i => (uidAt (base + index) replica, i)).Pairwise (·.1 < ·.1) := by
  induction log generalizing start with
  | nil => exact List.Pairwise.nil
  | cons slot log ih =>
      rw [List.zipIdx_cons]
      cases slot with
      | none => exact ih (start + 1)
      | some i =>
          refine List.pairwise_cons.mpr ⟨fun entry hentry => ?_, ih (start + 1)⟩
          obtain ⟨⟨slot, index⟩, hmem, heq⟩ := List.mem_filterMap.mp hentry
          obtain ⟨j, -, rfl⟩ := Option.map_eq_some_iff.mp heq
          have := List.le_snd_of_mem_zipIdx hmem
          exact uidAt_lt.mpr (by omega)

theorem increasing_logEntries (t : InstanceTable n) (replica : Fin n) :
    (t.logEntries replica).Pairwise (·.1 < ·.1) :=
  increasing_slots _ _ 0 replica

omit [NeZero n] in
theorem length_slots (log : List (Option (Instance n))) (base start : Nat) (replica : Fin n) :
    ((log.zipIdx start).filterMap fun (slot, index) =>
        slot.map fun i => (uidAt (base + index) replica, i)).length = log.countP Option.isSome := by
  induction log generalizing start with
  | nil => rfl
  | cons slot log ih =>
      rw [List.zipIdx_cons]
      cases slot with
      | none => simpa using ih (start + 1)
      | some i => simpa using ih (start + 1)

theorem requesterOf_logEntries {t : InstanceTable n} {replica : Fin n} {entry : Uid × Instance n}
    (h : entry ∈ t.logEntries replica) : requesterOf n entry.1 = replica := by
  obtain ⟨⟨slot, index⟩, -, heq⟩ := List.mem_filterMap.mp h
  obtain ⟨i, -, rfl⟩ := Option.map_eq_some_iff.mp heq
  exact requesterOf_uidAt _ replica

theorem length_iter (t : InstanceTable n) : t.iter.length = ∑ replica, t.entries replica := by
  rw [iter_eq, List.length_flatMap, ← List.sum_ofFn, List.ofFn_eq_map]
  exact congrArg List.sum (List.map_congr_left fun replica _ => length_slots _ _ 0 replica)

theorem keys_iter (t : InstanceTable n) :
    t.iter.map Prod.fst = (List.finRange n).flatMap fun replica =>
      (t.logEntries replica).map Prod.fst := by
  rw [iter_eq, List.map_flatMap]

theorem requesterOf_logKeys {t : InstanceTable n} (replica : Fin n) (uid : Uid)
    (h : uid ∈ (t.logEntries replica).map Prod.fst) : requesterOf n uid = replica := by
  obtain ⟨entry, hentry, rfl⟩ := List.mem_map.mp h
  exact requesterOf_logEntries hentry

theorem increasing_logKeys (t : InstanceTable n) (replica : Fin n) :
    ((t.logEntries replica).map Prod.fst).Pairwise (· < ·) :=
  List.pairwise_map.mpr (t.increasing_logEntries replica)

theorem nodup_iter (t : InstanceTable n) : (t.iter.map Prod.fst).Nodup := by
  rw [keys_iter]
  exact Lib.nodup_flatMap_key requesterOf_logKeys
    (fun replica => (t.increasing_logKeys replica).imp fun h => h.ne) (List.nodup_finRange n)

theorem increasing_iter (t : InstanceTable n) (replica : Fin n) :
    ((t.iter.map Prod.fst).filter (requesterOf n · = replica)).Pairwise (· < ·) := by
  rw [keys_iter, Lib.filter_flatMap_key requesterOf_logKeys (List.nodup_finRange n),
    if_pos (List.mem_finRange replica)]
  exact t.increasing_logKeys replica

structure Represents (t : InstanceTable n) (m : UidMap n) : Prop where
  counted : t.Counted
  lookup : ∀ uid, t.get uid = m.lookup uid

theorem represents_new : (new n).Represents ∅ :=
  ⟨counted_new, fun uid => by simp⟩

variable {t : InstanceTable n} {m : UidMap n}

theorem Represents.insert (h : t.Represents m) {uid : Uid} (hn : uid ∉ m) (i : Instance n) :
    (t.insert uid i).Represents (m.insert uid i) := by
  refine ⟨h.counted.insert i ((h.lookup uid).trans (Finmap.lookup_eq_none.mpr hn)), fun v => ?_⟩
  rw [get_insert]
  split
  · rename_i heq
    rw [heq, Finmap.lookup_insert]
  · rename_i hne
    rw [Finmap.lookup_insert_of_ne _ hne, h.lookup]

theorem Represents.remove (h : t.Represents m) (uid : Uid) :
    (t.remove uid).Represents (m.erase uid) := by
  refine ⟨h.counted.remove uid, fun v => ?_⟩
  rw [get_remove]
  split
  · rename_i heq
    rw [heq, Finmap.lookup_erase]
  · rename_i hne
    rw [Finmap.lookup_erase_ne hne, h.lookup]

theorem Represents.modify (h : t.Represents m) (uid : Uid) (f : Instance n → Instance n) :
    (t.modify uid f).Represents ((TableOp.update uid f).apply m) := by
  refine ⟨h.counted.modify uid f, fun v => ?_⟩
  rw [get_modify, h.lookup, TableOp.apply]
  cases hm : m.lookup uid with
  | none =>
      split
      · rename_i heq
        rw [heq, hm]
        rfl
      · rfl
  | some i =>
      split
      · rename_i heq
        rw [heq, hm, Finmap.lookup_insert]
        rfl
      · rename_i hne
        rw [Finmap.lookup_insert_of_ne _ hne]

theorem Represents.isEmpty (h : t.Represents m) (hm : m = ∅) : t.isEmpty := by
  refine h.counted.isEmpty_iff.mpr fun uid => ?_
  rw [h.lookup, hm, Finmap.lookup_empty]

theorem Represents.step (h : t.Represents m) {op : TableOp n} (hl : op.Legal m) :
    ∃ t' : InstanceTable n, op.run t.checked = some t'.checked ∧ t'.Represents (op.apply m) := by
  cases op with
  | insert uid i =>
      have hn : t.get uid = none := (h.lookup uid).trans (Finmap.lookup_eq_none.mpr hl)
      exact ⟨_, t.insert_checked hn i, h.insert hl i⟩
  | remove uid =>
      refine ⟨_, ?_, h.remove uid⟩
      rw [TableOp.run, t.remove_checked h.counted uid]
      rfl
  | update uid f => exact ⟨_, t.update_checked uid f, h.modify uid f⟩
  | reset => exact ⟨_, t.reset_checked (h.isEmpty hl), represents_new⟩

theorem Represents.run (h : t.Represents m) {ops : List (TableOp n)}
    (hl : TableOp.LegalFrom ops m) :
    ∃ t' : InstanceTable n, ops.foldlM TableOp.run t.checked = some t'.checked ∧
      t'.Represents (ops.foldl (fun m op => op.apply m) m) := by
  induction ops generalizing t m with
  | nil => exact ⟨t, rfl, h⟩
  | cons op ops ih =>
      obtain ⟨next, hrun, hnext⟩ := h.step hl.1
      obtain ⟨last, hruns, hlast⟩ := ih hnext hl.2
      refine ⟨last, ?_, hlast⟩
      rw [List.foldlM_cons, hrun]
      exact hruns

theorem Represents.keys_eq (h : t.Represents m) : m.keys = (t.iter.map Prod.fst).toFinset := by
  ext uid
  rw [Finmap.mem_keys, Finmap.mem_iff, List.mem_toFinset, List.mem_map]
  constructor
  · rintro ⟨i, hi⟩
    exact ⟨(uid, i), (t.mem_iter uid i).mpr ((h.lookup uid).trans hi), rfl⟩
  · rintro ⟨⟨v, i⟩, hmem, rfl⟩
    exact ⟨i, (h.lookup v).symm.trans ((t.mem_iter v i).mp hmem)⟩

theorem Represents.len_eq (h : t.Represents m) : t.len = m.keys.card := by
  rw [h.keys_eq, List.toFinset_card_of_nodup t.nodup_iter, List.length_map, length_iter,
    h.counted.len_eq]

end InstanceTable

-- Every query answers as the map would, without an underflow.
structure CheckedTable.Implements (t : CheckedTable n) (m : UidMap n) : Prop where
  get : ∀ uid, t.get uid = some (m.lookup uid)
  containsKey : ∀ uid, t.containsKey uid = some (decide (uid ∈ m))
  removed : ∀ uid, (t.remove uid).map Prod.snd = some (m.lookup uid)
  len : t.len = m.keys.card
  iter : ∀ u i, (u, i) ∈ t.iter ↔ ∃ uid : Uid, uid.toNat = u ∧ m.lookup uid = some i
  once : (t.iter.map Prod.fst).Nodup
  increasing : ∀ replica : Fin n,
    ((t.iter.map Prod.fst).filter fun u => u / 2 % n = replica).Pairwise (· < ·)

theorem InstanceTable.Represents.implements {t : InstanceTable n} {m : UidMap n}
    (h : t.Represents m) : t.checked.Implements m := by
  have hkeys : t.checked.iter.map Prod.fst = (t.iter.map Prod.fst).map Uid.toNat := by
    rw [t.iter_checked, List.map_map, List.map_map]
    rfl
  refine ⟨fun uid => ?_, fun uid => ?_, fun uid => ?_, h.len_eq, fun u i => ?_, ?_, fun replica => ?_⟩
  · rw [t.get_checked, h.lookup]
  · rw [CheckedTable.containsKey, t.get_checked, h.lookup, Option.map_some]
    congr 1
    rw [Bool.eq_iff_iff, decide_eq_true_iff, Finmap.lookup_isSome]
  · rw [t.remove_checked h.counted, Option.map_some, h.lookup]
  · rw [t.iter_checked, List.mem_map]
    constructor
    · rintro ⟨⟨uid, j⟩, hmem, heq⟩
      obtain ⟨rfl, rfl⟩ := Prod.mk.inj heq
      exact ⟨uid, rfl, (h.lookup uid).symm.trans ((t.mem_iter uid j).mp hmem)⟩
    · rintro ⟨uid, rfl, hi⟩
      exact ⟨(uid, i), (t.mem_iter uid i).mpr ((h.lookup uid).trans hi), rfl⟩
  · rw [hkeys]
    exact t.nodup_iter.map fun _ _ heq => Uid.ext heq
  · rw [hkeys, List.filter_map, List.pairwise_map]
    refine List.Pairwise.imp (R := (· < ·)) (fun hlt => hlt) ?_
    convert t.increasing_iter replica using 3
    simp [requesterOf, Fin.ext_iff]

theorem table_refines_map (ops : List (TableOp n)) (hlegal : TableOp.LegalFrom ops ∅) :
    ∃ t, ops.foldlM TableOp.run (CheckedTable.new n) = some t ∧
      t.Implements (ops.foldl (fun m op => op.apply m) ∅) := by
  obtain ⟨t, hrun, ht⟩ := InstanceTable.represents_new.run hlegal
  rw [InstanceTable.checked_new] at hrun
  exact ⟨t.checked, hrun, ht.implements⟩

-- An instance far above the first front, then one below it.
theorem table_refines_map_downward :
    ∃ t, [TableOp.insert (uidAt 5 (0 : Fin 2)) (.new 0 0 [] (DepSet.new 2)),
        .insert (uidAt 2 (0 : Fin 2)) (.new 0 0 [] (DepSet.new 2)),
        .remove (uidAt 5 (0 : Fin 2))].foldlM TableOp.run (CheckedTable.new 2) = some t ∧
      t.Implements (((∅ : UidMap 2).insert (uidAt 5 (0 : Fin 2)) (.new 0 0 [] (DepSet.new 2))
        |>.insert (uidAt 2 (0 : Fin 2)) (.new 0 0 [] (DepSet.new 2))).erase
          (uidAt 5 (0 : Fin 2))) :=
  table_refines_map _ ⟨Finmap.notMem_empty,
    fun h => (Finmap.mem_insert.mp h).elim (by decide) Finmap.notMem_empty, trivial, trivial⟩

end KCensus.Deps

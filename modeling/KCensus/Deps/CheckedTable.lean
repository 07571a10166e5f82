import KCensus.Deps.InstanceTable
import KCensus.Lib.Loops
import Mathlib.Data.Finmap

namespace KCensus.Deps

open Lib (checkedSub checkedSub_of_le)

variable {n : Nat} [NeZero n]

-- The table on machine integers: `none` is a failed assertion or a subtraction that underflows.
structure CheckedTable (n : Nat) where
  logs : Fin n → List (Option (Instance n))
  front : Fin n → Nat
  len : Nat

namespace CheckedTable

def new (n : Nat) : CheckedTable n := ⟨fun _ => [], fun replica => 2 * replica, 0⟩

def position (t : CheckedTable n) (uid : Uid) : Option (Option (Fin n × Nat)) :=
  let replica := requesterOf n uid
  let front := t.front replica
  if front ≤ uid.toNat then
    (checkedSub uid.toNat front).map fun offset => some (replica, offset / uidStep n)
  else some none

def get (t : CheckedTable n) (uid : Uid) : Option (Option (Instance n)) :=
  (t.position uid).map fun position =>
    position.bind fun (replica, index) => (t.logs replica)[index]?.join

def containsKey (t : CheckedTable n) (uid : Uid) : Option Bool := (t.get uid).map Option.isSome

-- `get_mut`, with what the borrow was written back with.
def update (t : CheckedTable n) (uid : Uid) (f : Instance n → Instance n) :
    Option (CheckedTable n) :=
  (t.position uid).map fun
    | none => t
    | some (replica, index) =>
        { t with
          logs := fun r =>
            if r = replica then (t.logs r).modify index (Option.map f) else t.logs r }

-- The log of `uid` and its front, moved down to `uid` where it has to be.
def extendFront (t : CheckedTable n) (uid : Uid) : Option (List (Option (Instance n)) × Nat) :=
  let replica := requesterOf n uid
  if t.logs replica = [] then some (t.logs replica, uid.toNat)
  else if uid.toNat < t.front replica then
    (checkedSub (t.front replica) uid.toNat).map fun gap =>
      (List.replicate (gap / uidStep n) none ++ t.logs replica, uid.toNat)
  else some (t.logs replica, t.front replica)

def insert (t : CheckedTable n) (uid : Uid) (instance' : Instance n) : Option (CheckedTable n) := do
  let replica := requesterOf n uid
  let (log, front) ← t.extendFront uid
  let offset ← checkedSub uid.toNat front
  let index := offset / uidStep n
  let log :=
    if log.length ≤ index then log ++ List.replicate (index + 1 - log.length) none else log
  match log[index]? with
  | some none =>
      some
        { logs := fun r => if r = replica then log.set index (some instance') else t.logs r
          front := fun r => if r = replica then front else t.front r
          len := t.len + 1 }
  | _ => none

def remove (t : CheckedTable n) (uid : Uid) : Option (CheckedTable n × Option (Instance n)) := do
  match ← t.position uid with
  | none => some (t, none)
  | some (replica, index) =>
      match (t.logs replica)[index]?.join with
      | none => some (t, none)
      | some taken => do
          let len ← checkedSub t.len 1
          some
            ({ t with
                logs := fun r => if r = replica then (t.logs r).set index none else t.logs r
                len },
              some taken)

def iter (t : CheckedTable n) : List (Nat × Instance n) :=
  (List.finRange n).flatMap fun replica =>
    (t.logs replica).zipIdx.filterMap fun (slot, index) =>
      slot.map fun i => (t.front replica + index * uidStep n, i)

def reset (t : CheckedTable n) : Option (CheckedTable n) :=
  if t.len = 0 then some { t with logs := fun _ => [], front := fun replica => 2 * replica }
  else none

end CheckedTable

namespace InstanceTable

variable (t : InstanceTable n)

def checked : CheckedTable n := ⟨t.logs, fun r => (t.front r).toNat, t.len⟩

theorem checked_new : (new n).checked = CheckedTable.new n := by
  simp [new, checked, CheckedTable.new, uidAt_toNat]

theorem position_checked (uid : Uid) : t.checked.position uid = some (t.position uid) := by
  simp only [CheckedTable.position, position, checked, ← Uid.le_def]
  split
  · rename_i h
    rw [checkedSub_of_le ((Uid.le_def _ _).mp h)]
    rfl
  · rfl

theorem get_checked (uid : Uid) : t.checked.get uid = some (t.get uid) := by
  rw [CheckedTable.get, position_checked, get]
  cases t.position uid <;> rfl

theorem update_checked (uid : Uid) (f : Instance n → Instance n) :
    t.checked.update uid f = some (t.modify uid f).checked := by
  rw [CheckedTable.update, position_checked, InstanceTable.modify]
  cases t.position uid <;> rfl

omit [NeZero n] in
theorem resize_eq (log : List (Option (Instance n))) (index : Nat) :
    (if log.length ≤ index then log ++ List.replicate (index + 1 - log.length) none else log) =
      log ++ List.replicate (index + 1 - log.length) none := by
  split
  · rfl
  · rename_i h
    rw [Nat.sub_eq_zero_of_le (by omega), List.replicate_zero, List.append_nil]

theorem extendFront_checked (uid : Uid) :
    t.checked.extendFront uid =
      some (List.replicate
          (if t.logs (requesterOf n uid) = [] then 0
            else if uid < t.front (requesterOf n uid) then
              ((t.front (requesterOf n uid)).toNat - uid.toNat) / uidStep n
            else 0) none ++ t.logs (requesterOf n uid),
        (if t.logs (requesterOf n uid) = [] ∨ uid < t.front (requesterOf n uid) then uid
          else t.front (requesterOf n uid)).toNat) := by
  simp only [CheckedTable.extendFront, checked, ← Uid.lt_def]
  by_cases hl : t.logs (requesterOf n uid) = []
  · simp [hl]
  · by_cases hu : uid < t.front (requesterOf n uid)
    · simp [hl, hu, checkedSub_of_le ((Uid.le_def _ _).mp hu.le)]
    · simp [hl, hu]

theorem insert_checked {uid : Uid} (hn : t.get uid = none) (i : Instance n) :
    t.checked.insert uid i = some (t.insert uid i).checked := by
  obtain ⟨hindex, hle, hm⟩ := t.place_uid uid
  rw [get_eq] at hn
  have hhole := place_hole (t.logs (requesterOf n uid)) hle hm hn
  rw [← hindex] at hhole
  have hfront : (if t.logs (requesterOf n uid) = [] ∨ uid < t.front (requesterOf n uid) then uid
      else t.front (requesterOf n uid)).toNat ≤ uid.toNat := by
    rw [← Uid.le_def]
    split
    · exact le_rfl
    · rename_i h
      exact not_lt.mp (not_or.mp h).2
  simp only [CheckedTable.insert, extendFront_checked, Option.bind_eq_bind, Option.bind_some,
    checkedSub_of_le hfront, resize_eq, hhole]
  simp only [insert, checked, Option.some.injEq, CheckedTable.mk.injEq, true_and, and_true]
  funext r
  split <;> rfl

theorem remove_checked (ht : t.Counted) (uid : Uid) :
    t.checked.remove uid = some ((t.remove uid).checked, t.get uid) := by
  rw [CheckedTable.remove, position_checked]
  cases hp : t.position uid with
  | none => simp [InstanceTable.remove, get, hp]
  | some place =>
      obtain ⟨replica, index⟩ := place
      have hget : t.get uid = (t.logs replica)[index]?.join := by simp only [get, hp]
      simp only [Option.bind_eq_bind, Option.bind_some, InstanceTable.remove, hp]
      cases hi : t.get uid with
      | none =>
          rw [show (t.checked.logs replica)[index]?.join = none from hget ▸ hi]
          simp
      | some i =>
          have hlen := ht.len_remove hi
          rw [show (t.checked.logs replica)[index]?.join = some i from hget ▸ hi]
          have hpos : 1 ≤ t.checked.len := by
            simp only [checked]
            omega
          simp only [checkedSub_of_le hpos, Option.bind_some, Option.isSome_some, if_true]
          rfl

theorem reset_checked (h : t.isEmpty) : t.checked.reset = some t.reset.checked := by
  have hlen : t.len = 0 := by simpa [isEmpty] using h
  rw [InstanceTable.reset, checked_new]
  simp [CheckedTable.reset, checked, hlen, CheckedTable.new]

theorem iter_checked : t.checked.iter = t.iter.map fun entry => (entry.1.toNat, entry.2) := by
  simp only [CheckedTable.iter, iter, List.map_flatMap, List.map_filterMap, checked]
  congr 1
  funext r
  congr 1
  funext entry
  cases entry.1 with
  | none => rfl
  | some i =>
      have hfront : (t.front r).toNat = (uidAt (indexOf n (t.front r)) r).toNat :=
        congrArg Uid.toNat (t.front_eq r)
      simp only [Option.map_some, Option.some.injEq, Prod.mk.injEq, and_true]
      rw [hfront]
      simp only [uidAt_toNat, uidStep]
      ring

end InstanceTable

end KCensus.Deps

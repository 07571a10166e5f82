import KCensus.Topology
import Mathlib.Data.Fin.Basic
import Mathlib.Data.Nat.Basic
import Mathlib.Order.Basic
import Mathlib.Tactic.Ring

namespace KCensus.Deps

-- Dependency mode never hands out the odd uids, which are the batches of the slot layer.
@[ext]
structure Uid where
  toNat : Nat
  even : toNat % 2 = 0
deriving DecidableEq, Repr

instance : LinearOrder Uid :=
  LinearOrder.lift' Uid.toNat (fun _ _ h => Uid.ext h)

theorem Uid.le_def (a b : Uid) : a ≤ b ↔ a.toNat ≤ b.toNat := Iff.rfl

theorem Uid.lt_def (a b : Uid) : a < b ↔ a.toNat < b.toNat := Iff.rfl

variable {n : Nat} [NeZero n]

def uidStep (n : Nat) : Nat := 2 * n

def requesterOf (n : Nat) [NeZero n] (uid : Uid) : Fin n :=
  ⟨(uid.toNat / 2) % n, Nat.mod_lt _ (Nat.pos_of_ne_zero (NeZero.ne n))⟩

def indexOf (n : Nat) (uid : Uid) : Nat := (uid.toNat / 2) / n

def uidAt (index : Nat) (replica : Fin n) : Uid :=
  ⟨2 * (index * n + replica.val), by omega⟩

def Uid.add (uid : Uid) (n : Nat) : Uid :=
  ⟨uid.toNat + uidStep n, by have := uid.even; simp only [uidStep]; omega⟩

@[simp] theorem requesterOf_uidAt (index : Nat) (replica : Fin n) :
    requesterOf n (uidAt index replica) = replica := by
  apply Fin.ext
  have h : 2 * (index * n + replica.val) / 2 = replica.val + n * index := by
    rw [Nat.mul_div_cancel_left _ (by decide), Nat.mul_comm index n, Nat.add_comm]
  simp only [requesterOf, uidAt, h, Nat.add_mul_mod_self_left]
  exact Nat.mod_eq_of_lt replica.isLt

@[simp] theorem indexOf_uidAt (index : Nat) (replica : Fin n) :
    indexOf n (uidAt index replica) = index := by
  have hn : 0 < n := Nat.pos_of_ne_zero (NeZero.ne n)
  have h : 2 * (index * n + replica.val) / 2 = replica.val + n * index := by
    rw [Nat.mul_div_cancel_left _ (by decide), Nat.mul_comm index n, Nat.add_comm]
  simp only [indexOf, uidAt, h, Nat.add_mul_div_left _ _ hn, Nat.div_eq_of_lt replica.isLt,
    Nat.zero_add]

@[simp] theorem uidAt_indexOf (uid : Uid) :
    uidAt (indexOf n uid) (requesterOf n uid) = uid := by
  apply Uid.ext
  have h := Nat.div_add_mod (uid.toNat / 2) n
  have he := uid.even
  simp only [uidAt, indexOf, requesterOf]
  rw [Nat.mul_comm, Nat.mul_comm (uid.toNat / 2 / n) n, h]
  omega

theorem uid_eq_iff (a b : Uid) :
    a = b ↔ requesterOf n a = requesterOf n b ∧ indexOf n a = indexOf n b := by
  constructor
  · rintro rfl
    exact ⟨rfl, rfl⟩
  · rintro ⟨hr, hi⟩
    rw [← uidAt_indexOf (n := n) a, ← uidAt_indexOf (n := n) b, hr, hi]

theorem uidAt_inj {i j : Nat} {r s : Fin n} : uidAt i r = uidAt j s ↔ i = j ∧ r = s := by
  rw [uid_eq_iff (n := n)]
  simp [and_comm]

omit [NeZero n] in
theorem uidAt_toNat (i : Nat) (r : Fin n) : (uidAt i r).toNat = 2 * (i * n + r.val) := rfl

theorem uidAt_le {i j : Nat} {r : Fin n} : uidAt i r ≤ uidAt j r ↔ i ≤ j := by
  have hn : 0 < n := Nat.pos_of_ne_zero (NeZero.ne n)
  rw [Uid.le_def, uidAt_toNat, uidAt_toNat]
  constructor
  · intro h
    exact Nat.le_of_mul_le_mul_right (by omega : i * n ≤ j * n) hn
  · intro h
    have := Nat.mul_le_mul_right n h
    omega

theorem uidAt_sub {i j : Nat} {r : Fin n} :
    ((uidAt i r).toNat - (uidAt j r).toNat) / uidStep n = i - j := by
  have hn : 0 < n := Nat.pos_of_ne_zero (NeZero.ne n)
  have h : 2 * (i * n + r.val) - 2 * (j * n + r.val) = (2 * n) * (i - j) := by
    rw [Nat.mul_assoc, Nat.mul_sub, Nat.mul_comm n i, Nat.mul_comm n j]
    omega
  rw [uidAt_toNat, uidAt_toNat, h, uidStep, Nat.mul_div_cancel_left _ (by omega)]

omit [NeZero n] in
@[simp] theorem uidAt_add (i : Nat) (r : Fin n) : (uidAt i r).add n = uidAt (i + 1) r := by
  apply Uid.ext
  simp only [Uid.add, uidAt, uidStep, Nat.add_mul]
  omega

theorem add_eq_uidAt (uid : Uid) :
    uid.add n = uidAt (indexOf n uid + 1) (requesterOf n uid) := by
  rw [← uidAt_add, uidAt_indexOf]

@[simp] theorem requesterOf_add (uid : Uid) : requesterOf n (uid.add n) = requesterOf n uid := by
  rw [add_eq_uidAt, requesterOf_uidAt]

@[simp] theorem indexOf_add (uid : Uid) : indexOf n (uid.add n) = indexOf n uid + 1 := by
  rw [add_eq_uidAt, indexOf_uidAt]

end KCensus.Deps

import Mathlib.Data.List.Basic
import Mathlib.Tactic.Ring

/-! # Numbers in Bytes

    A number written with a fixed count of bytes, least significant byte
    first (`leBytes`) or most significant byte first (`beBytes`), and the
    values read back. What does not fit is cut off.
-/

namespace Framework

/-- A byte. -/
abbrev Byte := BitVec 8

/-- Little-endian. -/
def leBytes : Nat → Nat → List Byte
  | 0, _ => []
  | k + 1, n => BitVec.ofNat 8 n :: leBytes k (n / 256)

def leValue : List Byte → Nat
  | [] => 0
  | b :: bs => b.toNat + 256 * leValue bs

/-- Big-endian. -/
def beBytes (k n : Nat) : List Byte := (leBytes k n).reverse

def beValue (bs : List Byte) : Nat := leValue bs.reverse

@[simp] theorem length_leBytes (k n : Nat) : (leBytes k n).length = k := by
  induction k generalizing n with
  | zero => rfl
  | succ k ih => simp [leBytes, ih]

@[simp] theorem length_beBytes (k n : Nat) : (beBytes k n).length = k := by
  simp [beBytes]

theorem leValue_append (xs ys : List Byte) :
    leValue (xs ++ ys) = leValue xs + 256 ^ xs.length * leValue ys := by
  induction xs with
  | nil => simp [leValue]
  | cons x xs ih =>
    simp only [List.cons_append, leValue, ih, List.length_cons, pow_succ]
    ring

theorem leValue_lt (bs : List Byte) : leValue bs < 256 ^ bs.length := by
  induction bs with
  | nil => simp [leValue]
  | cons b bs ih =>
    have hb := b.isLt
    rw [leValue, List.length_cons, pow_succ]
    omega

/-- **Round trip**: the value that was written, as far as it fits. -/
theorem leValue_leBytes (k n : Nat) : leValue (leBytes k n) = n % 256 ^ k := by
  induction k generalizing n with
  | zero => simp [leBytes, leValue, Nat.mod_one]
  | succ k ih =>
    have hfirst : (BitVec.ofNat 8 n).toNat = n % 256 := BitVec.toNat_ofNat n 8
    rw [leBytes, leValue, ih, hfirst, pow_succ', Nat.mod_mul]

/-- Bytes are determined by their value. -/
theorem leBytes_leValue (bs : List Byte) : leBytes bs.length (leValue bs) = bs := by
  induction bs with
  | nil => rfl
  | cons b bs ih =>
    have hb := b.isLt
    have hfirst : BitVec.ofNat 8 (b.toNat + 256 * leValue bs) = b := by
      apply BitVec.eq_of_toNat_eq
      rw [BitVec.toNat_ofNat]
      omega
    have hrest : (b.toNat + 256 * leValue bs) / 256 = leValue bs := by omega
    rw [List.length_cons, leValue, leBytes, hfirst, hrest, ih]

theorem leBytes_mod (k n : Nat) : leBytes k (n % 256 ^ k) = leBytes k n := by
  rw [← leValue_leBytes]
  have h := leBytes_leValue (leBytes k n)
  rwa [length_leBytes] at h

/-- The bytes of a word. -/
theorem leBytes_toNat {w : Nat} (k : Nat) (x : BitVec w) :
    leBytes k x.toNat = (List.range k).map fun i => x.extractLsb' (8 * i) 8 := by
  induction k generalizing x with
  | zero => rfl
  | succ k ih =>
    have hfirst : BitVec.ofNat 8 x.toNat = x.extractLsb' (8 * 0) 8 := by
      apply BitVec.eq_of_toNat_eq
      simp
    have hshift : x.toNat / 256 = (x >>> 8).toNat := by
      rw [BitVec.toNat_ushiftRight, Nat.shiftRight_eq_div_pow]
    rw [leBytes, hfirst, hshift, ih, List.range_succ_eq_map, List.map_cons, List.map_map]
    congr 1
    refine List.map_congr_left fun i _ => ?_
    apply BitVec.eq_of_toNat_eq
    simp [Nat.shiftRight_add, Nat.mul_succ, Nat.add_comm]

/-- A word with the bytes of another one in reverse, stored the other way
    round. -/
theorem leBytes_eq_beBytes {w : Nat} {k : Nat} {x y : BitVec w}
    (h : ∀ i < k, y.extractLsb' (8 * i) 8 = x.extractLsb' (8 * (k - 1 - i)) 8) :
    leBytes k y.toNat = beBytes k x.toNat := by
  have hreverse : (List.range k).reverse = (List.range k).map (k - 1 - ·) := by
    rw [List.range_eq_range', List.reverse_range', List.range_eq_range', Nat.zero_add]
  rw [beBytes, leBytes_toNat, leBytes_toNat, ← List.map_reverse, hreverse, List.map_map]
  exact List.map_congr_left fun i hi => h i (List.mem_range.1 hi)

end Framework

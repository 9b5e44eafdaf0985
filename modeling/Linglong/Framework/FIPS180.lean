import Mathlib.Data.List.Induction
import Mathlib.Data.Vector.Basic
import Mathlib.Tactic.Ring
import Mathlib.Tactic.IntervalCases
import Linglong.Framework.Bytes

/-! # The Secure Hash Standard

    SHA-256 as FIPS 180-4 defines it: on strings of bits, which are padded,
    cut into blocks of 512 bits and absorbed block after block into eight
    words of 32 bits.

    1. Bits and the numbers they stand for.
    2. The standard.
    3. Messages of whole bytes: the standard read on bytes
       (`sha256_bitsOf`), with the rules of absorbing.
-/

namespace Framework

universe u

/-! ## Section 1: Bits -/

/-- A number with `w` bits, most significant bit first. -/
def natBits : Nat → Nat → List Bool
  | 0, _ => []
  | w + 1, n => natBits w (n / 2) ++ [decide (n % 2 = 1)]

def bitsValue (bits : List Bool) : Nat := bits.foldl (fun v b => 2 * v + b.toNat) 0

/-- The bits of a string of bytes. -/
def bitsOf (bs : List Byte) : List Bool := bs.flatMap fun b => natBits 8 b.toNat

/-- A list cut into blocks of `n`; what is left over is dropped. -/
def blocks {α : Type u} (n : Nat) (l : List α) : List (List α) :=
  (List.range (l.length / n)).map fun i => (l.drop (n * i)).take n

@[simp] theorem length_natBits (w n : Nat) : (natBits w n).length = w := by
  induction w generalizing n with
  | zero => rfl
  | succ w ih => simp [natBits, ih]

theorem natBits_mod (w n : Nat) : natBits w (n % 2 ^ w) = natBits w n := by
  induction w generalizing n with
  | zero => rfl
  | succ w ih =>
    have hhigh : n % 2 ^ (w + 1) / 2 = n / 2 % 2 ^ w := by
      rw [pow_succ', Nat.mod_mul_right_div_self]
    have hlow : n % 2 ^ (w + 1) % 2 = n % 2 := Nat.mod_mod_of_dvd _ (dvd_pow_self 2 (by omega))
    rw [natBits, natBits, hhigh, hlow, ih]

theorem natBits_add (v w n : Nat) : natBits (v + w) n = natBits v (n / 2 ^ w) ++ natBits w n := by
  induction w generalizing n with
  | zero => simp [natBits]
  | succ w ih =>
    have hdiv : n / 2 / 2 ^ w = n / 2 ^ (w + 1) := by
      rw [Nat.div_div_eq_div_mul, pow_succ']
    rw [← Nat.add_assoc, natBits, ih, natBits, hdiv, List.append_assoc]

theorem bitsValue_append (xs ys : List Bool) :
    bitsValue (xs ++ ys) = bitsValue xs * 2 ^ ys.length + bitsValue ys := by
  induction ys using List.reverseRecOn with
  | nil => simp [bitsValue]
  | append_singleton ys y ih =>
    have hsnoc : ∀ bits : List Bool, bitsValue (bits ++ [y]) = 2 * bitsValue bits + y.toNat := by
      intro bits
      simp [bitsValue]
    rw [← List.append_assoc, hsnoc, hsnoc, ih, List.length_append, List.length_singleton, pow_succ]
    ring

theorem bitsValue_natBits (w n : Nat) : bitsValue (natBits w n) = n % 2 ^ w := by
  induction w generalizing n with
  | zero => simp [natBits, bitsValue, Nat.mod_one]
  | succ w ih =>
    have hbit : bitsValue [decide (n % 2 = 1)] = n % 2 := by
      rcases Nat.mod_two_eq_zero_or_one n with h | h <;> simp [h, bitsValue]
    rw [natBits, bitsValue_append, ih, hbit, List.length_singleton, pow_one, pow_succ',
      Nat.mod_mul]
    ring

@[simp] theorem bitsOf_nil : bitsOf [] = [] := rfl

theorem bitsOf_cons (b : Byte) (bs : List Byte) : bitsOf (b :: bs) = natBits 8 b.toNat ++ bitsOf bs :=
  rfl

@[simp] theorem bitsOf_append (xs ys : List Byte) : bitsOf (xs ++ ys) = bitsOf xs ++ bitsOf ys :=
  List.flatMap_append

@[simp] theorem length_bitsOf (bs : List Byte) : (bitsOf bs).length = 8 * bs.length := by
  induction bs with
  | nil => rfl
  | cons b bs ih =>
    rw [bitsOf_cons, List.length_append, length_natBits, ih, List.length_cons]
    ring

theorem drop_bitsOf (k : Nat) (bs : List Byte) : (bitsOf bs).drop (8 * k) = bitsOf (bs.drop k) := by
  induction k generalizing bs with
  | zero => rfl
  | succ k ih =>
    cases bs with
    | nil => simp
    | cons b bs =>
      have hlen : 8 * (k + 1) = (natBits 8 b.toNat).length + 8 * k := by
        rw [length_natBits]
        ring
      rw [bitsOf_cons, hlen, List.drop_length_add_append, List.drop_succ_cons, ih]

theorem take_bitsOf (k : Nat) (bs : List Byte) : (bitsOf bs).take (8 * k) = bitsOf (bs.take k) := by
  induction k generalizing bs with
  | zero => rfl
  | succ k ih =>
    cases bs with
    | nil => simp
    | cons b bs =>
      have hlen : 8 * (k + 1) = (natBits 8 b.toNat).length + 8 * k := by
        rw [length_natBits]
        ring
      rw [bitsOf_cons, hlen, List.take_length_add_append, List.take_succ_cons, ih, bitsOf_cons]

/-- Bytes and their bits stand for the same number. -/
theorem bitsValue_bitsOf (bs : List Byte) : bitsValue (bitsOf bs) = beValue bs := by
  induction bs with
  | nil => rfl
  | cons b bs ih =>
    have hbyte : bitsValue (natBits 8 b.toNat) = b.toNat := by
      rw [bitsValue_natBits]
      exact Nat.mod_eq_of_lt b.isLt
    have hlow : leValue [b] = b.toNat := rfl
    rw [bitsOf_cons, bitsValue_append, hbyte, ih, length_bitsOf, beValue, beValue,
      List.reverse_cons, leValue_append, hlow, List.length_reverse, pow_mul]
    ring

/-- A number written in bytes, read as bits. -/
theorem bitsOf_beBytes (k n : Nat) : bitsOf (beBytes k n) = natBits (8 * k) n := by
  induction k generalizing n with
  | zero => rfl
  | succ k ih =>
    have hbytes : beBytes (k + 1) n = beBytes k (n / 256) ++ [BitVec.ofNat 8 n] := by
      rw [beBytes, leBytes, List.reverse_cons]
      rfl
    have hlast : bitsOf [BitVec.ofNat 8 n] = natBits 8 n := by
      rw [bitsOf_cons, bitsOf_nil, List.append_nil, BitVec.toNat_ofNat, natBits_mod]
    rw [hbytes, bitsOf_append, ih, hlast, Nat.mul_succ, natBits_add]
    rfl

/-- Cutting bits and cutting bytes. -/
theorem blocks_bitsOf (n : Nat) (bs : List Byte) :
    blocks (8 * n) (bitsOf bs) = (blocks n bs).map bitsOf := by
  unfold blocks
  rw [length_bitsOf, Nat.mul_div_mul_left _ _ (by omega), List.map_map]
  refine List.map_congr_left fun i _ => ?_
  show ((bitsOf bs).drop (8 * n * i)).take (8 * n) = bitsOf ((bs.drop (n * i)).take n)
  rw [Nat.mul_assoc, drop_bitsOf, take_bitsOf]

theorem blocks_append {α : Type u} {n : Nat} {xs : List α} (h : n ∣ xs.length) (ys : List α) :
    blocks n (xs ++ ys) = blocks n xs ++ blocks n ys := by
  rcases Nat.eq_zero_or_pos n with rfl | hpos
  · simp [blocks]
  obtain ⟨q, hq⟩ := h
  have hxs : xs.length / n = q := by
    rw [hq]
    exact Nat.mul_div_cancel_left q hpos
  have hsum : (xs ++ ys).length / n = q + ys.length / n := by
    rw [List.length_append, hq, Nat.mul_add_div hpos]
  unfold blocks
  rw [hsum, hxs, List.range_add, List.map_append, List.map_map]
  congr 1
  · refine List.map_congr_left fun i hi => ?_
    have hi : i < q := List.mem_range.1 hi
    have hend : n * i + n ≤ n * q := by
      calc n * i + n = n * (i + 1) := by ring
        _ ≤ n * q := Nat.mul_le_mul_left n hi
    rw [List.drop_append_of_le_length (by omega), List.take_append_of_le_length]
    rw [List.length_drop]
    omega
  · refine List.map_congr_left fun i _ => ?_
    show ((xs ++ ys).drop (n * (q + i))).take n = (ys.drop (n * i)).take n
    rw [Nat.mul_add, ← hq, List.drop_length_add_append]

/-! ## Section 2: The standard -/

namespace FIPS180

/-- A word of SHA-256. -/
abbrev Word := BitVec 32

/-- The eight words that a block is absorbed into. -/
abbrev HashValue := Vector Word 8

/-- 4.1.2: `Ch`. -/
def ch (x y z : Word) : Word := (x &&& y) ^^^ (~~~x &&& z)

/-- 4.1.2: `Maj`. -/
def maj (x y z : Word) : Word := (x &&& y) ^^^ (x &&& z) ^^^ (y &&& z)

/-- 4.1.2: the functions of the rounds. -/
def bigSigma0 (x : Word) : Word := x.rotateRight 2 ^^^ x.rotateRight 13 ^^^ x.rotateRight 22

def bigSigma1 (x : Word) : Word := x.rotateRight 6 ^^^ x.rotateRight 11 ^^^ x.rotateRight 25

/-- 4.1.2: the functions of the message schedule. -/
def smallSigma0 (x : Word) : Word := x.rotateRight 7 ^^^ x.rotateRight 18 ^^^ x >>> 3

def smallSigma1 (x : Word) : Word := x.rotateRight 17 ^^^ x.rotateRight 19 ^^^ x >>> 10

/-- 4.2.2: the constants `K`. -/
def K : List Word :=
  [0x428a2f98, 0x71374491, 0xb5c0fbcf, 0xe9b5dba5, 0x3956c25b, 0x59f111f1, 0x923f82a4, 0xab1c5ed5,
    0xd807aa98, 0x12835b01, 0x243185be, 0x550c7dc3, 0x72be5d74, 0x80deb1fe, 0x9bdc06a7, 0xc19bf174,
    0xe49b69c1, 0xefbe4786, 0x0fc19dc6, 0x240ca1cc, 0x2de92c6f, 0x4a7484aa, 0x5cb0a9dc, 0x76f988da,
    0x983e5152, 0xa831c66d, 0xb00327c8, 0xbf597fc7, 0xc6e00bf3, 0xd5a79147, 0x06ca6351, 0x14292967,
    0x27b70a85, 0x2e1b2138, 0x4d2c6dfc, 0x53380d13, 0x650a7354, 0x766a0abb, 0x81c2c92e, 0x92722c85,
    0xa2bfe8a1, 0xa81a664b, 0xc24b8b70, 0xc76c51a3, 0xd192e819, 0xd6990624, 0xf40e3585, 0x106aa070,
    0x19a4c116, 0x1e376c08, 0x2748774c, 0x34b0bcb5, 0x391c0cb3, 0x4ed8aa4a, 0x5b9cca4f, 0x682e6ff3,
    0x748f82ee, 0x78a5636f, 0x84c87814, 0x8cc70208, 0x90befffa, 0xa4506ceb, 0xbef9a3f7, 0xc67178f2]

/-- 5.3.3: the initial hash value. -/
def H0 : HashValue :=
  #v[0x6a09e667, 0xbb67ae85, 0x3c6ef372, 0xa54ff53a,
    0x510e527f, 0x9b05688c, 0x1f83d9ab, 0x5be0cd19]

def primes : List Nat :=
  [2, 3, 5, 7, 11, 13, 17, 19, 23, 29, 31, 37, 41, 43, 47, 53,
    59, 61, 67, 71, 73, 79, 83, 89, 97, 101, 103, 107, 109, 113, 127, 131,
    137, 139, 149, 151, 157, 163, 167, 173, 179, 181, 191, 193, 197, 199, 211, 223,
    227, 229, 233, 239, 241, 251, 257, 263, 269, 271, 277, 281, 283, 293, 307, 311]

/-- `K` has the first 32 bits of the fractional parts of the cube roots of
    the first 64 primes. -/
example : ∀ pw ∈ primes.zip K, ∃ a < 7, (a * 2 ^ 32 + pw.2.toNat) ^ 3 ≤ pw.1 * 2 ^ 96 ∧
    pw.1 * 2 ^ 96 < (a * 2 ^ 32 + pw.2.toNat + 1) ^ 3 := by decide

/-- `H0` has those of the square roots of the first eight. -/
example : ∀ pw ∈ primes.zip H0.toList, ∃ a < 5, (a * 2 ^ 32 + pw.2.toNat) ^ 2 ≤ pw.1 * 2 ^ 64 ∧
    pw.1 * 2 ^ 64 < (a * 2 ^ 32 + pw.2.toNat + 1) ^ 2 := by decide

/-- 5.1.1: how many zero bits follow the one bit. -/
def zeroBits (l : Nat) : Nat := (448 + 512 - (l + 1) % 512) % 512

/-- It is the smallest solution of the congruence in the standard. -/
theorem zeroBits_spec (l : Nat) :
    (l + 1 + zeroBits l) % 512 = 448 ∧ ∀ k, (l + 1 + k) % 512 = 448 → zeroBits l ≤ k := by
  unfold zeroBits
  constructor
  · omega
  · intro k hk
    omega

/-- 5.1.1: the padded message. -/
def pad (M : List Bool) : List Bool :=
  M ++ [true] ++ List.replicate (zeroBits M.length) false ++ natBits 64 M.length

/-- 5.2.1: the words of a block. -/
def blockWord (block : List Bool) (j : Nat) : Word :=
  BitVec.ofNat 32 (bitsValue ((block.drop (32 * j)).take 32))

/-- 6.2.2, step 1: the message schedule. -/
def schedule (M : Nat → Word) (t : Nat) : Word :=
  if t < 16 then M t
  else smallSigma1 (schedule M (t - 2)) + schedule M (t - 7) +
    smallSigma0 (schedule M (t - 15)) + schedule M (t - 16)

/-- 6.2.2, step 2: the working variables. -/
structure Working where
  a : Word
  b : Word
  c : Word
  d : Word
  e : Word
  f : Word
  g : Word
  h : Word

/-- 6.2.2, step 3: one round. -/
def round (Kt Wt : Word) (v : Working) : Working :=
  let T1 := v.h + bigSigma1 v.e + ch v.e v.f v.g + Kt + Wt
  let T2 := bigSigma0 v.a + maj v.a v.b v.c
  { h := v.g, g := v.f, f := v.e, e := v.d + T1, d := v.c, c := v.b, b := v.a, a := T1 + T2 }

def rounds (W : Nat → Word) (v : Working) : Working :=
  (List.range 64).foldl (fun v t => round (K.getD t 0) (W t) v) v

/-- 6.2.2, step 4: the next hash value. -/
def addWorking (H : HashValue) (v : Working) : HashValue :=
  #v[v.a + H.get 0, v.b + H.get 1, v.c + H.get 2, v.d + H.get 3,
    v.e + H.get 4, v.f + H.get 5, v.g + H.get 6, v.h + H.get 7]

/-- 6.2.2: a block is absorbed. -/
def compress (H : HashValue) (M : Nat → Word) : HashValue :=
  addWorking H (rounds (schedule M)
    ⟨H.get 0, H.get 1, H.get 2, H.get 3, H.get 4, H.get 5, H.get 6, H.get 7⟩)

/-- 6.2: SHA-256. -/
def sha256 (M : List Bool) : List Bool :=
  let H := (blocks 512 (pad M)).foldl (fun H block => compress H (blockWord block)) H0
  H.toList.flatMap fun w => natBits 32 w.toNat

theorem schedule_of_lt (M : Nat → Word) {t : Nat} (h : t < 16) : schedule M t = M t := by
  rw [schedule, if_pos h]

theorem schedule_of_le (M : Nat → Word) {t : Nat} (h : 16 ≤ t) :
    schedule M t = smallSigma1 (schedule M (t - 2)) + schedule M (t - 7) +
      smallSigma0 (schedule M (t - 15)) + schedule M (t - 16) := by
  rw [schedule, if_neg (by omega)]

theorem rounds_congr {W W' : Nat → Word} (h : ∀ t < 64, W t = W' t) (v : Working) :
    rounds W v = rounds W' v := by
  unfold rounds
  refine List.foldl_ext _ _ v fun v t ht => ?_
  rw [h t (List.mem_range.1 ht)]

/-- The schedule reads the 16 words of the block. -/
theorem schedule_congr {M M' : Nat → Word} (h : ∀ t < 16, M t = M' t) (t : Nat) :
    schedule M t = schedule M' t := by
  induction t using Nat.strongRecOn with
  | ind t ih =>
    by_cases ht : t < 16
    · rw [schedule_of_lt M ht, schedule_of_lt M' ht, h t ht]
    · have hle : 16 ≤ t := by omega
      rw [schedule_of_le M hle, schedule_of_le M' hle, ih (t - 2) (by omega),
        ih (t - 7) (by omega), ih (t - 15) (by omega), ih (t - 16) (by omega)]

theorem compress_congr (H : HashValue) {M M' : Nat → Word} (h : ∀ t < 16, M t = M' t) :
    compress H M = compress H M' := by
  have hschedule : schedule M = schedule M' := funext (schedule_congr h)
  exact congrArg (fun W => addWorking H (rounds W _)) hschedule

/-! ## Section 3: Bytes -/

/-- The zero bytes of the padding. -/
def zeroBytes (l : Nat) : Nat := (55 + 64 - l % 64) % 64

def padBytes (msg : List Byte) : List Byte :=
  msg ++ 0x80 :: List.replicate (zeroBytes msg.length) 0 ++ beBytes 8 (8 * msg.length)

def byteWord (block : List Byte) (j : Nat) : Word :=
  BitVec.ofNat 32 (beValue ((block.drop (4 * j)).take 4))

/-- The blocks of `bs`, absorbed one after the other. -/
def absorb (H : HashValue) (bs : List Byte) : HashValue :=
  (blocks 64 bs).foldl (fun H block => compress H (byteWord block)) H

theorem absorb_append (H : HashValue) {xs : List Byte} (h : 64 ∣ xs.length) (ys : List Byte) :
    absorb H (xs ++ ys) = absorb (absorb H xs) ys := by
  unfold absorb
  rw [blocks_append h, List.foldl_append]

theorem bitsOf_replicate (k : Nat) :
    bitsOf (List.replicate k 0) = List.replicate (8 * k) false := by
  induction k with
  | zero => rfl
  | succ k ih =>
    have hzero : natBits 8 (0 : Byte).toNat = List.replicate 8 false := by decide
    rw [List.replicate_succ, bitsOf_cons, ih, hzero, ← List.replicate_add]
    congr 1
    ring

/-- Whole bytes are padded with whole bytes. -/
theorem pad_bitsOf (msg : List Byte) : pad (bitsOf msg) = bitsOf (padBytes msg) := by
  have hzeros : zeroBits (8 * msg.length) = 7 + 8 * zeroBytes msg.length := by
    unfold zeroBits zeroBytes
    omega
  have hone : natBits 8 (0x80 : Byte).toNat = [true] ++ List.replicate 7 false := by decide
  unfold pad padBytes
  rw [length_bitsOf, hzeros, List.replicate_add, bitsOf_append, bitsOf_append, bitsOf_cons,
    bitsOf_replicate, bitsOf_beBytes, hone]
  simp only [List.append_assoc]

theorem blockWord_bitsOf (block : List Byte) : blockWord (bitsOf block) = byteWord block := by
  funext j
  have hdrop : 32 * j = 8 * (4 * j) := by ring
  have htake : (bitsOf (block.drop (4 * j))).take 32 = bitsOf ((block.drop (4 * j)).take 4) :=
    take_bitsOf 4 _
  rw [blockWord, hdrop, drop_bitsOf, htake, bitsValue_bitsOf, byteWord]

/-- SHA-256 from bytes to bytes. -/
def sha256Bytes (msg : List Byte) : List Byte :=
  (absorb H0 (padBytes msg)).toList.flatMap fun w => beBytes 4 w.toNat

theorem length_sha256Bytes (msg : List Byte) : (sha256Bytes msg).length = 32 := by
  simp [sha256Bytes]

/-- **SHA-256 of whole bytes**. -/
theorem sha256_bitsOf (msg : List Byte) : sha256 (bitsOf msg) = bitsOf (sha256Bytes msg) := by
  have hcut : blocks 512 (pad (bitsOf msg)) = (blocks 64 (padBytes msg)).map bitsOf := by
    rw [pad_bitsOf]
    exact blocks_bitsOf 64 _
  have hwords : ∀ ws : List Word, ws.flatMap (fun w => natBits 32 w.toNat) =
      bitsOf (ws.flatMap fun w => beBytes 4 w.toNat) := by
    intro ws
    induction ws with
    | nil => rfl
    | cons w ws ih =>
      rw [List.flatMap_cons, List.flatMap_cons, bitsOf_append, bitsOf_beBytes, ih]
  unfold sha256 sha256Bytes
  simp only [hcut, List.foldl_map, blockWord_bitsOf, hwords]
  rfl

end FIPS180

end Framework

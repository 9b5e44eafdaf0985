import Mathlib.Tactic.IntervalCases
import Linglong.Framework.FIPS180

/-! # The Digest of the UAB Header

    `digest::SHA256` (`sha256.h`) takes a message in pieces. `update` keeps
    what does not fill a block of 64 bytes in `m` and absorbs the rest at
    once; `final` pads the last block and returns the digest.

    The words of a block are read as the machine stores them, which is
    little-endian, and their bytes are then exchanged.

    1. The functions of `digest::details`, and `transform`.
    2. `update` and `final`.
    3. `transform` absorbs blocks as the standard says (`transform_eq`).
    4. What the pieces absorbed so far determine, and the digest
       (`final_updates`).
-/

namespace Linglong

open Framework FIPS180

/-! ## Section 1: Blocks -/

/-- `rotate_right`. -/
def rotateRight (x : BitVec 32) (n : Nat) : BitVec 32 := x >>> n ||| x <<< (32 - n)

/-- `to_big_endian` of 32 bits. -/
def toBigEndian (val : BitVec 32) : BitVec 32 :=
  (val &&& 0xff000000) >>> 24 ||| (val &&& 0x00ff0000) >>> 8 ||| (val &&& 0x0000ff00) <<< 8 |||
    (val &&& 0x000000ff) <<< 24

/-- `to_big_endian` of 64 bits. -/
def toBigEndian64 (val : BitVec 64) : BitVec 64 :=
  (val &&& 0xff00000000000000) >>> 56 ||| (val &&& 0x00ff000000000000) >>> 40 |||
    (val &&& 0x0000ff0000000000) >>> 24 ||| (val &&& 0x000000ff00000000) >>> 8 |||
    (val &&& 0x00000000ff000000) <<< 8 ||| (val &&& 0x0000000000ff0000) <<< 24 |||
    (val &&& 0x000000000000ff00) <<< 40 ||| (val &&& 0x00000000000000ff) <<< 56

def sum0 (x : BitVec 32) : BitVec 32 := rotateRight x 2 ^^^ rotateRight x 13 ^^^ rotateRight x 22

def sum1 (x : BitVec 32) : BitVec 32 := rotateRight x 6 ^^^ rotateRight x 11 ^^^ rotateRight x 25

def sigma0 (x : BitVec 32) : BitVec 32 := rotateRight x 7 ^^^ rotateRight x 18 ^^^ x >>> 3

def sigma1 (x : BitVec 32) : BitVec 32 := rotateRight x 17 ^^^ rotateRight x 19 ^^^ x >>> 10

/-- `Ch`. -/
def Ch (x y z : BitVec 32) : BitVec 32 := (x &&& y) ^^^ (~~~x &&& z)

/-- `Maj`. -/
def Maj (x y z : BitVec 32) : BitVec 32 := (x &&& y) ^^^ (x &&& z) ^^^ (y &&& z)

/-- `digest::SHA256`: `pos` bytes of `m` are waiting, `total` counts the bits
    before them. -/
structure SHA256 where
  pos : Nat
  total : BitVec 64
  H : Vector (BitVec 32) 8
  m : List Byte

namespace SHA256

/-- `block_size`. -/
def blockSize : Nat := 256 / 4

/-- `K`. -/
def K : List (BitVec 32) :=
  [0x428a2f98, 0x71374491, 0xb5c0fbcf, 0xe9b5dba5, 0x3956c25b, 0x59f111f1, 0x923f82a4,
    0xab1c5ed5, 0xd807aa98, 0x12835b01, 0x243185be, 0x550c7dc3, 0x72be5d74, 0x80deb1fe,
    0x9bdc06a7, 0xc19bf174, 0xe49b69c1, 0xefbe4786, 0x0fc19dc6, 0x240ca1cc, 0x2de92c6f,
    0x4a7484aa, 0x5cb0a9dc, 0x76f988da, 0x983e5152, 0xa831c66d, 0xb00327c8, 0xbf597fc7,
    0xc6e00bf3, 0xd5a79147, 0x06ca6351, 0x14292967, 0x27b70a85, 0x2e1b2138, 0x4d2c6dfc,
    0x53380d13, 0x650a7354, 0x766a0abb, 0x81c2c92e, 0x92722c85, 0xa2bfe8a1, 0xa81a664b,
    0xc24b8b70, 0xc76c51a3, 0xd192e819, 0xd6990624, 0xf40e3585, 0x106aa070, 0x19a4c116,
    0x1e376c08, 0x2748774c, 0x34b0bcb5, 0x391c0cb3, 0x4ed8aa4a, 0x5b9cca4f, 0x682e6ff3,
    0x748f82ee, 0x78a5636f, 0x84c87814, 0x8cc70208, 0x90befffa, 0xa4506ceb, 0xbef9a3f7,
    0xc67178f2]

/-- A new digest. -/
def init : SHA256 where
  pos := 0
  total := 0
  H := #v[0x6a09e667, 0xbb67ae85, 0x3c6ef372, 0xa54ff53a,
    0x510e527f, 0x9b05688c, 0x1f83d9ab, 0x5be0cd19]
  m := List.replicate 64 0

/-- `reinterpret_cast<const uint32_t *>(data)[k]`. -/
def loadWord (data : List Byte) (k : Nat) : BitVec 32 :=
  BitVec.ofNat 32 (leValue ((data.drop (4 * k)).take 4))

/-- `W[t]`. -/
def word (W : List (BitVec 32)) (t : Nat) : BitVec 32 := W.getD t 0

/-- `n` rounds of the first loop that fills `W`. -/
def copyWords (M : Nat → BitVec 32) (n : Nat) : List (BitVec 32) :=
  (List.range n).foldl (fun W t => W.set t (M t)) (List.replicate 64 0)

/-- One round of the second loop. -/
def expandWord (W : List (BitVec 32)) (t : Nat) : List (BitVec 32) :=
  W.set t (sigma1 (word W (t - 2)) + word W (t - 7) + sigma0 (word W (t - 15)) + word W (t - 16))

/-- `n` rounds of the second loop, after the first one. -/
def expand (M : Nat → BitVec 32) (n : Nat) : List (BitVec 32) :=
  (List.range' 16 n).foldl expandWord (copyWords M 16)

/-- One round of `transform` on its variables `a` to `h`. -/
def mix (Kt Wt : BitVec 32) (v : Working) : Working :=
  let T1 := v.h + sum1 v.e + Ch v.e v.f v.g + Kt + Wt
  let T2 := sum0 v.a + Maj v.a v.b v.c
  { h := v.g, g := v.f, f := v.e, e := v.d + T1, d := v.c, c := v.b, b := v.a, a := T1 + T2 }

def mixAll (W : Nat → BitVec 32) (v : Working) : Working :=
  (List.range 64).foldl (fun v t => mix (word K t) (W t) v) v

/-- The body of the loop of `transform`. -/
def transformBlock (data : List Byte) (H : Vector (BitVec 32) 8) (i : Nat) :
    Vector (BitVec 32) 8 :=
  let M := fun j => toBigEndian (loadWord data (i * 16 + j))
  let W := expand M 48
  let v := mixAll (word W) ⟨H[0], H[1], H[2], H[3], H[4], H[5], H[6], H[7]⟩
  #v[H[0] + v.a, H[1] + v.b, H[2] + v.c, H[3] + v.d,
    H[4] + v.e, H[5] + v.f, H[6] + v.g, H[7] + v.h]

/-- `transform`. -/
def transform (H : Vector (BitVec 32) 8) (data : List Byte) (blockNum : Nat) :
    Vector (BitVec 32) 8 :=
  (List.range blockNum).foldl (transformBlock data) H

/-! ## Section 2: Messages -/

/-- `std::copy_n(data, data.length, &m[pos])`. -/
def copyN (data m : List Byte) (pos : Nat) : List Byte :=
  m.take pos ++ data ++ m.drop (pos + data.length)

/-- `std::fill_n(&m[pos], n, std::byte(0))`. -/
def fillN (m : List Byte) (pos n : Nat) : List Byte := copyN (List.replicate n 0) m pos

/-- `update`: the current block is filled; with what is left of `data`. -/
def fillBlock (s : SHA256) (data : List Byte) : SHA256 × List Byte :=
  if s.pos ≠ 0 ∧ s.pos + data.length ≥ blockSize then
    let m := copyN (data.take (blockSize - s.pos)) s.m s.pos
    ({ m, H := transform s.H m 1, total := s.total + BitVec.ofNat 64 (blockSize * 8), pos := 0 },
      data.drop (blockSize - s.pos))
  else (s, data)

/-- `update`: the complete blocks of `data`. -/
def wholeBlocks (s : SHA256) (data : List Byte) : SHA256 × List Byte :=
  if data.length ≥ blockSize then
    let blocks := data.length / blockSize
    let bytes := blocks * blockSize
    ({ s with H := transform s.H data blocks, total := s.total + BitVec.ofNat 64 (bytes * 8) },
      data.drop bytes)
  else (s, data)

/-- `update`. -/
def update (s : SHA256) (data : List Byte) : SHA256 :=
  let (s, data) := s.fillBlock data
  let (s, data) := s.wholeBlocks data
  { s with m := copyN data s.m s.pos, pos := s.pos + data.length }

/-- `final`, up to the length: the one bit, and a block for it if there is
    no space for the length. -/
def padBlock (s : SHA256) : SHA256 :=
  let s := { s with
    total := s.total + BitVec.ofNat 64 (s.pos * 8), m := copyN [0x80] s.m s.pos, pos := s.pos + 1 }
  if s.pos > blockSize - 4 * 2 then
    let m := if s.pos ≠ blockSize then fillN s.m s.pos (blockSize - s.pos) else s.m
    { s with m, H := transform s.H m 1, pos := 0 }
  else s

/-- `final`. -/
def final (s : SHA256) : List Byte :=
  let s := s.padBlock
  let m := fillN s.m s.pos (blockSize - s.pos)
  let m := copyN (leBytes 8 (toBigEndian64 s.total).toNat) m (blockSize - 8)
  let H := (transform s.H m 1).map toBigEndian
  H.toList.flatMap fun w => leBytes 4 w.toNat

/-! ## Section 3: `transform` is the standard -/

theorem toBigEndian_byte (x : BitVec 32) {i : Nat} (hi : i < 4) :
    (toBigEndian x).extractLsb' (8 * i) 8 = x.extractLsb' (8 * (4 - 1 - i)) 8 := by
  apply BitVec.eq_of_getLsbD_eq
  intro j hj
  unfold toBigEndian
  simp only [BitVec.getLsbD_extractLsb', BitVec.getLsbD_or, BitVec.getLsbD_shiftLeft,
    BitVec.getLsbD_ushiftRight, BitVec.getLsbD_and]
  interval_cases i <;> interval_cases j <;> simp

theorem toBigEndian64_byte (x : BitVec 64) {i : Nat} (hi : i < 8) :
    (toBigEndian64 x).extractLsb' (8 * i) 8 = x.extractLsb' (8 * (8 - 1 - i)) 8 := by
  apply BitVec.eq_of_getLsbD_eq
  intro j hj
  unfold toBigEndian64
  simp only [BitVec.getLsbD_extractLsb', BitVec.getLsbD_or, BitVec.getLsbD_shiftLeft,
    BitVec.getLsbD_ushiftRight, BitVec.getLsbD_and]
  interval_cases i <;> interval_cases j <;> simp

theorem leBytes_toBigEndian (x : BitVec 32) :
    leBytes 4 (toBigEndian x).toNat = beBytes 4 x.toNat :=
  leBytes_eq_beBytes fun _ hi => toBigEndian_byte x hi

theorem leBytes_toBigEndian64 (x : BitVec 64) :
    leBytes 8 (toBigEndian64 x).toNat = beBytes 8 x.toNat :=
  leBytes_eq_beBytes fun _ hi => toBigEndian64_byte x hi

/-- A word of the message, read and turned round. -/
theorem toBigEndian_loadWord {data : List Byte} {k : Nat} (h : 4 * k + 4 ≤ data.length) :
    toBigEndian (loadWord data k) = BitVec.ofNat 32 (beValue ((data.drop (4 * k)).take 4)) := by
  unfold loadWord
  generalize hbs : (data.drop (4 * k)).take 4 = bs
  have hlen : bs.length = 4 := by
    rw [← hbs, List.length_take, List.length_drop]
    omega
  have hread : (BitVec.ofNat 32 (leValue bs)).toNat = leValue bs := by
    rw [BitVec.toNat_ofNat]
    have hlt := leValue_lt bs
    rw [hlen] at hlt
    omega
  have hbytes : leBytes 4 (toBigEndian (BitVec.ofNat 32 (leValue bs))).toNat = bs.reverse := by
    rw [leBytes_toBigEndian, hread, beBytes, ← hlen, leBytes_leValue]
  -- the turned word has the value of its bytes
  have hvalue := leValue_leBytes 4 (toBigEndian (BitVec.ofNat 32 (leValue bs))).toNat
  rw [hbytes] at hvalue
  apply BitVec.eq_of_toNat_eq
  have hlt := (toBigEndian (BitVec.ofNat 32 (leValue bs))).isLt
  rw [BitVec.toNat_ofNat, beValue, hvalue]
  omega

theorem sum_eq : sum0 = bigSigma0 ∧ sum1 = bigSigma1 ∧ sigma0 = smallSigma0 ∧
    sigma1 = smallSigma1 := ⟨rfl, rfl, rfl, rfl⟩

theorem word_set {W : List (BitVec 32)} {t : Nat} (h : t < W.length) (v : BitVec 32) (i : Nat) :
    word (W.set t v) i = if t = i then v else word W i := by
  unfold word
  rw [List.getD_eq_getElem?_getD, List.getD_eq_getElem?_getD, List.getElem?_set]
  by_cases hi : t = i
  · rw [if_pos hi, if_pos hi, if_pos h]
    rfl
  · rw [if_neg hi, if_neg hi]

/-- The first loop copies the block. -/
theorem word_copyWords (M : Nat → BitVec 32) {n : Nat} (hn : n ≤ 64) :
    (copyWords M n).length = 64 ∧ ∀ t < n, word (copyWords M n) t = M t := by
  induction n with
  | zero => exact ⟨List.length_replicate, fun t ht => absurd ht (by omega)⟩
  | succ n ih =>
    obtain ⟨hlen, hword⟩ := ih (by omega)
    have hstep : copyWords M (n + 1) = (copyWords M n).set n (M n) := by
      unfold copyWords
      rw [List.range_succ, List.foldl_append, List.foldl_cons, List.foldl_nil]
    rw [hstep]
    refine ⟨by rw [List.length_set, hlen], fun t ht => ?_⟩
    rw [word_set (by omega)]
    by_cases htn : n = t
    · rw [if_pos htn, htn]
    · rw [if_neg htn]
      exact hword t (by omega)

/-- **Schedule**: the second loop follows the recurrence. -/
theorem word_expand (M : Nat → BitVec 32) {n : Nat} (hn : n ≤ 48) :
    (expand M n).length = 64 ∧ ∀ t < 16 + n, word (expand M n) t = schedule M t := by
  induction n with
  | zero =>
    obtain ⟨hlen, hword⟩ := word_copyWords M (n := 16) (by omega)
    have hstart : expand M 0 = copyWords M 16 := by
      rw [expand, List.range'_zero, List.foldl_nil]
    rw [hstart]
    refine ⟨hlen, fun t ht => ?_⟩
    rw [schedule_of_lt M ht]
    exact hword t (by omega)
  | succ n ih =>
    obtain ⟨hlen, hword⟩ := ih (by omega)
    have hstep : expand M (n + 1) = expandWord (expand M n) (16 + n) := by
      unfold expand
      rw [List.range'_concat, List.foldl_append, List.foldl_cons, List.foldl_nil, Nat.one_mul]
    rw [hstep, expandWord]
    refine ⟨by rw [List.length_set, hlen], fun t ht => ?_⟩
    rw [word_set (by omega)]
    by_cases htn : 16 + n = t
    · obtain ⟨-, -, hsigma0, hsigma1⟩ := sum_eq
      rw [if_pos htn, hword _ (by omega), hword _ (by omega), hword _ (by omega),
        hword _ (by omega), htn, schedule_of_le M (t := t) (by omega), hsigma0, hsigma1]
    · rw [if_neg htn]
      exact hword t (by omega)

/-- **A block** is compressed as the standard says. -/
theorem transformBlock_eq {data : List Byte} {i : Nat} (h : 64 * i + 64 ≤ data.length)
    (H : HashValue) :
    transformBlock data H i = compress H (byteWord ((data.drop (64 * i)).take 64)) := by
  have hwords : ∀ j < 16, toBigEndian (loadWord data (i * 16 + j)) =
      byteWord ((data.drop (64 * i)).take 64) j := by
    intro j hj
    have hblock : (((data.drop (64 * i)).take 64).drop (4 * j)).take 4 =
        (data.drop (4 * (i * 16 + j))).take 4 := by
      rw [List.drop_take, List.take_take, List.drop_drop, Nat.min_eq_left (by omega)]
      congr 2
      ring
    rw [toBigEndian_loadWord (by omega), byteWord, hblock]
  rw [← compress_congr H hwords]
  have hrounds : ∀ (M : Nat → Word) v, mixAll (word (expand M 48)) v = rounds (schedule M) v :=
    fun M v => rounds_congr (word_expand M (le_refl 48)).2 v
  have hadd : ∀ v, addWorking H v = #v[H[0] + v.a, H[1] + v.b, H[2] + v.c, H[3] + v.d,
      H[4] + v.e, H[5] + v.f, H[6] + v.g, H[7] + v.h] := by
    intro v
    simp only [addWorking, BitVec.add_comm]
    rfl
  rw [compress, ← hrounds, hadd]
  rfl

theorem transform_eq {data : List Byte} {n : Nat} (h : 64 * n ≤ data.length) (H : HashValue) :
    transform H data n = absorb H (data.take (64 * n)) := by
  have hlen : (data.take (64 * n)).length / 64 = n := by
    rw [List.length_take, Nat.min_eq_left h]
    exact Nat.mul_div_cancel_left n (by decide)
  unfold transform absorb blocks
  rw [hlen, List.foldl_map]
  refine List.foldl_ext _ _ H fun H i hi => ?_
  have hi : i < n := List.mem_range.1 hi
  have hblock : ((data.take (64 * n)).drop (64 * i)).take 64 = (data.drop (64 * i)).take 64 := by
    rw [List.drop_take, List.take_take, Nat.min_eq_left (by omega)]
  rw [transformBlock_eq (by omega), hblock]

/-! ## Section 4: The digest -/

theorem length_copyN {data m : List Byte} {pos : Nat} (h : pos + data.length ≤ m.length) :
    (copyN data m pos).length = m.length := by
  simp only [copyN, List.length_append, List.length_take, List.length_drop]
  omega

theorem take_copyN {data m : List Byte} {pos : Nat} (h : pos ≤ m.length) :
    (copyN data m pos).take (pos + data.length) = m.take pos ++ data := by
  unfold copyN
  apply List.take_left'
  rw [List.length_append, List.length_take, Nat.min_eq_left h]

/-- What the state has taken in: `full` is absorbed, `tail` waits in `m`. -/
structure Absorbed (full tail : List Byte) (s : SHA256) : Prop where
  aligned : 64 ∣ full.length
  pos : s.pos = tail.length
  short : tail.length < 64
  length_m : s.m.length = 64
  waiting : s.m.take tail.length = tail
  hash : s.H = absorb H0 full
  total : s.total = BitVec.ofNat 64 (8 * full.length)

theorem absorbed_init : Absorbed [] [] init where
  aligned := ⟨0, rfl⟩
  pos := rfl
  short := by decide
  length_m := List.length_replicate
  waiting := rfl
  hash := rfl
  total := rfl

/-- Blocks are absorbed, and counted. -/
theorem absorb_more {full : List Byte} {H : HashValue} {total : BitVec 64} {n : Nat}
    {data : List Byte} (hfull : 64 ∣ full.length) (hH : H = absorb H0 full)
    (htotal : total = BitVec.ofNat 64 (8 * full.length)) (hn : 64 * n ≤ data.length) :
    64 ∣ (full ++ data.take (64 * n)).length ∧
      transform H data n = absorb H0 (full ++ data.take (64 * n)) ∧
      total + BitVec.ofNat 64 (n * 64 * 8) =
        BitVec.ofNat 64 (8 * (full ++ data.take (64 * n)).length) := by
  have hlen : (full ++ data.take (64 * n)).length = full.length + 64 * n := by
    rw [List.length_append, List.length_take, Nat.min_eq_left hn]
  refine ⟨?_, ?_, ?_⟩
  · rw [hlen]
    exact Nat.dvd_add hfull (Nat.dvd_mul_right 64 n)
  · rw [transform_eq hn, absorb_append _ hfull, hH]
  · rw [hlen, htotal, ← BitVec.ofNat_add]
    congr 1
    ring

/-- **Step**: the current block is filled if there is enough. -/
theorem Absorbed.fillBlock {full tail : List Byte} {s : SHA256} (h : Absorbed full tail s)
    (data : List Byte) : ∃ full' tail', Absorbed full' tail' (s.fillBlock data).1 ∧
      full' ++ tail' ++ (s.fillBlock data).2 = full ++ tail ++ data ∧
      (tail' = [] ∨ tail'.length + (s.fillBlock data).2.length < 64) := by
  have hshort := h.short
  unfold SHA256.fillBlock
  rw [h.pos, show blockSize = 64 from rfl]
  by_cases hfill : tail.length ≠ 0 ∧ tail.length + data.length ≥ 64
  · rw [if_pos hfill]
    obtain ⟨-, henough⟩ := hfill
    have hpiece : (data.take (64 - tail.length)).length = 64 - tail.length := by
      rw [List.length_take]
      omega
    -- the waiting bytes and the first bytes of the data make one block
    have hm : copyN (data.take (64 - tail.length)) s.m tail.length =
        tail ++ data.take (64 - tail.length) := by
      rw [copyN, h.waiting, hpiece, List.drop_eq_nil_of_le, List.append_nil]
      rw [h.length_m]
      omega
    have hlen : (tail ++ data.take (64 - tail.length)).length = 64 := by
      rw [List.length_append, hpiece]
      omega
    rw [hm]
    obtain ⟨haligned, hhash, htotal⟩ := absorb_more (n := 1) h.aligned h.hash h.total
      (Nat.le_of_eq hlen.symm)
    have hwhole := List.take_of_length_le (Nat.le_of_eq hlen)
    rw [Nat.mul_one, hwhole] at haligned hhash htotal
    refine ⟨full ++ (tail ++ data.take (64 - tail.length)), [],
      ⟨haligned, rfl, by decide, hlen, rfl, hhash, htotal⟩, ?_, .inl rfl⟩
    rw [List.append_nil, List.append_assoc, List.append_assoc, List.take_append_drop,
      List.append_assoc]
  · rw [if_neg hfill]
    refine ⟨full, tail, h, rfl, ?_⟩
    by_cases hempty : tail.length = 0
    · exact .inl (List.eq_nil_of_length_eq_zero hempty)
    · right
      show tail.length + data.length < 64
      omega

/-- **Step**: complete blocks are absorbed at once. -/
theorem Absorbed.wholeBlocks {full tail : List Byte} {s : SHA256} (h : Absorbed full tail s)
    {data : List Byte} (hdata : tail = [] ∨ tail.length + data.length < 64) :
    ∃ full', Absorbed full' tail (s.wholeBlocks data).1 ∧
      full' ++ tail ++ (s.wholeBlocks data).2 = full ++ tail ++ data ∧
      tail.length + (s.wholeBlocks data).2.length < 64 := by
  unfold SHA256.wholeBlocks
  rw [show blockSize = 64 from rfl]
  by_cases henough : data.length ≥ 64
  · rw [if_pos henough]
    have htail : tail = [] := hdata.resolve_right (by omega)
    subst htail
    have hn : 64 * (data.length / 64) ≤ data.length := Nat.mul_div_le _ _
    obtain ⟨haligned, hhash, htotal⟩ := absorb_more h.aligned h.hash h.total hn
    have hcomm : data.length / 64 * 64 = 64 * (data.length / 64) := Nat.mul_comm _ _
    refine ⟨full ++ data.take (64 * (data.length / 64)),
      ⟨haligned, h.pos, h.short, h.length_m, h.waiting, hhash, htotal⟩, ?_, ?_⟩
    · show _ ++ [] ++ data.drop (data.length / 64 * 64) = _
      rw [hcomm, List.append_nil, List.append_nil, List.append_assoc, List.take_append_drop]
    · show 0 + (data.drop (data.length / 64 * 64)).length < 64
      rw [List.length_drop]
      omega
  · rw [if_neg henough]
    refine ⟨full, h, rfl, ?_⟩
    rcases hdata with rfl | hlt
    · show 0 + data.length < 64
      omega
    · exact hlt

/-- **Step**: the rest waits in `m`. -/
theorem Absorbed.keep {full tail : List Byte} {s : SHA256} (h : Absorbed full tail s)
    {data : List Byte} (hdata : tail.length + data.length < 64) :
    Absorbed full (tail ++ data)
      { s with m := copyN data s.m s.pos, pos := s.pos + data.length } where
  aligned := h.aligned
  pos := by rw [h.pos, List.length_append]
  short := by rwa [List.length_append]
  length_m := by
    have hlen := h.length_m
    rw [h.pos, length_copyN (by omega), hlen]
  waiting := by
    have hlen := h.length_m
    rw [h.pos, List.length_append, take_copyN (by omega), h.waiting]
  hash := h.hash
  total := h.total

/-- **Step**: `update` takes in its data. -/
theorem Absorbed.update {full tail : List Byte} {s : SHA256} (h : Absorbed full tail s)
    (data : List Byte) :
    ∃ full' tail', Absorbed full' tail' (s.update data) ∧ full' ++ tail' = full ++ tail ++ data := by
  obtain ⟨full₁, tail₁, h₁, hdata₁, hrest₁⟩ := h.fillBlock data
  obtain ⟨full₂, h₂, hdata₂, hrest₂⟩ := h₁.wholeBlocks hrest₁
  refine ⟨full₂, tail₁ ++ ((s.fillBlock data).1.wholeBlocks (s.fillBlock data).2).2,
    h₂.keep hrest₂, ?_⟩
  rw [← List.append_assoc, hdata₂, hdata₁]

/-- **Run**: after all pieces. -/
theorem absorbed_updates (chunks : List (List Byte)) :
    ∃ full tail, Absorbed full tail (chunks.foldl update init) ∧
      full ++ tail = chunks.flatten := by
  induction chunks using List.reverseRecOn with
  | nil => exact ⟨[], [], absorbed_init, rfl⟩
  | append_singleton chunks data ih =>
    obtain ⟨full, tail, h, hchunks⟩ := ih
    obtain ⟨full', tail', h', hdata⟩ := h.update data
    rw [List.foldl_append, List.foldl_cons, List.foldl_nil]
    refine ⟨full', tail', h', ?_⟩
    rw [hdata, hchunks, List.flatten_append, List.flatten_singleton]

/-- The state before the length is written. `last` waits in `m`, and only
    the length and zeros are missing. -/
structure Padded (msg full last : List Byte) (s : SHA256) : Prop where
  aligned : 64 ∣ full.length
  pos : s.pos = last.length
  short : last.length ≤ 56
  length_m : s.m.length = 64
  waiting : s.m.take last.length = last
  hash : s.H = absorb H0 full
  total : s.total = BitVec.ofNat 64 (8 * msg.length)
  padded : padBytes msg = full ++
    (last ++ List.replicate (56 - last.length) 0 ++ beBytes 8 (8 * msg.length))

/-- The one bit and the zeros; with less than 8 bytes left they fill a block
    of their own. -/
theorem Absorbed.padBlock {full tail : List Byte} {s : SHA256} (h : Absorbed full tail s) :
    ∃ full' last, Padded (full ++ tail) full' last s.padBlock := by
  obtain ⟨q, hq⟩ := h.aligned
  have hshort := h.short
  have hm := h.length_m
  have htotal : s.total + BitVec.ofNat 64 (tail.length * 8) =
      BitVec.ofNat 64 (8 * (full ++ tail).length) := by
    rw [h.total, ← BitVec.ofNat_add, List.length_append]
    congr 1
    ring
  have hone : (copyN [0x80] s.m tail.length).take (tail.length + 1) = tail ++ [0x80] := by
    have hle : tail.length ≤ s.m.length := by omega
    have htake : (copyN [0x80] s.m tail.length).take (tail.length + 1) =
        s.m.take tail.length ++ [0x80] := @take_copyN [0x80] s.m tail.length hle
    rwa [h.waiting] at htake
  have hlen : (copyN [0x80] s.m tail.length).length = 64 := by
    rw [length_copyN, hm]
    show tail.length + 1 ≤ _
    omega
  unfold SHA256.padBlock
  rw [h.pos, show blockSize = 64 from rfl]
  simp only []
  by_cases hfits : tail.length + 1 > 64 - 4 * 2
  · rw [if_pos hfits]
    -- a block with the one bit and zeros
    have hblock : (if tail.length + 1 ≠ 64 then
        fillN (copyN [0x80] s.m tail.length) (tail.length + 1) (64 - (tail.length + 1))
        else copyN [0x80] s.m tail.length) =
        tail ++ 0x80 :: List.replicate (63 - tail.length) 0 := by
      by_cases hend : tail.length + 1 = 64
      · rw [List.take_of_length_le (by omega)] at hone
        rw [if_neg (by simp [hend]), show 63 - tail.length = 0 by omega, hone]
        rfl
      · rw [if_pos hend, fillN, copyN, hone, List.length_replicate, List.drop_eq_nil_of_le (by omega),
          List.append_nil, show 64 - (tail.length + 1) = 63 - tail.length by omega]
        simp
    have hblockLen : (tail ++ 0x80 :: List.replicate (63 - tail.length) (0 : Byte)).length = 64 := by
      simp only [List.length_append, List.length_cons, List.length_replicate]
      omega
    obtain ⟨haligned, hhash, -⟩ := absorb_more (n := 1) h.aligned h.hash h.total
      (Nat.le_of_eq hblockLen.symm)
    rw [Nat.mul_one, List.take_of_length_le (Nat.le_of_eq hblockLen)] at haligned hhash
    rw [hblock]
    refine ⟨_, [], haligned, rfl, by decide, hblockLen, rfl, hhash, htotal, ?_⟩
    have hzeros : zeroBytes (full ++ tail).length = 63 - tail.length + 56 := by
      unfold zeroBytes
      rw [List.length_append]
      omega
    rw [padBytes, hzeros, List.replicate_add]
    simp only [List.append_assoc, List.cons_append, List.nil_append]
    rfl
  · rw [if_neg hfits]
    have hlast : (tail ++ [(0x80 : Byte)]).length = tail.length + 1 := by simp
    refine ⟨full, tail ++ [0x80], h.aligned, hlast.symm, by omega, hlen, ?_, h.hash, htotal, ?_⟩
    · rw [hlast]
      exact hone
    · have hzeros : zeroBytes (full ++ tail).length = 56 - (tail.length + 1) := by
        unfold zeroBytes
        rw [List.length_append]
        omega
      rw [padBytes, hzeros, hlast]
      simp only [List.append_assoc, List.cons_append, List.nil_append]

/-- The last block. -/
theorem Padded.final {msg full last : List Byte} {s s' : SHA256} (h : Padded msg full last s')
    (hs : s.padBlock = s') : s.final = sha256Bytes msg := by
  have hshort := h.short
  have hm := h.length_m
  -- the message length goes to the last eight bytes
  have hlength : leBytes 8 (toBigEndian64 s'.total).toNat = beBytes 8 (8 * msg.length) := by
    rw [leBytes_toBigEndian64, h.total, BitVec.toNat_ofNat, beBytes, beBytes]
    exact congrArg List.reverse (leBytes_mod 8 _)
  have hzeros : fillN s'.m s'.pos (64 - s'.pos) =
      last ++ List.replicate (56 - last.length) 0 ++ List.replicate 8 0 := by
    rw [fillN, copyN, h.pos, h.waiting, List.length_replicate, List.drop_eq_nil_of_le (by omega),
      List.append_nil, List.append_assoc, ← List.replicate_add]
    congr 2
    omega
  have hhead : (last ++ List.replicate (56 - last.length) (0 : Byte)).length = 56 := by
    rw [List.length_append, List.length_replicate]
    omega
  have hblock : copyN (beBytes 8 (8 * msg.length)) (fillN s'.m s'.pos (64 - s'.pos)) (64 - 8) =
      last ++ List.replicate (56 - last.length) 0 ++ beBytes 8 (8 * msg.length) := by
    rw [hzeros, copyN, length_beBytes, List.take_left' hhead, List.drop_eq_nil_of_le,
      List.append_nil]
    rw [List.length_append, hhead, List.length_replicate]
  have hblockLen : (last ++ List.replicate (56 - last.length) 0 ++
      beBytes 8 (8 * msg.length)).length = 64 := by
    rw [List.length_append, hhead, length_beBytes]
  have hcount : BitVec.ofNat 64 (8 * full.length) = BitVec.ofNat 64 (8 * full.length) := rfl
  obtain ⟨-, hhash, -⟩ := absorb_more (n := 1) h.aligned h.hash hcount
    (Nat.le_of_eq hblockLen.symm)
  rw [Nat.mul_one, List.take_of_length_le (Nat.le_of_eq hblockLen), ← h.padded] at hhash
  rw [sha256Bytes, ← hhash]
  unfold SHA256.final
  simp only [hs, show blockSize = 64 from rfl, hlength, hblock]
  rw [Vector.toList_map, List.flatMap_map]
  simp only [leBytes_toBigEndian]

/-- `final` does not depend on how the message was cut. -/
theorem final_eq (chunks : List (List Byte)) :
    (chunks.foldl update init).final = sha256Bytes chunks.flatten := by
  obtain ⟨full, tail, habsorbed, hchunks⟩ := absorbed_updates chunks
  obtain ⟨full', last, hpadded⟩ := habsorbed.padBlock
  rw [← hchunks]
  exact hpadded.final rfl

/-- **The digest** is the one of the standard, for every message in whatever
    pieces. -/
theorem final_updates (chunks : List (List Byte)) :
    bitsOf (chunks.foldl update init).final = FIPS180.sha256 (bitsOf chunks.flatten) := by
  rw [final_eq, sha256_bitsOf]

end SHA256

end Linglong

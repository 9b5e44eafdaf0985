import Linglong.UAB.SHA256

/-! # The Digest of the Bundle

    A UAB file keeps its layers in one section, the bundle. `packBundle`
    writes the SHA-256 of the bundle into the meta information. Two readers
    check it: `UABFile::verify` of the package manager and the header of the
    UAB file itself (`calculateDigest`). Both read blocks of 4096 bytes and
    count down the length of the section, in an unsigned type.

    Neither keeps to the section always. `verify` asks for 4096 bytes even
    if less is left of the section, and `calculateDigest` does so in its
    first read. Once a reader has read beyond the section, its counter has
    wrapped, and it reads on to the end of the file and has no digest.

    1. The section and the two readers.
    2. The loop of `verify` (`verifyLoop_eq`).
    3. The loop of `calculateDigest`.
    4. When both readers agree with `packBundle` (`agrees_iff`).
-/

namespace Linglong

open Framework FIPS180

/-! ## Section 1: The readers -/

/-- The bundle section of an ELF file, with `sh_offset` and `sh_size`. The
    length of a file is an `off_t`. -/
structure BundleSection where
  file : List Byte
  offset : Nat
  size : Nat
  file_lt : file.length < 2 ^ 63
  inside : offset + size ≤ file.length

/-- The bytes of the section. -/
def BundleSection.bytes (b : BundleSection) : List Byte := (b.file.drop b.offset).take b.size

def hexDigit (n : Nat) : Char := "0123456789abcdef".toList.getD n '0'

/-- `QByteArray::toHex`. -/
def toHex (bs : List Byte) : String :=
  String.ofList (bs.flatMap fun b => [hexDigit (b.toNat / 16), hexDigit (b.toNat % 16)])

/-- The characters of `stream << std::setw(2) << v`, with fill `0` and base
    16. -/
def setw2 (v : Byte) : List Char :=
  List.replicate (2 - (Nat.toDigits 16 v.toNat).length) '0' ++ Nat.toDigits 16 v.toNat

/-- `packBundle`: the digest of the bundle. -/
def packBundleDigest (bundle : List Byte) : String := toHex (sha256Bytes bundle)

/-- The buffer of both readers. -/
def bufSize : Nat := 4096

/-- The loop of `verify`, from its `k`-th read on; `rest` is what is left of
    the file and `added` what the hash has taken. The digest stays empty if
    the file ends before the length is 0. A read that fails ends it. -/
def verifyLoop (fails : Nat → Bool) (k : Nat) (rest : List Byte) (bundleLength : UInt64)
    (added : List Byte) : Except String String :=
  if fails k then .error "read error"
  else if rest = [] then .ok ""
  else
    let block := rest.take bufSize
    let bundleLength := bundleLength - UInt64.ofNat block.length
    if bundleLength ≤ 0 then .ok (toHex (sha256Bytes (added ++ block)))
    else verifyLoop fails (k + 1) (rest.drop bufSize) bundleLength (added ++ block)
termination_by rest.length
decreasing_by
  have hpos : 0 < rest.length := List.length_pos_of_ne_nil ‹_›
  rw [List.length_drop]
  exact Nat.sub_lt hpos (by decide)

/-- `UABFile::verify`, from the read of the section on. -/
def verify (fails : Nat → Bool) (b : BundleSection) (expectedDigest : String) :
    Except String Bool := do
  let digest ← verifyLoop fails 0 (b.file.drop b.offset) (UInt64.ofNat b.size) []
  return expectedDigest == digest

/-- What the system calls of the header return: whether `dup` and `lseek`
    succeed, and for the `k`-th `read`, repeated while it is interrupted, how
    many bytes beyond the first one it may return, or that it fails. -/
structure Calls where
  dup : Bool
  lseek : Bool
  read : Nat → Option Nat

/-- All calls succeed, with reads as short as `limit` says. -/
def Calls.short (limit : Nat → Nat) : Calls := ⟨true, true, fun k => some (limit k)⟩

/-- The loop of `calculateDigest`: the value of `md_value` after it, or
    nothing if a read fails. -/
def digestLoop (calls : Calls) (k : Nat) (rest : List Byte) (bundleLength : UInt64)
    (expectedRead : Nat) (sha256 : SHA256) : Option (List Byte) :=
  match calls.read k with
  | none => none
  | some n =>
      let block := rest.take (min (n + 1) expectedRead)
      if block = [] then some (List.replicate 32 0)
      else
        let sha256 := sha256.update block
        let bundleLength := bundleLength - UInt64.ofNat block.length
        if bundleLength = 0 then some sha256.final
        else
          let expectedRead := if bundleLength > UInt64.ofNat bufSize then bufSize
            else bundleLength.toNat
          digestLoop calls (k + 1) (rest.drop block.length) bundleLength expectedRead sha256
termination_by rest.length
decreasing_by
  have hpos : 0 < block.length := List.length_pos_of_ne_nil ‹_›
  have hle : block.length ≤ rest.length := List.length_take_le' _ _
  rw [List.length_drop]
  exact Nat.sub_lt (hpos.trans_le hle) hpos

/-- `calculateDigest`. -/
def calculateDigest (calls : Calls) (b : BundleSection) : String :=
  if !calls.dup || !calls.lseek then ""
  else
    match digestLoop calls 0 (b.file.drop b.offset) (UInt64.ofNat b.size) bufSize .init with
    | none => ""
    | some md => String.ofList (md.flatMap setw2)

/-! ## Section 2: `verify` -/

/-- The counter, after `n` bytes. -/
theorem toNat_sub_ofNat (length : UInt64) {n : Nat} (hn : n < 2 ^ 64) :
    (length - UInt64.ofNat n).toNat =
      if n ≤ length.toNat then length.toNat - n else 2 ^ 64 + length.toNat - n := by
  have hlt := length.toNat_lt
  have htoNat : (UInt64.ofNat n).toNat = n := UInt64.toNat_ofNat_of_lt hn
  rw [UInt64.toNat_sub, htoNat]
  by_cases hle : n ≤ length.toNat
  · rw [if_pos hle]
    omega
  · rw [if_neg hle]
    omega

/-- `verify` reads exactly `n` bytes of a rest of `r`. -/
def Hits (n r : Nat) : Prop := 0 < n ∧ n ≤ r ∧ (4096 ∣ n ∨ n = r)

instance (n r : Nat) : Decidable (Hits n r) := inferInstanceAs (Decidable (_ ∧ _ ∧ (_ ∨ _)))

/-- One block further, the counter still hits the end, or has missed it. -/
theorem hits_sub {n r : Nat} (hr : r < 2 ^ 63) (hn : n < 2 ^ 64) (hpos : 0 < r)
    (hne : n ≠ min 4096 r) :
    Hits (if min 4096 r ≤ n then n - min 4096 r else 2 ^ 64 + n - min 4096 r) (r - 4096) ↔
      Hits n r := by
  unfold Hits
  by_cases hle : min 4096 r ≤ n
  · rw [if_pos hle]
    omega
  · rw [if_neg hle]
    omega

/-- **The loop of `verify`** takes the section, or finds no end. -/
theorem verifyLoop_eq {k : Nat} {rest added : List Byte} {bundleLength : UInt64}
    (hrest : rest.length < 2 ^ 63) :
    verifyLoop (fun _ => false) k rest bundleLength added =
      .ok (if Hits bundleLength.toNat rest.length
        then toHex (sha256Bytes (added ++ rest.take bundleLength.toNat)) else "") := by
  induction hr : rest.length using Nat.strongRecOn generalizing k rest bundleLength added with
  | ind r ih =>
    rw [verifyLoop, if_neg (by decide)]
    by_cases hnil : rest = []
    · have hmiss : ¬ Hits bundleLength.toNat r := by
        rintro ⟨hpos, hle, -⟩
        rw [← hr, hnil, List.length_nil] at hle
        omega
      rw [if_pos hnil, if_neg hmiss]
    rw [if_neg hnil]
    have hpos : 0 < rest.length := List.length_pos_of_ne_nil hnil
    have hblock : (rest.take bufSize).length = min 4096 rest.length := List.length_take
    have hcount := toNat_sub_ofNat bundleLength (n := (rest.take bufSize).length) (by omega)
    have hlt := bundleLength.toNat_lt
    simp only []
    by_cases hend : bundleLength - UInt64.ofNat (rest.take bufSize).length ≤ 0
    · -- the block ends the section
      rw [UInt64.le_iff_toNat_le, hcount, hblock] at hend
      have hzero : (0 : UInt64).toNat = 0 := rfl
      rw [hzero] at hend
      have hn : bundleLength.toNat = min 4096 rest.length := by
        split at hend <;> omega
      have hhit : Hits bundleLength.toNat r := by
        refine ⟨by omega, by omega, ?_⟩
        by_cases hfull : 4096 ≤ rest.length
        · left
          rw [hn, Nat.min_eq_left hfull]
        · right
          omega
      have htake : rest.take bundleLength.toNat = rest.take bufSize := by
        rw [hn, ← List.take_eq_take_min]
        rfl
      rw [if_pos (by rw [UInt64.le_iff_toNat_le, hcount, hblock, hzero]; exact hend),
        if_pos hhit, htake]
    · have hne : bundleLength.toNat ≠ min 4096 rest.length := by
        intro heq
        refine hend (UInt64.le_iff_toNat_le.2 ?_)
        rw [hcount, hblock, ← heq, if_pos (le_refl _), Nat.sub_self]
        exact Nat.zero_le _
      have hdrop : (rest.drop bufSize).length = r - 4096 := by
        rw [List.length_drop, hr]
        rfl
      rw [if_neg hend, ih (r - 4096) (by omega) (by omega) hdrop, hcount, hblock, hr]
      simp only [hits_sub (r := r) (by omega) hlt (by omega) (by omega)]
      by_cases hhit : Hits bundleLength.toNat r
      · -- more than one block is left, so the counter has not wrapped
        obtain ⟨hnpos, hle, halign⟩ := hhit
        have hmore : 4096 ≤ bundleLength.toNat ∧ 4096 ≤ r := by
          rw [hr] at hne
          omega
        have hsize : min 4096 r = 4096 := Nat.min_eq_left hmore.2
        simp only [hsize, if_pos hmore.1, if_pos (show Hits _ _ from ⟨hnpos, hle, halign⟩)]
        have htake : rest.take bufSize ++ (rest.drop bufSize).take (bundleLength.toNat - 4096) =
            rest.take bundleLength.toNat := by
          have hsum : bufSize + (bundleLength.toNat - 4096) = bundleLength.toNat :=
            Nat.add_sub_cancel' hmore.1
          rw [← List.take_add, hsum]
        rw [List.append_assoc, htake]
      · rw [if_neg hhit, if_neg hhit]

/-! ## Section 3: `calculateDigest` -/

/-- What `md_value` is if the end of the section is missed. -/
def noDigest : List Byte := List.replicate 32 0

section Header

variable {limit : Nat → Nat} {k : Nat} {rest : List Byte} {bundleLength : UInt64}
  {expectedRead : Nat} {sha256 : SHA256}

/-- What one read returns. -/
def Calls.block (n : Nat) (expectedRead : Nat) (rest : List Byte) : List Byte :=
  rest.take (min (n + 1) expectedRead)

/-- One round of the loop. -/
theorem digestLoop_short :
    digestLoop (.short limit) k rest bundleLength expectedRead sha256 =
      if Calls.block (limit k) expectedRead rest = [] then some noDigest
      else
        let block := Calls.block (limit k) expectedRead rest
        let length := bundleLength - UInt64.ofNat block.length
        if length = 0 then some (sha256.update block).final
        else digestLoop (.short limit) (k + 1) (rest.drop block.length) length
          (if length > UInt64.ofNat bufSize then bufSize else length.toNat)
          (sha256.update block) := by
  rw [digestLoop]
  rfl

/-- Once more is left of the counter than of the file, the end is missed. -/
theorem digestLoop_miss (hrest : rest.length < bundleLength.toNat) :
    digestLoop (.short limit) k rest bundleLength expectedRead sha256 = some noDigest := by
  induction hr : rest.length using Nat.strongRecOn
    generalizing k rest bundleLength expectedRead sha256 with
  | ind r ih =>
    have hle : (Calls.block (limit k) expectedRead rest).length ≤ rest.length :=
      List.length_take_le' _ _
    rw [digestLoop_short]
    generalize Calls.block (limit k) expectedRead rest = block at hle ⊢
    by_cases hnil : block = []
    · rw [if_pos hnil]
    have hpos : 0 < block.length := List.length_pos_of_ne_nil hnil
    have hlt := bundleLength.toNat_lt
    have hcount := toNat_sub_ofNat bundleLength (n := block.length) (by omega)
    rw [if_pos (by omega)] at hcount
    have hne : bundleLength - UInt64.ofNat block.length ≠ 0 := by
      intro hend
      have hzero : (0 : UInt64).toNat = 0 := rfl
      rw [hend] at hcount
      omega
    rw [if_neg hnil]
    simp only [if_neg hne]
    refine ih _ ?_ ?_ rfl
    · rw [List.length_drop]
      omega
    · rw [List.length_drop, hcount]
      omega

/-- A read beyond the end misses it. -/
theorem digestLoop_over (hrest : rest.length < 2 ^ 63)
    (hover : bundleLength.toNat < (Calls.block (limit k) expectedRead rest).length) :
    digestLoop (.short limit) k rest bundleLength expectedRead sha256 = some noDigest := by
  have hle : (Calls.block (limit k) expectedRead rest).length ≤ rest.length :=
    List.length_take_le' _ _
  rw [digestLoop_short]
  generalize Calls.block (limit k) expectedRead rest = block at hle hover ⊢
  have hnil : block ≠ [] := List.ne_nil_of_length_pos (by omega)
  have hlt := bundleLength.toNat_lt
  have hcount := toNat_sub_ofNat bundleLength (n := block.length) (by omega)
  rw [if_neg (by omega)] at hcount
  have hne : bundleLength - UInt64.ofNat block.length ≠ 0 := by
    intro hend
    have hzero : (0 : UInt64).toNat = 0 := rfl
    rw [hend] at hcount
    omega
  rw [if_neg hnil]
  simp only [if_neg hne]
  refine digestLoop_miss ?_
  rw [List.length_drop, hcount]
  omega

/-- **The loop of the header** takes the section, if the next read does not
    go beyond it. Later reads ask for no more than is left. -/
theorem digestLoop_eq {chunks : List (List Byte)} (hpos : 0 < bundleLength.toNat)
    (hle : bundleLength.toNat ≤ rest.length) (hasked : 0 < expectedRead)
    (hkept : (Calls.block (limit k) expectedRead rest).length ≤ bundleLength.toNat) :
    digestLoop (.short limit) k rest bundleLength expectedRead (chunks.foldl .update .init) =
      some (sha256Bytes (chunks.flatten ++ rest.take bundleLength.toNat)) := by
  induction hr : rest.length using Nat.strongRecOn
    generalizing k rest bundleLength expectedRead chunks with
  | ind r ih =>
    have hlength : (Calls.block (limit k) expectedRead rest).length =
        min (min (limit k + 1) expectedRead) rest.length := List.length_take
    have hself : Calls.block (limit k) expectedRead rest =
        rest.take (Calls.block (limit k) expectedRead rest).length := by
      rw [hlength, ← List.take_eq_take_min]
      rfl
    rw [digestLoop_short]
    generalize Calls.block (limit k) expectedRead rest = block at hlength hself hkept ⊢
    have hnil : block ≠ [] := by
      refine List.ne_nil_of_length_pos ?_
      omega
    have hfold : (chunks ++ [block]).foldl .update .init =
        (chunks.foldl .update SHA256.init).update block := by
      rw [List.foldl_append, List.foldl_cons, List.foldl_nil]
    have hflatten : (chunks ++ [block]).flatten = chunks.flatten ++ block := by
      rw [List.flatten_append, List.flatten_singleton]
    have hlt := bundleLength.toNat_lt
    have hcount := toNat_sub_ofNat bundleLength (n := block.length) (by omega)
    rw [if_pos (by omega)] at hcount
    rw [if_neg hnil]
    simp only [← hfold]
    generalize bundleLength - UInt64.ofNat block.length = left at hcount ⊢
    have hzero : (0 : UInt64).toNat = 0 := rfl
    by_cases hend : left = 0
    · -- the read ends the section
      rw [hend, hzero] at hcount
      have hall : block.length = bundleLength.toNat := by omega
      rw [if_pos hend, SHA256.final_eq, hflatten, ← hall, ← hself]
    · have hleft : 0 < left.toNat :=
        Nat.pos_of_ne_zero fun h => hend (UInt64.toNat_inj.1 (h.trans hzero.symm))
      have hbuf : (UInt64.ofNat bufSize).toNat = 4096 := rfl
      have hasked' : 0 < (if left > UInt64.ofNat bufSize then bufSize else left.toNat) := by
        split
        · decide
        · exact hleft
      have hkept' : (if left > UInt64.ofNat bufSize then bufSize else left.toNat) ≤ left.toNat := by
        split
        · next hgt =>
          rw [gt_iff_lt, UInt64.lt_iff_toNat_lt, hbuf] at hgt
          exact hgt.le
        · exact le_refl _
      have hdrop : (rest.drop block.length).length = r - block.length := by
        rw [List.length_drop, hr]
      have hnext : ∀ n bytes, (Calls.block n
          (if left > UInt64.ofNat bufSize then bufSize else left.toNat) bytes).length ≤
          left.toNat := by
        intro n bytes
        have hlen : (Calls.block n
            (if left > UInt64.ofNat bufSize then bufSize else left.toNat) bytes).length ≤
            min (n + 1) (if left > UInt64.ofNat bufSize then bufSize else left.toNat) :=
          List.length_take_le _ _
        omega
      have htake : block ++ (rest.drop block.length).take left.toNat =
          rest.take bundleLength.toNat := by
        have hsum : block.length + left.toNat = bundleLength.toNat := by omega
        calc block ++ (rest.drop block.length).take left.toNat
            = rest.take block.length ++ (rest.drop block.length).take left.toNat := by
              rw [← hself]
          _ = rest.take bundleLength.toNat := by rw [← List.take_add, hsum]
      rw [if_neg hend,
        ih (r - block.length) (by omega) hleft (by omega) hasked' (hnext _ _) hdrop, hflatten,
        List.append_assoc, htake]

end Header

/-! ## Section 4: Agreement -/

namespace BundleSection

variable {b : BundleSection}

theorem rest_length (b : BundleSection) : (b.file.drop b.offset).length < 2 ^ 63 ∧
    b.size ≤ (b.file.drop b.offset).length ∧ (UInt64.ofNat b.size).toNat = b.size := by
  have hfile := b.file_lt
  have hinside := b.inside
  rw [List.length_drop]
  exact ⟨by omega, by omega, UInt64.toNat_ofNat_of_lt (by show b.size < 2 ^ 64; omega)⟩

/-- The section ends with the file. -/
theorem size_eq_rest (b : BundleSection) :
    b.size = (b.file.drop b.offset).length ↔ b.offset + b.size = b.file.length := by
  have hinside := b.inside
  rw [List.length_drop]
  omega

/-- A digest has 64 digits. -/
theorem packBundleDigest_ne (bundle : List Byte) : packBundleDigest bundle ≠ "" := by
  intro h
  have hchars := congrArg String.toList h
  have hlen := congrArg List.length hchars
  have hsum : ∀ bs : List Byte, (bs.flatMap fun b =>
      [hexDigit (b.toNat / 16), hexDigit (b.toNat % 16)]).length = 2 * bs.length := by
    intro bs
    induction bs with
    | nil => rfl
    | cons v bs ih =>
      rw [List.flatMap_cons, List.length_append, ih, List.length_cons, List.length_cons,
        List.length_nil, List.length_cons]
      ring
  rw [packBundleDigest, toHex, String.toList_ofList, hsum, length_sha256Bytes] at hlen
  exact absurd hlen (by decide)

/-- Both ways to write a byte. -/
theorem setw2_eq (v : Byte) : setw2 v = [hexDigit (v.toNat / 16), hexDigit (v.toNat % 16)] := by
  have hall : ∀ n < 256, List.replicate (2 - (Nat.toDigits 16 n).length) '0' ++ Nat.toDigits 16 n =
      [hexDigit (n / 16), hexDigit (n % 16)] := by decide +kernel
  exact hall v.toNat v.isLt

theorem toHex_eq (md : List Byte) : String.ofList (md.flatMap setw2) = toHex md := by
  rw [funext setw2_eq]
  rfl

/-- `verify` compares with the digest of the section, or with nothing. -/
theorem verify_eq (b : BundleSection) (expected : String) :
    verify (fun _ => false) b expected = .ok (expected ==
      if 0 < b.size ∧ (4096 ∣ b.size ∨ b.offset + b.size = b.file.length)
        then packBundleDigest b.bytes else "") := by
  obtain ⟨hrest, hsize, htoNat⟩ := b.rest_length
  have hhits : Hits b.size (b.file.drop b.offset).length ↔
      0 < b.size ∧ (4096 ∣ b.size ∨ b.offset + b.size = b.file.length) := by
    unfold Hits
    rw [size_eq_rest]
    tauto
  unfold verify
  rw [verifyLoop_eq hrest, htoNat]
  simp only [hhits]
  rfl

theorem verify_iff (b : BundleSection) (expected : String) :
    (verify (fun _ => false) b expected = .ok true ↔ expected = packBundleDigest b.bytes) ↔
      (0 < b.size ∧ (4096 ∣ b.size ∨ b.offset + b.size = b.file.length)) ∨
        (expected ≠ "" ∧ expected ≠ packBundleDigest b.bytes) := by
  have hne := packBundleDigest_ne b.bytes
  rw [verify_eq, Except.ok.injEq, beq_iff_eq]
  by_cases hhit : 0 < b.size ∧ (4096 ∣ b.size ∨ b.offset + b.size = b.file.length)
  · rw [if_pos hhit]
    exact iff_of_true Iff.rfl (.inl hhit)
  · rw [if_neg hhit]
    constructor
    · intro hiff
      refine .inr ⟨fun hempty => ?_, fun heq => ?_⟩
      · exact hne ((hiff.1 hempty).symm.trans hempty)
      · exact hne (heq.symm.trans (hiff.2 heq))
    · intro h
      obtain ⟨hempty, hother⟩ := h.resolve_left hhit
      exact ⟨fun h => absurd h hempty, fun h => absurd h hother⟩

/-- The first read of the header. -/
def firstRead (b : BundleSection) (n : Nat) : List Byte :=
  Calls.block n bufSize (b.file.drop b.offset)

/-- What the header returns depends on its first read. -/
theorem calculateDigest_eq (b : BundleSection) (limit : Nat → Nat) :
    calculateDigest (.short limit) b =
      if 0 < b.size ∧ (b.firstRead (limit 0)).length ≤ b.size
        then packBundleDigest b.bytes else toHex noDigest := by
  obtain ⟨hrest, hsize, htoNat⟩ := b.rest_length
  have hmd : ∀ md, digestLoop (.short limit) 0 (b.file.drop b.offset) (UInt64.ofNat b.size) bufSize
      .init = some md → calculateDigest (.short limit) b = toHex md := by
    intro md hmd
    show (match digestLoop (.short limit) 0 (b.file.drop b.offset) (UInt64.ofNat b.size) bufSize
      .init with
      | none => ""
      | some md => String.ofList (md.flatMap setw2)) = _
    rw [hmd]
    exact toHex_eq md
  by_cases hkept : (b.firstRead (limit 0)).length ≤ b.size
  · by_cases hpos : 0 < b.size
    · rw [if_pos ⟨hpos, hkept⟩]
      have hloop : digestLoop (.short limit) 0 (b.file.drop b.offset) (UInt64.ofNat b.size) bufSize
          (List.foldl .update .init []) =
          some (sha256Bytes ([].flatten ++ (b.file.drop b.offset).take
            (UInt64.ofNat b.size).toNat)) :=
        digestLoop_eq (by omega) (by omega) (by decide) (by rw [htoNat]; exact hkept)
      rw [htoNat] at hloop
      exact hmd _ hloop
    · -- there is nothing to read
      rw [if_neg fun h => hpos h.1]
      have hnil : b.firstRead (limit 0) = [] := List.eq_nil_of_length_eq_zero (by omega)
      refine hmd _ ?_
      rw [digestLoop_short]
      exact if_pos hnil
  · rw [if_neg fun h => hkept h.2]
    exact hmd _ (digestLoop_over hrest (by rw [htoNat]; exact Nat.lt_of_not_le hkept))

theorem calculateDigest_iff (b : BundleSection) :
    (∀ limit, calculateDigest (.short limit) b = packBundleDigest b.bytes) ↔
      (0 < b.size ∧ (4096 ≤ b.size ∨ b.offset + b.size = b.file.length)) ∨
        packBundleDigest b.bytes = toHex noDigest := by
  obtain ⟨-, hsize, -⟩ := b.rest_length
  have hread : ∀ n, (b.firstRead n).length =
      min (min (n + 1) 4096) (b.file.drop b.offset).length := fun n => List.length_take
  rw [← size_eq_rest]
  constructor
  · intro h
    by_cases hgood : 0 < b.size ∧ (4096 ≤ b.size ∨ b.size = (b.file.drop b.offset).length)
    · exact .inl hgood
    · -- a read of 4096 bytes goes beyond the section
      have hfull := h fun _ => 4095
      rw [calculateDigest_eq, if_neg] at hfull
      · exact .inr hfull.symm
      · rw [hread]
        omega
  · rintro (⟨hpos, hlong⟩ | hzero) limit
    · rw [calculateDigest_eq, if_pos]
      rw [hread]
      omega
    · rw [calculateDigest_eq, hzero, ite_self]

/-- Both readers agree with `packBundle` on the section, whatever digest is
    `expected`. -/
structure Agrees (b : BundleSection) (expected : String) : Prop where
  verify : verify (fun _ => false) b expected = .ok true ↔ expected = packBundleDigest b.bytes
  header : ∀ limit, calculateDigest (.short limit) b = packBundleDigest b.bytes

/-- **Agreement**: sections of whole blocks, and those at the end of the
    file; and otherwise, by accident, those whose digest is not the expected
    one (`verify`) or all zeros (the header). -/
theorem agrees_iff (b : BundleSection) (expected : String) : b.Agrees expected ↔
    ((0 < b.size ∧ (4096 ∣ b.size ∨ b.offset + b.size = b.file.length)) ∨
        (expected ≠ "" ∧ expected ≠ packBundleDigest b.bytes)) ∧
      ((0 < b.size ∧ (4096 ≤ b.size ∨ b.offset + b.size = b.file.length)) ∨
        packBundleDigest b.bytes = toHex noDigest) := by
  rw [← verify_iff, ← calculateDigest_iff]
  exact ⟨fun h => ⟨h.verify, h.header⟩, fun h => ⟨h.1, h.2⟩⟩

/-- A number in so many bytes, the lowest one first. -/
def littleEndian (width n : Nat) : List Byte :=
  (List.range width).map fun i => BitVec.ofNat 8 (n / 256 ^ i)

/-- `Elf64_Ehdr` of a file with three section headers. -/
def elfHeader (shoff : Nat) : List Byte :=
  [0x7f, 0x45, 0x4c, 0x46, 2, 1, 1, 0] ++ littleEndian 8 0 ++ littleEndian 2 2 ++
    littleEndian 2 62 ++ littleEndian 4 1 ++ littleEndian 8 0 ++ littleEndian 8 0 ++
    littleEndian 8 shoff ++ littleEndian 4 0 ++ littleEndian 2 64 ++ littleEndian 2 56 ++
    littleEndian 2 0 ++ littleEndian 2 64 ++ littleEndian 2 3 ++ littleEndian 2 2

/-- `Elf64_Shdr`, without flags, address, links and entries. -/
def sectionHeader (name type offset size align : Nat) : List Byte :=
  littleEndian 4 name ++ littleEndian 4 type ++ littleEndian 8 0 ++ littleEndian 8 0 ++
    littleEndian 8 offset ++ littleEndian 8 size ++ littleEndian 4 0 ++ littleEndian 4 0 ++
    littleEndian 8 align ++ littleEndian 8 0

/-- An ELF file with a bundle of one byte. Behind it are the names of the
    sections and their headers. -/
def oneByte : BundleSection where
  file := elfHeader 96 ++ [1] ++
    "\x00linglong.bundle\x00.shstrtab\x00".toList.map (fun c => BitVec.ofNat 8 c.toNat) ++
    littleEndian 4 0 ++ sectionHeader 0 0 0 0 0 ++ sectionHeader 1 1 64 1 1 ++
    sectionHeader 17 3 65 27 1
  offset := 64
  size := 1
  file_lt := by decide +kernel
  inside := by decide +kernel

/-- `verify` refuses the digest that `packBundle` wrote. -/
theorem not_agrees : ¬ ∀ (b : BundleSection) (expected : String), b.Agrees expected := by
  intro h
  have hverify := (verify_iff oneByte _).1 (h oneByte (packBundleDigest oneByte.bytes)).verify
  rcases hverify with ⟨-, haligned | hend⟩ | ⟨-, hne⟩
  · exact absurd haligned (by decide)
  · exact absurd hend (by decide +kernel)
  · exact hne rfl

end BundleSection

end Linglong

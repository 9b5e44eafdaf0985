import Linglong.Framework.Bytes
import Linglong.Framework.CallLoop

/-! # Extracting the Sign Data

    `UABFile::extractSignData` (`uab_file.cpp`) copies the section
    `linglong.bundle.sign` of a UAB into `sign.tar`: it seeks to the section,
    reads a block, writes it, and counts down the size of the section by what
    was written. The size and the offset come from the file itself.

    At the end of the file `read` returns 0, and writing nothing succeeds. A
    section that claims more bytes than the file has is copied for ever.

    1. The copy loop.
    2. What has been copied (`tar_of_ends`).
    3. When the loop ends.
    4. When it copies the section (`copiesSection_iff`).
-/

namespace Linglong

open Framework

namespace UABFile

/-! ## Section 1: The copy loop -/

/-- The fields of `GElf_Shdr` that are read. -/
structure SectionHeader where
  sh_offset : UInt64
  sh_size : UInt64

/-- The open UAB. `lseek` takes no offset beyond `maxOffset`; the offset is a
    signed number there. -/
structure OpenFile where
  bytes : List Byte
  position : Nat
  maxOffset : Nat
  bytes_le : bytes.length ≤ maxOffset
  maxOffset_lt : maxOffset < 2 ^ 63

/-- The position after `seek`. Its result is not looked at: after a failure
    the position is what it was. -/
def OpenFile.seek (file : OpenFile) (offset : UInt64) : Nat :=
  if offset.toNat ≤ file.maxOffset then offset.toNat else file.position

/-- `buf.size()`. -/
def blockSize : Nat := 4096

/-- The variables of the loop. `block` holds what was read while it is being
    written, `failed` the message of an error return. -/
structure Copy where
  position : Nat
  totalBytes : Nat
  tar : List Byte
  block : Option (List Byte)
  failed : Option String

def Copy.begin (position size : Nat) : Copy := ⟨position, size, [], none, none⟩

/-- An answer to `read`. -/
def Copy.onRead (file : List Byte) (c : Copy) : Answer → Copy
  | .interrupted => c
  | .failed => { c with failed := some "read from sign section error:" }
  | .upTo extra =>
      let bytesRead := if blockSize < c.totalBytes then blockSize else c.totalBytes
      let readBytes := (file.drop c.position).take ((Answer.upTo extra).count bytesRead)
      { c with position := c.position + readBytes.length, block := some readBytes }

/-- An answer to `write`. -/
def Copy.onWrite (c : Copy) (readBytes : List Byte) : Answer → Copy
  | .interrupted => c
  | .failed => { c with failed := some "write to sign.tar error:" }
  | .upTo extra =>
      let writeBytes := (Answer.upTo extra).count readBytes.length
      let c := { c with tar := c.tar ++ readBytes.take writeBytes }
      if writeBytes ≠ readBytes.length then
        { c with failed := some "write to sign.tar failed: byte mismatch" }
      else { c with totalBytes := c.totalBytes - writeBytes, block := none }

/-- The loop: its result is an error or the content of `sign.tar`. -/
def copyLoop (file : List Byte) : CallLoop Copy (Except String (List Byte)) where
  result c :=
    match c.failed, c.block with
    | some e, _ => some (.error e)
    | none, some _ => none
    | none, none => if c.totalBytes = 0 then some (.ok c.tar) else none
  next c a :=
    match c.block with
    | none => c.onRead file a
    | some readBytes => c.onWrite readBytes a

/-- The loop of `extractSignData`, before its first call. -/
def signCopy (file : OpenFile) (header : SectionHeader) : Copy :=
  .begin (file.seek header.sh_offset) header.sh_size.toNat

/-- The bytes of the section that the file has. -/
def OpenFile.sectionBytes (file : OpenFile) (header : SectionHeader) : List Byte :=
  (file.bytes.drop header.sh_offset.toNat).take header.sh_size.toNat

/-- The copy loop ends unless it is interrupted for ever, and if it ends
    without an error then `sign.tar` has the bytes of the section. -/
def CopiesSection (file : OpenFile) (header : SectionHeader) : Prop :=
  (∀ os, Fair os → ∃ r, (copyLoop file.bytes).Ends os (signCopy file header) r) ∧
    ∀ os tar, (copyLoop file.bytes).Ends os (signCopy file header) (.ok tar) →
      tar = file.sectionBytes header

/-! ## Section 2: What has been copied -/

variable {file : List Byte} {p size : Nat}

theorem result_eq_ok_iff {c : Copy} {tar : List Byte} :
    (copyLoop file).result c = some (.ok tar) ↔
      c.failed = none ∧ c.block = none ∧ c.totalBytes = 0 ∧ c.tar = tar := by
  unfold copyLoop
  cases hfailed : c.failed <;> cases hblock : c.block <;> simp [hfailed, hblock]

theorem result_eq_none_iff {c : Copy} :
    (copyLoop file).result c = none ↔
      c.failed = none ∧ (c.block = none → 0 < c.totalBytes) := by
  unfold copyLoop
  cases hfailed : c.failed <;> cases hblock : c.block <;> simp [hfailed, hblock, Nat.pos_iff_ne_zero]

/-- Without a message there is no error. -/
theorem result_ne_error {c : Copy} (hfailed : c.failed = none) (e : String) :
    (copyLoop file).result c ≠ some (.error e) := by
  unfold copyLoop
  cases hblock : c.block <;> simp [hfailed, hblock]

theorem result_of_failed {c : Copy} (hfailed : c.failed ≠ none) :
    ((copyLoop file).result c).isSome = true := by
  unfold copyLoop
  cases h : c.failed with
  | none => exact absurd h hfailed
  | some e => simp [h]

theorem next_reading {c : Copy} (hblock : c.block = none) (a : Answer) :
    (copyLoop file).next c a = c.onRead file a := by
  simp [copyLoop, hblock]

theorem next_writing {c : Copy} {b : List Byte} (hblock : c.block = some b) (a : Answer) :
    (copyLoop file).next c a = c.onWrite b a := by
  simp [copyLoop, hblock]

/-- `tar` and the block are what the file has from `p` to the position, and
    the counter is what is missing from `tar`. -/
structure Copied (file : List Byte) (p size : Nat) (c : Copy) : Prop where
  position : c.position = p + c.tar.length + (c.block.getD []).length
  bytes : c.tar ++ c.block.getD [] = (file.drop p).take (c.tar.length + (c.block.getD []).length)
  total : c.failed = none → c.totalBytes + c.tar.length = size
  fits : (c.block.getD []).length ≤ c.totalBytes

theorem copied_begin : Copied file p size (.begin p size) :=
  ⟨rfl, rfl, fun _ => rfl, Nat.zero_le _⟩

/-- What a read puts into the block. -/
theorem onRead_upTo (file : List Byte) (c : Copy) (extra : Nat) :
    ∃ m, m = min (extra + 1) (min blockSize c.totalBytes) ∧
      c.onRead file (.upTo extra) = { c with
        position := c.position + ((file.drop c.position).take m).length
        block := some ((file.drop c.position).take m) } := by
  refine ⟨_, rfl, ?_⟩
  have hmin : (if blockSize < c.totalBytes then blockSize else c.totalBytes) =
      min blockSize c.totalBytes := by
    split <;> omega
  unfold Copy.onRead
  simp only [hmin, Answer.count]

/-- Reading goes on at the position. -/
theorem Copied.read {c : Copy} (h : Copied file p size c) (hblock : c.block = none) (a : Answer) :
    Copied file p size (c.onRead file a) := by
  cases a with
  | interrupted => exact h
  | failed => exact ⟨h.position, h.bytes, fun hfailed => (by cases hfailed), h.fits⟩
  | upTo extra =>
    obtain ⟨hposition, hbytes, htotal, -⟩ := h
    -- before a read there is no block
    rw [hblock, Option.getD_none, List.length_nil, Nat.add_zero] at hposition hbytes
    rw [List.append_nil] at hbytes
    obtain ⟨m, hm, heq⟩ := onRead_upTo file c extra
    rw [heq]
    refine ⟨?_, ?_, htotal, ?_⟩
    · show c.position + _ = p + c.tar.length + _
      rw [hposition]
      rfl
    · show c.tar ++ (file.drop c.position).take m =
        (file.drop p).take (c.tar.length + ((file.drop c.position).take m).length)
      rw [List.take_add, ← hbytes, List.drop_drop, ← hposition, List.length_take,
        ← List.take_eq_take_min]
    · show ((file.drop c.position).take m).length ≤ c.totalBytes
      rw [List.length_take]
      omega

/-- What a write takes from the block. -/
theorem onWrite_upTo (c : Copy) (b : List Byte) (extra : Nat) :
    c.onWrite b (.upTo extra) =
      if min (extra + 1) b.length = b.length then
        { c with tar := c.tar ++ b, totalBytes := c.totalBytes - b.length, block := none }
      else
        { c with
          tar := c.tar ++ b.take (min (extra + 1) b.length)
          failed := some "write to sign.tar failed: byte mismatch" } := by
  by_cases hall : min (extra + 1) b.length = b.length
  · simp [Copy.onWrite, Answer.count, hall]
  · simp [Copy.onWrite, Answer.count, hall]

/-- A complete write moves the block to `tar`. -/
theorem Copied.write {c : Copy} (h : Copied file p size c) {b : List Byte}
    (hblock : c.block = some b) (a : Answer) :
    Copied file p size (c.onWrite b a) ∨ (c.onWrite b a).failed ≠ none := by
  cases a with
  | interrupted => exact .inl h
  | failed => exact .inr (by simp [Copy.onWrite])
  | upTo extra =>
    rw [onWrite_upTo]
    split
    · -- the bytes of the block are now those at the end of `tar`
      obtain ⟨hposition, hbytes, htotal, hfits⟩ := h
      rw [hblock, Option.getD_some] at hposition hbytes hfits
      refine .inl ⟨?_, ?_, ?_, Nat.zero_le _⟩
      · show c.position = p + (c.tar ++ b).length + 0
        rw [List.length_append]
        omega
      · show (c.tar ++ b) ++ [] = (file.drop p).take ((c.tar ++ b).length + 0)
        rw [List.append_nil, List.length_append, Nat.add_zero]
        exact hbytes
      · intro hfailed
        have hcount := htotal hfailed
        show c.totalBytes - b.length + (c.tar ++ b).length = size
        rw [List.length_append]
        omega
    · -- a short write is an error return
      exact .inr (by simp)

/-- **Run**: as long as no error is returned, the invariant holds. -/
theorem copied_stateAt (os : Nat → Answer) (i : Nat) :
    Copied file p size ((copyLoop file).stateAt os (.begin p size) i) ∨
      ((copyLoop file).stateAt os (.begin p size) i).failed ≠ none := by
  refine (copyLoop file).inv_stateAt (fun _ c => Copied file p size c ∨ c.failed ≠ none)
    (.inl copied_begin) (fun _ _ _ h => h) (fun i c hnone h => ?_) i
  have hfailed := (result_eq_none_iff.1 hnone).1
  have hcopied : Copied file p size c := by
    rcases h with h | h
    · exact h
    · exact absurd hfailed h
  cases hblock : c.block with
  | none =>
    rw [next_reading hblock]
    exact .inl (hcopied.read hblock (os i))
  | some b =>
    rw [next_writing hblock]
    exact hcopied.write hblock (os i)

/-- What is in `sign.tar` if there is no error: as many bytes as the section
    claims, from where reading began. -/
theorem tar_of_ends {os : Nat → Answer} {tar : List Byte}
    (h : (copyLoop file).Ends os (.begin p size) (.ok tar)) :
    tar = (file.drop p).take size ∧ tar.length = size := by
  obtain ⟨i, hi⟩ := h
  obtain ⟨hfailed, hblock, hzero, rfl⟩ := result_eq_ok_iff.1 hi
  rcases copied_stateAt os i with hcopied | hne
  · have htotal := hcopied.total hfailed
    have hbytes := hcopied.bytes
    rw [hblock, Option.getD_none, List.append_nil, List.length_nil, Nat.add_zero] at hbytes
    rw [hzero, Nat.zero_add] at htotal
    rw [htotal] at hbytes
    exact ⟨hbytes, htotal⟩
  · exact absurd hfailed hne

/-! ## Section 3: When the loop ends -/

/-- What is to be read is in the file, and a block is not empty. -/
structure Inside (file : List Byte) (c : Copy) : Prop where
  bytes : c.position + (c.totalBytes - (c.block.getD []).length) ≤ file.length
  fits : (c.block.getD []).length ≤ c.totalBytes
  pos : ∀ b, c.block = some b → 0 < b.length

/-- How far the loop is from its end: each byte is read and written. -/
def Copy.left (c : Copy) : Nat := 2 * c.totalBytes + if c.block.isNone then 1 else 0

theorem Inside.read {c : Copy} (h : Inside file c) (hblock : c.block = none)
    (hpos : 0 < c.totalBytes) (a : Answer) :
    Inside file (c.onRead file a) ∧ (a ≠ .interrupted →
      ((c.onRead file a).failed ≠ none ∨ (c.onRead file a).left < c.left)) := by
  cases a with
  | interrupted => exact ⟨h, fun hne => absurd rfl hne⟩
  | failed => exact ⟨⟨h.bytes, h.fits, h.pos⟩, fun _ => .inl (by simp [Copy.onRead])⟩
  | upTo extra =>
    obtain ⟨m, hm, heq⟩ := onRead_upTo file c extra
    have hbytes := h.bytes
    rw [hblock, Option.getD_none, List.length_nil, Nat.sub_zero] at hbytes
    -- the file has all the bytes that are asked for
    have hlength : ((file.drop c.position).take m).length = m := by
      rw [List.length_take, List.length_drop]
      omega
    have hone : 0 < m := by
      have : 0 < blockSize := by decide
      omega
    rw [heq]
    refine ⟨⟨?_, ?_, ?_⟩, fun _ => .inr ?_⟩
    · show c.position + _ + (c.totalBytes - ((file.drop c.position).take m).length) ≤ file.length
      rw [hlength]
      omega
    · show ((file.drop c.position).take m).length ≤ c.totalBytes
      omega
    · intro b hb
      cases hb
      omega
    · show 2 * c.totalBytes + 0 < c.left
      rw [Copy.left, hblock]
      show _ < 2 * c.totalBytes + 1
      omega

theorem Inside.write {c : Copy} (h : Inside file c) {b : List Byte} (hblock : c.block = some b)
    (a : Answer) :
    Inside file (c.onWrite b a) ∧ (a ≠ .interrupted →
      ((c.onWrite b a).failed ≠ none ∨ (c.onWrite b a).left < c.left)) := by
  cases a with
  | interrupted => exact ⟨h, fun hne => absurd rfl hne⟩
  | failed => exact ⟨⟨h.bytes, h.fits, h.pos⟩, fun _ => .inl (by simp [Copy.onWrite])⟩
  | upTo extra =>
    obtain ⟨hbytes, hfits, hpos⟩ := h
    have hb := hpos b hblock
    rw [onWrite_upTo]
    split
    · rw [hblock, Option.getD_some] at hbytes hfits
      refine ⟨⟨hbytes, Nat.zero_le _, fun b' hb' => by cases hb'⟩, fun _ => .inr ?_⟩
      -- the block was not empty
      show 2 * (c.totalBytes - b.length) + 1 < c.left
      rw [Copy.left, hblock]
      show _ < 2 * c.totalBytes + 0
      omega
    · exact ⟨⟨hbytes, hfits, hpos⟩, fun _ => .inl (by simp)⟩

/-- **Termination**: a section within the file is copied, or an error is
    returned. -/
theorem exists_ends_of_inside (hinside : p + size ≤ file.length) {os : Nat → Answer}
    (hfair : Fair os) : ∃ r, (copyLoop file).Ends os (.begin p size) r := by
  have hstep : ∀ c a, Inside file c → (copyLoop file).result c = none →
      Inside file ((copyLoop file).next c a) ∧ (a ≠ .interrupted →
        (((copyLoop file).next c a).failed ≠ none ∨ ((copyLoop file).next c a).left < c.left)) := by
    intro c a h hnone
    have hpos := (result_eq_none_iff.1 hnone).2
    cases hblock : c.block with
    | none =>
      rw [next_reading hblock]
      exact h.read hblock (hpos hblock) a
    | some b =>
      rw [next_writing hblock]
      exact h.write hblock a
  refine (copyLoop file).exists_ends (Inside file) Copy.left hfair ?_ ?_ ?_ ?_
  · exact ⟨hinside, Nat.zero_le _, fun b hb => (by cases hb)⟩
  · intro c a h hnone
    exact (hstep c a h hnone).1
  · intro c
    cases hblock : c.block with
    | none => exact next_reading hblock _
    | some b => exact next_writing hblock _
  · intro c a h hnone hne
    rcases (hstep c a h hnone).2 hne with hfailed | hless
    · -- an error return ends the loop
      exact .inl (result_of_failed hfailed)
    · exact .inr hless

/-- The pattern in which every call transfers all it is asked for. -/
def complete : Nat → Answer := fun _ => .upTo blockSize

theorem fair_complete : Fair complete := fun i => ⟨i, Nat.le_refl i, by simp [complete]⟩

/-- The file ends before the section does. -/
structure Beyond (file : List Byte) (c : Copy) : Prop where
  failed : c.failed = none
  more : 0 < c.totalBytes - (c.block.getD []).length
  short : (c.block.getD []).length ≤ blockSize
  beyond : file.length < c.position + (c.totalBytes - (c.block.getD []).length)

/-- **Divergence**: if the file ends before the section does, and no call
    fails, then the loop never ends. -/
theorem not_ends_of_beyond (hsize : 0 < size) (hbeyond : file.length < p + size)
    (r : Except String (List Byte)) : ¬ (copyLoop file).Ends complete (.begin p size) r := by
  have hstart : Beyond file (.begin p size) := ⟨rfl, hsize, Nat.zero_le _, hbeyond⟩
  refine (copyLoop file).not_ends (Beyond file) hstart ?_ ?_ r
  · intro i c ⟨hfailed, hmore, hshort, hpast⟩
    cases hblock : c.block with
    | none =>
      rw [hblock, Option.getD_none, List.length_nil] at hmore hpast
      obtain ⟨m, hm, heq⟩ := onRead_upTo file c blockSize
      rw [next_reading hblock, complete, heq]
      have hlength : ((file.drop c.position).take m).length = min m (file.length - c.position) := by
        rw [List.length_take, List.length_drop]
      -- the file does not have all that is left of the section
      refine ⟨hfailed, ?_, ?_, ?_⟩
      · show 0 < c.totalBytes - ((file.drop c.position).take m).length
        omega
      · show ((file.drop c.position).take m).length ≤ blockSize
        omega
      · show file.length < c.position + ((file.drop c.position).take m).length +
          (c.totalBytes - ((file.drop c.position).take m).length)
        omega
    | some b =>
      rw [hblock, Option.getD_some] at hmore hshort hpast
      have hall : min (blockSize + 1) b.length = b.length := by omega
      rw [next_writing hblock, complete, onWrite_upTo, if_pos hall]
      exact ⟨hfailed, hmore, Nat.zero_le _, hpast⟩
  · intro c ⟨hfailed, hmore, _, _⟩
    refine result_eq_none_iff.2 ⟨hfailed, fun _ => ?_⟩
    omega

/-! ## Section 4: When the section is copied -/

/-- Calls that transfer all they are asked for do not lead to an error. -/
theorem failed_complete (file : List Byte) (p size i : Nat) :
    ((copyLoop file).stateAt complete (.begin p size) i).failed = none := by
  have hnext : ∀ c, c.failed = none ∧ (c.block.getD []).length ≤ blockSize →
      ((copyLoop file).next c (.upTo blockSize)).failed = none ∧
        (((copyLoop file).next c (.upTo blockSize)).block.getD []).length ≤ blockSize := by
    intro c ⟨hfailed, hshort⟩
    cases hblock : c.block with
    | none =>
      obtain ⟨m, hm, heq⟩ := onRead_upTo file c blockSize
      rw [next_reading hblock, heq]
      refine ⟨hfailed, ?_⟩
      show ((file.drop c.position).take m).length ≤ blockSize
      rw [List.length_take]
      omega
    | some b =>
      -- a block fits into the buffer, so that all of it is written
      rw [hblock, Option.getD_some] at hshort
      have hall : min (blockSize + 1) b.length = b.length := by omega
      rw [next_writing hblock, onWrite_upTo, if_pos hall]
      exact ⟨hfailed, Nat.zero_le _⟩
  exact ((copyLoop file).inv_stateAt
    (fun _ c => c.failed = none ∧ (c.block.getD []).length ≤ blockSize)
    ⟨rfl, Nat.zero_le _⟩ (fun _ _ _ h => h) (fun _ c _ h => hnext c h) i).1

/-- **The section is copied** iff the file has all of it. -/
theorem copiesSection_iff (file : OpenFile) (header : SectionHeader) :
    CopiesSection file header ↔
      header.sh_size = 0 ∨ header.sh_offset.toNat + header.sh_size.toNat ≤ file.bytes.length := by
  have hzero : header.sh_size = 0 ↔ header.sh_size.toNat = 0 := UInt64.toNat_inj.symm
  rw [hzero]
  constructor
  · intro ⟨hends, hbytes⟩
    by_contra hnot
    rw [not_or] at hnot
    obtain ⟨hsize, hlong⟩ := hnot
    obtain ⟨r, hr⟩ := hends complete fair_complete
    -- the file ends before what is copied does, or the position is another one
    by_cases hbeyond : file.bytes.length < file.seek header.sh_offset + header.sh_size.toNat
    · exact not_ends_of_beyond (Nat.pos_of_ne_zero hsize) hbeyond r hr
    · -- the seek has failed, and something else is copied
      have hfar : ¬ header.sh_offset.toNat ≤ file.maxOffset := by
        intro hle
        rw [OpenFile.seek, if_pos hle] at hbeyond
        omega
      obtain ⟨i, hi⟩ := hr
      have hfailed := failed_complete file.bytes (file.seek header.sh_offset) header.sh_size.toNat i
      cases r with
      | error e => exact result_ne_error hfailed e hi
      | ok tar =>
        have hsection := hbytes complete tar ⟨i, hi⟩
        have htar := (tar_of_ends ⟨i, hi⟩).2
        have hempty : file.sectionBytes header = [] := by
          have := file.bytes_le
          rw [OpenFile.sectionBytes, List.drop_eq_nil_of_le (by omega), List.take_nil]
        rw [hsection, hempty] at htar
        exact hsize htar.symm
  · intro h
    rcases h with hsize | hinside
    · -- the loop ends before the first call
      have hzero : ∀ os, (copyLoop file.bytes).Ends os (signCopy file header) (.ok []) := by
        intro os
        refine ⟨0, ?_⟩
        show (copyLoop file.bytes).result (.begin _ header.sh_size.toNat) = _
        rw [hsize]
        rfl
      refine ⟨fun os _ => ⟨_, hzero os⟩, fun os tar htar => ?_⟩
      have hsame := (copyLoop file.bytes).ends_unique htar (hzero os)
      rw [OpenFile.sectionBytes, hsize, List.take_zero]
      exact Except.ok.inj hsame
    · have hseek : file.seek header.sh_offset = header.sh_offset.toNat := by
        have := file.bytes_le
        exact if_pos (by omega)
      refine ⟨fun os hfair => ?_, fun os tar htar => ?_⟩
      · rw [signCopy, hseek]
        exact exists_ends_of_inside hinside hfair
      · rw [signCopy, hseek] at htar
        exact (tar_of_ends htar).1

/-- **Counterexample**: a header claims four bytes at the end of the file. -/
theorem not_copiesSection : ¬ ∀ file header, CopiesSection file header := by
  intro h
  have hlength : (List.replicate 128 (0 : Byte)).length = 128 := List.length_replicate
  have hcopies := (copiesSection_iff ⟨List.replicate 128 0, 0, 128, Nat.le_of_eq hlength, by decide⟩
    ⟨128, 4⟩).1 (h _ _)
  rw [hlength] at hcopies
  revert hcopies
  decide

end UABFile

end Linglong

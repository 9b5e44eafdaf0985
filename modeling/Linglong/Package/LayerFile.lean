import Linglong.Framework.Bytes

/-! # Layer Files

    A layer file has a magic number of 40 bytes, the length of the meta
    information in four bytes, the meta information as JSON, and the data of
    the layer.

    `LayerFile` is a `QFile`, so it has a position that every read moves.
    `metaInfo` reads from where the position is. It caches the length, not
    the meta information: a second call reads the bytes behind it.

    What the JSON library writes and reads is a parameter.

    1. Writing and reading.
    2. What a sequence of calls returns (`answersRight_iff`).
-/

namespace Linglong

open Framework

/-! ## Section 1: Writing and reading -/

/-- `api::types::v1::LayerInfo`; `info` is any JSON value, given by its
    text. -/
structure LayerInfo where
  info : String
  version : String
  deriving DecidableEq

/-- `magicNumber`: the text, filled up to 40 bytes. -/
def magicNumber : List Byte :=
  ("<<< deepin linglong layer archive >>>".toList.map fun c => BitVec.ofNat 8 c.toNat) ++ [0, 0, 0]

/-- The JSON library: how it writes and reads a `LayerInfo`. -/
structure LayerJson where
  dump : LayerInfo → List Byte
  load : List Byte → Except String LayerInfo

/-- `LayerPackager::pack`; `payload` is what `mkfs.erofs` has produced. -/
def packLayer (json : LayerJson) (info : LayerInfo) (payload : List Byte) : List Byte :=
  let data := json.dump info
  magicNumber ++ leBytes 4 data.length ++ data ++ payload

/-- `package::LayerFile`: what the file has, where it is read, and the
    cached length. -/
structure LayerFile where
  content : List Byte
  pos : Nat
  metaInfoLengthValue : UInt32

namespace LayerFile

/-- What is still to be read. -/
def rest (f : LayerFile) : List Byte := f.content.drop f.pos

/-- `QIODevice::read`. -/
def read (f : LayerFile) (maxSize : Nat) : List Byte × LayerFile :=
  let data := f.rest.take maxSize
  (data, { f with pos := f.pos + data.length })

/-- `LayerFile::New`. -/
def new (content : List Byte) : Except String LayerFile :=
  match read ⟨content, 0, 0⟩ magicNumber.length with
  | (data, f) =>
      if data = magicNumber then .ok f
      else .error "invalid magic number, this is not a layer"

/-- `metaInfoLength`. A short read is undone, and the value is 0 then. -/
def metaInfoLength (f : LayerFile) : Except String UInt32 × LayerFile :=
  if f.metaInfoLengthValue > 0 then (.ok f.metaInfoLengthValue, f)
  else
    let (data, f') := f.read 4
    if data.length = 4 then
      (.ok (UInt32.ofNat (leValue data)),
        { f' with metaInfoLengthValue := UInt32.ofNat (leValue data) })
    else (.error "unknown error.", { f with metaInfoLengthValue := 0 })

/-- `metaInfo`. -/
def metaInfo (json : LayerJson) (f : LayerFile) : Except String LayerInfo × LayerFile :=
  match f.metaInfoLength with
  | (.error e, f) => (.error e, f)
  | (.ok n, f) =>
      let (rawData, f) := f.read n.toNat
      (json.load rawData, f)

/-- `binaryDataOffset`: an `int` and a `quint32` are added as `unsigned`,
    the result and a `size_t` as `size_t`, and then it has to fit a
    `quint32`. -/
def binaryDataOffset (f : LayerFile) : Except String UInt32 × LayerFile :=
  match f.metaInfoLength with
  | (.error e, f) => (.error e, f)
  | (.ok n, f) => (.ok ((UInt32.ofNat magicNumber.length + n).toUInt64 + 4).toUInt32, f)

/-- The calls of a client. -/
inductive Call where
  | metaInfo
  | binaryDataOffset
  deriving DecidableEq

/-- What a call returns. -/
inductive Answer where
  | info (result : Except String LayerInfo)
  | offset (result : Except String UInt32)

/-- One call. -/
def call (json : LayerJson) (f : LayerFile) : Call → Answer × LayerFile
  | .metaInfo =>
      let (result, f) := f.metaInfo json
      (.info result, f)
  | .binaryDataOffset =>
      let (result, f) := f.binaryDataOffset
      (.offset result, f)

/-- Call after call. -/
def answers (json : LayerJson) : List Call → LayerFile → List Answer
  | [], _ => []
  | c :: calls, f => (f.call json c).1 :: answers json calls (f.call json c).2

/-! ## Section 2: Round trips -/

/-- The answer for a file with this meta information, whose payload begins
    at `offset`. -/
def Answer.Right (info : LayerInfo) (offset : Nat) : Answer → Prop
  | .info result => result = .ok info
  | .offset result => ∃ n, result = .ok n ∧ n.toNat = offset

section Read

variable {f : LayerFile}

theorem rest_read (f : LayerFile) (n : Nat) : (f.read n).2.rest = f.rest.drop n := by
  show f.content.drop (f.pos + (f.rest.take n).length) = (f.content.drop f.pos).drop n
  rw [List.drop_drop, List.length_take]
  by_cases hn : n ≤ f.rest.length
  · rw [Nat.min_eq_left hn]
  · -- the end of the file was reached
    have hend : f.content.length ≤ f.pos + min n f.rest.length := by
      rw [rest, List.length_drop] at hn ⊢
      omega
    have hend' : f.content.length ≤ f.pos + n := by omega
    rw [List.drop_eq_nil_of_le hend, List.drop_eq_nil_of_le hend']

end Read

/-- Between two calls, in a file with these bytes behind a length of `n`:
    the length is still to be read, or it is known and `k` times as many
    bytes have been read. -/
inductive At (data : List Byte) (n k : Nat) (f : LayerFile) : Prop where
  | opened (length : f.metaInfoLengthValue = 0) (rest : f.rest = leBytes 4 n ++ data) (first : k = 0)
  | known (length : f.metaInfoLengthValue.toNat = n) (rest : f.rest = data.drop (k * n))

section Calls

variable {f : LayerFile} {data : List Byte} {n k : Nat}

/-- The length is read once. -/
theorem At.metaInfoLength (h : At data n k f) (hpos : 0 < n) (hn : n < 2 ^ 32) :
    ∃ f', f.metaInfoLength = (.ok (UInt32.ofNat n), f') ∧ f'.metaInfoLengthValue.toNat = n ∧
      f'.rest = data.drop (k * n) := by
  unfold LayerFile.metaInfoLength
  cases h with
  -- nothing has been read yet: the length is at the front of the rest
  | opened length rest first =>
    have hbytes : (f.read 4).1 = leBytes 4 n := by
      show f.rest.take 4 = _
      rw [rest, List.take_left' (length_leBytes 4 n)]
    have hvalue : leValue (f.read 4).1 = n := by
      rw [hbytes, leValue_leBytes]
      exact Nat.mod_eq_of_lt hn
    have hrest : (f.read 4).2.rest = data := by
      rw [rest_read, rest, List.drop_left' (length_leBytes 4 n)]
    refine ⟨{ (f.read 4).2 with metaInfoLengthValue := UInt32.ofNat n }, ?_, ?_, ?_⟩
    · rw [length, if_neg (by decide)]
      simp only [hvalue]
      rw [if_pos (by rw [hbytes, length_leBytes])]
    · exact UInt32.toNat_ofNat_of_lt hn
    · rw [first, Nat.zero_mul, List.drop_zero]
      exact hrest
  | known length rest =>
    have hlength : f.metaInfoLengthValue = UInt32.ofNat n := by
      rw [← length, UInt32.ofNat_toNat]
    -- the stored length is not zero, so it is not read again
    have hgt : f.metaInfoLengthValue > 0 := by
      rw [gt_iff_lt, UInt32.lt_iff_toNat_lt, length]
      exact hpos
    rw [if_pos hgt]
    exact ⟨f, by rw [hlength], length, rest⟩

/-- **Step**: `metaInfo` reads the next `n` bytes. -/
theorem At.metaInfo (h : At data n k f) (hpos : 0 < n) (hn : n < 2 ^ 32) (json : LayerJson) :
    (f.metaInfo json).1 = json.load ((data.drop (k * n)).take n) ∧
      At data n (k + 1) (f.metaInfo json).2 := by
  obtain ⟨f', hlength, hvalue, hrest⟩ := h.metaInfoLength hpos hn
  have htoNat : (UInt32.ofNat n).toNat = n := UInt32.toNat_ofNat_of_lt hn
  unfold LayerFile.metaInfo
  rw [hlength]
  simp only [htoNat]
  refine ⟨?_, .known hvalue ?_⟩
  · show json.load (f'.rest.take n) = _
    rw [hrest]
  · rw [rest_read, hrest, List.drop_drop]
    congr 1
    ring

/-- **Step**: `binaryDataOffset` moves nothing, and its sum is taken modulo
    `2 ^ 32`. -/
theorem At.binaryDataOffset (h : At data n k f) (hpos : 0 < n) (hn : n < 2 ^ 32) :
    (∃ offset, f.binaryDataOffset.1 = .ok offset ∧ offset.toNat = (44 + n) % 2 ^ 32) ∧
      At data n k f.binaryDataOffset.2 := by
  obtain ⟨f', hlength, hvalue, hrest⟩ := h.metaInfoLength hpos hn
  unfold LayerFile.binaryDataOffset
  rw [hlength]
  refine ⟨⟨_, rfl, ?_⟩, .known hvalue hrest⟩
  have hmagic : UInt32.ofNat magicNumber.length = 40 := by decide
  rw [hmagic]
  have htoNat : (UInt32.ofNat n).toNat = n := UInt32.toNat_ofNat_of_lt hn
  have h40 : (40 : UInt32).toNat = 40 := rfl
  have h4 : (4 : UInt64).toNat = 4 := rfl
  simp only [UInt64.toNat_toUInt32, UInt64.toNat_add, UInt32.toNat_toUInt64, UInt32.toNat_add]
  rw [htoNat, h40, h4]
  omega

/-- **Run**: which answers are right, from any point on. -/
theorem At.answers_iff {info : LayerInfo} (h : At data n k f) (hpos : 0 < n)
    (hn : n < 2 ^ 32) (json : LayerJson) (calls : List Call) :
    (∀ answer ∈ answers json calls f, answer.Right info (44 + n)) ↔
      (.binaryDataOffset ∈ calls → 44 + n < 2 ^ 32) ∧
        ∀ i < calls.count .metaInfo, json.load ((data.drop ((k + i) * n)).take n) = .ok info := by
  induction calls generalizing f k with
  | nil => simp [answers]
  | cons c calls ih =>
    rw [answers, List.forall_mem_cons]
    cases c with
    | metaInfo =>
      obtain ⟨hload, hnext⟩ := h.metaInfo hpos hn json
      have hfirst : (f.call json .metaInfo).1.Right info (44 + n) ↔
          json.load ((data.drop (k * n)).take n) = .ok info := by
        rw [← hload]
        rfl
      have hrest := ih (k := k + 1) (f := (f.call json .metaInfo).2) hnext
      rw [hfirst, hrest, List.count_cons_self]
      -- the i-th of the later answers is the next one from here
      have hlater : ∀ i, (k + 1 + i) * n = (k + (i + 1)) * n := fun i => by ring
      simp only [hlater, List.mem_cons, reduceCtorEq, false_or]
      constructor
      · rintro ⟨hk, hoffset, hinfos⟩
        refine ⟨hoffset, fun i hi => ?_⟩
        cases i with
        | zero => simpa using hk
        | succ i => exact hinfos i (by omega)
      · rintro ⟨hoffset, hinfos⟩
        refine ⟨?_, hoffset, fun i hi => hinfos (i + 1) (by omega)⟩
        simpa using hinfos 0 (by omega)
    | binaryDataOffset =>
      obtain ⟨⟨offset, hoffset, hvalue⟩, hnext⟩ := h.binaryDataOffset hpos hn
      have hfirst : (f.call json .binaryDataOffset).1.Right info (44 + n) ↔ 44 + n < 2 ^ 32 := by
        show (∃ v, f.binaryDataOffset.1 = .ok v ∧ v.toNat = 44 + n) ↔ _
        rw [hoffset]
        simp only [Except.ok.injEq, exists_eq_left', hvalue]
        omega
      have hrest := ih (f := (f.call json .binaryDataOffset).2) hnext
      -- an offset reads nothing of the data
      rw [hfirst, hrest, List.count_cons_of_ne (by decide)]
      constructor
      · rintro ⟨hfits, -, hinfos⟩
        exact ⟨fun _ => hfits, hinfos⟩
      · rintro ⟨hfits, hinfos⟩
        exact ⟨hfits (by simp), fun _ => hfits (by simp), hinfos⟩

end Calls

theorem length_magicNumber : magicNumber.length = 40 := by decide

theorem packLayer_eq (json : LayerJson) (info : LayerInfo) (payload : List Byte) :
    packLayer json info payload =
      magicNumber ++ (leBytes 4 (json.dump info).length ++ (json.dump info ++ payload)) := by
  simp [packLayer]

/-- A packed file can be opened. -/
theorem new_packLayer (json : LayerJson) (info : LayerInfo) (payload : List Byte) :
    ∃ f, LayerFile.new (packLayer json info payload) = .ok f ∧
      At (json.dump info ++ payload) (json.dump info).length 0 f := by
  have hread : (read ⟨packLayer json info payload, 0, 0⟩ magicNumber.length).1 = magicNumber := by
    show (packLayer json info payload).take magicNumber.length = _
    rw [packLayer_eq, List.take_left]
  refine ⟨(read ⟨packLayer json info payload, 0, 0⟩ magicNumber.length).2, ?_,
    .opened rfl ?_ rfl⟩
  · unfold LayerFile.new
    exact if_pos hread
  · rw [rest_read]
    show (packLayer json info payload).drop magicNumber.length = _
    rw [packLayer_eq, List.drop_left]

/-- Where the payload begins. -/
theorem payload_offset (json : LayerJson) (info : LayerInfo) (payload : List Byte) :
    (packLayer json info payload).length - payload.length = 44 + (json.dump info).length := by
  rw [packLayer_eq]
  simp only [List.length_append, length_magicNumber, length_leBytes]
  omega

/-- **The round trip** of a layer file: the first `metaInfo` is right, later
    ones only if the payload repeats the meta information, and the offset
    has to fit 32 bits. -/
theorem answersRight_iff {json : LayerJson} {info : LayerInfo} {payload : List Byte}
    (hpos : 0 < (json.dump info).length) (hfits : (json.dump info).length < 2 ^ 32)
    (hload : json.load (json.dump info) = .ok info) (calls : List Call) :
    ∃ f, LayerFile.new (packLayer json info payload) = .ok f ∧
      ((∀ answer ∈ answers json calls f,
          answer.Right info ((packLayer json info payload).length - payload.length)) ↔
        (.binaryDataOffset ∈ calls → 44 + (json.dump info).length < 2 ^ 32) ∧
          ∀ i, i + 1 < calls.count .metaInfo →
            json.load ((payload.drop (i * (json.dump info).length)).take
              (json.dump info).length) = .ok info) := by
  obtain ⟨f, hopen, hat⟩ := new_packLayer json info payload
  refine ⟨f, hopen, ?_⟩
  rw [payload_offset, hat.answers_iff hpos hfits json calls]
  refine and_congr_right fun _ => ?_
  -- from the second call on, the payload is read
  have hlater : ∀ i, (json.dump info ++ payload).drop ((i + 1) * (json.dump info).length) =
      payload.drop (i * (json.dump info).length) := by
    intro i
    rw [Nat.add_one_mul, Nat.add_comm, ← List.drop_drop, List.drop_left]
  constructor
  · intro hinfos i hi
    have hnext := hinfos (i + 1) hi
    rwa [Nat.zero_add, hlater] at hnext
  · intro hinfos i hi
    cases i with
    | zero =>
      rw [Nat.zero_add, Nat.zero_mul, List.drop_zero, List.take_left]
      exact hload
    | succ i =>
      rw [Nat.zero_add, hlater]
      exact hinfos i hi

/-- The JSON of a `LayerInfo`, as bytes. -/
def noteText (info : LayerInfo) : List Byte :=
  ("\x7b\"info\":" ++ info.info ++ ",\"version\":\"" ++ info.version ++ "\"\x7d").toList.map
    fun c => BitVec.ofNat 8 c.toNat

def noteInfo : LayerInfo := ⟨"null", "1"⟩

/-- A library that reads back what it has written for `noteInfo`. -/
def noteJson : LayerJson where
  dump := noteText
  load := fun text => if text = noteText noteInfo then .ok noteInfo else .error "parse error"

theorem load_noteText : noteJson.load (noteJson.dump noteInfo) = .ok noteInfo := by
  simp [noteJson]

theorem length_noteText : 0 < (noteJson.dump noteInfo).length ∧
    44 + (noteJson.dump noteInfo).length < 2 ^ 32 := by decide

/-- The length may be asked for again and again, the meta information once. -/
theorem answersRight_note : ∃ f, LayerFile.new (packLayer noteJson noteInfo [1, 2, 3]) = .ok f ∧
    ∀ answer ∈ answers noteJson [.binaryDataOffset, .metaInfo, .binaryDataOffset] f,
      answer.Right noteInfo
        ((packLayer noteJson noteInfo [1, 2, 3]).length - [1, 2, 3].length) := by
  obtain ⟨hpos, hfits⟩ := length_noteText
  obtain ⟨f, hopen, hright⟩ := answersRight_iff hpos (by omega) load_noteText
    [.binaryDataOffset, .metaInfo, .binaryDataOffset]
  refine ⟨f, hopen, hright.2 ⟨fun _ => hfits, fun i hi => ?_⟩⟩
  have hone : List.count Call.metaInfo [.binaryDataOffset, .metaInfo, .binaryDataOffset] = 1 := rfl
  omega

/-- The second time `metaInfo` reads the payload. -/
theorem not_answersRight : ¬ ∀ (json : LayerJson) (info : LayerInfo) (payload : List Byte),
    0 < (json.dump info).length → (json.dump info).length < 2 ^ 32 →
    json.load (json.dump info) = .ok info → ∀ calls,
    ∃ f, LayerFile.new (packLayer json info payload) = .ok f ∧
      ∀ answer ∈ answers json calls f,
        answer.Right info ((packLayer json info payload).length - payload.length) := by
  intro h
  obtain ⟨hpos, hfits⟩ := length_noteText
  obtain ⟨f, hopen, hat⟩ := new_packLayer noteJson noteInfo []
  obtain ⟨f', hopen', hright⟩ := h noteJson noteInfo [] hpos (by omega) load_noteText
    [.metaInfo, .metaInfo]
  rw [hopen] at hopen'
  cases hopen'
  rw [payload_offset, hat.answers_iff hpos (by omega)] at hright
  have hsecond := hright.2 1 (by decide)
  rw [List.append_nil, Nat.zero_add, Nat.one_mul, List.drop_length, List.take_nil] at hsecond
  have hempty : ([] : List Byte) ≠ noteText noteInfo := by simp [noteText]
  simp [noteJson, hempty] at hsecond

end LayerFile

end Linglong

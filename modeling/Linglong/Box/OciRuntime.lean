import Mathlib.Algebra.Group.Int.Defs
import Mathlib.Algebra.Group.Nat.Defs
import Mathlib.Data.List.Basic
import Linglong.Box.HostMount

/-! # Reading the OCI Configuration

    The configuration of `ll-box` is read from JSON (`util/oci_runtime.h`).
    `from_json` of a mount sorts its options into flags and data, with three
    tables; numbers are read with the type of the default value.

    1. What is used of `nlohmann::json`.
    2. Mounts (`parsesRight_iff`).
    3. Numbers (`roundTrips_iff`).
-/

namespace Linglong.Box

/-! ## Section 1: `nlohmann::json` -/

/-- How a `from_json` ends early: with an exception, or with no defined
    behaviour. -/
inductive JsonExit where
  | exception (what : String)
  | undefined
  deriving DecidableEq

/-- What is used of `nlohmann::json`: a number is stored with the type it
    comes in and converted to the type that is asked for, as by
    `static_cast`. -/
structure Nlohmann (J : Type) where
  ofInt64 : Int64 → J
  ofUInt64 : UInt64 → J
  getInt : J → Except JsonExit Int32
  getString : J → Except JsonExit String
  getStrVec : J → Except JsonExit (List String)
  getInt_ofInt64 : ∀ n, getInt (ofInt64 n) = .ok n.toInt32
  getInt_ofUInt64 : ∀ n, getInt (ofUInt64 n) = .ok n.toInt64.toInt32

/-- A JSON object. -/
abbrev Obj (J : Type) := List (String × J)

/-- `j.at(key).get<T>()`. -/
def Obj.at' {J T : Type} (j : Obj J) (key : String) (get : J → Except JsonExit T) :
    Except JsonExit T :=
  match j.lookup key with
  | some value => get value
  | none => .error (.exception "out_of_range")

/-- `j.value(key, default_value)`. -/
def Obj.value {J T : Type} (j : Obj J) (key : String) (get : J → Except JsonExit T)
    (defaultValue : T) : Except JsonExit T :=
  match j.lookup key with
  | some value => get value
  | none => .ok defaultValue

/-- Numbers, texts and lists of texts. -/
inductive PlainJson where
  | integer (n : Int64)
  | unsigned (n : UInt64)
  | text (s : String)
  | texts (l : List String)
  deriving DecidableEq

def plainJson : Nlohmann PlainJson where
  ofInt64 := .integer
  ofUInt64 := .unsigned
  getInt
    | .integer n => .ok n.toInt32
    | .unsigned n => .ok n.toInt64.toInt32
    | _ => .error (.exception "type_error")
  getString
    | .text s => .ok s
    | _ => .error (.exception "type_error")
  getStrVec
    | .texts l => .ok l
    | _ => .error (.exception "type_error")
  getInt_ofInt64 _ := rfl
  getInt_ofUInt64 _ := rfl

/-! ## Section 2: Mounts -/

def MS_SYNCHRONOUS : UInt32 := 16
def MS_MANDLOCK : UInt32 := 64
def MS_DIRSYNC : UInt32 := 128
def MS_NOATIME : UInt32 := 1024
def MS_NODIRATIME : UInt32 := 2048
def MS_SILENT : UInt32 := 32768
def MS_POSIXACL : UInt32 := 65536
def MS_RELATIME : UInt32 := 2097152
def MS_I_VERSION : UInt32 := 8388608
def MS_STRICTATIME : UInt32 := 16777216
def MS_LAZYTIME : UInt32 := 33554432

def fsTypes : List (String × FsType) :=
  [("bind", .bind), ("proc", .proc), ("devpts", .devpts), ("mqueue", .mqueue), ("tmpfs", .tmpfs),
    ("sysfs", .sysfs), ("cgroup", .cgroup), ("cgroup2", .cgroup2)]

structure MountFlag where
  clear : Bool
  flag : UInt32
  deriving DecidableEq

def optionFlags : List (String × MountFlag) :=
  [("acl", ⟨false, MS_POSIXACL⟩),
    ("async", ⟨true, MS_SYNCHRONOUS⟩),
    ("atime", ⟨true, MS_NOATIME⟩),
    ("bind", ⟨false, MS_BIND⟩),
    ("defaults", ⟨false, 0⟩),
    ("dev", ⟨true, MS_NODEV⟩),
    ("diratime", ⟨true, MS_NODIRATIME⟩),
    ("dirsync", ⟨false, MS_DIRSYNC⟩),
    ("exec", ⟨true, MS_NOEXEC⟩),
    ("iversion", ⟨false, MS_I_VERSION⟩),
    ("lazytime", ⟨false, MS_LAZYTIME⟩),
    ("loud", ⟨true, MS_SILENT⟩),
    ("mand", ⟨false, MS_MANDLOCK⟩),
    ("noacl", ⟨true, MS_POSIXACL⟩),
    ("noatime", ⟨false, MS_NOATIME⟩),
    ("nodev", ⟨false, MS_NODEV⟩),
    ("nodiratime", ⟨false, MS_NODIRATIME⟩),
    ("noexec", ⟨false, MS_NOEXEC⟩),
    ("noiversion", ⟨true, MS_I_VERSION⟩),
    ("nolazytime", ⟨true, MS_LAZYTIME⟩),
    ("nomand", ⟨true, MS_MANDLOCK⟩),
    ("norelatime", ⟨true, MS_RELATIME⟩),
    ("nostrictatime", ⟨true, MS_STRICTATIME⟩),
    ("nosuid", ⟨false, MS_NOSUID⟩),
    ("nosymfollow", ⟨false, LINGLONG_MS_NOSYMFOLLOW⟩),
    ("rbind", ⟨false, MS_BIND ||| MS_REC⟩),
    ("relatime", ⟨false, MS_RELATIME⟩),
    ("remount", ⟨false, MS_REMOUNT⟩),
    ("ro", ⟨false, MS_RDONLY⟩),
    ("rw", ⟨true, MS_RDONLY⟩),
    ("silent", ⟨false, MS_SILENT⟩),
    ("strictatime", ⟨false, MS_STRICTATIME⟩),
    ("suid", ⟨true, MS_NOSUID⟩),
    ("sync", ⟨false, MS_SYNCHRONOUS⟩)]

def propagationFlags : List (String × UInt32) :=
  [("rprivate", MS_PRIVATE ||| MS_REC), ("private", MS_PRIVATE),
    ("rslave", MS_SLAVE ||| MS_REC), ("slave", MS_SLAVE),
    ("rshared", MS_SHARED ||| MS_REC), ("shared", MS_SHARED),
    ("runbindable", MS_UNBINDABLE ||| MS_REC), ("unbindable", MS_UNBINDABLE)]

def extensionFlags : List (String × MountFlag) := [("copy-symlink", ⟨false, COPY_SYMLINK⟩)]

/-- A flag is cleared or set. -/
def MountFlag.apply (f : MountFlag) (flags : UInt32) : UInt32 :=
  if f.clear then flags &&& ~~~f.flag else flags ||| f.flag

/-- The flag of an option, unless it is 0. -/
def flagOf (opt : String) : Option MountFlag :=
  (optionFlags.lookup opt).filter fun f => f.flag ≠ 0

/-- One option. -/
def parseOption (o : Mount) (opt : String) : Mount :=
  match flagOf opt with
  | some f => { o with flags := f.apply o.flags }
  | none =>
      match propagationFlags.lookup opt with
      | some flag => { o with propagationFlags := o.propagationFlags ||| flag }
      | none =>
          match extensionFlags.lookup opt with
          | some f => { o with extensionFlags := f.apply o.extensionFlags }
          | none => { o with data := o.data ++ [opt] }

/-- `fsTypes.find(type)->second`. Behind the end of the map is no element. -/
def findFsType (type : String) : Except JsonExit FsType :=
  match fsTypes.lookup type with
  | some fsType => .ok fsType
  | none => .error .undefined

/-- The flags before the options are read. -/
def initialFlags (fsType : FsType) : UInt32 := if fsType = .bind then MS_BIND else 0

variable {J : Type} (json : Nlohmann J)

/-- `from_json` of a `Mount`. -/
def mountFromJson (j : Obj J) : Except JsonExit Mount := do
  let destination ← j.at' "destination" json.getString
  let type ← j.at' "type" json.getString
  let fsType ← findFsType type
  let source ← j.at' "source" json.getString
  let options ← j.value "options" json.getStrVec []
  .ok (options.foldl parseOption
    ⟨destination, type, source, [], fsType, initialFlags fsType, 0, 0⟩)

/-- A bit of some flags. -/
def bit (flags : UInt32) (i : Nat) : Bool := flags.toBitVec.getLsbD i

/-- What an option makes of a bit, if it sets or clears it. -/
def effect (i : Nat) (opt : String) : Option Bool :=
  (optionFlags.lookup opt).bind fun f => if bit f.flag i then some (!f.clear) else none

/-- An option that is in one of the tables. -/
def Known (opt : String) : Prop :=
  (optionFlags.lookup opt).isSome ∨ (propagationFlags.lookup opt).isSome ∨
    (extensionFlags.lookup opt).isSome

instance (opt : String) : Decidable (Known opt) :=
  inferInstanceAs (Decidable (_ ∨ _ ∨ _))

/-- What `options` should become. -/
structure OptionsParsed (options : List String) (initial : UInt32) (o : Mount) : Prop where
  flags : ∀ i, bit o.flags i = ((options.filterMap (effect i)).getLast?).getD (bit initial i)
  propagation : ∀ i, bit o.propagationFlags i = true ↔
    ∃ opt ∈ options, ∃ flag, propagationFlags.lookup opt = some flag ∧ bit flag i = true
  extension : ∀ i, bit o.extensionFlags i = true ↔
    ∃ opt ∈ options, ∃ f, extensionFlags.lookup opt = some f ∧ bit f.flag i = true
  data : o.data = options.filter fun opt => ¬ Known opt

/-- What should come of a mount with these fields. -/
def ParsesRight (destination type source : String) (options : List String)
    (result : Except JsonExit Mount) : Prop :=
  match fsTypes.lookup type with
  | none => ∃ what, result = .error (.exception what)
  | some fsType => ∃ o, result = .ok o ∧ o.destination = destination ∧ o.type = type ∧
      o.source = source ∧ o.fsType = fsType ∧ OptionsParsed options (initialFlags fsType) o

/-! ### One option -/

theorem mem_of_lookup {β : Type} {l : List (String × β)} {key : String} {v : β}
    (h : l.lookup key = some v) : (key, v) ∈ l := by
  obtain ⟨before, after, rfl, -⟩ := List.lookup_eq_some_iff.1 h
  simp

theorem bit_apply (f : MountFlag) (flags : UInt32) (i : Nat) :
    bit (f.apply flags) i = if bit f.flag i then !f.clear else bit flags i := by
  unfold MountFlag.apply bit
  by_cases hlt : i < 32
  · cases hclear : f.clear with
    | true =>
      rw [if_pos rfl, UInt32.toBitVec_and, UInt32.toBitVec_not, BitVec.getLsbD_and,
        BitVec.getLsbD_not]
      cases f.flag.toBitVec.getLsbD i <;> simp [hlt]
    | false =>
      rw [if_neg Bool.false_ne_true, UInt32.toBitVec_or, BitVec.getLsbD_or]
      cases f.flag.toBitVec.getLsbD i <;> simp
  · have hout : ∀ flags : UInt32, flags.toBitVec.getLsbD i = false :=
      fun flags => BitVec.getLsbD_of_ge _ _ (by omega)
    simp [hout]

theorem bit_zero (i : Nat) : bit 0 i = false := by
  unfold bit
  simp

theorem bit_or (a b : UInt32) (i : Nat) : bit (a ||| b) i = (bit a i || bit b i) := by
  unfold bit
  simp

/-- An option without a flag does nothing to the bits. -/
theorem effect_eq (i : Nat) (opt : String) :
    effect i opt = (flagOf opt).bind fun f => if bit f.flag i then some (!f.clear) else none := by
  unfold effect flagOf
  cases optionFlags.lookup opt with
  | none => rfl
  | some f =>
    by_cases hzero : f.flag = 0
    · rw [Option.filter_some_neg (by simp [hzero]), Option.bind_some, hzero, bit_zero]
      rfl
    · rw [Option.filter_some_pos (by simp [hzero])]

/-- The tables have no option in common. -/
theorem flagOf_of_propagation {opt : String} {flag : UInt32}
    (h : propagationFlags.lookup opt = some flag) : flagOf opt = none := by
  have hall : ∀ e ∈ propagationFlags, optionFlags.lookup e.1 = none := by decide
  unfold flagOf
  rw [hall _ (mem_of_lookup h)]
  rfl

theorem flagOf_of_extension {opt : String} {f : MountFlag}
    (h : extensionFlags.lookup opt = some f) :
    flagOf opt = none ∧ propagationFlags.lookup opt = none ∧ f.clear = false := by
  have hall : ∀ e ∈ extensionFlags, optionFlags.lookup e.1 = none ∧
      propagationFlags.lookup e.1 = none ∧ e.2.clear = false := by decide
  obtain ⟨hoption, hpropagation, hclear⟩ := hall _ (mem_of_lookup h)
  unfold flagOf
  rw [hoption]
  exact ⟨rfl, hpropagation, hclear⟩

/-- The options of the first table that set or clear nothing. -/
theorem flagOf_eq_none_iff {opt : String} :
    flagOf opt = none ↔ optionFlags.lookup opt = none ∨ opt = "defaults" := by
  have hall : ∀ e ∈ optionFlags, e.2.flag = 0 → e.1 = "defaults" := by decide
  constructor
  · intro hnone
    cases hlookup : optionFlags.lookup opt with
    | none => exact .inl rfl
    | some f =>
      refine .inr (hall _ (mem_of_lookup hlookup) ?_)
      by_contra hne
      unfold flagOf at hnone
      rw [hlookup, Option.filter_some_pos (by simp [hne])] at hnone
      cases hnone
  · rintro (hlookup | rfl)
    · unfold flagOf
      rw [hlookup]
      rfl
    · decide

/-- An option that becomes data. -/
def isData (opt : String) : Bool :=
  (flagOf opt).isNone && (propagationFlags.lookup opt).isNone && (extensionFlags.lookup opt).isNone

theorem isData_iff {opt : String} : isData opt = true ↔ ¬ Known opt ∨ opt = "defaults" := by
  unfold isData Known
  simp only [Bool.and_eq_true, Option.isNone_iff_eq_none, flagOf_eq_none_iff, not_or,
    Option.not_isSome_iff_eq_none]
  constructor
  · rintro ⟨⟨hoption | hdefaults, hpropagation⟩, hextension⟩
    · exact .inl ⟨hoption, hpropagation, hextension⟩
    · exact .inr hdefaults
  · rintro (⟨hoption, hpropagation, hextension⟩ | rfl)
    · exact ⟨⟨.inl hoption, hpropagation⟩, hextension⟩
    · decide

/-- What the options do not change. -/
def fixedFields (o : Mount) : String × String × String × FsType :=
  (o.destination, o.type, o.source, o.fsType)

theorem fixedFields_parseOption (o : Mount) (opt : String) :
    fixedFields (parseOption o opt) = fixedFields o := by
  unfold parseOption
  cases flagOf opt with
  | some f => rfl
  | none =>
    cases propagationFlags.lookup opt with
    | some flag => rfl
    | none => cases extensionFlags.lookup opt <;> rfl

theorem flags_parseOption (o : Mount) (opt : String) (i : Nat) :
    bit (parseOption o opt).flags i = (effect i opt).getD (bit o.flags i) := by
  rw [effect_eq, parseOption]
  cases flagOf opt with
  | some f =>
    rw [Option.bind_some]
    show bit (f.apply o.flags) i = _
    rw [bit_apply]
    cases bit f.flag i <;> rfl
  | none =>
    cases propagationFlags.lookup opt with
    | some flag => rfl
    | none => cases extensionFlags.lookup opt <;> rfl

theorem propagation_parseOption (o : Mount) (opt : String) (i : Nat) :
    bit (parseOption o opt).propagationFlags i = true ↔ bit o.propagationFlags i = true ∨
      ∃ flag, propagationFlags.lookup opt = some flag ∧ bit flag i = true := by
  cases hlookup : propagationFlags.lookup opt with
  | some flag =>
    rw [parseOption, flagOf_of_propagation hlookup, hlookup]
    show bit (o.propagationFlags ||| flag) i = true ↔ _
    simp [bit_or]
  | none =>
    have hsame : (parseOption o opt).propagationFlags = o.propagationFlags := by
      rw [parseOption, hlookup]
      cases flagOf opt with
      | some f => rfl
      | none => cases extensionFlags.lookup opt <;> rfl
    simp [hsame]

theorem extension_parseOption (o : Mount) (opt : String) (i : Nat) :
    bit (parseOption o opt).extensionFlags i = true ↔ bit o.extensionFlags i = true ∨
      ∃ f, extensionFlags.lookup opt = some f ∧ bit f.flag i = true := by
  cases hlookup : extensionFlags.lookup opt with
  | some f =>
    obtain ⟨hflag, hpropagation, hclear⟩ := flagOf_of_extension hlookup
    rw [parseOption, hflag, hpropagation, hlookup]
    show bit (f.apply o.extensionFlags) i = true ↔ _
    rw [bit_apply, hclear]
    cases hbit : bit f.flag i <;> simp [hbit]
  | none =>
    have hsame : (parseOption o opt).extensionFlags = o.extensionFlags := by
      rw [parseOption, hlookup]
      cases flagOf opt with
      | some f => rfl
      | none => cases propagationFlags.lookup opt <;> rfl
    simp [hsame]

theorem data_parseOption (o : Mount) (opt : String) :
    (parseOption o opt).data = o.data ++ [opt].filter isData := by
  rw [List.filter_singleton, isData, parseOption]
  cases flagOf opt with
  | some f => simp
  | none =>
    cases propagationFlags.lookup opt with
    | some flag => simp
    | none => cases extensionFlags.lookup opt <;> simp

/-! ### All options -/

section Options

variable (options : List String) (o : Mount)

theorem fixedFields_foldl : fixedFields (options.foldl parseOption o) = fixedFields o := by
  induction options generalizing o with
  | nil => rfl
  | cons opt options ih => rw [List.foldl_cons, ih, fixedFields_parseOption]

/-- **Flags**: of the options that set or clear a bit, the last one counts. -/
theorem flags_foldl (i : Nat) :
    bit (options.foldl parseOption o).flags i =
      ((options.filterMap (effect i)).getLast?).getD (bit o.flags i) := by
  induction options generalizing o with
  | nil => rfl
  | cons opt options ih =>
    rw [List.foldl_cons, ih, flags_parseOption]
    cases heffect : effect i opt with
    | none => rw [List.filterMap_cons_none heffect, Option.getD_none]
    | some b =>
      rw [List.filterMap_cons_some heffect, List.getLast?_cons, Option.getD_some, Option.getD_some]

theorem propagation_foldl (i : Nat) :
    bit (options.foldl parseOption o).propagationFlags i = true ↔
      bit o.propagationFlags i = true ∨
        ∃ opt ∈ options, ∃ flag, propagationFlags.lookup opt = some flag ∧ bit flag i = true := by
  induction options generalizing o with
  | nil => simp
  | cons opt options ih =>
    rw [List.foldl_cons, ih, propagation_parseOption, or_assoc, List.exists_mem_cons_iff]

theorem extension_foldl (i : Nat) :
    bit (options.foldl parseOption o).extensionFlags i = true ↔
      bit o.extensionFlags i = true ∨
        ∃ opt ∈ options, ∃ f, extensionFlags.lookup opt = some f ∧ bit f.flag i = true := by
  induction options generalizing o with
  | nil => simp
  | cons opt options ih =>
    rw [List.foldl_cons, ih, extension_parseOption, or_assoc, List.exists_mem_cons_iff]

theorem data_foldl : (options.foldl parseOption o).data = o.data ++ options.filter isData := by
  induction options generalizing o with
  | nil => simp
  | cons opt options ih =>
    rw [List.foldl_cons, ih, data_parseOption, List.append_assoc, ← List.filter_append,
      List.singleton_append]

/-- Data is right unless `defaults` is an option. -/
theorem filter_isData_iff :
    options.filter isData = (options.filter fun opt => ¬ Known opt) ↔ "defaults" ∉ options := by
  constructor
  · intro heq hmem
    have hdata : "defaults" ∈ options.filter isData :=
      List.mem_filter.2 ⟨hmem, isData_iff.2 (.inr rfl)⟩
    rw [heq] at hdata
    exact absurd (List.mem_filter.1 hdata).2 (by decide)
  · intro hno
    refine List.filter_congr fun opt hopt => ?_
    have hne : opt ≠ "defaults" := fun heq => hno (heq ▸ hopt)
    rw [Bool.eq_iff_iff, isData_iff]
    simp [hne]

end Options

/-- The fields of a mount. -/
theorem mountFromJson_eq {j : Obj J} {destination type source : String} {options : List String}
    (hdestination : j.at' "destination" json.getString = .ok destination)
    (htype : j.at' "type" json.getString = .ok type)
    (hsource : j.at' "source" json.getString = .ok source)
    (hoptions : j.value "options" json.getStrVec [] = .ok options) :
    mountFromJson json j =
      match fsTypes.lookup type with
      | none => .error .undefined
      | some fsType => .ok (options.foldl parseOption
          ⟨destination, type, source, [], fsType, initialFlags fsType, 0, 0⟩) := by
  unfold mountFromJson findFsType
  rw [hdestination, htype, hsource, hoptions]
  simp only [bind, Except.bind]
  cases fsTypes.lookup type <;> rfl

/-- **Mounts** are read as they should be iff the type is known and `defaults`
    is not an option. -/
theorem parsesRight_iff {j : Obj J} {destination type source : String} {options : List String}
    (hdestination : j.at' "destination" json.getString = .ok destination)
    (htype : j.at' "type" json.getString = .ok type)
    (hsource : j.at' "source" json.getString = .ok source)
    (hoptions : j.value "options" json.getStrVec [] = .ok options) :
    ParsesRight destination type source options (mountFromJson json j) ↔
      type ∈ fsTypes.map Prod.fst ∧ "defaults" ∉ options := by
  rw [mountFromJson_eq json hdestination htype hsource hoptions, ParsesRight]
  cases hlookup : fsTypes.lookup type with
  | none =>
    have hnot : type ∉ fsTypes.map Prod.fst := by
      intro hmem
      obtain ⟨e, he, rfl⟩ := List.mem_map.1 hmem
      exact absurd (List.lookup_eq_none_iff.1 hlookup e he) (by simp)
    simp [hnot]
  | some fsType =>
    have hmem : type ∈ fsTypes.map Prod.fst :=
      List.mem_map.2 ⟨_, mem_of_lookup hlookup, rfl⟩
    have hfixed := fixedFields_foldl options
      ⟨destination, type, source, [], fsType, initialFlags fsType, 0, 0⟩
    simp only [fixedFields, Prod.mk.injEq] at hfixed
    obtain ⟨hd, ht, hs, hf⟩ := hfixed
    constructor
    · rintro ⟨o, heq, -, -, -, -, hparsed⟩
      cases heq
      refine ⟨hmem, (filter_isData_iff options).1 ?_⟩
      rw [← hparsed.data, data_foldl]
      rfl
    · rintro ⟨-, hno⟩
      refine ⟨_, rfl, hd, ht, hs, hf, ?_, ?_, ?_, ?_⟩
      · exact fun i => flags_foldl options _ i
      · intro i
        rw [propagation_foldl, bit_zero]
        simp
      · intro i
        rw [extension_foldl, bit_zero]
        simp
      · rw [data_foldl, (filter_isData_iff options).2 hno]
        rfl

/-- A `tmpfs` on `/dev`. -/
def devMount (options : List String) : Obj PlainJson :=
  [("destination", .text "/dev"), ("type", .text "tmpfs"), ("source", .text "tmpfs"),
    ("options", .texts options)]

theorem parsesRight_devMount :
    ParsesRight "/dev" "tmpfs" "tmpfs" ["nosuid", "mode=755"]
      (mountFromJson plainJson (devMount ["nosuid", "mode=755"])) :=
  (parsesRight_iff plainJson rfl rfl rfl rfl).2 (by decide)

/-- `defaults` is passed on as data. -/
theorem not_parsesRight : ¬ ∀ (j : Obj PlainJson) (destination type source : String)
    (options : List String), j.at' "destination" plainJson.getString = .ok destination →
    j.at' "type" plainJson.getString = .ok type → j.at' "source" plainJson.getString = .ok source →
    j.value "options" plainJson.getStrVec [] = .ok options →
    ParsesRight destination type source options (mountFromJson plainJson j) := by
  intro h
  obtain ⟨o, heq, -, -, -, -, hparsed⟩ :=
    h (devMount ["defaults"]) "/dev" "tmpfs" "tmpfs" ["defaults"] rfl rfl rfl rfl
  have hrun : mountFromJson plainJson (devMount ["defaults"]) =
      .ok ⟨"/dev", "tmpfs", "tmpfs", ["defaults"], .tmpfs, 0, 0, 0⟩ := by decide
  rw [hrun] at heq
  cases heq
  exact absurd hparsed.data (by decide)

/-! ## Section 3: Numbers -/

structure IDMap where
  containerID : UInt64
  hostID : UInt64
  size : UInt64
  deriving DecidableEq

structure ResourceMemory where
  limit : Int64
  reservation : Int64
  swap : Int64
  deriving DecidableEq

structure ResourceCPU where
  shares : UInt64
  quota : Int64
  period : UInt64
  deriving DecidableEq

/-- An `int` becomes an `int64_t`, and an `uint64_t`. -/
def toUnsigned (n : Int32) : UInt64 := n.toInt64.toUInt64

/-- `from_json` of an `IDMap`. The default values have the type `int`. -/
def IDMap.fromJson (j : Obj J) : Except JsonExit IDMap := do
  let hostID ← j.value "hostID" json.getInt 0
  let containerID ← j.value "containerID" json.getInt 0
  let size ← j.value "size" json.getInt 0
  .ok ⟨toUnsigned containerID, toUnsigned hostID, toUnsigned size⟩

def IDMap.toJson (o : IDMap) : Obj J :=
  [("hostID", json.ofUInt64 o.hostID), ("containerID", json.ofUInt64 o.containerID),
    ("size", json.ofUInt64 o.size)]

def ResourceMemory.fromJson (j : Obj J) : Except JsonExit ResourceMemory := do
  let limit ← j.value "limit" json.getInt (-1)
  let reservation ← j.value "reservation" json.getInt (-1)
  let swap ← j.value "swap" json.getInt (-1)
  .ok ⟨limit.toInt64, reservation.toInt64, swap.toInt64⟩

def ResourceMemory.toJson (o : ResourceMemory) : Obj J :=
  [("limit", json.ofInt64 o.limit), ("reservation", json.ofInt64 o.reservation),
    ("swap", json.ofInt64 o.swap)]

def ResourceCPU.fromJson (j : Obj J) : Except JsonExit ResourceCPU := do
  let shares ← j.value "shares" json.getInt 1024
  let quota ← j.value "quota" json.getInt 100000
  let period ← j.value "period" json.getInt 100000
  .ok ⟨toUnsigned shares, quota.toInt64, toUnsigned period⟩

def ResourceCPU.toJson (o : ResourceCPU) : Obj J :=
  [("shares", json.ofUInt64 o.shares), ("quota", json.ofInt64 o.quota),
    ("period", json.ofUInt64 o.period)]

/-- The number is in the range of `int`. -/
def FitsInt (n : Int64) : Prop := -2 ^ 31 ≤ n.toInt ∧ n.toInt < 2 ^ 31

/-- An unsigned number is in this range, or comes back with the sign. -/
def FitsUnsigned (n : UInt64) : Prop := n.toNat < 2 ^ 31 ∨ 2 ^ 64 - 2 ^ 31 ≤ n.toNat

theorem toInt64_toInt32_iff (n : Int64) : n.toInt32.toInt64 = n ↔ FitsInt n := by
  unfold FitsInt
  rw [← Int64.toInt_inj, Int32.toInt_toInt64, Int64.toInt_toInt32, Int.bmod_def]
  split <;> omega

theorem toUnsigned_toInt32_iff (n : UInt64) :
    toUnsigned n.toInt64.toInt32 = n ↔ FitsUnsigned n := by
  have hsame : toUnsigned n.toInt64.toInt32 = n ↔ n.toInt64.toInt32.toInt64 = n.toInt64 := by
    unfold toUnsigned
    constructor
    · intro h
      have h' := congrArg UInt64.toInt64 h
      rwa [Int64.toInt64_toUInt64] at h'
    · intro h
      rw [h, UInt64.toUInt64_toInt64]
  have hlt : n.toNat < 2 ^ 64 := n.toNat_lt
  have hvalue : n.toInt64.toInt = (n.toNat : Int).bmod (2 ^ 64) :=
    BitVec.toInt_eq_toNat_bmod n.toBitVec
  rw [hsame, toInt64_toInt32_iff, FitsInt, FitsUnsigned, hvalue, Int.bmod_def]
  -- the upper half of the range is negative for the type that is signed
  split <;> omega

theorem idMap_iff (o : IDMap) :
    IDMap.fromJson json (o.toJson json) = .ok o ↔
      FitsUnsigned o.containerID ∧ FitsUnsigned o.hostID ∧ FitsUnsigned o.size := by
  have hread : IDMap.fromJson json (o.toJson json) =
      .ok ⟨toUnsigned o.containerID.toInt64.toInt32, toUnsigned o.hostID.toInt64.toInt32,
        toUnsigned o.size.toInt64.toInt32⟩ := by
    simp [IDMap.fromJson, IDMap.toJson, Obj.value, List.lookup_cons, json.getInt_ofUInt64, bind,
      Except.bind]
  obtain ⟨containerID, hostID, size⟩ := o
  rw [hread]
  simp only [Except.ok.injEq, IDMap.mk.injEq, toUnsigned_toInt32_iff]

theorem resourceMemory_iff (o : ResourceMemory) :
    ResourceMemory.fromJson json (o.toJson json) = .ok o ↔
      FitsInt o.limit ∧ FitsInt o.reservation ∧ FitsInt o.swap := by
  have hread : ResourceMemory.fromJson json (o.toJson json) =
      .ok ⟨o.limit.toInt32.toInt64, o.reservation.toInt32.toInt64, o.swap.toInt32.toInt64⟩ := by
    simp [ResourceMemory.fromJson, ResourceMemory.toJson, Obj.value, List.lookup_cons,
      json.getInt_ofInt64, bind, Except.bind]
  obtain ⟨limit, reservation, swap⟩ := o
  rw [hread]
  simp only [Except.ok.injEq, ResourceMemory.mk.injEq, toInt64_toInt32_iff]

theorem resourceCPU_iff (o : ResourceCPU) :
    ResourceCPU.fromJson json (o.toJson json) = .ok o ↔
      FitsUnsigned o.shares ∧ FitsInt o.quota ∧ FitsUnsigned o.period := by
  have hread : ResourceCPU.fromJson json (o.toJson json) =
      .ok ⟨toUnsigned o.shares.toInt64.toInt32, o.quota.toInt32.toInt64,
        toUnsigned o.period.toInt64.toInt32⟩ := by
    simp [ResourceCPU.fromJson, ResourceCPU.toJson, Obj.value, List.lookup_cons,
      json.getInt_ofInt64, json.getInt_ofUInt64, bind, Except.bind]
  obtain ⟨shares, quota, period⟩ := o
  rw [hread]
  simp only [Except.ok.injEq, ResourceCPU.mk.injEq, toInt64_toInt32_iff, toUnsigned_toInt32_iff]

/-- **Numbers** come back iff each of them is in the range of `int`, with the
    sign for those that have none. -/
theorem roundTrips_numbers_iff :
    (∀ o : IDMap, IDMap.fromJson json (o.toJson json) = .ok o ↔
      FitsUnsigned o.containerID ∧ FitsUnsigned o.hostID ∧ FitsUnsigned o.size) ∧
    (∀ o : ResourceMemory, ResourceMemory.fromJson json (o.toJson json) = .ok o ↔
      FitsInt o.limit ∧ FitsInt o.reservation ∧ FitsInt o.swap) ∧
    (∀ o : ResourceCPU, ResourceCPU.fromJson json (o.toJson json) = .ok o ↔
      FitsUnsigned o.shares ∧ FitsInt o.quota ∧ FitsUnsigned o.period) :=
  ⟨idMap_iff json, resourceMemory_iff json, resourceCPU_iff json⟩

/-- A limit of 2 GiB is read as a negative number. -/
theorem not_roundTrips_numbers : ¬ ∀ o : ResourceMemory,
    ResourceMemory.fromJson plainJson (o.toJson plainJson) = .ok o := by
  intro h
  have hlimit := h ⟨2147483648, -1, -1⟩
  exact absurd hlimit (by decide)

end Linglong.Box

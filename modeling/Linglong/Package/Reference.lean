import Linglong.Framework.Separator
import Linglong.Package.Version

/-! # References

    A `Reference` names one version of a package for one architecture:
    `channel:id/version/architecture`. A `FuzzyReference` may leave out
    everything but the id. `PackageInfoV2` is the content of a layer's
    `info.json`, cut down to the fields the repository and the package
    manager read.
-/

namespace Linglong

open Framework

/-! ## Section 1: Package information -/

/-- `api::types::v1::PackageInfoV2`. -/
structure PackageInfoV2 where
  arch : List String
  base : String
  channel : String
  id : String
  kind : String
  packageInfoV2Module : String
  runtime : Option String
  uuid : Option String
  version : String
  deriving DecidableEq

/-- A module of an app on the channel `main`. -/
def PackageInfoV2.onMain (id version module : String) : PackageInfoV2 where
  arch := ["x86_64"]
  base := "org.base/1.0.0.0"
  channel := "main"
  id := id
  kind := "app"
  packageInfoV2Module := module
  runtime := none
  uuid := none
  version := version

/-! ## Section 2: Reference -/

/-- `package::Reference`; the constructor rejects an empty channel or id. -/
structure Reference where
  channel : String
  id : String
  version : Version
  arch : Architecture
  channel_ne : channel ≠ ""
  id_ne : id ≠ ""
  deriving DecidableEq

namespace Reference

/-- `Reference::create`. -/
def create (channel id : String) (version : Version) (arch : Architecture) :
    Except String Reference :=
  if hc : channel = "" then .error "empty channel"
  else if hi : id = "" then .error "empty id"
  else .ok ⟨channel, id, version, arch, hc, hi⟩

/-- Version `1.0.patch.0` of a package on the channel `main`. -/
def onMain (id : String) (patch : Nat) (hid : id ≠ "") : Reference :=
  ⟨"main", id, ⟨1, 0, patch, some 0⟩, .x86_64, by decide, hid⟩

/-- `Reference::toString`. -/
def toString (ref : Reference) : String :=
  ref.channel ++ ":" ++ ref.id ++ "/" ++ ref.version.toString ++ "/" ++ ref.arch.toString

/-- `Reference::fromPackageInfo`: the version needs its tweak. -/
def fromPackageInfo (info : PackageInfoV2) : Except String Reference := do
  let version ← Version.parse info.version
  if version.tweak.isNone then .error "version .tweak is required"
  else
    let arch ← Architecture.parse (info.arch.headD "")
    create info.channel info.id version arch

theorem create_eq_ok_iff {channel id : String} {version : Version} {arch : Architecture}
    {ref : Reference} : create channel id version arch = .ok ref ↔
      ref.channel = channel ∧ ref.id = id ∧ ref.version = version ∧ ref.arch = arch := by
  unfold create
  constructor
  · intro h
    split at h
    · cases h
    split at h
    · cases h
    · cases h
      exact ⟨rfl, rfl, rfl, rfl⟩
  · intro ⟨hchannel, hid, hversion, harch⟩
    subst hchannel hid hversion harch
    rw [dif_neg ref.channel_ne, dif_neg ref.id_ne]

/-- What a layer's `info.json` has to say to name a reference. -/
theorem fromPackageInfo_ok {info : PackageInfoV2} {ref : Reference}
    (h : fromPackageInfo info = .ok ref) :
    Version.parse info.version = .ok ref.version ∧
      Architecture.parse (info.arch.headD "") = .ok ref.arch ∧
      ref.channel = info.channel ∧ ref.id = info.id := by
  unfold fromPackageInfo at h
  simp only [bind_eq_ok_iff, ite_error_eq_ok_iff, create_eq_ok_iff] at h
  obtain ⟨version, hversion, -, arch, harch, hchannel, hid, hver, harch'⟩ := h
  rw [hver, harch']
  exact ⟨hversion, harch, hchannel, hid⟩

/-- Captured groups of a reference expression. -/
structure Captured where
  channel : String
  id : String
  version : String
  architecture : String

/-- The unanchored expression
    `([^:]+):([^/]+)/([^/]+)/([^/]+)`, tried at the start of `cs`. Every
    group is greedy and ends at the first separator. -/
def matchHere (cs : List Char) : Option Captured :=
  match cs.span (· ≠ ':') with
  | (channel, _ :: cs) =>
      match cs.span (· ≠ '/') with
      | (id, _ :: cs) =>
          match cs.span (· ≠ '/') with
          | (version, _ :: cs) =>
              let architecture := cs.takeWhile (· ≠ '/')
              if channel = [] ∨ id = [] ∨ version = [] ∨ architecture = [] then none
              else some ⟨.ofList channel, .ofList id, .ofList version, .ofList architecture⟩
          | (_, []) => none
      | (_, []) => none
  | (_, []) => none

/-- `Reference::parse`: the leftmost match. -/
def parse (raw : String) : Except String Reference :=
  match raw.toList.tails.findSome? matchHere with
  | none => .error "regexp mismatched."
  | some m => do
      let version ← Version.parse m.version
      let arch ← Architecture.parse m.architecture
      create m.channel m.id version arch

/-! ### Reading what was printed -/

/-- A text of four parts is split at its separators. -/
theorem matchHere_append {channel id version architecture : List Char}
    (hchannel : ':' ∉ channel) (hid : '/' ∉ id) (hversion : '/' ∉ version)
    (harchitecture : '/' ∉ architecture) (hchannel' : channel ≠ []) (hid' : id ≠ [])
    (hversion' : version ≠ []) (harchitecture' : architecture ≠ []) :
    matchHere (channel ++ ':' :: (id ++ '/' :: (version ++ '/' :: architecture))) =
      some ⟨.ofList channel, .ofList id, .ofList version, .ofList architecture⟩ := by
  have hlast : architecture.takeWhile (· ≠ '/') = architecture :=
    takeWhile_of_not_mem harchitecture
  unfold matchHere
  rw [span_append_of_not_mem hchannel]
  simp only
  rw [span_append_of_not_mem hid]
  simp only
  rw [span_append_of_not_mem hversion]
  simp only [hlast, hchannel', hid', hversion', harchitecture', or_self, if_false]

/-- The parts that are found have no separators and are not empty. -/
theorem matchHere_spec {cs : List Char} {m : Captured} (h : matchHere cs = some m) :
    (':' ∉ m.channel.toList ∧ '/' ∉ m.id.toList) ∧ m.channel ≠ "" ∧ m.id ≠ "" := by
  have hspan : ∀ (a : Char) (l : List Char), a ∉ (l.span (· ≠ a)).1 := by
    intro a l hmem
    rw [List.span_eq_takeWhile_dropWhile] at hmem
    simpa using List.mem_takeWhile_imp hmem
  unfold matchHere at h
  split at h
  · next channel _ cs₁ hchannel =>
    split at h
    · next id _ cs₂ hid =>
      split at h
      · simp only at h
        split at h
        · cases h
        · next hne =>
          cases h
          have h₁ := hspan ':' cs
          have h₂ := hspan '/' cs₁
          rw [hchannel] at h₁
          rw [hid] at h₂
          simp only [not_or] at hne
          exact ⟨by simpa using ⟨h₁, h₂⟩, by simpa using hne.1, by simpa using hne.2.1⟩
      · cases h
    · cases h
  · cases h

theorem parse_spec {raw : String} {ref : Reference} (h : parse raw = .ok ref) :
    ':' ∉ ref.channel.toList ∧ '/' ∉ ref.id.toList := by
  unfold parse at h
  split at h
  · cases h
  · next m hmatch =>
    obtain ⟨cs, -, hhere⟩ := List.exists_of_findSome?_eq_some hmatch
    simp only [bind_eq_ok_iff, create_eq_ok_iff] at h
    obtain ⟨version, -, arch, -, hchannel, hid, -⟩ := h
    rw [hchannel, hid]
    exact (matchHere_spec hhere).1

/-- What the expression finds in the text of a reference. -/
theorem findSome?_toString {ref : Reference} (hchannel : ':' ∉ ref.channel.toList)
    (hid : '/' ∉ ref.id.toList) :
    ref.toString.toList.tails.findSome? matchHere =
      some ⟨ref.channel, ref.id, ref.version.toString, ref.arch.toString⟩ := by
  have hnot : '/' ∉ ref.version.toString.toList := by
    intro hmem
    rcases Version.isDigit_or_dot hmem with hdigit | hdot
    · exact absurd hdigit (by decide)
    · exact absurd hdot (by decide)
  have harch' : '/' ∉ ref.arch.toString.toList ∧ ref.arch.toString.toList ≠ [] := by
    cases ref.arch <;> decide
  have htext : ref.toString.toList = ref.channel.toList ++ ':' :: (ref.id.toList ++ '/' ::
      (ref.version.toString.toList ++ '/' :: ref.arch.toString.toList)) := by
    simp [toString]
  have hhere := matchHere_append hchannel hid hnot harch'.1
    (by simpa using ref.channel_ne) (by simpa using ref.id_ne)
    ref.version.toString_ne_empty harch'.2
  rw [← htext] at hhere
  cases hlist : ref.toString.toList with
  | nil => simp [hlist] at htext
  | cons c cs =>
    rw [hlist] at hhere
    rw [List.tails, List.findSome?_cons, hhere]
    simp

/-- Reading back the text of a reference. -/
theorem parse_toString {ref : Reference} (hchannel : ':' ∉ ref.channel.toList)
    (hid : '/' ∉ ref.id.toList) (hversion : Version.parse ref.version.toString = .ok ref.version)
    (harch : Architecture.parse ref.arch.toString = .ok ref.arch) :
    parse ref.toString = .ok ref := by
  unfold parse
  rw [findSome?_toString hchannel hid]
  refine bind_eq_ok_iff.2 ⟨ref.version, hversion, ?_⟩
  refine bind_eq_ok_iff.2 ⟨ref.arch, harch, ?_⟩
  exact create_eq_ok_iff.2 ⟨rfl, rfl, rfl, rfl⟩

end Reference

/-! ## Section 3: Fuzzy reference -/

/-- `package::FuzzyReference`. -/
structure FuzzyReference where
  channel : Option String
  id : String
  version : Option Version
  arch : Option Architecture
  channel_ne : channel ≠ some ""
  id_ne : id ≠ ""
  deriving DecidableEq

namespace FuzzyReference

/-- `FuzzyReference::create`. -/
def create (channel : Option String) (id : String) (version : Option Version)
    (arch : Option Architecture) : Except String FuzzyReference :=
  if hc : channel = some "" then .error "empty channel"
  else if hi : id = "" then .error "empty id"
  else .ok ⟨channel, id, version, arch, hc, hi⟩

/-- An absent field is empty or spelled `unknown`. -/
def present (text : String) : Option String :=
  if text = "" ∨ text = "unknown" then none else some text

/-- The anchored expression `^(?:([^:]*):)?([^/]*)(?:/([^/]*)(?:/([^/]*))?)?$`:
    the channel ends at the first colon, the rest has at most three parts. -/
def captures (raw : String) : Option (String × List String) :=
  let (channel, rest) :=
    match raw.toList.span (· ≠ ':') with
    | (channel, _ :: rest) => (channel, rest)
    | (all, []) => ([], all)
  let parts := rest.splitOn '/'
  if parts.length ≤ 3 then some (.ofList channel, parts.map .ofList) else none

/-- `FuzzyReference::parse`. -/
def parse (raw : String) : Except String FuzzyReference :=
  match captures raw with
  | none => .error "regexp mismatched."
  | some (channel, parts) => do
      let version ← (present (parts.getD 1 "")).mapM Version.parse
      let arch ← (present (parts.getD 2 "")).mapM Architecture.parse
      create (present channel) (parts.getD 0 "") version arch

/-- `FuzzyReference::toString`. -/
def toString (f : FuzzyReference) : String :=
  f.channel.getD "unknown" ++ ":" ++ f.id ++ "/" ++
    (f.version.map Version.toString).getD "unknown" ++ "/" ++
    (f.arch.map Architecture.toString).getD "unknown"

example : (parse "main:org.deepin.base/23.1.0").map toString =
    .ok "main:org.deepin.base/23.1.0/unknown" := by decide

end FuzzyReference

end Linglong

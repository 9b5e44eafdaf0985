import Linglong.Package.VersionOrder
import Linglong.PackageManager.PruneSafety

/-! # Which Version Is Found Locally

    `clearReferenceLocal` takes the first matching item of a list that
    `queryLayerItem` has sorted by the texts of the versions, so it finds
    the greatest text: `1.9.0.0` comes before `1.10.0.0`. The newest version
    is found iff the greatest text is the newest version.

    `listLocalLatest`, which answers the same question for lists, compares
    numbers.

    1. The items that match, and the newest of them.
    2. When the newest is found (`clearReferenceLocal_newest_iff`).
-/

namespace Linglong

open RepositoryCacheLayersItem

namespace Repo

/-! ## Section 1: Candidates -/

/-- An item that matches the fuzzy reference. -/
def Candidate (s : Repo) (fuzzy : FuzzyReference) (item : RepositoryCacheLayersItem) : Prop :=
  item ∈ s.layers ∧ item.info.id = fuzzy.id ∧ Compatible fuzzy.version item

/-- The version is that of a candidate, and no candidate has a newer one. -/
def IsNewest (s : Repo) (fuzzy : FuzzyReference) (version : Version) : Prop :=
  (∃ item, s.Candidate fuzzy item ∧ Version.parse item.info.version = .ok version) ∧
    ∀ item, s.Candidate fuzzy item → ∀ v, Version.parse item.info.version = .ok v →
      version.lt v = false

/-- A candidate with the greatest text has the newest version. -/
def TextsAgree (s : Repo) (fuzzy : FuzzyReference) : Prop :=
  ∀ item, s.Candidate fuzzy item →
    (∀ b, s.Candidate fuzzy b → ¬ item.info.version < b.info.version) →
    ∀ version, Version.parse item.info.version = .ok version →
    ∀ b, s.Candidate fuzzy b → ∀ v, Version.parse b.info.version = .ok v → version.lt v = false

/-- With all four numbers given, there is nothing to choose. -/
theorem textsAgree_of_tweak {s : Repo} {fuzzy : FuzzyReference} {wanted : Version}
    (hwanted : fuzzy.version = some wanted) (htweak : wanted.tweak.isSome = true) :
    s.TextsAgree fuzzy := by
  have hexact : ∀ b, s.Candidate fuzzy b → ∀ v, Version.parse b.info.version = .ok v →
      v = wanted := by
    intro b hb v hparse
    obtain ⟨-, -, -, v', hparse', hmatch⟩ := hb
    rw [hparse] at hparse'
    cases hparse'
    have hsome : wanted.tweak.isNone = false := by
      rw [← Option.not_isSome, htweak]
      rfl
    rw [hwanted, versionMatches, hsome] at hmatch
    exact (Version.eq_iff v wanted).1 hmatch
  intro item hitem _ version hversion b hb v hv
  rw [hexact item hitem version hversion, hexact b hb v hv, ← Bool.not_eq_true, Version.lt_iff]
  exact lt_irrefl _

/-! ## Section 2: What is found -/

/-- The reference that is found comes from a candidate with the greatest
    text. -/
theorem clearReferenceLocal_candidate {s : Repo} {fuzzy : FuzzyReference} {ref : Reference}
    (h : s.clearReferenceLocal fuzzy = .ok ref) :
    ∃ item, s.Candidate fuzzy item ∧ Version.parse item.info.version = .ok ref.version ∧
      ∀ b, s.Candidate fuzzy b → ¬ item.info.version < b.info.version := by
  obtain ⟨-, hsearch⟩ := clearReferenceLocal_ok_iff.1 h
  obtain ⟨item, hfind, href⟩ := searchLocal_ok_iff.1 hsearch
  obtain ⟨hmem, hcompatible, hmax, -⟩ := findCompatible_ok hfind (s.descending_query _)
  obtain ⟨hlayer, hid⟩ := mem_query_id.1 hmem
  refine ⟨item, ⟨hlayer, hid, hcompatible⟩, (referenceOf_ok href).1, ?_⟩
  rintro b ⟨hblayer, hbid, hbcompatible⟩
  exact hmax b (mem_query_id.2 ⟨hblayer, hbid⟩) hbcompatible

/-- **Local resolution** finds the newest version iff the greatest text is
    the newest version. -/
theorem clearReferenceLocal_newest_iff {s : Repo} {fuzzy : FuzzyReference} {ref : Reference}
    (h : s.clearReferenceLocal fuzzy = .ok ref) :
    s.IsNewest fuzzy ref.version ↔ s.TextsAgree fuzzy := by
  obtain ⟨found, hfound, hparse, hgreatest⟩ := clearReferenceLocal_candidate h
  constructor
  · rintro ⟨-, hnewest⟩ item hitem hmax version hversion
    -- two greatest texts are the same text
    have htext : item.info.version = found.info.version :=
      String.le_antisymm (hgreatest item hitem) (hmax found hfound)
    have hsame : version = ref.version := by
      rw [htext, hparse] at hversion
      exact (Except.ok.inj hversion).symm
    rw [hsame]
    exact hnewest
  · intro hagree
    exact ⟨⟨found, hfound, hparse⟩, hagree found hfound hgreatest ref.version hparse⟩

/-- Two versions of an app. -/
def editorVersions (version version' : String) : Repo :=
  .ofLayers (.ofCommits []) [⟨"c1", none, .onMain "org.edit" version "binary", "stable"⟩,
    ⟨"c2", none, .onMain "org.edit" version' "binary", "stable"⟩] [] []

/-- The app, in any version. -/
def anyEditor : FuzzyReference := ⟨none, "org.edit", none, none, by decide, by decide⟩

theorem candidate_anyEditor {version version' : String} {item : RepositoryCacheLayersItem}
    (h : (editorVersions version version').Candidate anyEditor item) :
    item.info.version = version ∨ item.info.version = version' := by
  have hmem : item ∈ [_, _] := h.1
  rcases List.mem_pair.1 hmem with rfl | rfl
  · exact .inl rfl
  · exact .inr rfl

/-- The numbers have one digit each, so the texts compare as the numbers. -/
theorem clearReferenceLocal_newest_editor :
    (editorVersions "1.8.0.0" "1.9.0.0").IsNewest anyEditor ⟨1, 9, 0, some 0⟩ := by
  have hfound : (editorVersions "1.8.0.0" "1.9.0.0").clearReferenceLocal anyEditor =
      .ok ⟨"main", "org.edit", ⟨1, 9, 0, some 0⟩, .x86_64, by decide, by decide⟩ := by decide
  refine (clearReferenceLocal_newest_iff hfound).2 ?_
  have hparse : Version.parse "1.8.0.0" = .ok ⟨1, 8, 0, some 0⟩ ∧
      Version.parse "1.9.0.0" = .ok ⟨1, 9, 0, some 0⟩ := by decide
  intro item hitem hmax version hversion b hb v hv
  -- the text of the other item is greater
  have htext : item.info.version = "1.9.0.0" := by
    refine (candidate_anyEditor hitem).resolve_left fun hold => ?_
    refine hmax ⟨"c2", none, .onMain "org.edit" "1.9.0.0" "binary", "stable"⟩ ?_ ?_
    · exact ⟨by decide, rfl, rfl, ⟨1, 9, 0, some 0⟩, hparse.2, rfl⟩
    · rw [hold]
      decide
  rw [htext, hparse.2] at hversion
  cases hversion
  rcases candidate_anyEditor hb with hb | hb
  · rw [hb, hparse.1] at hv
    cases hv
    decide
  · rw [hb, hparse.2] at hv
    cases hv
    decide

/-- `1.9.0.0` is found, although `1.10.0.0` is there. -/
theorem clearReferenceLocal_not_newest : ¬ ∀ (s : Repo) (fuzzy : FuzzyReference)
    (ref : Reference), (∀ item ∈ s.layers, ∃ version,
      Version.parse item.info.version = .ok version) →
    s.clearReferenceLocal fuzzy = .ok ref → s.IsNewest fuzzy ref.version := by
  intro h
  have hparse : Version.parse "1.9.0.0" = .ok ⟨1, 9, 0, some 0⟩ ∧
      Version.parse "1.10.0.0" = .ok ⟨1, 10, 0, some 0⟩ := by decide
  have hnewest := h (editorVersions "1.9.0.0" "1.10.0.0") anyEditor
    ⟨"main", "org.edit", ⟨1, 9, 0, some 0⟩, .x86_64, by decide, by decide⟩ (by
      intro item hitem
      have hmem : item ∈ [_, _] := hitem
      rcases List.mem_pair.1 hmem with rfl | rfl
      · exact ⟨_, hparse.1⟩
      · exact ⟨_, hparse.2⟩) (by decide)
  have hnot := hnewest.2 ⟨"c2", none, .onMain "org.edit" "1.10.0.0" "binary", "stable"⟩
    ⟨by decide, rfl, rfl, ⟨1, 10, 0, some 0⟩, hparse.2, rfl⟩ _ hparse.2
  exact absurd hnot (by decide)

end Repo

end Linglong

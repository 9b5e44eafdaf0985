import Linglong.Repo.ExportedEntries

/-! # Exports over Time

    Apps are exported and exports are undone in any order, while layers come
    and go and other programs put their caches between the links.

    Every link has been made for the file that it leads to
    (`links_have_origin`). If nothing fails and nothing is in the way, the
    links are a map from names to the directories that the files are in
    (`represents_of_meets`): the last export of a name wins.

    Undoing an export takes out what leads into the layer. So what was
    exported from a merged directory stays (`link_left_iff`).

    1. Where links come from.
    2. The links as a map.
    3. Undoing an export.
-/

namespace Linglong.Exports

open Framework
open CopyDir (Name Path)

variable {layout : Layout} {disk : Disk} {share : Share} {p q : Path} {source : Source}
  {answers : Path → Answers}

/-! ## Section 1: Where links come from -/

/-- What happens to the directory, in any order. The repository may have
    changed in any way between two calls, and so may the other files. -/
inductive Event where
  | exportReference (repo : Repo) (ref : Reference) (answers : Path → Answers)
  | unexportReference (repo : Repo) (ref : Reference) (removed : Path → Bool)
  | removeDanglingXDGIntergation (removed : Path → Bool)
  /-- `updateSharedInfo`, or someone else, makes a file or a directory. -/
  | other (p : Path) (isDir : Bool)
  | disk (disk : Disk)

structure State where
  disk : Disk
  share : Share

/-- One call after the other. -/
def machine (layout : Layout) : Machine State Event where
  next := fun s event =>
    match event with
    | .exportReference repo ref answers =>
        some { s with share := exportReference layout s.disk repo ref answers s.share }
    | .unexportReference repo ref removed =>
        some { s with share := unexportReference layout s.disk repo ref removed s.share }
    | .removeDanglingXDGIntergation removed =>
        some { s with share := removeDanglingXDGIntergation layout s.disk removed s.share }
    | .other p isDir =>
        if p ≠ [] ∧ reachable s.share p = true ∧ s.share.lookup p = none then
          some { s with share := s.share ++ [(p, if isDir then .dir else .file)] }
        else none
    | .disk disk => some { s with disk := disk }

/-- The directory that an event exports. -/
def Event.exported : Event → Option Source
  | .exportReference repo ref _ => (exportSource repo ref).toOption
  | _ => none

theorem link_removeLinks_iff {condition removed : Path → Bool} {text : List Char} :
    (removeLinks layout disk condition removed share).lookup p = some (.link text) ↔
      share.lookup p = some (.link text) ∧
        (isVisible p && !disk.isDir (targetOf layout p text) &&
          condition (targetOf layout p text) && removed p) = false := by
  unfold removeLinks
  rw [lookup_filter_key, Option.ite_none_right_eq_some, and_comm]
  refine and_congr_right fun hlink => ?_
  unfold stays
  rw [hlink]
  dsimp only
  rw [Bool.not_eq_true']

theorem closed_removeLinks (hclosed : Closed .dir share) (condition removed : Path → Bool) :
    Closed .dir (removeLinks layout disk condition removed share) := by
  refine hclosed.filter _ fun p q hp _ hq hnil hne => ?_
  obtain ⟨e, he⟩ := Option.ne_none_iff_exists'.1 hp
  unfold stays
  rw [hclosed p e he q hq hnil hne]

/-- `unexportReference` is such a loop, or does nothing. -/
theorem unexportReference_eq (layout : Layout) (disk : Disk) (repo : Repo) (ref : Reference)
    (removed : Path → Bool) (share : Share) :
    unexportReference layout disk repo ref removed share = share ∨ ∃ layer,
      repo.getLayerItem ref "binary" none = .ok layer ∧
        unexportReference layout disk repo ref removed share =
          removeLinks layout disk (startsWithLayer layout layer.commit) removed share := by
  unfold unexportReference
  cases repo.getLayerItem ref "binary" none with
  | error e => exact .inl rfl
  | ok layer =>
    dsimp only
    cases repo.layerDirOf layer with
    | error e => exact .inl rfl
    | ok content => exact .inr ⟨layer, rfl, rfl⟩

/-- The directory is a tree, and each link has the name and the text that an
    export from one of the sources gives it. -/
structure Origin (layout : Layout) (sources : List Source) (share : Share) : Prop where
  closed : Closed .dir share
  links : ∀ p text, share.lookup p = some (.link text) → ∃ source ∈ sources,
    text = linkText layout "share".toList source p ∧ (∀ name ∈ p, IsName name) ∧
      ∃ path ∈ exportPaths, p.head? = some path

theorem head_of_offers (h : Offers layout disk source p) :
    ∃ path ∈ exportPaths, p.head? = some path := by
  obtain ⟨f, hf, -, rfl⟩ := h
  obtain ⟨path, hpath, hf⟩ := List.mem_flatMap.1 hf
  obtain ⟨g, -, rfl⟩ := List.mem_map.1 hf
  exact ⟨path, hpath, rfl⟩

theorem Origin.removeLinks {sources : List Source} (h : Origin layout sources share)
    (condition removed : Path → Bool) :
    Origin layout sources (removeLinks layout disk condition removed share) where
  closed := closed_removeLinks h.closed condition removed
  links := fun p text hlink => h.links p text (link_removeLinks_iff.1 hlink).1

/-- **Step**: one event keeps the origin of all links. -/
theorem origin_next {sources : List Source} {s s' : State} {event : Event}
    (h : Origin layout sources s.share) (hsource : ∀ source, event.exported = some source →
      source ∈ sources) (hnext : (machine layout).next s event = some s') :
    Origin layout sources s'.share := by
  cases event with
  | exportReference repo ref answers =>
    cases hnext
    dsimp only [exportReference]
    cases hexport : exportSource repo ref with
    | error e => exact h
    | ok source =>
      have hmem : source ∈ sources := hsource source (by rw [Event.exported, hexport]; rfl)
      refine ⟨closed_exportEntries h.closed, fun p text hlink => ?_⟩
      rcases link_exportEntries hlink with hold | ⟨hoffers, htext⟩
      · exact h.links p text hold
      · exact ⟨source, hmem, htext, names_of_offers hoffers, head_of_offers hoffers⟩
  | unexportReference repo ref removed =>
    cases hnext
    dsimp only
    rcases unexportReference_eq layout s.disk repo ref removed s.share with heq | ⟨_, -, heq⟩
    · rw [heq]
      exact h
    · rw [heq]
      exact h.removeLinks _ _
  | removeDanglingXDGIntergation removed =>
    cases hnext
    exact h.removeLinks (fun target => !s.disk.fileExists target) removed
  | other p isDir =>
    dsimp only [machine] at hnext
    split at hnext
    · next hfree =>
      cases hnext
      refine ⟨h.closed.concat hfree.2.2 fun q hq hnil hne => ?_, fun q text hlink => ?_⟩
      · exact reachable_iff.1 hfree.2.1 q (prefix_dropLast hq hne) hnil
      · rw [lookup_concat hfree.2.2] at hlink
        split at hlink
        · cases isDir <;> cases hlink
        · exact h.links q text hlink
    · cases hnext
  | disk disk =>
    cases hnext
    exact h

/-- The directories that are exported in a run. -/
def exportedSources (events : List Event) : List Source := events.filterMap Event.exported

/-- **Run**: the origin of links, after any events. -/
theorem origin_of_exec {sources : List Source} {events : List Event} {s s' : State}
    (h : Origin layout sources s.share) (hsources : exportedSources events ⊆ sources)
    (hexec : (machine layout).exec s events = some s') : Origin layout sources s'.share := by
  induction events generalizing s with
  | nil =>
    rw [Machine.exec_nil] at hexec
    cases hexec
    exact h
  | cons event events ih =>
    obtain ⟨s₁, hnext, hrest⟩ := (Machine.exec_cons_some _).1 hexec
    have hfirst : ∀ source, event.exported = some source → source ∈ sources := fun source hsource =>
      hsources (List.mem_filterMap.2 ⟨event, List.mem_cons_self, hsource⟩)
    refine ih (origin_next h hfirst hnext) (fun source hsource => hsources ?_) hrest
    obtain ⟨event', hmem, hsource⟩ := List.mem_filterMap.1 hsource
    exact List.mem_filterMap.2 ⟨event', List.mem_cons_of_mem _ hmem, hsource⟩

/-- **Main result**: whatever fails and whatever is in the way, each link
    leads to the file of its own name in a directory that was exported. -/
theorem links_have_origin {disk : Disk} {events : List Event} {s' : State}
    (hnamed : ∀ source ∈ exportedSources events, IsName source.name)
    (hexec : (machine layout).exec ⟨disk, []⟩ events = some s') :
    Closed .dir s'.share ∧ ∀ p text, s'.share.lookup p = some (.link text) →
      (∃ source ∈ exportedSources events,
        targetOf layout p text = source.entriesDir layout ++ p) ∧
      ∃ path ∈ exportPaths, p.head? = some path := by
  have hempty : Origin layout (exportedSources events) ([] : Share) :=
    ⟨fun p e h => (by cases h), fun p text h => (by cases h)⟩
  have horigin := origin_of_exec hempty (List.Subset.refl _) hexec
  refine ⟨horigin.closed, fun p text hlink => ?_⟩
  obtain ⟨source, hsource, rfl, hnames, hhead⟩ := horigin.links p text hlink
  exact ⟨⟨source, hsource, targetOf_linkText ⟨hnamed source hsource, hnames⟩ _⟩, hhead⟩

/-- The app is exported, another program makes its cache, the app is exported
    from where its modules have been merged, and what leads nowhere goes. -/
def exportShop : List Event :=
  [.exportReference unmergedRepo shopRef fun _ => {},
    .other ["applications".toList, "mimeinfo.cache".toList] false,
    .exportReference shopRepo shopRef fun _ => {},
    .removeDanglingXDGIntergation fun _ => true]

theorem exec_exportShop :
    ∃ s', (machine rootLayout).exec ⟨menuDisk, []⟩ exportShop = some s' :=
  Option.isSome_iff_exists.1 (by decide)

theorem links_have_origin_shop : ∃ s', (machine rootLayout).exec ⟨menuDisk, []⟩ exportShop =
      some s' ∧
    Closed .dir s'.share ∧ ∀ p text, s'.share.lookup p = some (.link text) →
      (∃ source ∈ exportedSources exportShop,
        targetOf rootLayout p text = source.entriesDir rootLayout ++ p) ∧
      ∃ path ∈ exportPaths, p.head? = some path := by
  have hnamed : ∀ source ∈ exportedSources exportShop, IsName source.name := by decide
  obtain ⟨s', hexec⟩ := exec_exportShop
  exact ⟨s', hexec, links_have_origin hnamed hexec⟩

/-! ## Section 2: The links as a map -/

/-- From the names of files to the directories they are in. -/
structure Owners where
  disk : Disk
  owner : Path → Option Source

instance (layout : Layout) (disk : Disk) (source : Source) (p : Path) :
    Decidable (Offers layout disk source p) :=
  inferInstanceAs (Decidable (∃ f ∈ sourceFiles layout disk source, _))

namespace Owners

/-- What the events mean for the map: the last export of a name wins, undoing
    an export takes the names of the layer out. -/
def next (layout : Layout) (o : Owners) : Event → Owners
  | .exportReference repo ref _ =>
      match exportSource repo ref with
      | .error _ => o
      | .ok source =>
          { o with owner := fun p =>
              if Offers layout o.disk source p then some source else o.owner p }
  | .unexportReference repo ref _ =>
      match repo.getLayerItem ref "binary" none with
      | .error _ => o
      | .ok layer =>
          match repo.layerDirOf layer with
          | .error _ => o
          | .ok _ =>
              { o with owner := fun p =>
                if isVisible p = true ∧ o.owner p = some (.layer layer.commit) then none
                else o.owner p }
  | .removeDanglingXDGIntergation _ =>
      { o with owner := fun p =>
        if isVisible p = true ∧ (o.owner p).any (fun source =>
          !o.disk.fileExists (source.entriesDir layout ++ p)) = true then none
        else o.owner p }
  | .other _ _ => o
  | .disk disk => { o with disk := disk }

def run (layout : Layout) (o : Owners) (events : List Event) : Owners :=
  events.foldl (next layout) o

end Owners

/-- A commit, or the name of a merged directory, is a hash. -/
def IsHash (name : Name) : Prop := IsName name ∧ name.length = 64

instance : DecidablePred IsHash := fun name =>
  inferInstanceAs (Decidable (IsName name ∧ name.length = 64))

/-- The directory holds the links of the map. -/
structure Represents (layout : Layout) (s : State) (o : Owners) : Prop where
  disk : o.disk = s.disk
  links : ∀ p text, s.share.lookup p = some (.link text) ↔
    ∃ source, o.owner p = some source ∧ text = linkText layout "share".toList source p
  named : ∀ p source, o.owner p = some source → IsHash source.name ∧ ∀ name ∈ p, IsName name
  files : ∀ p source, o.owner p = some source →
    s.disk.isDir (source.entriesDir layout ++ p) = false

/-- Nothing fails, nothing is in the way of a new link, and no file that a
    link leads to becomes a directory. -/
def Event.Fits (layout : Layout) (s : State) : Event → Prop
  | .exportReference repo ref answers => ∀ source, exportSource repo ref = .ok source →
      IsHash source.name ∧ (∀ p, (answers p).Fine) ∧
        ∀ p, Offers layout s.disk source p → Clear s.share p
  | .unexportReference repo ref removed => (∀ p, removed p = true) ∧
      ∀ layer, repo.getLayerItem ref "binary" none = .ok layer → IsHash layer.commit.toList
  | .removeDanglingXDGIntergation removed => ∀ p, removed p = true
  | .other _ _ => True
  | .disk disk => ∀ p text, s.share.lookup p = some (.link text) →
      disk.isDir (targetOf layout p text) = false

/-- A link of the map leads to the file that the map names. -/
theorem Represents.target {s : State} {o : Owners} (h : Represents layout s o)
    (howner : o.owner p = some source) (name : Name) :
    targetOf layout p (linkText layout name source p) = source.entriesDir layout ++ p :=
  targetOf_linkText ⟨(h.named p source howner).1.1, (h.named p source howner).2⟩ name

theorem isDir_of_offers (h : Offers layout disk source p) :
    disk.isDir (source.entriesDir layout ++ p) = false := by
  obtain ⟨f, hf, hexported, rfl⟩ := h
  obtain ⟨path, -, hf⟩ := List.mem_flatMap.1 hf
  obtain ⟨g, hg, rfl⟩ := List.mem_map.1 hf
  have hfile : g.isDir = false := by
    simp only [isExported, Bool.and_eq_true, Bool.not_eq_true'] at hexported
    exact hexported.1
  have hdir := disk.files _ g hg
  rw [hfile, List.append_assoc] at hdir
  exact hdir

/-- A loop that removes links takes the visible names out of the map that
    meet its condition. -/
theorem Represents.removeLinks {s : State} {o : Owners} (h : Represents layout s o)
    {condition removed : Path → Bool} (hremoved : ∀ p, removed p = true)
    {owner : Path → Option Source}
    (howner : ∀ p source, owner p = some source ↔ o.owner p = some source ∧
      (isVisible p && condition (source.entriesDir layout ++ p)) = false) :
    Represents layout { s with share := removeLinks layout s.disk condition removed s.share }
      { o with owner := owner } where
  disk := h.disk
  links := by
    intro p text
    rw [link_removeLinks_iff, h.links]
    simp only [howner]
    constructor
    · rintro ⟨⟨source, hsource, rfl⟩, hstays⟩
      rw [h.target hsource, h.files p source hsource, hremoved] at hstays
      exact ⟨source, ⟨hsource, by simpa using hstays⟩, rfl⟩
    · rintro ⟨source, ⟨hsource, hstays⟩, rfl⟩
      refine ⟨⟨source, hsource, rfl⟩, ?_⟩
      rw [h.target hsource, h.files p source hsource, hremoved]
      simpa using hstays
  named := fun p source hsource => h.named p source ((howner p source).1 hsource).1
  files := fun p source hsource => h.files p source ((howner p source).1 hsource).1

/-- An export adds its files to the map. -/
theorem Represents.exportEntries {s : State} {o : Owners} (h : Represents layout s o)
    (hhash : IsHash source.name) (hfine : ∀ p, (answers p).Fine)
    (hclear : ∀ p, Offers layout s.disk source p → Clear s.share p) :
    Represents layout
      { s with share := exportEntries layout s.disk "share".toList source answers s.share }
      { o with owner := fun p =>
        if Offers layout o.disk source p then some source else o.owner p } where
  disk := h.disk
  links := by
    intro p text
    rw [h.disk, link_exportEntries_iff hclear hfine, h.links]
    dsimp only
    split
    · next hoffers => simp [hoffers]
    · next hoffers => simp [hoffers]
  named := by
    intro p source' hsource
    dsimp only at hsource
    split at hsource
    · next hoffers =>
      cases hsource
      exact ⟨hhash, names_of_offers hoffers⟩
    · exact h.named p source' hsource
  files := by
    intro p source' hsource
    dsimp only at hsource
    split at hsource
    · next hoffers =>
      cases hsource
      rw [h.disk] at hoffers
      exact isDir_of_offers hoffers
    · exact h.files p source' hsource

/-- **Step**: the map stays the map of the links. -/
theorem represents_next {s s' : State} {o : Owners} {event : Event} (h : Represents layout s o)
    (hfits : event.Fits layout s) (hnext : (machine layout).next s event = some s') :
    Represents layout s' (o.next layout event) := by
  cases event with
  | exportReference repo ref answers =>
    cases hnext
    dsimp only [exportReference, Owners.next]
    cases hexport : exportSource repo ref with
    | error e => exact h
    | ok source =>
      obtain ⟨hhash, hfine, hclear⟩ := hfits source hexport
      exact h.exportEntries hhash hfine hclear
  | unexportReference repo ref removed =>
    cases hnext
    dsimp only [unexportReference, Owners.next]
    cases hitem : repo.getLayerItem ref "binary" none with
    | error e => exact h
    | ok layer =>
      dsimp only
      cases repo.layerDirOf layer with
      | error e => exact h
      | ok content =>
        refine h.removeLinks hfits.1 fun p source => ?_
        rw [Option.ite_none_left_eq_some, and_comm]
        refine and_congr_right fun hsource => ?_
        have hlength : source.name.length = layer.commit.toList.length := by
          rw [(h.named p source hsource).1.2, (hfits.2 layer hitem).2]
        have hstarts : startsWithLayer layout layer.commit (source.entriesDir layout ++ p) = true ↔
            source = .layer layer.commit := startsWithLayer_iff hlength
        rw [hsource, Option.some.injEq, ← hstarts]
        simp
  | removeDanglingXDGIntergation removed =>
    cases hnext
    refine h.removeLinks hfits fun p source => ?_
    rw [Option.ite_none_left_eq_some, and_comm]
    refine and_congr_right fun hsource => ?_
    rw [hsource, h.disk]
    simp
  | other p isDir =>
    dsimp only [machine] at hnext
    split at hnext
    · next hfree =>
      cases hnext
      refine ⟨h.disk, fun q text => Iff.trans ?_ (h.links q text), h.named, h.files⟩
      rw [lookup_concat hfree.2.2]
      split
      · next heq =>
        subst heq
        rw [hfree.2.2]
        cases isDir <;> simp
      · rfl
    · cases hnext
  | disk disk =>
    cases hnext
    refine ⟨rfl, h.links, h.named, fun p source hsource => ?_⟩
    have hdir := hfits p _ ((h.links p _).2 ⟨source, hsource, rfl⟩)
    rw [h.target hsource] at hdir
    exact hdir

/-- **Main result**: in a run where nothing fails and nothing is in the way,
    the links are the map that the exports, and their undoing, mean. -/
theorem represents_of_meets {events : List Event} {s s' : State} {o : Owners}
    (h : Represents layout s o) (hfits : (machine layout).Meets (Event.Fits layout) s events)
    (hexec : (machine layout).exec s events = some s') :
    Represents layout s' (o.run layout events) := by
  induction events generalizing s o with
  | nil =>
    rw [Machine.exec_nil] at hexec
    cases hexec
    exact h
  | cons event events ih =>
    obtain ⟨s₁, hnext, hrest⟩ := (Machine.exec_cons_some _).1 hexec
    exact ih (represents_next h hfits.1 hnext) (hfits.2 s₁ hnext) hrest

/-- The app can be exported where there is nothing or a link at the place of
    its file, and nothing or a directory above it. -/
theorem fits_shop {repo : Repo} (hrepo : repo = shopRepo ∨ repo = unmergedRepo) {share : Share}
    (habove : share.lookup ["applications".toList] = none ∨
      share.lookup ["applications".toList] = some .dir)
    (hplace : share.lookup ["applications".toList, "shop.desktop".toList] ≠ some .dir) :
    Event.Fits rootLayout ⟨menuDisk, share⟩ (.exportReference repo shopRef fun _ => {}) := by
  intro source hsource
  have hmem : source ∈ [shopSource, unmergedSource] := by
    rcases hrepo with rfl | rfl
    · rw [exportSource_shop] at hsource
      cases hsource
      exact List.mem_cons_self
    · rw [exportSource_unmerged] at hsource
      cases hsource
      exact List.mem_cons_of_mem _ List.mem_cons_self
  have hhash : ∀ source ∈ [shopSource, unmergedSource], IsHash source.name := by decide
  refine ⟨hhash source hmem, fun _ => ⟨rfl, rfl, rfl⟩, fun p hp => ?_⟩
  rw [offers_menu hmem hp]
  refine ⟨fun q hq hnil hne => ?_, hplace⟩
  -- only the directory is above the file
  rw [show q = ["applications".toList] by
    rcases q with _ | ⟨a, _ | ⟨b, q⟩⟩
    · exact absurd rfl hnil
    · rw [(List.cons_prefix_cons.1 hq).1]
    · have hb := List.cons_prefix_cons.1 (List.cons_prefix_cons.1 hq).2
      refine absurd ?_ hne
      rw [(List.cons_prefix_cons.1 hq).1, hb.1, List.prefix_nil.1 hb.2]]
  exact habove

theorem represents_empty (layout : Layout) (disk : Disk) :
    Represents layout ⟨disk, []⟩ ⟨disk, fun _ => none⟩ where
  disk := rfl
  links := fun p text => by simp
  named := fun p source h => by cases h
  files := fun p source h => by cases h

theorem represents_of_meets_shop : ∃ s', (machine rootLayout).exec ⟨menuDisk, []⟩ exportShop =
      some s' ∧
    Represents rootLayout s' ((⟨menuDisk, fun _ => none⟩ : Owners).run rootLayout exportShop) := by
  have hfits : (machine rootLayout).Meets (Event.Fits rootLayout) ⟨menuDisk, []⟩ exportShop := by
    refine ⟨fits_shop (.inr rfl) (.inl rfl) (by simp), fun s₁ h₁ => ⟨trivial, fun s₂ h₂ => ?_⟩⟩
    cases h₁
    cases h₂
    refine ⟨fits_shop (.inl rfl) (.inr (by decide)) (by decide), fun s₃ h₃ => ?_⟩
    exact ⟨fun _ => rfl, fun _ _ => trivial⟩
  obtain ⟨s', hexec⟩ := exec_exportShop
  exact ⟨s', hexec, represents_of_meets (represents_empty rootLayout menuDisk) hfits hexec⟩

/-! ## Section 3: Undoing an export -/

/-- The directory of the layer is exported iff nothing is merged with it. -/
theorem source_eq_layer_iff {repo : Repo} {layer : RepositoryCacheLayersItem}
    (h : sourceOf repo layer = .ok source) :
    source = .layer layer.commit ↔ (repo.findMerged layer.commit).isSome = false := by
  unfold sourceOf at h
  cases hmerged : repo.findMerged layer.commit with
  | some item =>
    rw [hmerged] at h
    cases h
    simp
  | none =>
    rw [hmerged] at h
    cases hdir : repo.layerDirOf layer with
    | error e =>
      rw [hdir] at h
      cases h
    | ok content =>
      rw [hdir] at h
      cases h
      simp

/-- **Main result**: after the export of an app is undone, a file still has
    its link iff it is hidden, or the app was exported from where its modules
    are merged. -/
theorem link_left_iff {s s' : State} {o : Owners} {repo repo' : Repo} {ref : Reference}
    {layer : RepositoryCacheLayersItem} {content : Option String} {answers : Path → Answers}
    {removed : Path → Bool} (h : Represents layout s o)
    (hitem : repo.getLayerItem ref "binary" none = .ok layer)
    (hitem' : repo'.getLayerItem ref "binary" none = .ok layer)
    (hdir : repo'.layerDirOf layer = .ok content) (hsource : exportSource repo ref = .ok source)
    (hoffers : Offers layout s.disk source p)
    (hfits : (machine layout).Meets (Event.Fits layout) s
      [.exportReference repo ref answers, .unexportReference repo' ref removed])
    (hexec : (machine layout).exec s
      [.exportReference repo ref answers, .unexportReference repo' ref removed] = some s') :
    (∃ text, s'.share.lookup p = some (.link text)) ↔
      isVisible p = false ∨ (repo.findMerged layer.commit).isSome = true := by
  have hrep := represents_of_meets h hfits hexec
  have hmerged : source = .layer layer.commit ↔ (repo.findMerged layer.commit).isSome = false := by
    refine source_eq_layer_iff ?_
    rw [exportSource, hitem] at hsource
    exact hsource
  -- what the two calls do to the owner of the file
  have howner : (o.run layout [.exportReference repo ref answers,
      .unexportReference repo' ref removed]).owner p =
      if isVisible p = true ∧ source = .layer layer.commit then none else some source := by
    simp only [Owners.run, List.foldl_cons, List.foldl_nil, Owners.next, hsource, hitem', hdir,
      h.disk, if_pos hoffers, Option.some.injEq]
  simp only [hrep.links, howner, Option.ite_none_left_eq_some]
  constructor
  · rintro ⟨_, _, ⟨hstays, -⟩, -⟩
    rw [hmerged, not_and] at hstays
    cases hvisible : isVisible p with
    | false => exact .inl rfl
    | true => exact .inr (Bool.eq_true_of_not_eq_false (hstays hvisible))
  · intro hleft
    refine ⟨_, source, ⟨?_, rfl⟩, rfl⟩
    rw [hmerged]
    rintro ⟨hvisible, hlayer⟩
    simp [hvisible, hlayer] at hleft

/-- The link of the merged app stays. -/
theorem link_left_iff_shop : ∃ s', (machine rootLayout).exec ⟨menuDisk, []⟩
      [.exportReference shopRepo shopRef fun _ => {},
        .unexportReference shopRepo shopRef fun _ => true] = some s' ∧
    ((∃ text, s'.share.lookup ["applications".toList, "shop.desktop".toList] =
        some (.link text)) ↔
      isVisible ["applications".toList, "shop.desktop".toList] = false ∨
        (shopRepo.findMerged
          "70446a97d576f24f0b082c5ee4339093a80b04fc0c9581b7d1334ac02c7994c1").isSome = true) := by
  refine ⟨_, rfl, link_left_iff (represents_empty rootLayout menuDisk) rfl rfl rfl
    exportSource_shop (by decide) ⟨fits_shop (.inl rfl) (.inl rfl) (by simp), fun s' hnext =>
      ⟨?_, fun _ _ => trivial⟩⟩ rfl⟩
  refine ⟨fun _ => rfl, fun layer hlayer => ?_⟩
  cases hlayer
  decide

end Linglong.Exports

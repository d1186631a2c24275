import ConfigChain.Proofs.Path.Form
import ConfigChain.Proofs.Workspace.Listing

/-! # What the listing holds

The listing is read off the tree alone: it holds the paths of the files with the name of a config file to which the
way is open, and each stands before those with greater bytes. This tells the listing from every other list, so the
order in which a tree is walked makes no difference. -/

namespace ConfigChain

/-! ## Names of config files -/

namespace FileNames

/-- The usual name, or a variant of it whose variable part is not empty. -/
def ConfigName (name : String) : Prop :=
  name = "tsconfig.json" ∨ ∃ middle, middle ≠ "" ∧ name = "tsconfig." ++ middle ++ ".json"

theorem toList_variant (middle : String) :
    ("tsconfig." ++ middle ++ ".json").toList = variantStart ++ (middle.toList ++ variantEnd) := by
  rw [String.toList_append, String.toList_append, List.append_assoc]
  rfl

theorem isConfig_iff (name : String) : isConfig name = true ↔ ConfigName name := by
  rw [isConfig, Bool.or_eq_true, decide_eq_true_eq, ConfigName]
  refine or_congr_right ?_
  constructor
  · intro h
    split at h
    · rename_i rest hstart
      split at h
      · rename_i middle hend
        refine ⟨String.ofList middle, by simpa using h, String.toList_injective ?_⟩
        rw [toList_variant, String.toList_ofList, List.isSuffixOf?_eq_some_iff_append_eq.mp hend,
          List.isPrefixOf?_eq_some_iff_append_eq.mp hstart]
      · cases h
    · cases h
  · rintro ⟨middle, hne, rfl⟩
    have hstart : variantStart.isPrefixOf? ("tsconfig." ++ middle ++ ".json").toList =
        some (middle.toList ++ variantEnd) :=
      List.isPrefixOf?_eq_some_iff_append_eq.mpr (toList_variant middle).symm
    have hend : variantEnd.isSuffixOf? (middle.toList ++ variantEnd) = some middle.toList :=
      List.isSuffixOf?_eq_some_iff_append_eq.mpr rfl
    rw [hstart]
    dsimp only
    rw [hend]
    simpa using hne

/-- The texts around the variable part may not overlap, and a name needs something between them. -/
example : ¬ ConfigName "tsconfig..json" := by
  rw [← isConfig_iff]
  decide

end FileNames

namespace Tree

variable {hidden : Location → Bool → Bool} {above rest found : Location} {entries : List (String × Tree)}

/-! ## The way to a file -/

/-- Whether the listing shows what `rest` leads to in a tree that is itself reached by `above`: a file with the name of
a config file, with no name on the way that is never looked into, and with nothing on the way that is hidden. All on
the way but its end are directories. -/
structure Shown (hidden : Location → Bool → Bool) (above : Location) (t : Tree) (rest : Location) : Prop where
  isFile : ∃ content, at? rest t = some (.file content)
  named : FileNames.ConfigName ((above ++ rest).getLastD "")
  entered : ∀ name ∈ rest, name ≠ "node_modules" ∧ name ≠ ".git"
  visible : ∀ dir tail, rest = dir ++ tail → dir ≠ [] → hidden (above ++ dir) (!tail.isEmpty) = false

theorem isDirectory_of_at?_eq_file {t : Tree} {content : Bytes} (h : at? rest t = some (.file content)) :
    t.isDirectory = !rest.isEmpty := by
  cases rest with
  | nil =>
      obtain rfl := Option.some.inj h
      rfl
  | cons name rest =>
      cases t with
      | file _ => cases h
      | directory _ => rfl

theorem passedOver_eq_false_iff {name : String} {t : Tree} :
    passedOver hidden above name t = false ↔
      (name ≠ "node_modules" ∧ name ≠ ".git") ∧ hidden (above ++ [name]) t.isDirectory = false := by
  rw [passedOver, Bool.or_eq_false_iff]
  refine and_congr_left fun _ => ?_
  rw [← Bool.not_eq_true, List.contains_iff_mem]
  simp [FileNames.skipped, FileNames.packages, FileNames.repository]

theorem shown_file_iff {content : Bytes} :
    Shown hidden above (.file content) rest ↔ rest = [] ∧ FileNames.ConfigName (above.getLastD "") := by
  constructor
  · intro h
    cases rest with
    | nil => exact ⟨rfl, by simpa using h.named⟩
    | cons name rest =>
        obtain ⟨_, hat⟩ := h.isFile
        cases hat
  · rintro ⟨rfl, hname⟩
    refine ⟨⟨content, rfl⟩, by simpa using hname, by simp, fun dir tail hsplit hne => ?_⟩
    exact absurd (List.append_eq_nil_iff.mp hsplit.symm).1 hne

theorem not_shown_nil : ¬ Shown hidden above (.directory entries) [] := by
  intro h
  obtain ⟨_, hat⟩ := h.isFile
  cases hat

/-- One step of a way: the first entry on it is not passed over, and the way goes on from there. -/
theorem shown_cons_iff {name : String} :
    Shown hidden above (.directory entries) (name :: rest) ↔
      ∃ t, entries.lookup name = some t ∧ passedOver hidden above name t = false ∧
        Shown hidden (above ++ [name]) t rest := by
  constructor
  · intro h
    obtain ⟨content, hat⟩ := h.isFile
    obtain ⟨t, hlookup, hat⟩ := Option.bind_eq_some_iff.mp hat
    refine ⟨t, hlookup, passedOver_eq_false_iff.mpr ⟨h.entered name List.mem_cons_self, ?_⟩, ⟨content, hat⟩, ?_, ?_, ?_⟩
    · rw [isDirectory_of_at?_eq_file hat]
      exact h.visible [name] rest rfl (by simp)
    · simpa using h.named
    · exact fun other hother => h.entered other (List.mem_cons_of_mem name hother)
    · intro dir tail hsplit _
      rw [List.append_assoc]
      exact h.visible (name :: dir) tail (by rw [hsplit]; rfl) (by simp)
  · rintro ⟨t, hlookup, hpassed, h⟩
    obtain ⟨content, hat⟩ := h.isFile
    obtain ⟨hname, hvisible⟩ := passedOver_eq_false_iff.mp hpassed
    refine ⟨⟨content, Option.bind_eq_some_iff.mpr ⟨t, hlookup, hat⟩⟩, by simpa using h.named, ?_, ?_⟩
    · exact List.forall_mem_cons.mpr ⟨hname, h.entered⟩
    · intro dir tail hsplit hne
      cases dir with
      | nil => exact absurd rfl hne
      | cons other dir =>
          obtain ⟨rfl, hrest⟩ := List.cons.inj hsplit
          cases dir with
          | nil =>
              obtain rfl : rest = tail := hrest
              rwa [← isDirectory_of_at?_eq_file hat]
          | cons next dir =>
              have hinner := h.visible (next :: dir) tail hrest (by simp)
              rwa [List.append_assoc] at hinner

/-! ## The walk -/

/-- Of entries with different names a name finds the one that it belongs to. -/
theorem lookup_eq_some_iff_mem (h : wellNamedIn entries = true) {name : String} {t : Tree} :
    entries.lookup name = some t ↔ (name, t) ∈ entries := by
  induction entries with
  | nil => simp
  | cons entry more ih =>
      obtain ⟨other, s⟩ := entry
      obtain ⟨-, hnew, -, hmore⟩ := wellNamedIn_cons h
      rw [List.mem_cons, Prod.mk.injEq]
      by_cases heq : name = other
      · subst heq
        have hnot : (name, t) ∉ more := fun hmem => hnew (List.mem_map_of_mem hmem)
        simp [hnot, eq_comm]
      · rw [List.lookup_cons, beq_eq_false_iff_ne.mpr heq]
        simp [heq, ih hmore]

theorem mem_configWaysIn_iff {way : Location} :
    found ∈ configWaysIn hidden way entries ↔
      ∃ name t, (name, t) ∈ entries ∧ passedOver hidden way name t = false ∧
        found ∈ configWays hidden (way ++ [name]) t := by
  induction entries with
  | nil => simp [configWaysIn]
  | cons entry more ih =>
      obtain ⟨name, t⟩ := entry
      rw [configWaysIn, List.mem_append, ih]
      constructor
      · rintro (hfirst | ⟨other, s, hmem, hopen⟩)
        · cases hpassed : passedOver hidden way name t with
          | true => simp [hpassed] at hfirst
          | false => exact ⟨name, t, List.mem_cons_self, hpassed, by simpa [hpassed] using hfirst⟩
        · exact ⟨other, s, List.mem_cons_of_mem _ hmem, hopen⟩
      · rintro ⟨other, s, hmem, hpassed, hfound⟩
        rcases List.mem_cons.mp hmem with heq | hmem
        · obtain ⟨rfl, rfl⟩ := Prod.mk.inj heq
          exact .inl (by simpa [hpassed] using hfound)
        · exact .inr ⟨other, s, hmem, hpassed, hfound⟩

mutual

/-- A walk through a tree finds what is shown in it, by induction on the tree. -/
theorem mem_configWays_iff (way : Location) : ∀ {t : Tree}, t.wellNamed = true →
    ∀ found, found ∈ configWays hidden way t ↔ ∃ rest, found = way ++ rest ∧ Shown hidden way t rest
  | .file content, _, found => by
      rw [configWays]
      simp only [shown_file_iff, ← FileNames.isConfig_iff]
      cases FileNames.isConfig (way.getLastD "") with
      | true => simp
      | false => simp
  | .directory entries, h, found => by
      rw [configWays, mem_configWaysIn_iff]
      constructor
      · rintro ⟨name, t, hmem, hpassed, hfound⟩
        obtain ⟨rest, rfl, hshown⟩ := (mem_configWays_iff_of_mem way h hmem _).mp hfound
        refine ⟨name :: rest, by simp, shown_cons_iff.mpr ⟨t, ?_, hpassed, hshown⟩⟩
        exact (lookup_eq_some_iff_mem h).mpr hmem
      · rintro ⟨rest, rfl, hshown⟩
        cases rest with
        | nil => exact absurd hshown not_shown_nil
        | cons name rest =>
            obtain ⟨t, hlookup, hpassed, hshown⟩ := shown_cons_iff.mp hshown
            have hmem := (lookup_eq_some_iff_mem h).mp hlookup
            refine ⟨name, t, hmem, hpassed, ?_⟩
            exact (mem_configWays_iff_of_mem way h hmem _).mpr ⟨rest, by simp, hshown⟩

theorem mem_configWays_iff_of_mem (way : Location) : ∀ {entries : List (String × Tree)}, wellNamedIn entries = true →
    ∀ {name : String} {t : Tree}, (name, t) ∈ entries → ∀ found,
      found ∈ configWays hidden (way ++ [name]) t ↔
        ∃ rest, found = way ++ [name] ++ rest ∧ Shown hidden (way ++ [name]) t rest
  | (first, s) :: more, h, name, t, hmem, found => by
      obtain ⟨-, -, hs, hmore⟩ := wellNamedIn_cons h
      rcases List.mem_cons.mp hmem with heq | hmem
      · obtain ⟨rfl, rfl⟩ := Prod.mk.inj heq
        exact mem_configWays_iff (way ++ [name]) hs found
      · exact mem_configWays_iff_of_mem way hmore hmem found

end

/-! ## The order of the paths -/

/-- Whether a text comes before another in the order of their bytes. -/
def BytesLT (a b : String) : Prop := Utf8.encode a.toList < Utf8.encode b.toList

instance (a b : String) : Decidable (BytesLT a b) := inferInstanceAs (Decidable (_ < _))

theorem bytesLT_of_bytesLE {a b : String} (hle : bytesLE a b = true) (hne : a ≠ b) : BytesLT a b := by
  rw [bytesLE, decide_eq_true_eq] at hle
  by_contra hlt
  exact hne (encode_toList_inj.mp (List.le_antisymm hle hlt))

theorem not_bytesLT_self (a : String) : ¬ BytesLT a a := List.lt_irrefl _

theorem BytesLT.asymm {a b : String} (h : BytesLT a b) : ¬ BytesLT b a := List.lt_asymm h

/-- Two lists in order that hold the same texts are the same list. -/
theorem eq_of_mem_iff_of_pairwise {xs ys : List String} (hxs : xs.Pairwise BytesLT) (hys : ys.Pairwise BytesLT)
    (hmem : ∀ path, path ∈ xs ↔ path ∈ ys) : xs = ys := by
  have hnodup {zs : List String} (hzs : zs.Pairwise BytesLT) : zs.Nodup := by
    apply hzs.imp
    intro a b hab heq
    rw [heq] at hab
    exact not_bytesLT_self b hab
  have hperm : xs.Perm ys := (List.perm_ext_iff_of_nodup (hnodup hxs) (hnodup hys)).mpr hmem
  exact hperm.eq_of_pairwise (fun _ _ _ _ hab hba => absurd hba hab.asymm) hxs hys

/-! ## The listing -/

theorem wayText_eq_intercalate {way : Location} (h : ∀ name ∈ way, isEntryName name = true) :
    wayText way = "/".intercalate way := by
  apply String.toList_injective
  rw [wayText, (downward_of_isEntryName h).map_slashed_link, String.toList_ofList, String.toList_intercalate,
    Path.link_eq_intercalate]
  rfl

/-- The paths of what is shown in a directory with these entries, each before those with greater bytes. -/
structure Exact (hidden : Location → Bool → Bool) (entries : List (String × Tree)) (paths : List String) : Prop where
  ordered : paths.Pairwise BytesLT
  mem_iff : ∀ path, path ∈ paths ↔ ∃ way, path = "/".intercalate way ∧ Shown hidden [] (.directory entries) way

theorem Exact.unique {paths others : List String} (h : Exact hidden entries paths) (h' : Exact hidden entries others) :
    paths = others :=
  eq_of_mem_iff_of_pairwise h.ordered h'.ordered fun path => (h.mem_iff path).trans (h'.mem_iff path).symm

theorem exact_configFiles (h : wellNamedIn entries = true) (hidden : Location → Bool → Bool) :
    Exact hidden entries (configFiles hidden entries) := by
  have hlisted := listed_configFiles h hidden
  have hmem (way : Location) :
      way ∈ configWaysIn hidden [] entries ↔ Shown hidden [] (.directory entries) way := by
    rw [← configWays, mem_configWays_iff [] (by rwa [wellNamed])]
    simp
  constructor
  · have hboth := hlisted.sorted.and hlisted.nodup
    exact hboth.imp fun hab => bytesLT_of_bytesLE hab.1 hab.2
  · intro path
    rw [configFiles_eq, List.mem_mergeSort, List.mem_map]
    refine exists_congr fun way => ?_
    rw [hmem, and_comm]
    refine and_congr_left fun hshown => ?_
    obtain ⟨rest, rfl, -, hnames⟩ := (goesThrough_of_mem_configWaysIn [] h way ((hmem way).mpr hshown)).exists_rest
    rw [wayText_eq_intercalate hnames, eq_comm]

/-- However the ways are found one after the other, the listing is the same. -/
theorem mergeSort_eq_configFiles {ways : List Location} (hways : ways.Perm (configWaysIn hidden [] entries)) :
    (ways.map wayText).mergeSort bytesLE = configFiles hidden entries := by
  rw [configFiles_eq]
  exact mergeSort_eq_of_perm (hways.map wayText)

/-- Where entries have different names that can be written in a path, the listing of a directory is exact, whatever
is hidden; no other list is, and in whatever order its files are found, this is what comes out. It is the answer for
every file system with the directory, unless the rule files above it have faults. -/
theorem configFiles_exact (h : wellNamedIn entries = true) :
    (∀ hidden, Exact hidden entries (configFiles hidden entries) ∧
      (∀ paths, Exact hidden entries paths → paths = configFiles hidden entries) ∧
      ∀ ways : List Location, ways.Perm (configWaysIn hidden [] entries) →
        (ways.map wayText).mergeSort bytesLE = configFiles hidden entries) ∧
      ∀ (fs : FileSystem) root location, fs.locate root = .ok location →
        fs.top.at? location = some (.directory entries) → Ignore.faultsAbove fs.top location = [] →
        ∃ paths, fs.configFiles root = .ok paths ∧
          Exact (fun way => Ignore.ignores fs.top (location ++ way)) entries paths := by
  constructor
  · intro hidden
    have hexact := exact_configFiles h hidden
    exact ⟨hexact, fun paths hpaths => hpaths.unique hexact, fun ways => mergeSort_eq_configFiles⟩
  · intro fs root location hlocate hat hrules
    refine ⟨_, ?_, exact_configFiles h _⟩
    simp only [FileSystem.configFiles, FileSystem.walk, hlocate, hat, hrules, Except.map, listing_walk]

/-- A directory may be named like a config file, and what is in it is listed; a package is not looked into. -/
theorem configFiles_exact_named_directory :
    let entries : List (String × Tree) :=
      [("node_modules", .directory [("tsconfig.json", .file [])]),
        ("tsconfig.json", .directory [("tsconfig.app.json", .file []), ("tsconfig..json", .file [])])]
    wellNamedIn entries = true ∧ Exact (fun _ _ => false) entries ["tsconfig.json/tsconfig.app.json"] := by
  intro entries
  have hnames : wellNamedIn entries = true := by decide +kernel
  have hways : (configWaysIn (fun _ _ => false) [] entries).map wayText = ["tsconfig.json/tsconfig.app.json"] := by
    decide +kernel
  have hexact := ((configFiles_exact hnames).1 fun _ _ => false).1
  rw [configFiles_eq, hways, List.mergeSort_singleton] at hexact
  exact ⟨hnames, hexact⟩

end Tree

end ConfigChain

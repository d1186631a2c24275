import ConfigChain.Listing
import ConfigChain.Proofs.Path.Segments
import ConfigChain.Proofs.Text.Encoding
import Mathlib.Data.List.Nodup

/-! # The listing of config files

Whatever a walk comes by, the listing has one path for each config file, in order, and all of them are canonical where
names can be written in a path. Where names are texts as well, no two files have one path. In a tree the walk finds
the ways to the config files. -/

namespace ConfigChain

/-! ## Names as bytes -/

/-- Bytes that can be the name of an entry, and be written in a path as they are but for what spells no character:
not empty, `.` or `..`, and without a slash or a backslash. -/
structure EntryName (name : Bytes) : Prop where
  ne_nil : name ≠ []
  ne_here : name ≠ [0x2E]
  ne_up : name ≠ [0x2E, 0x2E]
  slash_not_mem : 0x2F ∉ name
  backslash_not_mem : 0x5C ∉ name

instance (name : Bytes) : Decidable (EntryName name) :=
  decidable_of_iff (name ≠ [] ∧ name ≠ [0x2E] ∧ name ≠ [0x2E, 0x2E] ∧ 0x2F ∉ name ∧ 0x5C ∉ name)
    ⟨fun h => ⟨h.1, h.2.1, h.2.2.1, h.2.2.2.1, h.2.2.2.2⟩, fun h => ⟨h.1, h.2, h.3, h.4, h.5⟩⟩

/-- No name is read as one that means something else. -/
theorem EntryName.isName_lossy {name : Bytes} (h : EntryName name) :
    Path.IsName (Utf8.lossy name) ∧ '\\' ∉ Utf8.lossy name := by
  have hascii {cs : List Char} (hcs : ∀ c ∈ cs, c.toNat < 0x80) (heq : Utf8.lossy name = cs) :
      name = cs.map fun c => UInt8.ofNat c.toNat := by
    rw [← heq] at hcs ⊢
    exact Utf8.eq_map_of_lossy hcs
  refine ⟨⟨?_, ?_, ?_, ?_⟩, ?_⟩
  · exact fun heq => h.ne_nil (hascii (by simp) heq)
  · exact fun heq => h.ne_here (hascii (by simp) heq)
  · exact fun heq => h.ne_up (hascii (by simp) heq)
  · exact fun hmem => h.slash_not_mem (Utf8.mem_of_mem_lossy (by decide) hmem)
  · exact fun hmem => h.backslash_not_mem (Utf8.mem_of_mem_lossy (by decide) hmem)

namespace Path

theorem Downward.map_slashed_link {names : List (List Char)} (h : Downward names) :
    (link names).map slashed = link names := by
  apply map_slashed
  intro hmem
  rcases mem_link hmem with hslash | ⟨name, hname, hback⟩
  · exact absurd hslash (by decide)
  · exact h.plain name hname hback

theorem Downward.ofList_link {names : List (List Char)} (h : Downward names) (hne : names ≠ []) :
    String.ofList ((link names).map slashed) = down names := by
  rw [down_of_ne_nil hne, h.map_slashed_link]

theorem Downward.down_inj {names names' : List (List Char)} (h : Downward names) (h' : Downward names') :
    down names = down names' ↔ names = names' := by
  constructor
  · intro heq
    rw [← h.segments_down, heq, h'.segments_down]
  · exact congrArg down

end Path

/-! ## What a walk comes by -/

namespace Visited

/-- Something below the root of the walk whose way can be written as a path. -/
structure Named (v : Visited) : Prop where
  ne_nil : v.way ≠ []
  entryName : ∀ name ∈ v.way, EntryName name

instance (v : Visited) : Decidable v.Named :=
  decidable_of_iff (v.way ≠ [] ∧ ∀ name ∈ v.way, EntryName name) ⟨fun h => ⟨h.1, h.2⟩, fun h => ⟨h.1, h.2⟩⟩

variable {v : Visited}

theorem Named.downward (h : v.Named) : Path.Downward (v.way.map Utf8.lossy) := by
  constructor
  · intro cs hcs
    obtain ⟨name, hname, rfl⟩ := List.mem_map.mp hcs
    exact (h.entryName name hname).isName_lossy.1
  · intro cs hcs
    obtain ⟨name, hname, rfl⟩ := List.mem_map.mp hcs
    exact (h.entryName name hname).isName_lossy.2

/-- A way through names that are texts. -/
def Textual (v : Visited) : Prop := ∀ name ∈ v.way, ∃ text, name = Tree.nameBytes text

end Visited

/-! ## The order of paths -/

/-- Texts with the same bytes are the same. -/
theorem encode_toList_inj {a b : String} : Utf8.encode a.toList = Utf8.encode b.toList ↔ a = b := by
  constructor
  · intro h
    rw [← String.ofList_toList (s := a), ← String.ofList_toList (s := b), ← String.toByteArray_inj,
      String.toByteArray_ofList, String.toByteArray_ofList]
    exact congrArg List.toByteArray h
  · rintro rfl
    rfl

theorem bytesLE_trans (a b c : String) (h : bytesLE a b = true) (h' : bytesLE b c = true) :
    bytesLE a c = true := by
  simp only [bytesLE, decide_eq_true_eq] at h h' ⊢
  exact List.le_trans h h'

theorem bytesLE_total (a b : String) : (bytesLE a b || bytesLE b a) = true := by
  simp only [bytesLE, Bool.or_eq_true, decide_eq_true_eq]
  exact List.le_total _ _

theorem bytesLE_antisymm {a b : String} (h : bytesLE a b = true) (h' : bytesLE b a = true) : a = b := by
  simp only [bytesLE, decide_eq_true_eq] at h h'
  exact encode_toList_inj.mp (List.le_antisymm h h')

/-- There is one order for some paths. -/
theorem eq_of_perm_of_sorted {xs ys : List String} (hperm : xs.Perm ys)
    (hxs : xs.Pairwise fun a b => bytesLE a b = true) (hys : ys.Pairwise fun a b => bytesLE a b = true) : xs = ys :=
  hperm.eq_of_pairwise (fun _ _ _ _ => bytesLE_antisymm) hxs hys

theorem sorted_mergeSort (paths : List String) : (paths.mergeSort bytesLE).Pairwise fun a b => bytesLE a b = true :=
  List.pairwise_mergeSort bytesLE_trans bytesLE_total paths

theorem mergeSort_eq_of_perm {xs ys : List String} (h : xs.Perm ys) : xs.mergeSort bytesLE = ys.mergeSort bytesLE := by
  have hperm := ((List.mergeSort_perm xs bytesLE).trans h).trans (List.mergeSort_perm ys bytesLE).symm
  exact eq_of_perm_of_sorted hperm (sorted_mergeSort xs) (sorted_mergeSort ys)

/-- The canonical paths of the config files among what a walk has come by, in order: one for each of them, and no two
alike where names are texts. -/
structure Lists (visited : List Visited) (paths : List String) : Prop where
  canonical : ∀ path ∈ paths, Path.Canonical path
  sorted : paths.Pairwise fun a b => bytesLE a b = true
  perm : paths.Perm ((visited.filter Visited.isConfig).map Visited.text)
  nodup : (∀ v ∈ visited.filter Visited.isConfig, v.Textual) →
    ((visited.filter Visited.isConfig).map Visited.way).Nodup → paths.Nodup

namespace Tree

mutual

/-- The ways to the config files in a tree that is reached by `way`. -/
def configWays (hidden : Location → Bool → Bool) (way : Location) : Tree → List Location
  | .file _ => if FileNames.isConfig (way.getLastD "") then [way] else []
  | .directory entries => configWaysIn hidden way entries

/-- The ways to the config files among the entries of a directory that is reached by `way`. -/
def configWaysIn (hidden : Location → Bool → Bool) (way : Location) :
    List (String × Tree) → List Location
  | [] => []
  | (name, t) :: rest =>
    (if passedOver hidden way name t then [] else configWays hidden (way ++ [name]) t) ++
      configWaysIn hidden way rest

end

/-- A way as a path. Backslashes in names become slashes, as they do in canonical paths. -/
def wayText (way : Location) : String :=
  String.ofList ((Path.link (way.map String.toList)).map Path.slashed)

/-- Whether a text can be the name of an entry and be written in a path as it is. -/
def isEntryName (name : String) : Bool :=
  !(["", ".", ".."].contains name) && !name.toList.contains '/' && !name.toList.contains '\\'

mutual

/-- Whether in a tree the entries of every directory have different names that can be written in a path. -/
def wellNamed : Tree → Bool
  | .file _ => true
  | .directory entries => wellNamedIn entries

/-- Whether the entries of a directory have different names that can be written in a path, and those below
them as well. -/
def wellNamedIn : List (String × Tree) → Bool
  | [] => true
  | (name, t) :: rest =>
    isEntryName name && !(rest.map Prod.fst).contains name && wellNamed t && wellNamedIn rest

end

theorem wellNamedIn_cons {name : String} {t : Tree} {rest : List (String × Tree)}
    (h : wellNamedIn ((name, t) :: rest) = true) :
    isEntryName name = true ∧ name ∉ rest.map Prod.fst ∧ t.wellNamed = true ∧ wellNamedIn rest = true := by
  simpa [wellNamedIn, and_assoc] using h

/-! ## Ways -/

/-- `found` goes on from `way` through names of entries. -/
def GoesOn (way found : Location) : Prop :=
  ∃ rest, found = way ++ rest ∧ ∀ name ∈ rest, isEntryName name = true

/-- `found` goes on from `way` through one of some entries. -/
def GoesThrough (entries : List (String × Tree)) (way found : Location) : Prop :=
  ∃ name ∈ entries.map Prod.fst, isEntryName name = true ∧ GoesOn (way ++ [name]) found

variable {hidden : Location → Bool → Bool} {way found : Location}

theorem GoesThrough.exists_rest {entries : List (String × Tree)} (h : GoesThrough entries way found) :
    ∃ rest, found = way ++ rest ∧ rest ≠ [] ∧ ∀ name ∈ rest, isEntryName name = true := by
  obtain ⟨name, -, hname, rest, rfl, hrest⟩ := h
  exact ⟨name :: rest, by simp, by simp, List.forall_mem_cons.mpr ⟨hname, hrest⟩⟩

theorem GoesThrough.goesOn {entries : List (String × Tree)} (h : GoesThrough entries way found) :
    GoesOn way found := by
  obtain ⟨rest, hfound, -, hrest⟩ := h.exists_rest
  exact ⟨rest, hfound, hrest⟩

mutual

theorem goesOn_of_mem_configWays (way : Location) : ∀ {t : Tree}, t.wellNamed = true →
    ∀ found ∈ configWays hidden way t, GoesOn way found
  | .file _, _, found, hmem => by
      unfold configWays at hmem
      split at hmem
      · obtain rfl := List.mem_singleton.mp hmem
        exact ⟨[], by simp, by simp⟩
      · cases hmem
  | .directory _, h, found, hmem => (goesThrough_of_mem_configWaysIn way h found hmem).goesOn

theorem goesThrough_of_mem_configWaysIn (way : Location) : ∀ {entries : List (String × Tree)},
    wellNamedIn entries = true → ∀ found ∈ configWaysIn hidden way entries, GoesThrough entries way found
  | [], _, _, hmem => by cases hmem
  | (name, t) :: rest, h, found, hmem => by
      obtain ⟨hname, -, ht, hrest⟩ := wellNamedIn_cons h
      rw [configWaysIn, List.mem_append] at hmem
      rcases hmem with hmem | hmem
      · split at hmem
        · cases hmem
        · exact ⟨name, by simp, hname, goesOn_of_mem_configWays (way ++ [name]) ht found hmem⟩
      · obtain ⟨other, hother, hgoes⟩ := goesThrough_of_mem_configWaysIn way hrest found hmem
        exact ⟨other, List.mem_cons_of_mem name hother, hgoes⟩

end

/-- Ways that go on through different names are different. -/
theorem name_eq_of_goesOn {name other : String} (h : GoesOn (way ++ [name]) found)
    (h' : GoesOn (way ++ [other]) found) : name = other := by
  obtain ⟨rest, hfound, -⟩ := h
  obtain ⟨rest', hfound', -⟩ := h'
  rw [hfound, List.append_assoc, List.append_assoc, List.append_cancel_left_eq] at hfound'
  exact (List.cons.inj hfound').1

mutual

theorem nodup_configWays (way : Location) : ∀ {t : Tree}, t.wellNamed = true →
    (configWays hidden way t).Nodup
  | .file _, _ => by
      unfold configWays
      split
      · exact List.nodup_singleton way
      · exact List.nodup_nil
  | .directory _, h => nodup_configWaysIn way h

theorem nodup_configWaysIn (way : Location) : ∀ {entries : List (String × Tree)},
    wellNamedIn entries = true → (configWaysIn hidden way entries).Nodup
  | [], _ => List.nodup_nil
  | (name, t) :: rest, h => by
      obtain ⟨-, hnew, ht, hrest⟩ := wellNamedIn_cons h
      rw [configWaysIn, List.nodup_append']
      refine ⟨?_, nodup_configWaysIn way hrest, fun found hfound hmem => ?_⟩
      · split
        · exact List.nodup_nil
        · exact nodup_configWays (way ++ [name]) ht
      -- A way through `name` is none of those through the other entries.
      · obtain ⟨other, hother, -, hgoes⟩ := goesThrough_of_mem_configWaysIn way hrest found hmem
        split at hfound
        · cases hfound
        · have hgoes' := goesOn_of_mem_configWays (way ++ [name]) ht found hfound
          exact hnew (name_eq_of_goesOn hgoes' hgoes ▸ hother)

end

/-! ## Ways as paths -/

theorem isName_of_isEntryName {name : String} (h : isEntryName name = true) :
    Path.IsName name.toList ∧ '\\' ∉ name.toList := by
  simp only [isEntryName, Bool.and_eq_true, Bool.not_eq_true', List.contains_eq_mem, List.mem_cons,
    List.not_mem_nil, or_false, decide_eq_false_iff_not, not_or] at h
  obtain ⟨⟨⟨hempty, hhere, hup⟩, hslash⟩, hback⟩ := h
  refine ⟨⟨?_, ?_, ?_, hslash⟩, hback⟩
  · exact fun heq => hempty (String.toList_injective heq)
  · exact fun heq => hhere (String.toList_injective heq)
  · exact fun heq => hup (String.toList_injective heq)

theorem downward_of_isEntryName (h : ∀ name ∈ way, isEntryName name = true) :
    Path.Downward (way.map String.toList) := by
  constructor
  · intro piece hpiece
    obtain ⟨name, hname, rfl⟩ := List.mem_map.mp hpiece
    exact (isName_of_isEntryName (h name hname)).1
  · intro piece hpiece
    obtain ⟨name, hname, rfl⟩ := List.mem_map.mp hpiece
    exact (isName_of_isEntryName (h name hname)).2

theorem wayText_eq_down (hne : way ≠ []) (h : ∀ name ∈ way, isEntryName name = true) :
    wayText way = Path.down (way.map String.toList) :=
  (downward_of_isEntryName h).ofList_link (by simpa using hne)

theorem wayText_inj {way' : Location} (hne : way ≠ []) (hne' : way' ≠ [])
    (h : ∀ name ∈ way, isEntryName name = true) (h' : ∀ name ∈ way', isEntryName name = true)
    (heq : wayText way = wayText way') : way = way' := by
  rw [wayText_eq_down hne h, wayText_eq_down hne' h',
    (downward_of_isEntryName h).down_inj (downward_of_isEntryName h')] at heq
  exact List.map_injective_iff.mpr (fun _ _ => String.toList_injective) heq

/-! ## What the walk finds -/

/-- The config file at the end of a way, as the walk comes by it. -/
def visitedAt (way : Location) : Visited := ⟨way.map nameBytes, nameBytes (way.getLastD ""), true⟩

theorem text_visitedAt (way : Location) : (visitedAt way).text = wayText way := by
  simp [Visited.text, visitedAt, wayText, nameBytes, Utf8.lossy_encode, Function.comp_def]

theorem isConfig_text (way : List Bytes) (name : String) :
    Visited.isConfig ⟨way, nameBytes name, true⟩ = FileNames.isConfig name := by
  simp [Visited.isConfig, nameBytes, Utf8.decode?, Utf8.decode_encode]

mutual

theorem filter_walk (way : Location) (name : String) : ∀ t : Tree,
    (walk hidden (way ++ [name]) name t).filter Visited.isConfig =
      (configWays hidden (way ++ [name]) t).map visitedAt
  | .file content => by
      rw [walk, configWays, List.filter_cons, isConfig_text, List.filter_nil, List.getLastD_concat]
      cases FileNames.isConfig name with
      | true => simp [visitedAt]
      | false => rfl
  | .directory entries => by
      rw [walk, configWays, ← filter_walkIn (way ++ [name]) entries]
      rfl

theorem filter_walkIn (way : Location) : ∀ entries : List (String × Tree),
    (walkIn hidden way entries).filter Visited.isConfig = (configWaysIn hidden way entries).map visitedAt
  | [] => rfl
  | (name, t) :: rest => by
      rw [walkIn, configWaysIn, List.filter_append, List.map_append, filter_walkIn way rest]
      cases passedOver hidden way name t with
      | true => rfl
      | false => exact congrArg (· ++ _) (filter_walk way name t)

end

theorem configFiles_eq (hidden : Location → Bool → Bool) (entries : List (String × Tree)) :
    configFiles hidden entries = ((configWaysIn hidden [] entries).map wayText).mergeSort bytesLE := by
  rw [configFiles, listing, filter_walkIn, List.map_map]
  simp only [Function.comp_def, text_visitedAt]

theorem listing_walk (hidden : Location → Bool → Bool) (name : String) (entries : List (String × Tree)) :
    listing (walk hidden [] name (.directory entries)) = configFiles hidden entries := rfl

/-! ## The listing -/

/-- Canonical paths in order, each of them once. -/
structure Listed (paths : List String) : Prop where
  canonical : ∀ path ∈ paths, Path.Canonical path
  nodup : paths.Nodup
  sorted : paths.Pairwise fun a b => bytesLE a b = true

theorem listed_configFiles {entries : List (String × Tree)} (h : wellNamedIn entries = true)
    (hidden : Location → Bool → Bool) : Listed (configFiles hidden entries) := by
  have hways : ∀ way ∈ configWaysIn hidden [] entries,
      way ≠ [] ∧ ∀ name ∈ way, isEntryName name = true := by
    intro way hway
    obtain ⟨rest, rfl, hne, hrest⟩ := (goesThrough_of_mem_configWaysIn [] h way hway).exists_rest
    exact ⟨hne, hrest⟩
  have hperm := List.mergeSort_perm ((configWaysIn hidden [] entries).map wayText) bytesLE
  rw [configFiles_eq]
  refine ⟨fun path hpath => ?_, hperm.nodup_iff.mpr ?_, ?_⟩
  · obtain ⟨way, hway, rfl⟩ := List.mem_map.mp (hperm.mem_iff.mp hpath)
    rw [wayText_eq_down (hways way hway).1 (hways way hway).2]
    exact (downward_of_isEntryName (hways way hway).2).canonical_down
  · refine (nodup_configWaysIn [] h).map_on fun way hway way' hway' heq => ?_
    exact wayText_inj (hways way hway).1 (hways way' hway').1 (hways way hway).2 (hways way' hway').2 heq
  · exact sorted_mergeSort _

end Tree

end ConfigChain

import ConfigChain.Proofs.Path.Segments
import ConfigChain.Workspace
import Mathlib.Data.List.Infix
import Mathlib.Data.List.Nodup

/-! # Packages on the way up

A package is looked for from a directory upwards, in each directory once, the nearest first. The walk ends early in
a directory whose path begins with two dots, since this is how a path that climbs begins: where a name begins so,
nothing above the nearest level is looked at, or above the next one if only a detour in front of the name hides the
dots. -/

namespace ConfigChain

namespace Path

variable {p : String}

/-! ## Levels -/

/-- The directories from a path that never climbs up to where it counts from, the nearest first. -/
def levels (p : String) : List String := (segments p).inits.reverse.map down

theorem inits_concat {α : Type} (front : List α) (last : α) :
    (front ++ [last]).inits = front.inits ++ [front ++ [last]] := by
  simp [List.inits_append]

theorem reverse_inits_concat {α : Type} (front : List α) (last : α) :
    (front ++ [last]).inits.reverse = (front ++ [last]) :: front.inits.reverse := by
  rw [inits_concat, List.reverse_concat]

theorem reverse_inits_eq_cons {α : Type} (xs : List α) : xs.inits.reverse = xs :: xs.inits.reverse.tail := by
  rcases xs.eq_nil_or_concat' with rfl | ⟨front, last, rfl⟩
  · rfl
  · rw [reverse_inits_concat, List.tail_cons]

theorem levels_eq_cons (p : String) : levels p = down (segments p) :: (levels p).tail := by
  rw [levels, reverse_inits_eq_cons, List.map_cons, List.tail_cons]

theorem tail_levels (h : segments p ≠ []) :
    (levels p).tail = (segments p).dropLast.inits.reverse.map down := by
  obtain ⟨front, last, hconcat⟩ := (segments p).eq_nil_or_concat'.resolve_left h
  rw [levels, hconcat, reverse_inits_concat, List.map_cons, List.tail_cons, List.dropLast_concat]

theorem take_two_levels (h : segments p ≠ []) :
    (levels p).take 2 = [down (segments p), down (segments p).dropLast] := by
  rw [levels_eq_cons, tail_levels h, reverse_inits_eq_cons]
  rfl

theorem cons_tail_take_levels {count : Nat} (h : 0 < count) :
    down (segments p) :: ((levels p).take count).tail = (levels p).take count := by
  obtain ⟨count, rfl⟩ := Nat.exists_eq_add_one.mpr h
  rw [levels_eq_cons, List.take_succ_cons, List.tail_cons]

theorem nodup_inits {α : Type} (xs : List α) : xs.inits.Nodup := by
  induction xs using List.reverseRecOn with
  | nil => exact List.nodup_singleton []
  | append_singleton front last ih =>
      rw [inits_concat]
      refine ih.append (List.nodup_singleton _) (List.disjoint_singleton.mpr fun hmem => ?_)
      have hle := ((List.mem_inits _ front).mp hmem).length_le
      rw [List.length_append, List.length_singleton] at hle
      omega

theorem Inside.nodup_levels (h : Inside p) (hp : Plain p) : (levels p).Nodup := by
  have hfound {front : List (List Char)} (hmem : front ∈ (segments p).inits.reverse) :
      segments (down front) = front := by
    have hopens := (List.mem_inits _ _).mp (List.mem_reverse.mp hmem)
    exact ((h.downward hp).subset hopens.subset).segments_down
  refine (List.nodup_reverse.mpr (nodup_inits (segments p))).map_on ?_
  intro front hfront front' hfront' heq
  rw [← hfound hfront, heq, hfound hfront']

/-! ## Two dots -/

/-- A path whose first segment begins with two dots. -/
def StartsDotted (p : String) : Prop := ∃ first ∈ (segments p).head?, ['.', '.'] <+: first

instance (p : String) : Decidable (StartsDotted p) :=
  inferInstanceAs (Decidable (∃ first ∈ (segments p).head?, ['.', '.'] <+: first))

theorem StartsDotted.segments_ne_nil (h : StartsDotted p) : segments p ≠ [] := by
  obtain ⟨first, hfirst, -⟩ := h
  rintro hnil
  rw [hnil] at hfirst
  cases hfirst

/-- A text that begins with two dots begins with a segment that does. -/
theorem startsDotted_of_dots_prefix (hdots : ['.', '.'] <+: p.toList) : StartsDotted p := by
  obtain ⟨cs, hcs⟩ := hdots
  obtain ⟨piece, rest, -, hinner⟩ := pieces_cons (show '.' ≠ '/' by decide) cs
  obtain ⟨piece', rest', hinner', houter⟩ := pieces_cons (show '.' ≠ '/' by decide) ('.' :: cs)
  obtain ⟨rfl, rfl⟩ := List.cons.inj (hinner'.symm.trans hinner)
  have hsegments : segments p = ('.' :: '.' :: piece) :: rest'.filter leads := by
    rw [segments, ← hcs, List.cons_append, List.singleton_append, houter, List.filter_cons_of_pos]
    simp [leads]
  exact ⟨_, by rw [hsegments]; rfl, piece, rfl⟩

theorem dots_prefix_down {first : List Char} (h : ['.', '.'] <+: first) (rest : List (List Char)) :
    ['.', '.'] <+: (down (first :: rest)).toList := by
  have hlink : first <+: link (first :: rest) := by
    cases rest with
    | nil => exact List.prefix_rfl
    | cons next rest => exact List.prefix_append _ _
  rw [down_of_ne_nil (List.cons_ne_nil _ _), String.toList_ofList]
  exact h.trans hlink

theorem Inside.dots_prefix (h : Inside p) (hp : Canonical p) (hdotted : StartsDotted p) :
    ['.', '.'] <+: p.toList := by
  obtain ⟨first, hfirst, hdots⟩ := hdotted
  obtain ⟨rest, hsegments⟩ := List.head?_eq_some_iff.mp hfirst
  rw [h.eq_down hp, hsegments]
  exact dots_prefix_down hdots rest

/-! ## The directory above -/

theorem Inside.directory_eq (h : Inside p) (hp : Plain p) : directory p = down (segments p).dropLast := by
  have houter (names : List (List Char)) : Place.outer ⟨false, 0, names⟩ = ⟨false, 0, names.tail⟩ := by
    cases names <;> rfl
  apply String.toList_injective
  rw [toList_directory hp, h.place_eq, houter, List.tail_reverse, toList_down]

end Path

namespace Resolver

open ConfigChain.Path (Canonical Inside Plain StartsDotted)

variable {dir reference : String}

/-! ## The walk -/

theorem upwards_of_isTop (h : isTop dir = true) : upwards dir = [dir] := by
  rw [upwards, if_pos h]

theorem upwards_of_not_isTop (h : isTop dir = false) : upwards dir = dir :: upwards (Path.directory dir) := by
  rw [upwards, if_neg (by simp [h])]

theorem isTop_of_startsDotted (hin : Inside dir) (hdir : Canonical dir) (h : StartsDotted dir) :
    isTop dir = true := by
  have hprefix := List.isPrefixOf_iff_prefix.mpr (hin.dots_prefix hdir h)
  simp [isTop, hprefix]

theorem isTop_eq_false (hin : Inside dir) (hdots : ['.', '.'].isPrefixOf dir.toList = false) (hne : dir ≠ ".") :
    isTop dir = false := by
  simp [isTop, hne, hdots, hin.1]

theorem dots_prefix_eq_false (h : ¬ StartsDotted dir) : ['.', '.'].isPrefixOf dir.toList = false :=
  Bool.eq_false_iff.mpr fun hprefix => h (Path.startsDotted_of_dots_prefix (List.isPrefixOf_iff_prefix.mp hprefix))

theorem ne_here_of_segments_ne_nil (h : Path.segments dir ≠ []) : dir ≠ "." := by
  rintro rfl
  exact h (by decide)

/-- From a way down the walk takes back one name after the other. -/
theorem upwards_down {names : List (List Char)} (h : Path.Downward names)
    (hdot : ∀ first ∈ names.head?, ¬ ['.', '.'] <+: first) :
    upwards (Path.down names) = names.inits.reverse.map Path.down := by
  induction names using List.reverseRecOn with
  | nil => exact upwards_of_isTop isTop_here
  | append_singleton front last ih =>
      have hhead : ∀ first ∈ front.head?, ¬ ['.', '.'] <+: first := fun first hfirst =>
        hdot first (by rw [List.head?_append, hfirst]; rfl)
      have hstarts : ¬ StartsDotted (Path.down (front ++ [last])) := by
        rintro ⟨first, hfirst, hdots⟩
        exact hdot first (h.segments_down ▸ hfirst) hdots
      have hgoes := isTop_eq_false h.inside_down (dots_prefix_eq_false hstarts)
        (ne_here_of_segments_ne_nil (by simp [h.segments_down]))
      rw [upwards_of_not_isTop hgoes, h.inside_down.directory_eq h.plain_down, h.segments_down, List.dropLast_concat,
        ih (h.subset (List.subset_append_left _ _)) hhead, Path.reverse_inits_concat, List.map_cons]

/-- Unless the path begins with two dots the walk visits every level, the nearest one as it is spelled. -/
theorem upwards_eq (hin : Inside dir) (hdir : Plain dir) (hdot : ¬ StartsDotted dir)
    (hne : Path.segments dir ≠ []) : upwards dir = dir :: (Path.levels dir).tail := by
  have hhead : ∀ first ∈ (Path.segments dir).dropLast.head?, ¬ ['.', '.'] <+: first := by
    intro first hfirst hdots
    rw [List.head?_dropLast] at hfirst
    split at hfirst
    · exact hdot ⟨first, hfirst, hdots⟩
    · cases hfirst
  have habove := (hin.downward hdir).subset (List.dropLast_subset _)
  have hgoes := isTop_eq_false hin (dots_prefix_eq_false hdot) (ne_here_of_segments_ne_nil hne)
  rw [upwards_of_not_isTop hgoes, hin.directory_eq hdir, upwards_down habove hhead, Path.tail_levels hne]

/-- Where no name is left but the path is not spelled so, the walk comes to the same directory again. -/
theorem upwards_of_segments_eq_nil (hin : Inside dir) (hdir : Plain dir) (h : Path.segments dir = [])
    (hne : dir ≠ ".") : upwards dir = [dir, "."] := by
  have hdot : ¬ StartsDotted dir := fun hdot => hdot.segments_ne_nil h
  rw [upwards_of_not_isTop (isTop_eq_false hin (dots_prefix_eq_false hdot) hne), hin.directory_eq hdir, h,
    List.dropLast_nil, show Path.down [] = "." from rfl, upwards_of_isTop isTop_here]

/-- How many levels are visited from a path that begins with two dots: unless its text does so, too, the nearest
directory is left, and the next one ends the walk. -/
def visited (dir : String) : Nat := if ['.', '.'].isPrefixOf dir.toList then 1 else 2

theorem visited_pos (dir : String) : 0 < visited dir := by
  unfold visited
  split <;> decide

theorem visited_of_canonical (hin : Inside dir) (hdir : Canonical dir) (h : StartsDotted dir) : visited dir = 1 :=
  if_pos (List.isPrefixOf_iff_prefix.mpr (hin.dots_prefix hdir h))

theorem isTop_down_dropLast (hin : Inside dir) (hdir : Plain dir) (h : StartsDotted dir) :
    isTop (Path.down (Path.segments dir).dropLast) = true := by
  obtain ⟨first, hfirst, hdots⟩ := h
  have habove := (hin.downward hdir).subset (List.dropLast_subset _)
  by_cases hnil : (Path.segments dir).dropLast = []
  · rw [hnil]
    exact isTop_here
  · refine isTop_of_startsDotted habove.inside_down habove.canonical_down ⟨first, ?_, hdots⟩
    have hlong : 1 < (Path.segments dir).length := by
      have := List.length_pos_of_ne_nil hnil
      rw [List.length_dropLast] at this
      omega
    rw [habove.segments_down, List.head?_dropLast, if_pos hlong]
    exact hfirst

theorem upwards_of_startsDotted (hin : Inside dir) (hdir : Plain dir) (h : StartsDotted dir) :
    upwards dir = dir :: ((Path.levels dir).take (visited dir)).tail := by
  have hne := h.segments_ne_nil
  cases hdots : ['.', '.'].isPrefixOf dir.toList with
  | true =>
      have hvisited : visited dir = 1 := if_pos hdots
      rw [upwards_of_isTop (by simp [isTop, hdots]), hvisited, Path.levels_eq_cons]
      rfl
  | false =>
      have hvisited : visited dir = 2 := if_neg (by simp [hdots])
      rw [upwards_of_not_isTop (isTop_eq_false hin hdots (ne_here_of_segments_ne_nil hne)), hin.directory_eq hdir,
        upwards_of_isTop (isTop_down_dropLast hin hdir h), hvisited, Path.take_two_levels hne, List.tail_cons]

/-! ## The packages that are found -/

/-- The candidates in the packages that are found at some levels, level by level. -/
def Packages.gathered (p : Packages) (reference : String) (levels : List String) : List String :=
  (levels.filter fun level => p.found (installed level reference)).flatMap fun level =>
    p.candidates (installed level reference) reference

/-- A name that is looked up, and not taken as a path. -/
structure Named (reference : String) : Prop where
  ne_empty : reference ≠ ""
  not_relative : Path.isRelative reference = false
  not_absolute : Path.isAbsolute reference = false

theorem Packages.gathered_append (p : Packages) (reference : String) (near far : List String) :
    p.gathered reference (near ++ far) = p.gathered reference near ++ p.gathered reference far := by
  rw [gathered, List.filter_append, List.flatMap_append, gathered, gathered]

theorem Packages.gathered_singleton (p : Packages) (reference level : String) :
    p.gathered reference [level] = if p.found (installed level reference) then
      p.candidates (installed level reference) reference else [] := by
  unfold gathered
  cases hfound : p.found (installed level reference) with
  | true => simp [hfound]
  | false => simp [hfound]

theorem package_eq_gathered (p : Packages) (dir : String) (h : Named reference) :
    package p dir reference = p.gathered reference (upwards (Path.normalize dir)) := by
  rw [package, if_neg h.ne_empty, if_neg (by simp [h.not_relative, h.not_absolute])]
  induction upwards (Path.normalize dir) with
  | nil => rfl
  | cons level rest ih =>
      rw [List.flatMap_cons, ih, ← Packages.gathered_singleton, ← Packages.gathered_append, List.singleton_append]

theorem Packages.candidates_ne_nil (p : Packages) (package reference : String) :
    p.candidates package reference ≠ [] := by
  unfold candidates
  split <;> simp

theorem Packages.gathered_eq_nil_iff (p : Packages) (reference : String) (levels : List String) :
    p.gathered reference levels = [] ↔ ∀ level ∈ levels, p.found (installed level reference) = false := by
  simp [gathered, List.flatMap_eq_nil_iff, p.candidates_ne_nil]

/-- A package is looked for in a directory, however its path is spelled. -/
theorem installed_congr {level other : String} (h : Plain level) (h' : Plain other)
    (hplace : Path.place level.toList = Path.place other.toList) (reference : String) :
    installed level reference = installed other reference := by
  have hpackages : Plain FileNames.packages := by decide
  have hjoin : Path.join level FileNames.packages = Path.join other FileNames.packages := by
    apply (Path.canonical_join h hpackages).eq_of_place_eq (Path.canonical_join h' hpackages)
    rw [Path.place_join h hpackages, Path.place_join h' hpackages, hplace]
  rw [installed, installed, hjoin]

end Resolver

namespace Workspace

open ConfigChain.Path (Canonical Inside Plain StartsDotted levels)
open ConfigChain.Resolver (Named installed visited)

/-- A package is looked for once in every level, the nearest first, unless the path of the directory begins with
two dots. Then only the nearest level is visited, or two where the path has a detour in front, which makes a
difference exactly when the package is in another level. Where nothing but a detour is left of the path, the only
level is visited twice. -/
theorem package_levels (w : Workspace) {dir reference : String} (hin : Inside (Path.normalize dir))
    (href : Named reference) :
    (levels (Path.normalize dir)).Nodup ∧
      (¬ StartsDotted (Path.normalize dir) → Path.normalize dir = "." ∨ Path.segments (Path.normalize dir) ≠ [] →
        w.resolver .package dir reference = w.packages.gathered reference (levels (Path.normalize dir))) ∧
      (StartsDotted (Path.normalize dir) →
        (Canonical (Path.normalize dir) → visited (Path.normalize dir) = 1) ∧
        w.resolver .package dir reference =
          w.packages.gathered reference ((levels (Path.normalize dir)).take (visited (Path.normalize dir))) ∧
        (w.resolver .package dir reference = w.packages.gathered reference (levels (Path.normalize dir)) ↔
          ∀ level ∈ (levels (Path.normalize dir)).drop (visited (Path.normalize dir)),
            w.packages.found (installed level reference) = false)) ∧
      (Path.segments (Path.normalize dir) = [] → Path.normalize dir ≠ "." →
        w.resolver .package dir reference = w.packages.gathered reference [".", "."]) := by
  have hplain := Path.plain_normalize dir
  have hpackage : w.resolver .package dir reference =
      w.packages.gathered reference (Resolver.upwards (Path.normalize dir)) :=
    Resolver.package_eq_gathered w.packages dir href
  have hnearest (rest : List String) : w.packages.gathered reference (Path.normalize dir :: rest) =
      w.packages.gathered reference (Path.down (Path.segments (Path.normalize dir)) :: rest) := by
    have hdownward := hin.downward hplain
    have hinstalled := Resolver.installed_congr hplain hdownward.plain_down
      (by rw [hin.place_eq, hdownward.place_down]) reference
    rw [← List.singleton_append, Resolver.Packages.gathered_append, Resolver.Packages.gathered_singleton, hinstalled,
      ← Resolver.Packages.gathered_singleton, ← Resolver.Packages.gathered_append, List.singleton_append]
  refine ⟨hin.nodup_levels hplain, fun hdot hne => ?_, fun hdot => ?_, fun hnil hne => ?_⟩
  · rcases hne with hhere | hne
    · rw [hpackage, hhere, Resolver.upwards_of_isTop Resolver.isTop_here]
      rfl
    · rw [hpackage, Resolver.upwards_eq hin hplain hdot hne, hnearest, ← Path.levels_eq_cons]
  · have hvisited : w.resolver .package dir reference =
        w.packages.gathered reference ((levels (Path.normalize dir)).take (visited (Path.normalize dir))) := by
      rw [hpackage, Resolver.upwards_of_startsDotted hin hplain hdot, hnearest,
        Path.cons_tail_take_levels (Resolver.visited_pos _)]
    refine ⟨fun hcanonical => Resolver.visited_of_canonical hin hcanonical hdot, hvisited, ?_⟩
    rw [hvisited, ← Resolver.Packages.gathered_eq_nil_iff, ← List.self_eq_append_right,
      ← Resolver.Packages.gathered_append, List.take_append_drop]
  · rw [hpackage, Resolver.upwards_of_segments_eq_nil hin hplain hnil hne, hnearest, hnil]
    rfl

/-- A package that is installed for the workspace, where it names its config file, and again in a directory. The
walk finds both unless the name with two dots opens the path; from a detour that leads nowhere it finds one twice. -/
theorem package_levels_both :
    let strict : Bytes := Utf8.encode "\x7b\"tsconfig\":\"strict.json\"\x7d".toList
    let lower : Tree := .directory [("node_modules", .directory [("cfg.json", .file [])])]
    let upper : Tree := .directory [("cfg", .directory [("package.json", .file strict)])]
    let top : Tree := .directory [("lib", .directory [("..h", lower)]), ("..h", lower), ("node_modules", upper)]
    let w : Workspace := ⟨⟨top, [], []⟩, "/"⟩
    Named "cfg" ∧
      Inside (Path.normalize "lib/./..h") ∧ ¬ StartsDotted (Path.normalize "lib/./..h") ∧
      w.resolver .package "lib/./..h" "cfg" =
        ["lib/..h/node_modules/cfg/tsconfig.json", "lib/..h/node_modules/cfg.json",
          "node_modules/cfg/strict.json", "node_modules/cfg/tsconfig.json", "node_modules/cfg.json"] ∧
      Inside (Path.normalize "..h") ∧ StartsDotted (Path.normalize "..h") ∧
      w.resolver .package "..h" "cfg" = ["..h/node_modules/cfg/tsconfig.json", "..h/node_modules/cfg.json"] ∧
      w.resolver .package "..h" "cfg" ≠ w.packages.gathered "cfg" (levels (Path.normalize "..h")) ∧
      Inside (Path.normalize ".\\") ∧ Path.segments (Path.normalize ".\\") = [] ∧
      w.resolver .package ".\\" "cfg" =
        ["node_modules/cfg/strict.json", "node_modules/cfg/tsconfig.json", "node_modules/cfg.json",
          "node_modules/cfg/strict.json", "node_modules/cfg/tsconfig.json", "node_modules/cfg.json"] := by
  intro strict lower upper top w
  have hname : Named "cfg" := ⟨by decide, by decide, by decide⟩
  have hbelow : Inside (Path.normalize "lib/./..h") := by decide
  have hdotted : Inside (Path.normalize "..h") := by decide
  have hhere : Inside (Path.normalize ".\\") := by decide
  have hplain : ¬ StartsDotted (Path.normalize "lib/./..h") := by decide
  have hstarts : StartsDotted (Path.normalize "..h") := by decide
  obtain ⟨-, hall, -, -⟩ := w.package_levels hbelow hname
  obtain ⟨-, -, hnear, -⟩ := w.package_levels hdotted hname
  obtain ⟨-, -, -, htwice⟩ := w.package_levels hhere hname
  obtain ⟨-, hnearest, hexactly⟩ := hnear hstarts
  refine ⟨hname, hbelow, hplain, ?_, hdotted, hstarts, ?_, ?_, hhere, by decide, ?_⟩
  · rw [hall hplain (.inr (by decide))]
    decide +kernel
  · rw [hnearest]
    decide +kernel
  · exact fun h => absurd (hexactly.mp h) (by decide +kernel)
  · rw [htwice (by decide) (by decide)]
    decide +kernel

/-- Two dots at the front of a name hide the package that is installed for the whole workspace. -/
theorem package_walk_cut_off :
    let package : Tree := .directory [("tsconfig.json", .file (Utf8.encode "\x7b\x7d".toList))]
    let w : Workspace := ⟨⟨.directory [("node_modules", .directory [("cfg", package)])], [], []⟩, "/"⟩
    Inside (Path.normalize "..h") ∧ Named "cfg" ∧ levels (Path.normalize "..h") = ["..h", "."] ∧
      w.packages.gathered "cfg" ["..h", "."] = ["node_modules/cfg/tsconfig.json", "node_modules/cfg.json"] ∧
      w.resolver .package "..h" "cfg" = [] := by
  intro package w
  have hname : Named "cfg" := ⟨by decide, by decide, by decide⟩
  refine ⟨by decide, hname, by decide, by decide +kernel, ?_⟩
  rw [resolver, Resolver.package_eq_gathered w.packages "..h" hname, Resolver.upwards_of_isTop (by decide)]
  decide +kernel

end Workspace

end ConfigChain

import ConfigChain.Proofs.Expansion.Candidates
import ConfigChain.Proofs.Settings.Chained

/-! # Candidates move with the config

Wherever a config is put, a specifier means the same paths as seen from there. Aliases count from a directory that
counts from the config, and the specifier itself from a directory that does; joining is associative, so for both
it is the same whether the directory of the config comes first or last. -/

namespace ConfigChain

open ConfigChain.Path (Plain)

/-! ## What templates come to -/

theorem Fits.mem_of_mem_capture {pattern specifier : List Char} {found : Match}
    (h : Fits pattern specifier found) {capture : List Char} (hcapture : found.capture = some capture) {c : Char}
    (hc : c ∈ capture) : c ∈ specifier := by
  cases h with
  | whole hstar => cases hcapture
  | around hbefore hafter capture' =>
      cases hcapture
      exact List.mem_append_left _ (List.mem_append_right _ hc)

theorem Fills.mem_of_mem {template filled : List Char} {capture : Option (List Char)}
    (h : Fills template capture filled) {c : Char} (hc : c ∈ filled) :
    c ∈ template ∨ ∃ text ∈ capture, c ∈ text := by
  cases h with
  | unchanged => exact .inl hc
  | starless => exact .inl hc
  | star hbefore after capture' =>
      rcases List.mem_append.mp hc with hc | hc
      · rcases List.mem_append.mp hc with hc | hc
        · exact .inl (List.mem_append_left _ hc)
        · exact .inr ⟨capture', rfl, hc⟩
      · exact .inl (List.mem_append_right _ (List.mem_cons_of_mem _ hc))

/-- A template that is filled from a specifier holds a backslash only if one of the two does. -/
theorem plain_fill {row : Alias} {template specifier : String} {found : Match} (htemplate : Plain template)
    (hspecifier : Plain specifier) (hfits : Fits row.pattern.toList specifier.toList found) :
    Plain (String.ofList (fill template.toList found.capture)) := by
  rw [Plain, String.toList_ofList]
  intro hmem
  rcases (fills_fill template.toList found.capture).mem_of_mem hmem with hmem | ⟨text, htext, hmem⟩
  · exact htemplate hmem
  · exact hspecifier (hfits.mem_of_mem_capture htext hmem)

/-- A hit comes from a row that matches. -/
theorem AliasTable.exists_row_of_mem_sorted {t : AliasTable} {specifier : String} {hit : Hit}
    (h : hit ∈ Hit.sorted (t.hits specifier)) :
    ∃ row ∈ t.rows, Fits row.pattern.toList specifier.toList hit.found ∧ row.templates = hit.templates := by
  rw [Hit.sorted, List.mem_mergeSort, hits, List.mem_filterMap] at h
  obtain ⟨row, hrow, hhit⟩ := h
  obtain ⟨found, hfound, rfl⟩ := Option.map_eq_some_iff.mp hhit
  exact ⟨row, hrow, (Match.of?_eq_some_iff _ _ _).mp hfound, rfl⟩

namespace Settings

/-- No backslash is left in what aliases stand for. -/
structure PlainAliases (s : Settings) : Prop where
  base : ∀ table ∈ s.paths, Plain table.base
  templates : ∀ table ∈ s.paths, ∀ row ∈ table.rows, ∀ template ∈ row.templates, Plain template

/-- Settings of the same config, put into a directory. -/
def under (s : Settings) (dir : String) : Settings := { s with configDir := Path.join dir s.configDir }

variable {s : Settings} {dir specifier : String}

/-! ## Candidates -/

/-- The specifier taken as a path. -/
theorem fallback_under (hs : Plain s.configDir) (hdir : Plain dir) (here specifier : String) :
    (s.under dir).fallback here specifier = Path.join dir (s.fallback here specifier) := by
  have hplain := Path.plain_join (s.fallbackDir here specifier) specifier
  exact (Path.join_assoc hdir hs hplain).symm

/-- The paths of a row that matches. -/
theorem paths_join {base : String} (hdir : Plain dir) (hbase : Plain base) {hit : Hit}
    (hfilled : ∀ template ∈ hit.templates, Plain (String.ofList (fill template.toList hit.found.capture))) :
    Hit.paths (Path.join dir base) hit = (Hit.paths base hit).map (Path.join dir) := by
  rw [Hit.paths, Hit.paths, List.map_map]
  refine List.map_congr_left fun template htemplate => ?_
  exact (Path.join_assoc hdir hbase (hfilled template htemplate)).symm

theorem aliased_under (hs : Plain s.configDir) (hplain : s.PlainAliases) (hdir : Plain dir)
    (hspecifier : Plain specifier) :
    (s.under dir).aliased specifier = (s.aliased specifier).map (Path.join dir) := by
  cases hpaths : s.paths with
  | none => simp [aliased, under, hpaths]
  | some table =>
      have hbase := Path.join_assoc hdir hs (hplain.base table hpaths)
      simp only [aliased, under, hpaths]
      split
      · rfl
      · rw [List.map_flatMap, ← hbase]
        refine List.flatMap_congr fun hit hhit => ?_
        obtain ⟨row, hrow, hfits, htemplates⟩ := AliasTable.exists_row_of_mem_sorted hhit
        refine paths_join hdir (Path.plain_join _ _) fun template htemplate => ?_
        exact plain_fill (hplain.templates table hpaths row hrow template (htemplates ▸ htemplate)) hspecifier hfits

theorem expand_under (hs : Plain s.configDir) (hplain : s.PlainAliases) (hdir : Plain dir)
    (hspecifier : Plain specifier) (here : String) :
    (s.under dir).expand here specifier = (s.expand here specifier).map (Path.join dir) := by
  rw [expand, expand, aliased_under hs hplain hdir hspecifier, fallback_under hs hdir, List.map_append,
    List.map_singleton]

/-- A config that is put into another directory gives each specifier the same candidates in the same order, as
seen through that directory. -/
theorem expand_moved (hs : s.configDir = ".") (hplain : s.PlainAliases) (hdir : Plain dir)
    (hspecifier : Plain specifier) (here : String) :
    { s with configDir := Path.normalize dir }.expand here specifier =
      (s.expand here specifier).map (Path.join dir) := by
  have hunder : { s with configDir := Path.normalize dir } = s.under dir := by
    rw [under, hs, Path.join_here hdir]
  rw [hunder]
  exact expand_under (by rw [hs]; decide) hplain hdir hspecifier here

/-- A directory above, templates that climb or are absolute, and a capture that would be absolute on its own. -/
theorem expand_moved_above :
    let t : AliasTable := ⟨"../src", [⟨"@app/*", ["app/*", "../../*", "/opt/*", "*"]⟩, ⟨"*", ["all/*"]⟩]⟩
    let s := ((plain ".").setBaseUrl "lib").setPaths t
    s.configDir = "." ∧ s.PlainAliases ∧
      { s with configDir := Path.normalize "x/../.." }.expand "here" "@app//y" =
        (s.expand "here" "@app//y").map (Path.join "x/../..") ∧
      { s with configDir := Path.normalize "x/../.." }.expand "here" "../../y" =
        (s.expand "here" "../../y").map (Path.join "x/../..") ∧
      s.expand "here" "@app//y" = ["../src/app/y", "../../y", "/opt/y", "/y", "../src/all/@app/y", "lib/@app/y"] ∧
      (s.expand "here" "@app//y").map (Path.join "x/../..") =
        ["../../src/app/y", "../../../y", "/opt/y", "/y", "../../src/all/@app/y", "../lib/@app/y"] := by
  intro t s
  have hplain : s.PlainAliases := by
    refine ⟨?_, ?_⟩
    · rintro table ⟨⟩
      decide
    · rintro table ⟨⟩
      decide
  have hsorted : Hit.sorted (t.hits "@app//y") = t.hits "@app//y" := List.mergeSort_of_pairwise (by decide)
  have hbase : s.aliasDir = "../src" := by decide
  have haliased : s.aliased "@app//y" = (t.hits "@app//y").flatMap (Hit.paths "../src") := by
    rw [← hsorted, ← hbase]
    exact s.aliased_eq (by decide)
  have hexpand : s.expand "here" "@app//y" =
      ["../src/app/y", "../../y", "/opt/y", "/y", "../src/all/@app/y", "lib/@app/y"] := by
    rw [expand, haliased]
    decide
  refine ⟨rfl, hplain, expand_moved rfl hplain (by decide) (by decide) _, expand_moved rfl hplain (by decide)
    (by decide) _, hexpand, ?_⟩
  rw [hexpand]
  decide

end Settings

end ConfigChain

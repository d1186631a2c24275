import ConfigChain.Settings
import ConfigChain.Proofs.Path.Rebasing

/-! # Settings along a chain

A chain of config files is settled from its far end: each file is laid over the settings of the one that
it extends. -/

namespace ConfigChain

namespace Settings

/-- The settings of the first of some files, each of which extends the next one. What the last of them
extends has the settings `base`. -/
def chained (base : Option Settings) : List (String × Declaration) → Option Settings
  | [] => base
  | (path, d) :: rest => some (inherit path d (chained base rest))

theorem chained_append (base : Option Settings) (front back : List (String × Declaration)) :
    chained base (front ++ back) = chained (chained base back) front := by
  induction front with
  | nil => rfl
  | cons file front ih => simp only [List.cons_append, chained, ih]

/-! ## Aliases and their directory -/

@[simp] theorem configDir_inherit (path : String) (d : Declaration) (base : Option Settings) :
    (inherit path d base).configDir = Path.directory path := by
  rw [inherit]

/-- Settings name the file that they were made for. -/
theorem configPath_inherit {path : String} (h : Path.Plain path) (d : Declaration)
    (base : Option Settings) : (inherit path d base).configPath = Path.normalize path := by
  have hname : (inherit path d base).configName = Path.fileName path := by rw [inherit]
  rw [configPath, configDir_inherit, hname, Path.join_directory_fileName h]

theorem paths_inherit (path : String) (d : Declaration) (base : Option Settings) :
    (inherit path d base).paths = (if d.declared.declaresPaths then declaredPaths d.declared
      else inheritedPaths base (Path.directory path)).1 := by
  rw [inherit]

theorem baseUrl_inherit (path : String) (d : Declaration) (base : Option Settings) :
    (inherit path d base).baseUrl = (if d.declared.declaresPaths then declaredPaths d.declared
      else inheritedPaths base (Path.directory path)).2 := by
  rw [inherit]

/-! ## Directories without backslashes -/

/-- No backslash is left in the directories that aliases depend on. -/
structure PlainPaths (s : Settings) : Prop where
  configDir : Path.Plain s.configDir
  base : ∀ table ∈ s.paths, Path.Plain table.base
  baseUrl : ∀ url ∈ s.baseUrl, Path.Plain url

theorem plain_declaredPaths (o : Options) :
    (∀ table ∈ (declaredPaths o).1, Path.Plain table.base) ∧
      ∀ url ∈ (declaredPaths o).2, Path.Plain url := by
  refine ⟨?_, ?_⟩
  · intro table htable
    simp only [declaredPaths, AliasTable.empty, Option.mem_def, Option.some.injEq] at htable
    subst htable
    exact Path.plain_normalize (o.baseUrl.getD ".")
  · intro url hurl
    obtain ⟨written, -, rfl⟩ := Option.map_eq_some_iff.mp hurl
    exact Path.plain_normalize written

theorem plain_inheritedPaths (base : Option Settings) (dir : String) :
    (∀ table ∈ (inheritedPaths base dir).1, Path.Plain table.base) ∧
      ∀ url ∈ (inheritedPaths base dir).2, Path.Plain url := by
  cases base with
  | none => simp [inheritedPaths]
  | some b =>
      refine ⟨?_, ?_⟩
      · intro table htable
        obtain ⟨own, -, rfl⟩ := Option.map_eq_some_iff.mp htable
        simp only [AliasTable.rebased]
        exact Path.plain_rebase own.base b.configDir dir
      · intro url hurl
        obtain ⟨own, -, rfl⟩ := Option.map_eq_some_iff.mp hurl
        exact Path.plain_rebase own b.configDir dir

theorem plainPaths_inherit (path : String) (d : Declaration) (base : Option Settings) :
    (inherit path d base).PlainPaths := by
  refine ⟨?_, ?_, ?_⟩
  · rw [configDir_inherit]
    exact Path.plain_directory path
  · rw [paths_inherit]
    split
    · exact (plain_declaredPaths d.declared).1
    · exact (plain_inheritedPaths base (Path.directory path)).1
  · rw [baseUrl_inherit]
    split
    · exact (plain_declaredPaths d.declared).2
    · exact (plain_inheritedPaths base (Path.directory path)).2

end Settings

end ConfigChain

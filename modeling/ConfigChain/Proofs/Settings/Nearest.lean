import ConfigChain.Declaration.Format
import ConfigChain.Proofs.Settings.Chained

/-! # The nearest declaration wins

Along a chain of files every option has the value that the first file says which declares it. Aliases and
their base directory come from one file, the first that declares either of the two; nothing of a later file
is mixed in. -/

namespace ConfigChain

/-- Options without the one of a name. -/
def Options.without (o : Options) : String → Options
  | "rootDir" => { o with rootDir := none }
  | "outDir" => { o with outDir := none }
  | "declarationDir" => { o with declarationDir := none }
  | "baseUrl" => { o with baseUrl := none }
  | "paths" => { o with paths := none }
  | "importHelpers" => { o with importHelpers := none }
  | "allowJs" => { o with allowJs := none }
  | "resolveJsonModule" => { o with resolveJsonModule := none }
  | "declaration" => { o with declaration := none }
  | _ => o

/-- A declaration without the member of a name. -/
def Declaration.without (d : Declaration) : String → Declaration
  | "extends" => { d with reference := none }
  | "compilerOptions" => { d with options := none }
  | _ => d

namespace Settings

/-! ## The first file that declares an option -/

/-- An option as the first of some files says that declares it. -/
def nearest {α : Type} (option : Options → Option α) (files : List (String × Declaration)) : Option α :=
  files.findSome? fun file => option file.2.declared

theorem nearest_cons {α : Type} (option : Options → Option α) (file : String × Declaration)
    (files : List (String × Declaration)) :
    nearest option (file :: files) = (option file.2.declared).or (nearest option files) := by
  rw [nearest, List.findSome?_cons]
  cases option file.2.declared <;> rfl

/-- Whatever is taken over from the extended file unless it is declared comes from the first file that
declares it. -/
theorem chained_nearest {α : Type} (field : Settings → α) (option : Options → Option α) {default : α}
    (hinherit : ∀ path d base,
      field (inherit path d base) = ((option d.declared).or (base.map field)).getD default)
    {files : List (String × Declaration)} {s : Settings} (h : chained none files = some s) :
    field s = (nearest option files).getD default := by
  induction files generalizing s with
  | nil => cases h
  | cons file files ih =>
      have hs : inherit file.1 file.2 (chained none files) = s := Option.some.inj h
      rw [← hs, hinherit, nearest_cons]
      cases hdeclared : option file.2.declared with
      | some a => rfl
      | none =>
          rw [Option.none_or, Option.none_or]
          cases hnext : chained none files with
          | some next => exact ih hnext
          | none => cases files with
            | nil => rfl
            | cons _ _ => cases hnext

theorem nearest_map {α β : Type} (f : α → β) (option : Options → Option α)
    (files : List (String × Declaration)) :
    nearest (fun o => (option o).map f) files = (nearest option files).map f :=
  List.map_findSome?.symm

theorem declarationDir_inherit (path : String) (d : Declaration) (base : Option Settings) :
    (inherit path d base).declarationDir = ((d.declared.declarationDir.map fun dir =>
      some (Path.normalize dir)).or (base.map Settings.declarationDir)).getD none := by
  simp only [inherit, directory?]
  cases d.declared.declarationDir <;> cases base <;> rfl

theorem declarationDir_chained {files : List (String × Declaration)} {s : Settings}
    (h : chained none files = some s) :
    s.declarationDir = (nearest Options.declarationDir files).map Path.normalize := by
  rw [chained_nearest Settings.declarationDir
    (fun o => o.declarationDir.map fun dir => some (Path.normalize dir)) declarationDir_inherit h,
    nearest_map]
  cases nearest Options.declarationDir files <;> rfl

/-! ## Aliases -/

/-- A directory that counts from the last of some files, as the first of them sees it: each file rewrites
what it takes over from the next one. The files stand in the directories `dirs`. -/
def carried (rel : String) : List String → String
  | [] => rel
  | [_] => rel
  | dir :: next :: rest => Path.rebase (carried rel (next :: rest)) next dir

/-- The settings of the file `owner` have come through the files `front`, which declare neither aliases nor
a base directory. -/
theorem paths_chained {owner : String × Declaration} (howner : owner.2.declared.declaresPaths = true)
    (base : Option Settings) {front : List (String × Declaration)}
    (hfront : ∀ file ∈ front, file.2.declared.declaresPaths = false) {s : Settings}
    (h : chained base (front ++ [owner]) = some s) :
    s.paths = some ⟨carried (Path.normalize (owner.2.declared.baseUrl.getD "."))
        ((front ++ [owner]).map fun file => Path.directory file.1), owner.2.declared.paths.getD []⟩ ∧
      s.baseUrl = owner.2.declared.baseUrl.map fun url => carried (Path.normalize url)
        ((front ++ [owner]).map fun file => Path.directory file.1) := by
  induction front generalizing s with
  | nil =>
      have hs : inherit owner.1 owner.2 base = s := Option.some.inj h
      rw [← hs, paths_inherit, baseUrl_inherit, howner]
      exact ⟨rfl, rfl⟩
  | cons file front ih =>
      obtain ⟨hfile, hrest⟩ := List.forall_mem_cons.mp hfront
      have hs : inherit file.1 file.2 (chained base (front ++ [owner])) = s := Option.some.inj h
      obtain ⟨first, rest, hsplit⟩ : ∃ first rest, front ++ [owner] = first :: rest :=
        List.exists_cons_of_ne_nil (by simp)
      have hnext : chained base (front ++ [owner]) =
          some (inherit first.1 first.2 (chained base rest)) := by rw [hsplit, chained]
      obtain ⟨hpaths, hurl⟩ := ih hrest hnext
      rw [← hs, paths_inherit, baseUrl_inherit, hfile, hnext]
      simp only [Bool.false_eq_true, if_false, inheritedPaths, hpaths, hurl, configDir_inherit,
        List.cons_append, hsplit, List.map_cons, carried, Option.map_some, Option.map_map,
        AliasTable.rebased, Function.comp_def, and_self]

theorem paths_chained_undeclared {files : List (String × Declaration)}
    (hfiles : ∀ file ∈ files, file.2.declared.declaresPaths = false) {s : Settings}
    (h : chained none files = some s) : s.paths = none ∧ s.baseUrl = none := by
  induction files generalizing s with
  | nil => cases h
  | cons file files ih =>
      obtain ⟨hfile, hrest⟩ := List.forall_mem_cons.mp hfiles
      have hs : inherit file.1 file.2 (chained none files) = s := Option.some.inj h
      rw [← hs, paths_inherit, baseUrl_inherit, hfile]
      cases hnext : chained none files with
      | none => exact ⟨rfl, rfl⟩
      | some next =>
          obtain ⟨hpaths, hurl⟩ := ih hrest hnext
          simp [inheritedPaths, hpaths, hurl]

/-- Aliases are declared by no file, or by a first one. -/
theorem undeclared_or_owner (files : List (String × Declaration)) :
    (∀ file ∈ files, file.2.declared.declaresPaths = false) ∨
      ∃ front owner back, files = front ++ owner :: back ∧
        (∀ file ∈ front, file.2.declared.declaresPaths = false) ∧
        owner.2.declared.declaresPaths = true := by
  cases hfind : files.find? fun file => file.2.declared.declaresPaths with
  | none => exact .inl (by simpa using hfind)
  | some owner =>
      obtain ⟨howner, front, back, hsplit, hfront⟩ := List.find?_eq_some_iff_append.mp hfind
      exact .inr ⟨front, owner, back, hsplit, by simpa using hfront, howner⟩

theorem paths_chained_owner {front : List (String × Declaration)} {owner : String × Declaration}
    {back : List (String × Declaration)}
    (hfront : ∀ file ∈ front, file.2.declared.declaresPaths = false)
    (howner : owner.2.declared.declaresPaths = true) {s : Settings}
    (h : chained none (front ++ owner :: back) = some s) :
    s.paths = some ⟨carried (Path.normalize (owner.2.declared.baseUrl.getD "."))
        ((front ++ [owner]).map fun file => Path.directory file.1), owner.2.declared.paths.getD []⟩ ∧
      s.baseUrl = owner.2.declared.baseUrl.map fun url => carried (Path.normalize url)
        ((front ++ [owner]).map fun file => Path.directory file.1) := by
  rw [← List.singleton_append, ← List.append_assoc, chained_append] at h
  exact paths_chained howner (chained none back) hfront h

/-- The base directory is that of the aliases, however often the two have been rewritten. -/
theorem baseUrl_chained {files : List (String × Declaration)} {s : Settings}
    (h : chained none files = some s) {url : String} (hurl : s.baseUrl = some url) :
    ∃ table, s.paths = some table ∧ table.base = url := by
  rcases undeclared_or_owner files with hnone | ⟨front, owner, back, rfl, hfront, howner⟩
  · simp [(paths_chained_undeclared hnone h).2] at hurl
  · obtain ⟨hpaths, hbase⟩ := paths_chained_owner hfront howner h
    obtain ⟨written, hwritten, hcarried⟩ := Option.map_eq_some_iff.mp (hbase.symm.trans hurl)
    exact ⟨_, hpaths, by rw [hwritten, Option.getD_some, hcarried]⟩

/-! ## All options -/

/-- The settings that a chain of files comes to, option by option. -/
structure Nearest (files : List (String × Declaration)) (s : Settings) : Prop where
  rootDir : s.rootDir = ((nearest Options.rootDir files).map Path.normalize).getD "."
  outDir : s.outDir = ((nearest Options.outDir files).map Path.normalize).getD "."
  declarationDir : s.declarationDir = (nearest Options.declarationDir files).map Path.normalize
  importHelpers : s.importHelpers = (nearest Options.importHelpers files).getD false
  allowJs : s.allowJs = (nearest Options.allowJs files).getD false
  resolveJsonModule : s.resolveJsonModule = (nearest Options.resolveJsonModule files).getD false
  declaration : s.declaration = (nearest Options.declaration files).getD false
  reference : ∀ file ∈ files.head?, s.reference = file.2.referenceText
  undeclared : (∀ file ∈ files, file.2.declared.declaresPaths = false) →
    s.paths = none ∧ s.baseUrl = none
  owner : ∀ front owner back, files = front ++ owner :: back →
    (∀ file ∈ front, file.2.declared.declaresPaths = false) →
    owner.2.declared.declaresPaths = true →
    s.paths = some ⟨carried (Path.normalize (owner.2.declared.baseUrl.getD "."))
        ((front ++ [owner]).map fun file => Path.directory file.1), owner.2.declared.paths.getD []⟩ ∧
      s.baseUrl = owner.2.declared.baseUrl.map fun url => carried (Path.normalize url)
        ((front ++ [owner]).map fun file => Path.directory file.1)
  together : ∀ url, s.baseUrl = some url → ∃ table, s.paths = some table ∧ table.base = url

theorem nearest_of_chained {files : List (String × Declaration)} {s : Settings}
    (h : chained none files = some s) : Nearest files s where
  rootDir := by
    rw [chained_nearest Settings.rootDir (fun o => o.rootDir.map Path.normalize) (fun _ _ _ => rfl) h,
      nearest_map]
  outDir := by
    rw [chained_nearest Settings.outDir (fun o => o.outDir.map Path.normalize) (fun _ _ _ => rfl) h,
      nearest_map]
  declarationDir := declarationDir_chained h
  importHelpers := chained_nearest Settings.importHelpers Options.importHelpers (fun _ _ _ => rfl) h
  allowJs := chained_nearest Settings.allowJs Options.allowJs (fun _ _ _ => rfl) h
  resolveJsonModule :=
    chained_nearest Settings.resolveJsonModule Options.resolveJsonModule (fun _ _ _ => rfl) h
  declaration := chained_nearest Settings.declaration Options.declaration (fun _ _ _ => rfl) h
  reference := by
    intro file hfile
    obtain ⟨rest, rfl⟩ := List.head?_eq_some_iff.mp hfile
    rw [← Option.some.inj h, inherit]
  undeclared := fun hfiles => paths_chained_undeclared hfiles h
  owner := by
    rintro front owner back rfl hfront howner
    exact paths_chained_owner hfront howner h
  together := fun url hurl => baseUrl_chained h hurl

/-! ## Options written as null -/

end Settings

end ConfigChain

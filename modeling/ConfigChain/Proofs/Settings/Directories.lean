import ConfigChain.Proofs.Loading.Origin
import ConfigChain.Proofs.Settings.Nearest

/-! # Directories in canonical form

A directory that a file declares is normalized once, and handed down as it is. The directory of the file
itself is normalized twice, and so are inherited base directories, which are rewritten on their way. So
settings hold a directory that is not canonical exactly when one round was not enough for a declared one. -/

namespace ConfigChain

namespace Path

/-- Where a plain directory is seen from somewhere else, the answer is canonical. -/
theorem canonical_rebase {rel : String} (hrel : Plain rel) (source destination : String) :
    Canonical (rebase rel source destination) := by
  unfold rebase
  dsimp only
  split
  · exact canonical_normalize hrel
  · split
    · rename_i way _
      refine canonical_normalize ?_
      simp only [Plain, String.toList_ofList, List.mem_map, not_exists, not_and]
      exact fun c _ => slashed_ne c
    · exact canonical_normalize hrel

end Path

/-- The directories that options declare. -/
def Options.directories (o : Options) : List String :=
  o.rootDir.toList ++ o.outDir.toList ++ o.declarationDir.toList ++ o.baseUrl.toList

namespace Settings

/-- The directories in settings. -/
def directories (s : Settings) : List String :=
  [s.configDir, s.rootDir, s.outDir] ++ s.declarationDir.toList ++ s.baseUrl.toList ++
    (s.paths.map AliasTable.base).toList

theorem forall_mem_directories_iff (s : Settings) (P : String → Prop) :
    (∀ dir ∈ s.directories, P dir) ↔
      P s.configDir ∧ P s.rootDir ∧ P s.outDir ∧ (∀ dir ∈ s.declarationDir, P dir) ∧
        (∀ url ∈ s.baseUrl, P url) ∧ ∀ table ∈ s.paths, P table.base := by
  simp [directories, or_imp, forall_and]

/-! ## Handed down -/

theorem plainPaths_chained {files : List (String × Declaration)} {s : Settings}
    (h : chained none files = some s) : s.PlainPaths := by
  cases files with
  | nil => cases h
  | cons file files =>
      obtain rfl := Option.some.inj h
      exact plainPaths_inherit file.1 file.2 _

theorem canonical_normalize_getD_iff (dir : Option String) :
    Path.Canonical ((dir.map Path.normalize).getD ".") ↔ ∀ d ∈ dir, Path.Canonical (Path.normalize d) := by
  cases dir with
  | none => exact iff_of_true (by decide) (by simp)
  | some d => simp

theorem baseUrl_eq_none {o : Options} (h : ¬ o.declaresPaths = true) : o.baseUrl = none := by
  simp only [Options.declaresPaths, Bool.or_eq_true, not_or] at h
  simpa using h.1

/-- The base directory of aliases: that of the file itself is normalized once, an inherited one again. -/
theorem canonical_paths_inherit_iff (path : String) (d : Declaration) {base : Option Settings}
    (hbase : ∀ b ∈ base, b.PlainPaths) :
    (∀ table ∈ (inherit path d base).paths, Path.Canonical table.base) ↔
      ∀ url ∈ d.declared.baseUrl, Path.Canonical (Path.normalize url) := by
  rw [paths_inherit]
  split
  · simp only [declaredPaths, AliasTable.empty, Option.mem_def, Option.some.injEq, forall_eq']
    cases d.declared.baseUrl with
    | none => exact iff_of_true (by decide) (by simp)
    | some url => simp
  · rename_i hdeclares
    have hnone := baseUrl_eq_none hdeclares
    refine iff_of_true (fun table htable => ?_) (by simp [hnone])
    cases base with
    | none => cases htable
    | some b =>
        obtain ⟨own, hown, rfl⟩ := Option.map_eq_some_iff.mp htable
        simp only [AliasTable.rebased]
        exact Path.canonical_rebase ((hbase b rfl).base own hown) _ _

theorem canonical_baseUrl_inherit_iff (path : String) (d : Declaration) {base : Option Settings}
    (hbase : ∀ b ∈ base, b.PlainPaths) :
    (∀ url ∈ (inherit path d base).baseUrl, Path.Canonical url) ↔
      ∀ url ∈ d.declared.baseUrl, Path.Canonical (Path.normalize url) := by
  rw [baseUrl_inherit]
  split
  · simp [declaredPaths]
  · rename_i hdeclares
    have hnone := baseUrl_eq_none hdeclares
    refine iff_of_true (fun url hurl => ?_) (by simp [hnone])
    cases base with
    | none => cases hurl
    | some b =>
        obtain ⟨own, hown, rfl⟩ := Option.map_eq_some_iff.mp hurl
        exact Path.canonical_rebase ((hbase b rfl).baseUrl own hown) _ _

/-- Which directories in the settings of a chain of files are canonical. -/
structure CanonicalDirectories (files : List (String × Declaration)) (s : Settings) : Prop where
  configDir : Path.Canonical s.configDir
  rootDir : Path.Canonical s.rootDir ↔
    ∀ dir ∈ nearest Options.rootDir files, Path.Canonical (Path.normalize dir)
  outDir : Path.Canonical s.outDir ↔
    ∀ dir ∈ nearest Options.outDir files, Path.Canonical (Path.normalize dir)
  declarationDir : (∀ dir ∈ s.declarationDir, Path.Canonical dir) ↔
    ∀ dir ∈ nearest Options.declarationDir files, Path.Canonical (Path.normalize dir)
  baseUrl : (∀ url ∈ s.baseUrl, Path.Canonical url) ↔
    ∀ file ∈ files.head?, ∀ url ∈ file.2.declared.baseUrl, Path.Canonical (Path.normalize url)
  paths : (∀ table ∈ s.paths, Path.Canonical table.base) ↔
    ∀ file ∈ files.head?, ∀ url ∈ file.2.declared.baseUrl, Path.Canonical (Path.normalize url)

theorem canonicalDirectories_of_chained {files : List (String × Declaration)} {s : Settings}
    (hdir : Path.Canonical s.configDir) (h : chained none files = some s) : CanonicalDirectories files s := by
  have hnearest := nearest_of_chained h
  cases files with
  | nil => cases h
  | cons file files =>
      have hbase : ∀ b ∈ chained none files, b.PlainPaths := fun b hb => plainPaths_chained hb
      obtain rfl := Option.some.inj h
      refine ⟨hdir, ?_, ?_, ?_, ?_, ?_⟩
      · rw [hnearest.rootDir]
        exact canonical_normalize_getD_iff _
      · rw [hnearest.outDir]
        exact canonical_normalize_getD_iff _
      · rw [hnearest.declarationDir]
        simp
      · simpa using canonical_baseUrl_inherit_iff file.1 file.2 hbase
      · simpa using canonical_paths_inherit_iff file.1 file.2 hbase

theorem exists_mem_of_nearest {option : Options → Option String} {files : List (String × Declaration)}
    {dir : String} (h : dir ∈ nearest option files) :
    ∃ file ∈ files, dir ∈ option file.2.declared :=
  List.exists_of_findSome?_eq_some h

/-- Where one round is enough for every directory that a file declares, all directories are canonical. -/
theorem CanonicalDirectories.all {files : List (String × Declaration)} {s : Settings}
    (h : CanonicalDirectories files s)
    (honce : ∀ file ∈ files, ∀ dir ∈ file.2.declared.directories, Path.Canonical (Path.normalize dir)) :
    ∀ dir ∈ s.directories, Path.Canonical dir := by
  have hnearest (option : Options → Option String)
      (hoption : ∀ o : Options, ∀ dir ∈ option o, dir ∈ o.directories) :
      ∀ dir ∈ nearest option files, Path.Canonical (Path.normalize dir) := by
    intro dir hdir
    obtain ⟨file, hfile, hdir⟩ := exists_mem_of_nearest hdir
    exact honce file hfile dir (hoption _ dir hdir)
  have hhead : ∀ file ∈ files.head?, ∀ url ∈ file.2.declared.baseUrl,
      Path.Canonical (Path.normalize url) := by
    intro file hfile url hurl
    refine honce file (List.mem_of_mem_head? hfile) url ?_
    simp [Options.directories, Option.mem_def.mp hurl]
  rw [forall_mem_directories_iff]
  refine ⟨h.configDir, h.rootDir.mpr (hnearest _ ?_), h.outDir.mpr (hnearest _ ?_),
    h.declarationDir.mpr (hnearest _ ?_), h.baseUrl.mpr hhead, h.paths.mpr hhead⟩ <;>
  · intro o dir hdir
    simp [Options.directories, Option.mem_def.mp hdir]

end Settings

namespace Memory

open Settings (CanonicalDirectories chained)

variable {m m' : Memory} {s : Settings}

/-- Settings that a request of a session is answered with are the fold of files that were read or brought along,
and stand in a canonical directory. -/
theorem Session.chained_answer {earlier : List (Request × Outcome)} (h : Session empty earlier m)
    {r : Request} (hanswer : r.answer m = (m', .loaded s)) :
    (∃ files, (∀ file ∈ files, Offering ((r, .loaded s) :: earlier) file.1 file.2) ∧
      chained none files = some s) ∧ Path.Canonical s.configDir := by
  obtain ⟨key, d, rest, hoffered, hs⟩ := (h.layered_answer hanswer).2 s rfl
  refine ⟨⟨(key, d) :: rest, hoffered, hs⟩, ?_⟩
  obtain ⟨a, -, hd⟩ := hoffered (key, d) List.mem_cons_self
  rw [← Option.some.inj hs, Settings.configDir_inherit]
  exact Path.canonical_directory hd.plain

/-- Whatever a request of a session is answered with is the fold of files that were read or brought along.
Whichever files it is the fold of, those of its directories are canonical for which one round of `normalize` is
enough where they are declared; that of the file itself and inherited base directories always are. -/
theorem canonicalDirectories_of_session {earlier : List (Request × Outcome)}
    (hsession : Session empty earlier m) {r : Request} (hanswer : r.answer m = (m', .loaded s)) :
    (∃ files, (∀ file ∈ files, Offering ((r, .loaded s) :: earlier) file.1 file.2) ∧
      chained none files = some s) ∧
      ∀ files, chained none files = some s → CanonicalDirectories files s ∧
        ((∀ file ∈ files, ∀ dir ∈ file.2.declared.directories, Path.Canonical (Path.normalize dir)) →
          ∀ dir ∈ s.directories, Path.Canonical dir) := by
  obtain ⟨hfiles, hdir⟩ := hsession.chained_answer hanswer
  refine ⟨hfiles, fun files hs => ?_⟩
  have hcanonical := Settings.canonicalDirectories_of_chained hdir hs
  exact ⟨hcanonical, hcanonical.all⟩

/-- The root directory is handed down as it is, the base directory is rewritten. -/
theorem canonicalDirectories_of_session_inherited :
    let source := Source.linked [] Resolver.sibling
    let text : String :=
      "\x7b\"compilerOptions\":\x7b\"rootDir\":\"src\\\\..\\\\app\",\"baseUrl\":\"x\\\\..\\\\lib\"\x7d\x7d"
    let own : Options := { rootDir := some "src\\..\\app", baseUrl := some "x\\..\\lib" }
    let base := Settings.inherit "base.json" { options := some own } none
    let child := Settings.inherit "a/tsconfig.json" { reference := some "../base" } (some base)
    let earlier : List (Request × Outcome) :=
      [(.parse source 0 "base.json" (Utf8.encode text.toList), .loaded base)]
    let r : Request := .parse source 1 "a/tsconfig.json"
      (Utf8.encode "\x7b\"extends\":\"../base\"\x7d".toList)
    let m : Memory := ⟨[("base.json", .settled base)]⟩
    let m' : Memory := ⟨[("a/tsconfig.json", .settled child), ("base.json", .settled base)]⟩
    Session empty earlier m ∧ r.answer m = (m', .loaded child) ∧
      (∃ files, (∀ file ∈ files, Offering ((r, .loaded child) :: earlier) file.1 file.2) ∧
        chained none files = some child ∧ CanonicalDirectories files child) ∧
      base.baseUrl = some "x/../lib" ∧ child.baseUrl = some "../lib" ∧ child.rootDir = "src/../app" := by
  intro source text own base child earlier r m m'
  have hsession : Session empty earlier m := .cons (by decide +kernel) (by simp) (.nil m)
  have hanswer : r.answer m = (m', .loaded child) := by decide +kernel
  obtain ⟨⟨files, hoffered, hs⟩, hcanonical⟩ := canonicalDirectories_of_session hsession hanswer
  exact ⟨hsession, hanswer, ⟨files, hoffered, hs, (hcanonical files hs).1⟩, by decide, by decide, by decide⟩

/-- One round leaves a detour in every directory that a file declares with a hidden one, and a source below the
root directory is not recognized as such. -/
theorem not_canonical_hidden_detour :
    let source := Source.linked [] Resolver.sibling
    let text : String := "\x7b\"compilerOptions\":\x7b\"rootDir\":\"x\\\\..\\\\b\",\"outDir\":\"x\\\\..\\\\out\"," ++
      "\"declarationDir\":\"x\\\\..\\\\d\",\"baseUrl\":\"x\\\\..\\\\lib\"\x7d\x7d"
    ∃ m s, Request.answer (.parse source 0 "tsconfig.json" (Utf8.encode text.toList)) empty =
        (m, .loaded s) ∧
      (∀ dir ∈ s.directories, Path.Canonical dir ↔ dir = s.configDir) ∧
      s.rootDir = "x/../b" ∧ s.codePath "b/y.ts" = "out/b/y.ts" ∧
      { s with rootDir := Path.normalize s.rootDir }.codePath "b/y.ts" = "out/y.ts" := by
  intro source text
  let own : Options :=
    { rootDir := some "x\\..\\b", outDir := some "x\\..\\out", declarationDir := some "x\\..\\d",
      baseUrl := some "x\\..\\lib" }
  let s := Settings.inherit "tsconfig.json" { options := some own } none
  exact ⟨⟨[("tsconfig.json", .settled s)]⟩, s, by decide +kernel⟩

end Memory

end ConfigChain

import ConfigChain.Expansion
import ConfigChain.Proofs.Settings.Chained

/-! # Inherited aliases

A file that declares no aliases of its own inherits them rewritten to its own directory. They still stand
for the paths that they stand for in the file that declares them, however long the chain between the
two files is. -/

namespace ConfigChain

namespace Path

/-- A directory that is written as one inside the workspace: it is not absolute, and does not begin by
climbing. -/
def Inward (dir : String) : Prop :=
  isAbsolute dir = false ∧ (pieces dir.toList).head? ≠ some ['.', '.']

instance (dir : String) : Decidable (Inward dir) := inferInstanceAs (Decidable (_ ∧ _))

theorem Inward.climbs_eq_zero {dir : String} (h : Inward dir) (hc : Canonical dir) :
    (place dir.toList).climbs = 0 := by
  have hrooted : (place dir.toList).rooted = false := by
    rw [← isAbsolute_eq_rooted]
    exact h.1
  cases hclimbs : (place dir.toList).climbs with
  | zero => rfl
  | succ k =>
      have hroute : (place dir.toList).route =
          ['.', '.'] :: (List.replicate k ['.', '.'] ++ (place dir.toList).names.reverse) := by
        simp [Place.route, hclimbs, List.replicate_succ]
      have htext : dir.toList = link (place dir.toList).route := by
        have hspell := toList_normalize hc.plain
        rw [hc] at hspell
        rwa [Place.spell, hrooted, if_neg (by decide), if_neg (by simp [hroute])] at hspell
      have hpieces := congrArg pieces htext
      rw [pieces_link (by simp [hroute]) fun _ => (regular_place _).slash_not_mem_route,
        hroute] at hpieces
      exact absurd (congrArg List.head? hpieces) h.2

end Path

namespace Settings

/-! ## What aliases stand for -/

/-- Two settings with the same alias rows, which count from the same directory of the workspace, and
with the same directory of the workspace for names without an alias. -/
structure SameAliases (s t : Settings) : Prop where
  rows : s.paths.map AliasTable.rows = t.paths.map AliasTable.rows
  base : (s.paths.map fun table => Path.join s.configDir table.base) =
    t.paths.map fun table => Path.join t.configDir table.base
  baseUrl : s.baseUrl.map (Path.join s.configDir) = t.baseUrl.map (Path.join t.configDir)

theorem SameAliases.trans {s t u : Settings} (h : SameAliases s t) (h' : SameAliases t u) :
    SameAliases s u :=
  ⟨h.rows.trans h'.rows, h.base.trans h'.base, h.baseUrl.trans h'.baseUrl⟩

theorem SameAliases.aliased_eq {s t : Settings} (h : SameAliases s t) (specifier : String) :
    s.aliased specifier = t.aliased specifier := by
  have hrows := h.rows
  have hbase := h.base
  unfold aliased
  cases hs : s.paths with
  | none =>
      have ht : t.paths = none := by simpa [hs] using hrows.symm
      rw [ht]
  | some own =>
      cases ht : t.paths with
      | none => simp [hs, ht] at hrows
      | some other =>
          simp only [hs, ht, Option.map_some, Option.some.injEq] at hrows hbase
          simp only [AliasTable.hits, hrows, hbase]

/-- With a base directory, the specifier taken as a path counts from that directory alone. -/
theorem fallback_of_baseUrl {s : Settings} (hs : s.PlainPaths) {url specifier : String}
    (hurl : s.baseUrl = some url) (hplain : Path.Plain specifier)
    (hrel : Path.isRelative specifier = false) (here : String) :
    s.fallback here specifier = Path.join (Path.join s.configDir url) specifier := by
  rw [fallback, fallbackDir, hrel, hurl]
  exact Path.join_assoc hs.configDir (hs.baseUrl url hurl) hplain

theorem SameAliases.fallback_eq {s t : Settings} (h : SameAliases s t) (hs : s.PlainPaths)
    (ht : t.PlainPaths) {specifier : String} (hplain : Path.Plain specifier)
    (hrel : Path.isRelative specifier = false) (hurl : t.baseUrl.isSome = true) (here there : String) :
    s.fallback here specifier = t.fallback there specifier := by
  obtain ⟨other, hother⟩ := Option.isSome_iff_exists.mp hurl
  have hsame := h.baseUrl
  rw [hother, Option.map_some, Option.map_eq_some_iff] at hsame
  obtain ⟨own, hown, hjoin⟩ := hsame
  rw [fallback_of_baseUrl hs hown hplain hrel, fallback_of_baseUrl ht hother hplain hrel, hjoin]

/-! ## Along the chain -/

/-- One file of the chain: what it inherits it sees from its own directory. -/
theorem sameAliases_inherit {path : String} {d : Declaration} {base : Settings}
    (hpath : Path.Plain path) (hin : Path.Inward (Path.directory path))
    (hd : d.declared.declaresPaths = false) (hb : base.PlainPaths) :
    SameAliases (inherit path d (some base)) base := by
  have hclimbs := hin.climbs_eq_zero (Path.canonical_directory hpath)
  have hkeep {rel : String} (hrel : Path.Plain rel) :
      Path.join (Path.directory path) (Path.rebase rel base.configDir (Path.directory path)) =
        Path.join base.configDir rel := by
    apply Path.join_rebase hrel hb.configDir (Path.plain_directory path)
    exact .inr ⟨hin.1, by rw [hclimbs]; exact Nat.zero_le _⟩
  have hpaths : (inherit path d (some base)).paths =
      base.paths.map fun table => table.rebased base.configDir (Path.directory path) := by
    rw [paths_inherit, hd]
    rfl
  have hurl : (inherit path d (some base)).baseUrl =
      base.baseUrl.map fun url => Path.rebase url base.configDir (Path.directory path) := by
    rw [baseUrl_inherit, hd]
    rfl
  refine ⟨?_, ?_, ?_⟩
  · rw [hpaths, Option.map_map]
    simp only [Function.comp_def, AliasTable.rebased]
  · rw [hpaths, Option.map_map, configDir_inherit]
    refine Option.map_congr fun table htable => ?_
    simp only [Function.comp_apply, AliasTable.rebased, hkeep (hb.base table htable)]
  · rw [hurl, Option.map_map, configDir_inherit]
    refine Option.map_congr fun url hmem => ?_
    simp only [Function.comp_apply, hkeep (hb.baseUrl url hmem)]

/-- The whole chain, by going from the file that declares the aliases to the one that is asked. -/
theorem sameAliases_chained {own : Settings} (hown : own.PlainPaths)
    {silent : List (String × Declaration)} (hpath : ∀ file ∈ silent, Path.Plain file.1)
    (hin : ∀ file ∈ silent, Path.Inward (Path.directory file.1))
    (hd : ∀ file ∈ silent, file.2.declared.declaresPaths = false) {first : Settings}
    (hfirst : chained (some own) silent = some first) :
    SameAliases first own ∧ first.PlainPaths := by
  induction silent generalizing first with
  | nil =>
      cases hfirst
      exact ⟨⟨rfl, rfl, rfl⟩, hown⟩
  | cons file silent ih =>
      have hmem {q : String × Declaration} (hq : q ∈ silent) : q ∈ file :: silent :=
        List.mem_cons_of_mem _ hq
      have hfirst : inherit file.1 file.2 (chained (some own) silent) = first :=
        Option.some.inj hfirst
      cases hnext : chained (some own) silent with
      | none => cases silent <;> simp [chained] at hnext
      | some next =>
          obtain ⟨hsame, hplain⟩ := ih (fun q hq => hpath q (hmem hq)) (fun q hq => hin q (hmem hq))
            (fun q hq => hd q (hmem hq)) hnext
          rw [← hfirst, hnext]
          refine ⟨?_, plainPaths_inherit _ _ _⟩
          exact (sameAliases_inherit (hpath file List.mem_cons_self) (hin file List.mem_cons_self)
            (hd file List.mem_cons_self) hplain).trans hsame

/-- The files before `last` declare neither aliases nor a base directory and stand in directories inside
the workspace, `last` declares one of the two. A specifier has the same aliased paths in the first file
as in `last`, and the same paths altogether if `last` declares the base directory. -/
theorem expand_chained (silent : List (String × Declaration)) (last : String × Declaration)
    (base : Option Settings) {first own : Settings}
    (hpath : ∀ file ∈ silent, Path.Plain file.1)
    (hin : ∀ file ∈ silent, Path.Inward (Path.directory file.1))
    (hsilent : ∀ file ∈ silent, file.2.declared.declaresPaths = false)
    (hlast : last.2.declared.declaresPaths = true)
    (hfirst : chained base (silent ++ [last]) = some first) (hown : chained base [last] = some own)
    {specifier : String} (hplain : Path.Plain specifier) (hrel : Path.isRelative specifier = false)
    (here there : String) :
    (first.expand here specifier).dropLast = (own.expand there specifier).dropLast ∧
      (last.2.declared.baseUrl.isSome = true →
        first.expand here specifier = own.expand there specifier) := by
  have hlastOwn : inherit last.1 last.2 base = own := Option.some.inj hown
  have hplainOwn : own.PlainPaths := hlastOwn ▸ plainPaths_inherit last.1 last.2 base
  rw [chained_append, hown] at hfirst
  obtain ⟨hsame, hplainFirst⟩ := sameAliases_chained hplainOwn hpath hin hsilent hfirst
  refine ⟨?_, ?_⟩
  · rw [expand, expand, List.dropLast_concat, List.dropLast_concat, hsame.aliased_eq]
  · intro hurl
    have hurlOwn : own.baseUrl.isSome = true := by
      rw [← hlastOwn, baseUrl_inherit, hlast]
      simpa [declaredPaths] using hurl
    rw [expand, expand, hsame.aliased_eq,
      hsame.fallback_eq hplainFirst hplainOwn hplain hrel hurlOwn here there]

/-- Two directories of the workspace over one beside it. -/
theorem expand_chained_beside_workspace :
    let silent : List (String × Declaration) :=
      [("apps/web/tsconfig.json", { reference := some "../../lib/tsconfig.json" }),
        ("lib/tsconfig.json", { reference := some "../../shared/tsconfig.json" })]
    let last : String × Declaration := ("../shared/tsconfig.json",
      { options := some { baseUrl := some "src", paths := some [⟨"@app/*", ["app/*", "/opt/*"]⟩] } })
    (∀ file ∈ silent, Path.Plain file.1 ∧ Path.Inward (Path.directory file.1) ∧
      file.2.declared.declaresPaths = false) ∧ last.2.declared.declaresPaths = true ∧
      ∃ first own, chained none (silent ++ [last]) = some first ∧ chained none [last] = some own ∧
        first.baseUrl = some "../../../shared/src" ∧
        (first.expand "." "@app/x").dropLast = (own.expand "y" "@app/x").dropLast ∧
        first.expand "." "@app/x" = own.expand "y" "@app/x" := by
  intro silent last
  have h {first own : Settings} (hfirst : chained none (silent ++ [last]) = some first)
      (hown : chained none [last] = some own) :=
    expand_chained silent last none (by decide) (by decide) (by decide) (by decide) hfirst hown
      (show Path.Plain "@app/x" by decide) (by decide) "." "y"
  exact ⟨by decide, by decide, _, _, rfl, rfl, by decide, (h rfl rfl).1, (h rfl rfl).2 (by decide)⟩

end Settings

end ConfigChain

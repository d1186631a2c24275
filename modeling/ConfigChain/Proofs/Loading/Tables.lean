import ConfigChain.Expansion
import ConfigChain.Proofs.Json.Tables
import ConfigChain.Proofs.Settings.Chained
import ConfigChain.Proofs.Settings.Rows

/-! # Alias tables of config files

An alias table can be read from a config file or be made row by row. From the same rows, in the same order and with the
same base directory, both ways lead to the same table. -/

namespace ConfigChain

namespace Settings

theorem paths_of_declared {d : Declaration} {url : Option String} {written : List Alias}
    (h : d.declared.baseUrl = url ∧ d.declared.paths = some (Alias.settle written)) (path : String)
    (base : Option Settings) : (inherit path d base).paths = some (.ofRows (url.getD ".") written) := by
  have hdeclares : d.declared.declaresPaths = true := by
    rw [Options.declaresPaths, h.2, Option.isSome_some, Bool.or_true]
  rw [paths_inherit, hdeclares, if_pos rfl, declaredPaths, h.1, h.2, AliasTable.ofRows_eq]
  rfl

/-- Settings that are given the table that they have. -/
theorem setPaths_of_paths {s : Settings} {table : AliasTable} (h : s.paths = some table) : s.setPaths table = s := by
  rw [setPaths, ← h]

end Settings

namespace Memory

open Json (Written Spells Document plain)

variable {load : Memory → String → Memory × Outcome} {source : Source} {m m' : Memory} {key path : String}
  {d : Declaration} {s : Settings}

theorem exists_inherit_of_resolve (h : m.resolve load source key d = (m', .loaded s)) :
    ∃ base, s = Settings.inherit key d base := by
  unfold resolve at h
  simp only at h
  split at h
  · exact ⟨_, (Outcome.loaded.inj (Prod.mk.inj h).2).symm⟩
  · exact ⟨_, (Outcome.loaded.inj (Prod.mk.inj h).2).symm⟩
  · cases h

/-- What extends nothing is settled at once. -/
theorem exists_resolve_eq (h : d.referenceText = "") : ∃ m' s, m.resolve load source key d = (m', .loaded s) := by
  have hbase : (m.set key .pending).base load source key d = (m.set key .pending, .nothing) := by rw [base, if_pos h]
  unfold resolve
  rw [hbase]
  exact ⟨_, _, rfl⟩

theorem paths_of_parseWith {text : Bytes} {w : Written} {url : Option String} {written : List Alias}
    (hs : Spells w.tokens (plain text)) (hw : w.DeclaresTable url written)
    (h : parseWith load source m path text = (m', .loaded s)) :
    s.paths = some (.ofRows (url.getD ".") written) := by
  unfold parseWith at h
  cases hparse : Declaration.parse text with
  | error fault => simp [hparse] at h
  | ok d =>
      simp only [hparse] at h
      obtain ⟨base, rfl⟩ := exists_inherit_of_resolve h
      exact Settings.paths_of_declared (Json.declared_of_parse hparse hs hw) _ base

/-- Settings that are read from a text, by `parse` or by `load`, have the table that is made row by row of the rows that
the text holds for `paths`, with the same base directory, and the table may be put in the place of theirs. Every table
can be written so, and no layout of such a text is refused. A table has the patterns in the order of their first rows,
with the templates of their last ones. -/
theorem parseWith_rows (written : List Alias) :
    (∀ load source m path text (w : Written) url m' s, Spells w.tokens (plain text) → w.DeclaresTable url written →
      parseWith load source m path text = (m', .loaded s) →
        s.paths = some (.ofRows (url.getD ".") written) ∧
          ∀ config : Settings, config.paths = s.paths → ∀ here specifier,
            (config.setPaths (.ofRows (url.getD ".") written)).expand here specifier =
              config.expand here specifier) ∧
    (∀ url, ∃ w : Written, w.DeclaresTable url written ∧ (∃ text, Spells w.tokens (plain text)) ∧
      ∀ load source m path text, Spells w.tokens (plain text) →
        ∃ m' s, parseWith load source m path text = (m', .loaded s)) ∧
    ∀ dir, (AliasTable.ofRows dir written).base = Path.normalize dir ∧
      (AliasTable.ofRows dir written).Lists written := by
  refine ⟨?_, fun url => ?_, fun dir => ⟨AliasTable.base_ofRows dir written, AliasTable.lists_ofRows dir written⟩⟩
  · intro load source m path text w url m' s hs hw h
    have hpaths := paths_of_parseWith hs hw h
    refine ⟨hpaths, fun config hconfig here specifier => ?_⟩
    rw [Settings.setPaths_of_paths (hconfig.trans hpaths)]
  · obtain ⟨w, hw, d, hmakes, hreference⟩ := Json.exists_declaresTable url written
    refine ⟨w, hw, Json.exists_spells w, fun load source m path text hs => ?_⟩
    have hparse : Declaration.parse text = .ok d := hmakes.whole hs
    unfold parseWith
    simp only [hparse]
    exact exists_resolve_eq hreference

/-- Rows in which a pattern comes again behind another one. -/
def again : Written :=
  let list (t : String) : Written := .list [.atom (.text (.bare t))] false
  .object [(.bare "a", list "first"), (.bare "b", list "b"), (.bare "a", list "second")] false

/-- A declaration with these rows and a base directory. -/
def declaredAgain : Written :=
  let options : Written := .object [(.bare "baseUrl", .atom (.text (.bare "src"))), (.bare "paths", again)] false
  .object [(.bare "compilerOptions", options)] false

theorem parseWith_rows_again :
    let written : List Alias := [⟨"a", ["first"]⟩, ⟨"b", ["b"]⟩, ⟨"a", ["second"]⟩]
    let table := AliasTable.ofRows "src" written
    let source := Source.linked [] Resolver.sibling
    declaredAgain.DeclaresTable (some "src") written ∧
      ∃ m' s, parse source 0 empty "app/tsconfig.json" declaredAgain.strict = (m', .loaded s) ∧ s.paths = some table ∧
        table = ⟨"src", [⟨"a", ["second"]⟩, ⟨"b", ["b"]⟩]⟩ ∧ table.Lists written ∧
        (s.setPaths table).expand "." "a" = s.expand "." "a" ∧ s.expand "." "a" = ["app/src/second", "app/src/a"] := by
  intro written table source
  let s := Settings.inherit "app/tsconfig.json"
    { options := some { baseUrl := some "src", paths := some [⟨"a", ["second"]⟩, ⟨"b", ["b"]⟩] } } none
  have hparse : parse source 0 empty "app/tsconfig.json" declaredAgain.strict =
      (⟨[("app/tsconfig.json", .settled s)]⟩, .loaded s) := by decide +kernel
  have hplain : plain declaredAgain.strict = declaredAgain.strict := by decide +kernel
  have hspells : Spells declaredAgain.tokens (plain declaredAgain.strict) := by
    rw [hplain]
    exact declaredAgain.spells_strict
  have htext : ∀ t ∈ ["a", "b", "first", "second", "src", "baseUrl", "paths", "compilerOptions"],
      (Json.Body.bare t).text? = some t := by decide +kernel
  simp only [List.forall_mem_cons] at htext
  obtain ⟨ha, hb, hfirst, hsecond, hsrc, hbaseUrl, hpaths, hoptions, -⟩ := htext
  have hlist {t : String} (h : (Json.Body.bare t).text? = some t) :
      (Written.list [.atom (.text (.bare t))] false).Texts [t] := ⟨_, false, rfl, .cons ⟨.bare t, rfl, h⟩ .nil⟩
  have hrows : again.Rows written :=
    ⟨_, false, rfl, .cons ⟨ha, hlist hfirst⟩ (.cons ⟨hb, hlist hb⟩ (.cons ⟨ha, hlist hsecond⟩ .nil))⟩
  have hdeclares : declaredAgain.DeclaresTable (some "src") written :=
    Json.declaresTable_object hoptions (Json.writesTable_object hbaseUrl hpaths ⟨.bare "src", rfl, hsrc⟩ hrows)
  obtain ⟨hread, -, hmade⟩ := parseWith_rows written
  obtain ⟨htable, hexpand⟩ := hread _ _ _ _ _ _ (some "src") _ _ hspells hdeclares hparse
  exact ⟨hdeclares, _, s, hparse, htable, by decide, (hmade "src").2, hexpand s rfl "." "a", by decide +kernel⟩

end Memory

end ConfigChain

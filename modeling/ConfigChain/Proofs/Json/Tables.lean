import ConfigChain.Proofs.Json.Making
import ConfigChain.Proofs.Json.Quoting
import ConfigChain.Proofs.Loading.Malformed

/-! # Alias tables as they are written

The rows of an alias table and its base directory are options of a declaration. A declaration that writes them declares
them, whatever else it says, and there is such a declaration for all rows and every base directory. -/

namespace ConfigChain

namespace Json

/-! ## Tables as they are written -/

namespace Written

/-- A string that spells this text. -/
def Spelling (t : String) (w : Written) : Prop := ∃ body : Body, w = .atom (.text body) ∧ body.text? = some t

/-- A string that spells this text, or `null` for none. -/
def IsSpelled : Option String → Written → Prop
  | some t, w => w.Spelling t
  | none, w => w = .atom .null

/-- A list of strings that spell these texts. -/
def Texts (texts : List String) (w : Written) : Prop :=
  ∃ items trailing, w = .list items trailing ∧ List.Forall₂ (fun item t => item.Spelling t) items texts

/-- An object with a member for each of these rows, in their order. -/
def Rows (rows : List Alias) (w : Written) : Prop :=
  ∃ members trailing, w = .object members trailing ∧
    List.Forall₂ (fun member row => member.1.text? = some row.pattern ∧ member.2.Texts row.templates) members rows

/-- Options with these rows and this base directory. No base directory may also be written as `null`. -/
structure WritesTable (url : Option String) (rows : List Alias) (o : Written) : Prop where
  paths : ∃ v, optionsRecord.Holds "paths" v o ∧ v.Rows rows
  baseUrl : ∀ v, optionsRecord.Holds "baseUrl" v o → v.IsSpelled url
  declared : url.isSome = true → ∃ v, optionsRecord.Holds "baseUrl" v o

/-- A declaration with such options, whatever else it says. -/
def DeclaresTable (url : Option String) (rows : List Alias) (w : Written) : Prop :=
  ∃ o, declarationRecord.Holds "compilerOptions" o w ∧ o.WritesTable url rows

end Written

/-! ## What is made of them -/

section

variable {w v : Written} {url : Option String} {rows : List Alias}

theorem Written.Spelling.makes {t : String} (h : w.Spelling t) : Makes (orNull aText).read w (some t) := by
  obtain ⟨body, rfl, htext⟩ := h
  exact makes_orNull (makes_aText htext) nofun

theorem Written.IsSpelled.makes (h : w.IsSpelled url) : Makes (orNull aText).read w url := by
  cases url with
  | some t => exact Written.Spelling.makes h
  | none =>
      obtain rfl : w = .atom .null := h
      exact makes_null

theorem Written.Texts.makes {texts : List String} (h : w.Texts texts) : Makes textList.read w texts := by
  obtain ⟨items, trailing, rfl, hitems⟩ := h
  exact makes_textList hitems trailing

/-- The rows are settled one by one. -/
theorem Written.Rows.makes (h : w.Rows rows) : Makes aliasRows.read w (Alias.settle rows) := by
  obtain ⟨members, trailing, rfl, hmembers⟩ := h
  refine makes_anObject ?_ trailing
  unfold Alias.settle
  -- A row is put among those known before it, so the induction is for whatever is known.
  generalize ([] : List Alias) = known
  induction hmembers generalizing known with
  | nil => exact .nil known
  | @cons member row _ _ hrow _ ih =>
      have hkey := Body.read_of_text? hrow.1 []
      have hmade := hrow.2.makes.map fun templates => Alias.put ⟨row.pattern, templates⟩ known
      exact .cons ⟨[], [], hkey⟩ rfl hmade (ih _)

theorem Written.Rows.ne_null (h : w.Rows rows) : w ≠ .atom .null := by
  obtain ⟨members, trailing, rfl, -⟩ := h
  nofun

theorem projects_options :
    optionsRecord.Projects "baseUrl" (orNull aText) Options.baseUrl ∧
      optionsRecord.Projects "paths" (orNull aliasRows) Options.paths := by
  constructor <;> constructor <;> intro field hfield hname <;>
    simp only [optionsRecord, List.mem_cons, List.not_mem_nil, or_false] at hfield <;>
    rcases hfield with rfl | rfl | rfl | rfl | rfl | rfl | rfl | rfl | rfl
  all_goals first
    | exact absurd hname (by decide)
    | exact Field.sets_map fun _ _ => rfl
    | exact Field.keeps_map fun _ _ => rfl

theorem projects_compilerOptions :
    declarationRecord.Projects "compilerOptions" (orNull optionsRecord.reader) Declaration.options := by
  constructor <;> intro field hfield hname <;>
    simp only [declarationRecord, List.mem_cons, List.not_mem_nil, or_false] at hfield <;>
    rcases hfield with rfl | rfl
  all_goals first
    | exact absurd hname (by decide)
    | exact Field.sets_map fun _ _ => rfl
    | exact Field.keeps_map fun _ _ => rfl

theorem options_of_made {o : Written} {opts : Options} (h : Made optionsRecord.reader.read o opts)
    (hwrites : o.WritesTable url rows) : opts.baseUrl = url ∧ opts.paths = some (Alias.settle rows) := by
  obtain ⟨hurl, hnone⟩ := Record.made_field demands_optionsRecord (by decide) projects_options.1 h
  obtain ⟨hpaths, -⟩ := Record.made_field demands_optionsRecord (by decide) projects_options.2 h
  constructor
  · by_cases hheld : ∃ v, optionsRecord.Holds "baseUrl" v o
    · obtain ⟨v, hv⟩ := hheld
      exact (hwrites.baseUrl v hv).makes.eq_of_made (hurl v hv)
    · have hundeclared : url = none := Option.not_isSome_iff_eq_none.mp fun h => hheld (hwrites.declared h)
      rw [hundeclared]
      exact hnone (not_exists.mp hheld)
  · obtain ⟨v, hv, hrows⟩ := hwrites.paths
    exact (makes_orNull hrows.makes hrows.ne_null).eq_of_made (hpaths v hv)

theorem Record.Holds.ne_null {σ : Type} {record : Record σ} {name : String} (h : record.Holds name v w) :
    w ≠ .atom .null := by
  rintro rfl
  obtain ⟨field, hpart, -⟩ := h
  cases hpart

/-- A text that is taken for a declaration declares what is written. -/
theorem declared_of_parse {text : Bytes} {d : Declaration} (h : Declaration.parse text = .ok d)
    (hs : Spells w.tokens (plain text)) (hw : w.DeclaresTable url rows) :
    d.declared.baseUrl = url ∧ d.declared.paths = some (Alias.settle rows) := by
  obtain ⟨o, ho, hwrites⟩ := hw
  have hmade := made_of_whole hs h
  obtain ⟨hoptions, -⟩ := Record.made_field demands_declarationRecord (by decide) projects_compilerOptions hmade
  obtain ⟨hpath, hpaths⟩ := hwrites.paths
  obtain ⟨opts, hopts, hmadeOptions⟩ := (hoptions o ho).of_orNull hpaths.1.ne_null
  rw [Declaration.declared, hopts]
  exact options_of_made hmadeOptions hwrites

end

/-! ## Every table can be written -/

theorem exists_forall₂ {α β : Type} {R : α → β → Prop} (h : ∀ b, ∃ a, R a b) (bs : List β) :
    ∃ as, List.Forall₂ R as bs := by
  induction bs with
  | nil => exact ⟨[], .nil⟩
  | cons b bs ih =>
      obtain ⟨a, ha⟩ := h b
      obtain ⟨as, has⟩ := ih
      exact ⟨a :: as, .cons ha has⟩

theorem exists_spelling (t : String) : ∃ w : Written, w.Spelling t := by
  obtain ⟨body, htext⟩ := Body.exists_text?_eq t
  exact ⟨.atom (.text body), body, rfl, htext⟩

theorem exists_texts (texts : List String) : ∃ w : Written, w.Texts texts := by
  obtain ⟨items, hitems⟩ := exists_forall₂ exists_spelling texts
  exact ⟨.list items false, items, false, rfl, hitems⟩

theorem exists_rows (rows : List Alias) : ∃ w : Written, w.Rows rows := by
  have hmember (row : Alias) :
      ∃ member : Body × Written, member.1.text? = some row.pattern ∧ member.2.Texts row.templates := by
    obtain ⟨key, hkey⟩ := Body.exists_text?_eq row.pattern
    obtain ⟨w, hw⟩ := exists_texts row.templates
    exact ⟨(key, w), hkey, hw⟩
  obtain ⟨members, hmembers⟩ := exists_forall₂ hmember rows
  exact ⟨.object members false, members, false, rfl, hmembers⟩

theorem exists_text (url : Option String) : ∃ w : Written, w.IsSpelled url := by
  cases url with
  | none => exact ⟨.atom .null, rfl⟩
  | some t => exact exists_spelling t

section

variable {url : Option String} {rows : List Alias} {key baseKey pathsKey : Body} {base v o : Written}

/-- Options that are a base directory and rows. -/
theorem writesTable_object (hbaseKey : baseKey.text? = some "baseUrl") (hpathsKey : pathsKey.text? = some "paths")
    (hbase : base.IsSpelled url) (hv : v.Rows rows) :
    (Written.object [(baseKey, base), (pathsKey, v)] false).WritesTable url rows := by
  refine ⟨⟨v, (Record.holds_object_iff rfl).mpr ⟨pathsKey, by simp, hpathsKey⟩, hv⟩, fun w hw => ?_, fun _ => ?_⟩
  · obtain ⟨key, hmem, hkey⟩ := (Record.holds_object_iff rfl).mp hw
    simp only [List.mem_cons, Prod.mk.injEq, List.not_mem_nil, or_false] at hmem
    rcases hmem with ⟨-, rfl⟩ | ⟨rfl, -⟩
    · exact hbase
    · exact absurd (Option.some.inj (hpathsKey.symm.trans hkey)) (by decide)
  · exact ⟨base, (Record.holds_object_iff rfl).mpr ⟨baseKey, by simp, hbaseKey⟩⟩

theorem makes_table_object (hbaseKey : baseKey.text? = some "baseUrl") (hpathsKey : pathsKey.text? = some "paths")
    (hbase : base.IsSpelled url) (hv : v.Rows rows) :
    Makes optionsRecord.reader.read (.object [(baseKey, base), (pathsKey, v)] false)
      { baseUrl := url, paths := some (Alias.settle rows) } := by
  have hpaths := makes_orNull hv.makes hv.ne_null
  have hruns : optionsRecord.reading.Runs Makes ([], {}) [(baseKey, base), (pathsKey, v)]
      (["paths", "baseUrl"], { baseUrl := url, paths := some (Alias.settle rows) }) :=
    Record.runs_cons hbaseKey rfl List.not_mem_nil (hbase.makes.map _)
      (Record.runs_cons hpathsKey rfl (by decide) (hpaths.map _) (.nil _))
  exact Record.makes_reader hruns false

/-- A declaration that is nothing but options. -/
theorem declaresTable_object (hkey : key.text? = some "compilerOptions") (ho : o.WritesTable url rows) :
    (Written.object [(key, o)] false).DeclaresTable url rows :=
  ⟨o, (Record.holds_object_iff rfl).mpr ⟨key, List.mem_singleton_self _, hkey⟩, ho⟩

theorem makes_declaration_object (hkey : key.text? = some "compilerOptions") {opts : Options}
    (ho : Makes optionsRecord.reader.read o opts) (hnull : o ≠ .atom .null) :
    Makes declarationRecord.reader.read (.object [(key, o)] false) { options := some opts } := by
  have hruns : declarationRecord.reading.Runs Makes ([], {}) [(key, o)]
      (["compilerOptions"], { options := some opts }) :=
    Record.runs_cons hkey rfl List.not_mem_nil ((makes_orNull ho hnull).map _) (.nil _)
  exact Record.makes_reader hruns false

end

/-- Some declaration writes the table and extends nothing. -/
theorem exists_declaresTable (url : Option String) (rows : List Alias) :
    ∃ w : Written, w.DeclaresTable url rows ∧
      ∃ d, Makes declarationRecord.reader.read w d ∧ d.referenceText = "" := by
  obtain ⟨key, hkey⟩ := Body.exists_text?_eq "compilerOptions"
  obtain ⟨baseKey, hbaseKey⟩ := Body.exists_text?_eq "baseUrl"
  obtain ⟨pathsKey, hpathsKey⟩ := Body.exists_text?_eq "paths"
  obtain ⟨base, hbase⟩ := exists_text url
  obtain ⟨v, hv⟩ := exists_rows rows
  exact ⟨_, declaresTable_object hkey (writesTable_object hbaseKey hpathsKey hbase hv), _,
    makes_declaration_object hkey (makes_table_object hbaseKey hpathsKey hbase hv) nofun, rfl⟩

/-- The bytes of a text, without those that could not stand in a string as they are. -/
def Body.bare (t : String) : Body where
  bytes := (Utf8.encode t.toList).filter fun b => b ≠ quote ∧ b ≠ backslash
  isBody := isBody_of_plain fun b hb => by simpa using (List.mem_filter.mp hb).2

/-- A value with nothing between its lexemes. -/
def Document.bare (w : Written) : Document where
  marked := false
  value := w
  filled := w.lexemes.map fun l => ([], l)
  lexemes_eq := by rw [List.map_map]; exact List.map_id _
  last := []
  comment := none

theorem exists_spells (w : Written) : ∃ text, Spells w.tokens (plain text) :=
  ⟨(Document.bare w).written, (Document.bare w).plain_written ▸ (Document.bare w).spells_blanked⟩

end Json

end ConfigChain

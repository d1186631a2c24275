import ConfigChain.Proofs.Json.Shapes
import ConfigChain.Proofs.Loading.Step
import ConfigChain.Proofs.Loading.Succession

/-! # Malformed config files

A text is settled as a config file only if it is one value with the shape of a declaration, and everything else is
malformed. A declaration is an object, and so are its options; where no list stands for one of them, nothing else is
let through. -/

namespace ConfigChain

namespace Json

open Written (IsText IsBool OrNull IsTextList IsMap Shapes IsObjectOf IsListOf IsRecordOf)

/-! ## The shape of a declaration -/

/-- The compiler options. -/
def optionShapes : Shapes :=
  [("rootDir", OrNull IsText), ("outDir", OrNull IsText), ("declarationDir", OrNull IsText),
    ("baseUrl", OrNull IsText), ("paths", OrNull (IsMap IsTextList)), ("importHelpers", OrNull IsBool),
    ("allowJs", OrNull IsBool), ("resolveJsonModule", OrNull IsBool), ("declaration", OrNull IsBool)]

/-- The members of a declaration, with options of some shape. -/
def declarationShapes (options : Written → Prop) : Shapes :=
  [("extends", OrNull IsText), ("compilerOptions", OrNull options)]

/-- An object whose options are an object. -/
def IsDeclaration (w : Written) : Prop := IsObjectOf (declarationShapes (IsObjectOf optionShapes)) w

/-- A declaration in which lists may stand for the two objects. -/
def IsLooseDeclaration (w : Written) : Prop := IsRecordOf (declarationShapes (IsRecordOf optionShapes)) w

/-- A list stands for the declaration or for its options. -/
inductive HasList : Written → Prop
  | top (items : List Written) (trailing : Bool) : HasList (.list items trailing)
  | options {members : List (Body × Written)} (trailing : Bool) {key : Body} {items : List Written} {comma : Bool}
      (hmem : (key, .list items comma) ∈ members) (hkey : key.text? = some "compilerOptions") :
      HasList (.object members trailing)

theorem requires_aliasRows (w : Written) : Requires aliasRows.read w (IsMap IsTextList w) :=
  requires_anObject (fun _ _ w => (requires_textList w).map _) [] w

theorem demands_optionsRecord : optionsRecord.Demands optionShapes := by
  have htext (name : String) (update : Options → Option String → Options) :=
    Field.demands_map (requires_orNull requires_aText) name update
  have hrows (name : String) (update : Options → Option (List Alias) → Options) :=
    Field.demands_map (requires_orNull requires_aliasRows) name update
  have hbool (name : String) (update : Options → Option Bool → Options) :=
    Field.demands_map (requires_orNull requires_aBool) name update
  exact .cons (htext _ _) <| .cons (htext _ _) <| .cons (htext _ _) <| .cons (htext _ _) <| .cons (hrows _ _) <|
    .cons (hbool _ _) <| .cons (hbool _ _) <| .cons (hbool _ _) <| .cons (hbool _ _) .nil

theorem demands_declarationRecord :
    declarationRecord.Demands (declarationShapes (IsRecordOf optionShapes)) := by
  have htext := requires_orNull requires_aText
  have hoptions := requires_orNull (Record.requires_reader demands_optionsRecord)
  exact .cons (Field.demands_map htext _ _) (.cons (Field.demands_map hoptions _ _) .nil)

theorem lookup_declarationShapes {options : Written → Prop} {name : String} {P : Written → Prop}
    (h : (declarationShapes options).lookup name = some P) :
    name = "extends" ∧ P = OrNull IsText ∨ name = "compilerOptions" ∧ P = OrNull options := by
  rw [declarationShapes, List.lookup_cons] at h
  split at h
  · rename_i hname
    exact .inl ⟨beq_iff_eq.mp hname, (Option.some.inj h).symm⟩
  · rw [List.lookup_cons] at h
    split at h
    · rename_i hname
      exact .inr ⟨beq_iff_eq.mp hname, (Option.some.inj h).symm⟩
    · cases h

theorem lookup_extends (options : Written → Prop) :
    (declarationShapes options).lookup "extends" = some (OrNull IsText) := rfl

theorem lookup_compilerOptions (options : Written → Prop) :
    (declarationShapes options).lookup "compilerOptions" = some (OrNull options) := rfl

/-- What is let through besides declarations are lists. -/
theorem IsLooseDeclaration.isDeclaration_iff {w : Written} (h : IsLooseDeclaration w) :
    IsDeclaration w ↔ ¬ HasList w := by
  constructor
  · rintro ⟨members, trailing, rfl, hmembers⟩ hlist
    cases hlist with
    | options _ hmem hkey =>
        rcases hmembers _ hmem _ _ hkey (lookup_compilerOptions _) with hnull | ⟨_, _, hobject, -⟩
        · cases hnull
        · cases hobject
  · intro hlist
    rcases h with ⟨members, trailing, rfl, hmembers⟩ | ⟨items, trailing, rfl, -⟩
    · refine ⟨members, trailing, rfl, ?_⟩
      intro member hmem name P hname hlookup
      rcases lookup_declarationShapes hlookup with ⟨rfl, rfl⟩ | ⟨rfl, rfl⟩
      · exact hmembers member hmem _ _ hname (lookup_extends _)
      · rcases hmembers member hmem _ _ hname (lookup_compilerOptions _) with hnull | hobject | hitems
        · exact .inl hnull
        · exact .inr hobject
        · obtain ⟨key, value⟩ := member
          obtain ⟨items, comma, rfl, -⟩ := hitems
          exact absurd (.options trailing hmem hname) hlist
    · exact absurd (.top items trailing) hlist

/-! ## Whole texts -/

theorem Begins.ends {s : Bytes} {ts : List Token} (h : Begins Token.bytes s ts [])
    (hfirst : ∀ t ∈ ts.head?, ∃ m, t = .mark m) : Ends s := by
  cases h with
  | refl _ => exact ends_nil
  | blank hb _ => exact ends_of_isBlank hb _
  | word t _ =>
      obtain ⟨m, rfl⟩ := hfirst t rfl
      exact m.ends _

/-- Where no two values follow one another, the tokens that a text consists of are spelled by it. -/
theorem Begins.spells {s : Bytes} {ts : List Token} (h : Begins Token.bytes s ts [])
    (hchain : ts.IsChain fun t next => ∀ a, t = .atom a → ∃ m, next = .mark m) : Spells ts s := by
  generalize hr : ([] : Bytes) = r at h
  induction h with
  | refl s =>
      subst hr
      exact .nil
  | blank hb _ ih => exact .blank hb (ih hchain hr)
  | word t hrest ih =>
      obtain ⟨hfirst, hchain⟩ := List.isChain_cons.mp hchain
      subst hr
      refine .token t (fun n hn => hrest.ends ?_) (ih hchain rfl)
      exact fun next hnext => hfirst next hnext _ hn

/-- A text that is taken for a declaration is one value. -/
theorem exists_spells_of_parse {text : Bytes} {d : Declaration} (h : Declaration.parse text = .ok d) :
    ∃ w : Written, Spells w.tokens (plain text) := by
  obtain ⟨w, hw⟩ := grammatical_declaration.whole h
  exact ⟨w, hw.spells (isChain_tokens w.isValue_lexemes.isChain)⟩

/-- And it has the shape of one. -/
theorem isLooseDeclaration_of_parse {text : Bytes} {d : Declaration} (h : Declaration.parse text = .ok d)
    {w : Written} (hw : Spells w.tokens (plain text)) : IsLooseDeclaration w := by
  exact (Record.requires_reader demands_declarationRecord w).of_made (made_of_whole hw h)

end Json

namespace Memory

open Json (Written Spells IsDeclaration IsLooseDeclaration HasList plain commented)

variable (source : Source) (depth : Nat) (m : Memory) (path : String) (text : Bytes)

theorem parse_cases :
    (∃ d, Declaration.parse text = .ok d ∧ ∀ fault, (parse source depth m path text).2 ≠ .failed fault) ∨
      ∃ fault, Declaration.parse text = .error fault ∧ parse source depth m path text =
        (m, .failed (.malformed (Path.beneath source.root (Path.normalize path)) fault)) := by
  cases hparse : Declaration.parse text with
  | ok d =>
      refine .inl ⟨d, rfl, fun fault => ?_⟩
      simp only [parse, parseWith, hparse]
      exact resolve_ne_failed _ _ _ _ _ _
  | error fault => exact .inr ⟨fault, rfl, by simp only [parse, parseWith, hparse]⟩

/-- A text is refused as malformed, and nothing is remembered of it; or it is a value of the shape of a declaration, and
not refused. Then it is an object whose options are an object, unless it is a list or its options are one. -/
theorem parse_shape :
    (∀ m' fault, parse source depth m path text = (m', .failed fault) →
      m' = m ∧ ∃ cause, fault = .malformed (Path.beneath source.root (Path.normalize path)) cause) ∧
    ((∀ fault, (parse source depth m path text).2 ≠ .failed fault) →
      (∃ w : Written, Spells w.tokens (plain text)) ∧
        ∀ w : Written, Spells w.tokens (plain text) → IsLooseDeclaration w ∧ (IsDeclaration w ↔ ¬ HasList w)) ∧
    ((∀ w : Written, Spells w.tokens (plain text) → ¬ IsLooseDeclaration w) →
      ∃ cause, parse source depth m path text =
        (m, .failed (.malformed (Path.beneath source.root (Path.normalize path)) cause))) := by
  rcases parse_cases source depth m path text with ⟨d, hd, haccepted⟩ | ⟨cause, -, hrefused⟩
  · obtain ⟨w, hw⟩ := Json.exists_spells_of_parse hd
    refine ⟨?_, ?_, ?_⟩
    · intro m' fault h
      exact absurd (congrArg Prod.snd h) (haccepted fault)
    · intro _
      refine ⟨⟨w, hw⟩, fun w hw => ?_⟩
      have hshape := Json.isLooseDeclaration_of_parse hd hw
      exact ⟨hshape, hshape.isDeclaration_iff⟩
    · intro hnone
      exact absurd (Json.isLooseDeclaration_of_parse hd hw) (hnone w hw)
  · refine ⟨?_, ?_, fun _ => ⟨cause, hrefused⟩⟩
    · intro m' fault h
      obtain ⟨hm, hfault⟩ := Prod.mk.inj (hrefused.symm.trans h)
      exact ⟨hm.symm, cause, (Outcome.failed.inj hfault).symm⟩
    · intro haccepted
      exact absurd (congrArg Prod.snd hrefused) (haccepted _)

/-- A declaration with comments is settled, though what it extends is missing, and a number is not. -/
theorem parse_shape_commented :
    let source := Source.linked [] Resolver.sibling
    let s := Settings.inherit "tsconfig.json" { reference := some "./b" } none
    let number : Bytes := [0x37]
    let fault : LoadFault :=
      .malformed "./tsconfig.json" ⟨.wrongKind (.number (.whole 7)) "struct RawTsConfig", 1, 1⟩
    (parse source 1 empty "tsconfig.json" commented.written).2 = .loaded s ∧
      Spells commented.value.tokens (plain commented.written) ∧ IsDeclaration commented.value ∧
      parse source 1 empty "tsconfig.json" number = (empty, .failed fault) ∧
      ∃ cause, fault = .malformed "./tsconfig.json" cause := by
  intro source s number fault
  have haccepted : (parse source 1 empty "tsconfig.json" commented.written).2 = .loaded s := by decide +kernel
  have hrefused : parse source 1 empty "tsconfig.json" number = (empty, .failed fault) := by decide +kernel
  have hspells : Spells commented.value.tokens (plain commented.written) :=
    commented.plain_written ▸ commented.spells_blanked
  have hlist : ¬ HasList commented.value := by
    intro h
    cases h with
    | options trailing hmem hkey => cases (Prod.mk.inj (List.mem_singleton.mp hmem)).2
  obtain ⟨-, hshape, -⟩ := parse_shape source 1 empty "tsconfig.json" commented.written
  obtain ⟨hfault, -, -⟩ := parse_shape source 1 empty "tsconfig.json" number
  obtain ⟨-, hdeclaration⟩ := (hshape (haccepted ▸ nofun)).2 commented.value hspells
  have hplace : Path.beneath source.root (Path.normalize "tsconfig.json") = "./tsconfig.json" := by decide
  exact ⟨haccepted, hspells, hdeclaration.mpr hlist, hrefused, hplace ▸ (hfault _ _ hrefused).2⟩

/-- The list of two `null`s, one for each field of a declaration. -/
def nulls : Written := .list [.atom .null, .atom .null] false

/-- The list of two `null`s is settled as a config file. -/
theorem parses_list_of_nulls :
    let source := Source.linked [] Resolver.sibling
    let s := Settings.inherit "tsconfig.json" {} none
    parse source 1 empty "tsconfig.json" nulls.strict = (⟨[("tsconfig.json", .settled s)]⟩, .loaded s) ∧
      Spells nulls.tokens (plain nulls.strict) ∧ ¬ IsDeclaration nulls := by
  intro source s
  have hparse : parse source 1 empty "tsconfig.json" nulls.strict =
      (⟨[("tsconfig.json", .settled s)]⟩, .loaded s) := by decide +kernel
  have hplain : plain nulls.strict = nulls.strict := by decide +kernel
  have hspells : Spells nulls.tokens (plain nulls.strict) := by
    rw [hplain]
    exact nulls.spells_strict
  refine ⟨hparse, hspells, ?_⟩
  rintro ⟨members, trailing, hobject, -⟩
  cases hobject

end Memory

end ConfigChain

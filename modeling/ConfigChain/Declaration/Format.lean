import ConfigChain.Declaration
import ConfigChain.Json.Record
import ConfigChain.Json.Relaxed

/-!
The written form of a declaration: relaxed JSON with a member for the extended file and one for the
compiler options. `Declaration.parse` reads it.
-/

namespace ConfigChain

open Json (Field Record orNull aText aBool textList anObject)

/-- The alias table as it is written; a pattern that comes again replaces its templates. -/
def aliasRows : Json.Reader (List Alias) :=
  anObject (fun rows pattern => textList.map fun templates => Alias.put ⟨pattern, templates⟩ rows) []

/-- The compiler options as they are written. -/
def optionsRecord : Record Options where
  title := "struct RawCompilerOptions"
  fields := [
    ⟨"rootDir", fun o => (orNull aText).map fun v => { o with rootDir := v }⟩,
    ⟨"outDir", fun o => (orNull aText).map fun v => { o with outDir := v }⟩,
    ⟨"declarationDir", fun o => (orNull aText).map fun v => { o with declarationDir := v }⟩,
    ⟨"baseUrl", fun o => (orNull aText).map fun v => { o with baseUrl := v }⟩,
    ⟨"paths", fun o => (orNull aliasRows).map fun v => { o with paths := v }⟩,
    ⟨"importHelpers", fun o => (orNull aBool).map fun v => { o with importHelpers := v }⟩,
    ⟨"allowJs", fun o => (orNull aBool).map fun v => { o with allowJs := v }⟩,
    ⟨"resolveJsonModule", fun o => (orNull aBool).map fun v => { o with resolveJsonModule := v }⟩,
    ⟨"declaration", fun o => (orNull aBool).map fun v => { o with declaration := v }⟩]
  start := {}

/-- A declaration as it is written. -/
def declarationRecord : Record Declaration where
  title := "struct RawTsConfig"
  fields := [
    ⟨"extends", fun d => (orNull aText).map fun v => { d with reference := v }⟩,
    ⟨"compilerOptions", fun d => (orNull optionsRecord.reader).map fun v => { d with options := v }⟩]
  start := {}

/-- What the text of a config file declares. -/
def Declaration.parse (text : Bytes) : Except Json.Fault Declaration :=
  declarationRecord.reader.relaxed text

end ConfigChain

import ConfigChain.Proofs.Path.Below
import ConfigChain.Proofs.Settings.Directories

/-! # Sources outside the root directory

A source that does not lead below the root directory keeps its whole path, and one that does lands below the
target. The exception is a root directory that only climbs: a source that climbs further loses the climbs of the
root directory, lands elsewhere, and nothing holds it below the target. -/

namespace ConfigChain

namespace Settings

open ConfigChain.Path (Below Canonical ClimbsPast Plain below?)

/-! ## One source -/

/-- The end of the move is always a join: `.` as target changes nothing. -/
theorem moved_eq_join {s : Settings} (hroot : Canonical s.rootDir) {source : String} (hsource : Plain source)
    (target : String) :
    s.moved source target =
      Path.join target ((below? (Path.normalize source) s.rootDir).getD (Path.normalize source)) := by
  have hnormal := Path.canonical_normalize hsource
  have hcanonical : Canonical ((below? (Path.normalize source) s.rootDir).getD (Path.normalize source)) := by
    cases hrest : below? (Path.normalize source) s.rootDir with
    | none => exact hnormal
    | some rest => exact (Path.below?_cases hnormal hroot hrest).1
  unfold moved
  split
  · rename_i htarget
    rw [Path.join, if_pos (.inr (.inr htarget)), hcanonical]
  · rfl

/-- Where a source has been moved, for a root directory and a target. -/
structure Lands (root target source moved : String) : Prop where
  outside : ¬ Below source root →
    (moved = Path.join target (Path.normalize source) ↔
      (ClimbsPast source root → Path.isAbsolute target = true ∧
        (Path.place target.toList).names.length ≤
          (Path.place source.toList).climbs - (Path.place root.toList).climbs))
  past : ClimbsPast source root →
    moved = Path.join target (Path.lifted source (Path.place root.toList).climbs)
  inside : (below? (Path.normalize source) root).isSome → ¬ ClimbsPast source root → Below moved target

theorem below_normalize_iff {source : String} (h : Plain source) (root : String) :
    Below (Path.normalize source) root ↔ Below source root := by
  rw [Below, Below, Path.place_normalize h]

theorem climbsPast_normalize_iff {source : String} (h : Plain source) (root : String) :
    ClimbsPast (Path.normalize source) root ↔ ClimbsPast source root := by
  simp only [ClimbsPast, Path.isAbsolute_eq_rooted, Path.place_normalize h]

theorem lands_moved {s : Settings} (hroot : Canonical s.rootDir) {source target : String}
    (hsource : Plain source) (htarget : Plain target) :
    Lands s.rootDir target source (s.moved source target) := by
  have hnormal := Path.canonical_normalize hsource
  have hpast (h : ClimbsPast source s.rootDir) : s.moved source target =
      Path.join target (Path.lifted source (Path.place s.rootDir.toList).climbs) := by
    have hbelow := Path.below?_of_climbsPast hnormal hroot ((climbsPast_normalize_iff hsource _).mpr h)
    rw [moved_eq_join hroot hsource, hbelow, Option.getD_some, Path.lifted, Path.lifted,
      Path.place_normalize hsource]
  refine ⟨fun houtside => ?_, hpast, fun hstripped hnot => ?_⟩
  · by_cases h : ClimbsPast source s.rootDir
    · have hjoin := Path.join_lifted_eq_iff htarget hsource h.2.1 h.1.2.1 (Nat.le_of_lt h.2.2)
      rw [hpast h, Path.join_normalize_right htarget hsource, hjoin]
      exact ⟨fun hroot _ => hroot, fun hroot => hroot h⟩
    · refine iff_of_true ?_ fun hclimbs => absurd hclimbs h
      cases hrest : below? (Path.normalize source) s.rootDir with
      | none => rw [moved_eq_join hroot hsource, hrest, Option.getD_none]
      | some rest =>
          rcases (Path.below?_cases hnormal hroot hrest).2 with ⟨hbelow, -⟩ | ⟨hclimbs, -⟩
          · exact absurd ((below_normalize_iff hsource _).mp hbelow) houtside
          · exact absurd ((climbsPast_normalize_iff hsource _).mp hclimbs) h
  · obtain ⟨rest, hrest⟩ := Option.isSome_iff_exists.mp hstripped
    obtain ⟨hcanonical, hcases⟩ := Path.below?_cases hnormal hroot hrest
    rw [moved_eq_join hroot hsource, hrest, Option.getD_some]
    rcases hcases with ⟨-, hdescends⟩ | ⟨hclimbs, -⟩
    · exact Path.below_join htarget hcanonical.plain hdescends
    · exact absurd ((climbsPast_normalize_iff hsource _).mp hclimbs) hnot

/-! ## Settings of a chain of files -/

variable {files : List (String × Declaration)} {s : Settings}

theorem plain_directory? (dir : Option String) : Plain ((dir.map Path.normalize).getD ".") := by
  cases dir with
  | none => decide
  | some dir => exact Path.plain_normalize dir

theorem plain_targets_of_chained (h : chained none files = some s) :
    Plain s.outDir ∧ Plain (s.declarationDir.getD s.outDir) := by
  have hnearest := nearest_of_chained h
  have hout : Plain s.outDir := by
    rw [hnearest.outDir]
    exact plain_directory? _
  refine ⟨hout, ?_⟩
  rw [hnearest.declarationDir]
  cases nearest Options.declarationDir files with
  | none => exact hout
  | some dir => exact Path.plain_normalize dir

theorem canonical_rootDir_of_chained (h : chained none files = some s)
    (hroot : ∀ dir ∈ nearest Options.rootDir files, Plain dir) : Canonical s.rootDir := by
  rw [(nearest_of_chained h).rootDir, canonical_normalize_getD_iff]
  exact fun dir hdir => Path.canonical_normalize (hroot dir hdir)

end Settings

namespace Memory

open Settings (Lands chained nearest)

variable {m m' : Memory} {s : Settings}

theorem Request.offers_of_parse {source : Source} {depth : Nat} {path : String} {text : Bytes} {d : Declaration}
    (hpath : Path.Canonical path) (hparse : Declaration.parse text = .ok d) :
    (Request.parse source depth path text).Offers path d := by
  have hoffers : (Request.parse source depth path text).Offers (Path.normalize path) d := .brought hparse
  rwa [show Path.normalize path = path from hpath] at hoffers

/-- The settings that any request of a session is answered with are the fold of files that were read or brought
along. Whichever files they are the fold of, unless these declare the root directory with a backslash every source
lands as `Lands` tells, its code and its declarations. -/
theorem lands_of_session {earlier : List (Request × Outcome)} (hsession : Session empty earlier m)
    {r : Request} (hanswer : r.answer m = (m', .loaded s)) :
    (∃ files, (∀ file ∈ files, Offering ((r, .loaded s) :: earlier) file.1 file.2) ∧
      chained none files = some s) ∧
      ∀ files, chained none files = some s → (∀ dir ∈ nearest Options.rootDir files, Path.Plain dir) →
        ∀ source, Path.Plain source →
          Lands s.rootDir s.outDir source (s.codePath source) ∧
          Lands s.rootDir (s.declarationDir.getD s.outDir) source (s.declarationPath source) := by
  refine ⟨(hsession.chained_answer hanswer).1, fun files hs hplain source hsource => ?_⟩
  have hroot := Settings.canonical_rootDir_of_chained hs hplain
  obtain ⟨hout, hdeclarations⟩ := Settings.plain_targets_of_chained hs
  exact ⟨Settings.lands_moved hroot hsource hout, Settings.lands_moved hroot hsource hdeclarations⟩

/-- Below two climbs a source lands below the target, beside them it keeps its path. Behind a third one it lands
beside the target, which makes no difference only where nothing is above. -/
theorem lands_of_session_climbing :
    let source := Source.linked [] Resolver.sibling
    let baseText : Bytes := Utf8.encode
      "\x7b\"compilerOptions\":\x7b\"rootDir\":\"../..\",\"outDir\":\"dist\"\x7d\x7d".toList
    let text : Bytes := Utf8.encode
      "\x7b\"extends\":\"../base\",\"compilerOptions\":\x7b\"declarationDir\":\"/types\"\x7d\x7d".toList
    let own : Declaration := { options := some { rootDir := some "../..", outDir := some "dist" } }
    let above : Declaration :=
      { reference := some "../base", options := some { declarationDir := some "/types" } }
    let base := Settings.inherit "base.json" own none
    let child := Settings.inherit "a/tsconfig.json" above (some base)
    let earlier : List (Request × Outcome) := [(.parse source 0 "base.json" baseText, .loaded base)]
    let r : Request := .parse source 1 "a/tsconfig.json" text
    let m : Memory := ⟨[("base.json", .settled base)]⟩
    let m' : Memory := ⟨[("a/tsconfig.json", .settled child), ("base.json", .settled base)]⟩
    Session empty earlier m ∧ r.answer m = (m', .loaded child) ∧
      (∃ files, (∀ file ∈ files, Offering ((r, .loaded child) :: earlier) file.1 file.2) ∧
        chained none files = some child ∧ ∀ dir ∈ nearest Options.rootDir files, Path.Plain dir) ∧
      Path.Below (child.codePath "../../lib/x.ts") "dist" ∧
      child.codePath "lib/x.ts" = Path.join "dist" (Path.normalize "lib/x.ts") ∧
      child.codePath "../../../x.ts" = Path.join "dist" "../x.ts" ∧
      child.codePath "../../../x.ts" ≠ Path.join "dist" (Path.normalize "../../../x.ts") ∧
      child.declarationPath "../../../x.ts" = Path.join "/types" (Path.normalize "../../../x.ts") := by
  intro source baseText text own above base child earlier r m m'
  have hsession : Session empty earlier m := .cons (by decide +kernel) (by simp) (.nil m)
  have hanswer : r.answer m = (m', .loaded child) := by decide +kernel
  let files := [("a/tsconfig.json", above), ("base.json", own)]
  have hoffered : ∀ file ∈ files, Offering ((r, .loaded child) :: earlier) file.1 file.2 := by
    refine List.forall_mem_cons.mpr ⟨⟨_, List.mem_cons_self, ?_⟩, List.forall_mem_singleton.mpr
      ⟨_, List.mem_cons_of_mem _ List.mem_cons_self, ?_⟩⟩
    · exact Request.offers_of_parse (by decide) (by decide +kernel)
    · exact Request.offers_of_parse (by decide) (by decide +kernel)
  have hs : chained none files = some child := rfl
  have hplain : ∀ dir ∈ nearest Options.rootDir files, Path.Plain dir := by decide
  obtain ⟨-, hlands⟩ := lands_of_session hsession hanswer
  have hroot : child.rootDir = "../.." := by decide
  have hout : child.outDir = "dist" := by decide
  have htypes : child.declarationDir.getD child.outDir = "/types" := by decide
  replace hlands := hlands files hs hplain
  rw [htypes, hroot, hout] at hlands
  have hpast : Path.ClimbsPast "../../../x.ts" "../.." := by decide
  obtain ⟨hcode, hdeclaration⟩ := hlands "../../../x.ts" (by decide)
  refine ⟨hsession, hanswer, ⟨files, hoffered, hs, hplain⟩, ?_, ?_, ?_, ?_, ?_⟩
  · exact (hlands "../../lib/x.ts" (by decide)).1.inside (by decide) (by decide)
  · exact ((hlands "lib/x.ts" (by decide)).1.outside (by decide)).mpr fun h => absurd h (by decide)
  · exact (hcode.past hpast).trans (by decide)
  · exact fun h => absurd ((hcode.outside hpast.not_below).mp h hpast) (by decide)
  · exact (hdeclaration.outside hpast.not_below).mpr fun _ => by decide

/-- A source that climbs further than the root directory is taken for one below it: its code lands outside the
output directory, and not where its whole path leads. -/
theorem not_kept_past_parent :
    let source := Source.linked [] Resolver.sibling
    let text : String := "\x7b\"compilerOptions\":\x7b\"rootDir\":\"..\",\"outDir\":\"dist\"\x7d\x7d"
    ∃ m s, Request.answer (.parse source 0 "tsconfig.json" (Utf8.encode text.toList)) empty =
        (m, .loaded s) ∧
      s.rootDir = ".." ∧ s.outDir = "dist" ∧ ¬ Path.Below "../../x.ts" s.rootDir ∧
      s.codePath "../../x.ts" = "x.ts" ∧ s.declarationPath "../../x.ts" = "x.ts" ∧
      Path.join s.outDir (Path.normalize "../../x.ts") = "../x.ts" ∧
      Path.below? (Path.normalize "../../x.ts") s.rootDir = some "../x.ts" ∧
      ¬ Path.Below (s.codePath "../../x.ts") s.outDir := by
  intro source text
  let own : Options := { rootDir := some "..", outDir := some "dist" }
  let s := Settings.inherit "tsconfig.json" { options := some own } none
  exact ⟨⟨[("tsconfig.json", .settled s)]⟩, s, by decide +kernel⟩

end Memory

end ConfigChain

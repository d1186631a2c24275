import ConfigChain.Proofs.Destination.Landing
import ConfigChain.Proofs.Path.Segments

/-! # What remains of a source

A source whose segments are those of the root directory and further ones goes to the target by the further ones
alone, any other source by its whole path. Inside a root directory that does not climb, what remains tells the
sources apart wherever they are moved to. -/

namespace ConfigChain

namespace Path

variable {p dir : String}

theorem segments_eq_nil_iff (h : Canonical p) : segments p = [] ↔ p = "." ∨ p = "/" := by
  rw [segments_eq_route h]
  constructor
  · intro hroute
    have hspell := h.toList_eq
    cases hr : (place p.toList).rooted with
    | true =>
        rw [Place.spell, hr, hroute] at hspell
        exact .inr (String.toList_injective hspell)
    | false =>
        rw [Place.spell, hr, hroute] at hspell
        exact .inl (String.toList_injective hspell)
  · rintro (rfl | rfl) <;> decide

/-- The segments of a path are those of a directory, and then `rest`. -/
structure Continues (dir path : String) (rest : List (List Char)) : Prop where
  rooted : isAbsolute path = isAbsolute dir
  segments : segments path = segments dir ++ rest
  ne_nil : rest ≠ []

/-- The comparison of texts finds what remains behind the segments of a directory that has any. -/
theorem below?_eq_some_iff_continues (hp : Canonical p) (hdir : Canonical dir) (way : String) :
    below? p dir = some way ↔ dir ≠ "." ∧ dir ≠ "/" ∧
      ∃ rest, Continues dir p rest ∧ way = String.ofList (link rest) := by
  have hnil : (place dir.toList).route ≠ [] ↔ dir ≠ "." ∧ dir ≠ "/" := by
    rw [← segments_eq_route hdir, ne_eq, segments_eq_nil_iff hdir, not_or]
  rw [below?_canonical_iff hp hdir, hnil, and_assoc, ← isAbsolute_eq_rooted, ← isAbsolute_eq_rooted,
    ← segments_eq_route hp, ← segments_eq_route hdir]
  refine and_congr_right fun _ => and_congr_right fun _ => ?_
  constructor
  · rintro ⟨hrooted, rest, hne, hsegments, hway⟩
    exact ⟨rest, ⟨hrooted, hsegments, hne⟩, String.toList_injective (by rw [hway, String.toList_ofList])⟩
  · rintro ⟨rest, h, rfl⟩
    exact ⟨h.rooted, rest, h.ne_nil, h.segments, String.toList_ofList⟩

/-- Names lead to different places from wherever they are followed. -/
theorem join_down_inj {target : String} (htarget : Plain target) {names names' : List (List Char)}
    (h : Downward names) (h' : Downward names') :
    join target (down names) = join target (down names') ↔ names = names' := by
  have hplace {names : List (List Char)} (h : Downward names) :
      (place (join target (down names)).toList).names = names.reverse ++ (place target.toList).names := by
    rw [place_join htarget h.plain_down, (regular_place _).follow_eq (by rw [h.place_down]), h.place_down]
    rfl
  constructor
  · intro heq
    have hnames := congrArg (fun path => (place path.toList).names) heq
    rwa [hplace h, hplace h', List.append_cancel_right_eq, List.reverse_inj] at hnames
  · exact congrArg fun names => join target (down names)

end Path

namespace Settings

open ConfigChain.Path (Canonical Continues Inside Plain)

/-! ## Segment by segment -/

/-- How sources are moved, for a root directory and a target: below the root directory by what remains, anywhere
else by the whole path. The directories `.` and `/` have no segments, and nothing counts as being below them. -/
structure Segmentwise (root target : String) (move : String → String) : Prop where
  below : ∀ source rest, Plain source → root ≠ "." → root ≠ "/" →
    Continues root (Path.normalize source) rest → move source = Path.join target (String.ofList (Path.link rest))
  kept : ∀ source, Plain source →
    (root = "." ∨ root = "/" ∨ ∀ rest, ¬ Continues root (Path.normalize source) rest) →
    move source = Path.join target (Path.normalize source)
  canonical : ∀ source, Plain source → Canonical (move source)
  congr : ∀ source other, Path.normalize source = Path.normalize other → move source = move other

theorem segmentwise_moved {s : Settings} (hroot : Canonical s.rootDir) {target : String} (htarget : Plain target) :
    Segmentwise s.rootDir target fun source => s.moved source target := by
  refine ⟨?_, ?_, ?_, ?_⟩
  · intro source rest hsource hdot hslash hcontinues
    have hbelow := (Path.below?_eq_some_iff_continues (Path.canonical_normalize hsource) hroot _).mpr
      ⟨hdot, hslash, rest, hcontinues, rfl⟩
    simp only [moved_eq_join hroot hsource, hbelow, Option.getD_some]
  · intro source hsource hkept
    have hbelow : Path.below? (Path.normalize source) s.rootDir = none := by
      refine Option.eq_none_iff_forall_ne_some.mpr fun way hway => ?_
      obtain ⟨hdot, hslash, rest, hcontinues, -⟩ :=
        (Path.below?_eq_some_iff_continues (Path.canonical_normalize hsource) hroot way).mp hway
      rcases hkept with h | h | h
      · exact hdot h
      · exact hslash h
      · exact h rest hcontinues
    simp only [moved_eq_join hroot hsource, hbelow, Option.getD_none]
  · intro source hsource
    have hnormal := Path.canonical_normalize hsource
    simp only [moved_eq_join hroot hsource]
    cases hbelow : Path.below? (Path.normalize source) s.rootDir with
    | none => exact Path.canonical_join htarget hnormal.plain
    | some rest => exact Path.canonical_join htarget (Path.below?_cases hnormal hroot hbelow).1.plain
  · intro source other h
    simp only [moved, h]

/-! ## Sources told apart -/

/-- A source that does not climb and lies below the root directory, which may be where sources count from. -/
def Within (root source : String) : Prop :=
  Inside (Path.normalize source) ∧ (root = "." ∨ ∃ rest, Continues root (Path.normalize source) rest)

theorem Segmentwise.exists_rest {root target : String} {move : String → String} (h : Segmentwise root target move)
    (hinside : Inside root) {source : String} (hsource : Plain source) (hwithin : Within root source) :
    ∃ rest, Path.segments (Path.normalize source) = Path.segments root ++ rest ∧
      move source = Path.join target (Path.down rest) := by
  obtain ⟨hin, hbelow⟩ := hwithin
  by_cases hdot : root = "."
  · have hsegments : Path.segments "." = [] := by decide
    refine ⟨Path.segments (Path.normalize source), by rw [hdot, hsegments, List.nil_append], ?_⟩
    rw [h.kept source hsource (.inl hdot), ← hin.eq_down (Path.canonical_normalize hsource)]
  · obtain ⟨rest, hrest⟩ := hbelow.resolve_left hdot
    have hslash : root ≠ "/" := by
      rintro rfl
      exact absurd hinside.1 (by decide)
    refine ⟨rest, hrest.segments, ?_⟩
    rw [h.below source rest hsource hdot hslash hrest, Path.down_of_ne_nil hrest.ne_nil]

/-- Sources that land at one place are spelled differently at most. -/
def Apart (root : String) (move : String → String) : Prop :=
  ∀ source other, Plain source → Plain other → Within root source → Within root other →
    (move source = move other ↔ Path.normalize source = Path.normalize other)

theorem Segmentwise.apart {root target : String} {move : String → String} (h : Segmentwise root target move)
    (htarget : Plain target) (hinside : Inside root) : Apart root move := by
  intro source other hsource hother hwithin hwithin'
  obtain ⟨rest, hsegments, hmove⟩ := h.exists_rest hinside hsource hwithin
  obtain ⟨rest', hsegments', hmove'⟩ := h.exists_rest hinside hother hwithin'
  have hdownward : Path.Downward rest := (hwithin.1.downward (Path.plain_normalize source)).subset
    (hsegments ▸ List.subset_append_right _ rest)
  have hdownward' : Path.Downward rest' := (hwithin'.1.downward (Path.plain_normalize other)).subset
    (hsegments' ▸ List.subset_append_right _ rest')
  rw [hmove, hmove', hwithin.1.normalize_eq_iff hsource hother hwithin'.1, hsegments, hsegments',
    List.append_cancel_left_eq]
  exact Path.join_down_inj htarget hdownward hdownward'

end Settings

namespace Memory

open Settings (Apart Segmentwise Within chained nearest)

variable {m m' : Memory} {s : Settings}

/-- The settings that any request of a session is answered with are the fold of files that were read or brought
along. Whichever files they are the fold of, unless these declare the root directory with a backslash code and
declarations are moved segment by segment. -/
theorem segmentwise_of_session {earlier : List (Request × Outcome)} (hsession : Session empty earlier m)
    {r : Request} (hanswer : r.answer m = (m', .loaded s)) :
    (∃ files, (∀ file ∈ files, Offering ((r, .loaded s) :: earlier) file.1 file.2) ∧
      chained none files = some s) ∧
      ∀ files, chained none files = some s → (∀ dir ∈ nearest Options.rootDir files, Path.Plain dir) →
        Segmentwise s.rootDir s.outDir s.codePath ∧
        Segmentwise s.rootDir (s.declarationDir.getD s.outDir) s.declarationPath := by
  refine ⟨(hsession.chained_answer hanswer).1, fun files hs hplain => ?_⟩
  have hroot := Settings.canonical_rootDir_of_chained hs hplain
  obtain ⟨hout, hdeclarations⟩ := Settings.plain_targets_of_chained hs
  exact ⟨Settings.segmentwise_moved hroot hout, Settings.segmentwise_moved hroot hdeclarations⟩

/-- A root directory beside the config, and a neighbour whose name begins like it. -/
theorem segmentwise_of_session_neighbour :
    let source := Source.linked [] Resolver.sibling
    let baseText : Bytes := Utf8.encode
      "\x7b\"compilerOptions\":\x7b\"rootDir\":\"../lib//../src/\",\"outDir\":\"../dist\"\x7d\x7d".toList
    let text : Bytes := Utf8.encode
      "\x7b\"extends\":\"../base\",\"compilerOptions\":\x7b\"declarationDir\":\"./\"\x7d\x7d".toList
    let own : Declaration := { options := some { rootDir := some "../lib//../src/", outDir := some "../dist" } }
    let above : Declaration := { reference := some "../base", options := some { declarationDir := some "./" } }
    let base := Settings.inherit "base.json" own none
    let child := Settings.inherit "a/tsconfig.json" above (some base)
    let earlier : List (Request × Outcome) := [(.parse source 0 "base.json" baseText, .loaded base)]
    let r : Request := .parse source 1 "a/tsconfig.json" text
    let m : Memory := ⟨[("base.json", .settled base)]⟩
    let m' : Memory := ⟨[("a/tsconfig.json", .settled child), ("base.json", .settled base)]⟩
    let files := [("a/tsconfig.json", above), ("base.json", own)]
    Session empty earlier m ∧ r.answer m = (m', .loaded child) ∧
      (∀ file ∈ files, Offering ((r, .loaded child) :: earlier) file.1 file.2) ∧
      chained none files = some child ∧ (∀ dir ∈ nearest Options.rootDir files, Path.Plain dir) ∧
      child.codePath "../src/x/../a/b.ts" = Path.join "../dist" "a/b.ts" ∧
      child.declarationPath "../src/a/b.ts" = Path.join "." "a/b.ts" ∧
      child.codePath "../src-x/b.ts" = Path.join "../dist" "../src-x/b.ts" ∧
      Path.Canonical (child.codePath "..//src/./b.ts") ∧
      child.codePath "..//src/./b.ts" = child.codePath "../src/b.ts" := by
  intro source baseText text own above base child earlier r m m' files
  have hsession : Session empty earlier m := .cons (by decide +kernel) (by simp) (.nil m)
  have hanswer : r.answer m = (m', .loaded child) := by decide +kernel
  have hoffered : ∀ file ∈ files, Offering ((r, .loaded child) :: earlier) file.1 file.2 := by
    refine List.forall_mem_cons.mpr ⟨⟨_, List.mem_cons_self, ?_⟩, List.forall_mem_singleton.mpr
      ⟨_, List.mem_cons_of_mem _ List.mem_cons_self, ?_⟩⟩
    · exact Request.offers_of_parse (by decide) (by decide +kernel)
    · exact Request.offers_of_parse (by decide) (by decide +kernel)
  have hs : chained none files = some child := rfl
  have hplain : ∀ dir ∈ nearest Options.rootDir files, Path.Plain dir := by decide
  obtain ⟨-, hmoved⟩ := segmentwise_of_session hsession hanswer
  replace hmoved := hmoved files hs hplain
  have hroot : child.rootDir = "../src" := by decide
  have hout : child.outDir = "../dist" := by decide
  have htypes : child.declarationDir.getD child.outDir = "." := by decide
  rw [htypes, hroot, hout] at hmoved
  obtain ⟨hcode, hdeclaration⟩ := hmoved
  have hbelow {path : String} (h : Path.normalize path = "../src/a/b.ts") :
      Path.Continues "../src" (Path.normalize path) [['a'], ['b', '.', 't', 's']] := by
    rw [h]
    exact ⟨by decide, by decide, by decide⟩
  have hneighbour (rest : List (List Char)) : ¬ Path.Continues "../src" (Path.normalize "../src-x/b.ts") rest := by
    intro h
    have hprefix : Path.segments "../src" <+: Path.segments (Path.normalize "../src-x/b.ts") :=
      ⟨rest, h.segments.symm⟩
    exact absurd hprefix (by decide)
  have hrest : String.ofList (Path.link [['a'], ['b', '.', 't', 's']]) = "a/b.ts" := by decide
  have hkept : Path.normalize "../src-x/b.ts" = "../src-x/b.ts" := by decide
  refine ⟨hsession, hanswer, hoffered, hs, hplain, ?_, ?_, ?_, ?_, ?_⟩
  · rw [hcode.below _ _ (by decide) (by decide) (by decide) (hbelow (by decide)), hrest]
  · rw [hdeclaration.below _ _ (by decide) (by decide) (by decide) (hbelow (by decide)), hrest]
  · rw [hcode.kept _ (by decide) (.inr (.inr hneighbour)), hkept]
  · exact hcode.canonical _ (by decide)
  · exact hcode.congr _ _ (by decide)

/-- The settings that any request of a session is answered with are the fold of files that were read or brought
along. Whichever files they are the fold of, unless these declare the root directory with a backslash or it climbs
no two sources within it land at one place, wherever the outputs go. -/
theorem apart_of_session {earlier : List (Request × Outcome)} (hsession : Session empty earlier m)
    {r : Request} (hanswer : r.answer m = (m', .loaded s)) :
    (∃ files, (∀ file ∈ files, Offering ((r, .loaded s) :: earlier) file.1 file.2) ∧
      chained none files = some s) ∧
      ∀ files, chained none files = some s → (∀ dir ∈ nearest Options.rootDir files, Path.Plain dir) →
        Path.Inside s.rootDir → Apart s.rootDir s.codePath ∧ Apart s.rootDir s.declarationPath := by
  refine ⟨(hsession.chained_answer hanswer).1, fun files hs hplain hinside => ?_⟩
  have hroot := Settings.canonical_rootDir_of_chained hs hplain
  obtain ⟨hout, hdeclarations⟩ := Settings.plain_targets_of_chained hs
  exact ⟨(Settings.segmentwise_moved hroot hout).apart hout hinside,
    (Settings.segmentwise_moved hroot hdeclarations).apart hdeclarations hinside⟩

/-- The code goes to the root directory of the file system, the declarations far above the config. -/
theorem apart_of_session_far :
    let source := Source.linked [] Resolver.sibling
    let text : Bytes := Utf8.encode ("\x7b\"compilerOptions\":\x7b\"rootDir\":\"src/./app\"," ++
      "\"outDir\":\"/out/..\",\"declarationDir\":\"../..\"\x7d\x7d").toList
    let own : Declaration :=
      { options := some { rootDir := some "src/./app", outDir := some "/out/..", declarationDir := some "../.." } }
    let s := Settings.inherit "tsconfig.json" own none
    let r : Request := .parse source 0 "tsconfig.json" text
    let m : Memory := ⟨[("tsconfig.json", .settled s)]⟩
    let files := [("tsconfig.json", own)]
    Session empty [] empty ∧ r.answer empty = (m, .loaded s) ∧
      (∀ file ∈ files, Offering [(r, .loaded s)] file.1 file.2) ∧ chained none files = some s ∧
      (∀ dir ∈ nearest Options.rootDir files, Path.Plain dir) ∧
      Path.Inside s.rootDir ∧ s.outDir = "/" ∧ s.declarationDir = some "../.." ∧
      Within s.rootDir "src/x/../app/a.ts" ∧ Within s.rootDir "src/app/./a.ts" ∧ Within s.rootDir "src/app/b/a.ts" ∧
      s.codePath "src/x/../app/a.ts" = s.codePath "src/app/./a.ts" ∧
      s.codePath "src/app/./a.ts" ≠ s.codePath "src/app/b/a.ts" ∧
      s.declarationPath "src/app/./a.ts" ≠ s.declarationPath "src/app/b/a.ts" := by
  intro source text own s r m files
  have hanswer : r.answer empty = (m, .loaded s) := by decide +kernel
  have hoffered : ∀ file ∈ files, Offering [(r, .loaded s)] file.1 file.2 := by
    refine List.forall_mem_singleton.mpr ⟨_, List.mem_singleton_self _, ?_⟩
    exact Request.offers_of_parse (by decide) (by decide +kernel)
  have hs : chained none files = some s := rfl
  have hplain : ∀ dir ∈ nearest Options.rootDir files, Path.Plain dir := by decide
  obtain ⟨-, hapart⟩ := apart_of_session (.nil empty) hanswer
  have hinside : Path.Inside s.rootDir := by decide
  have hdetour : Within s.rootDir "src/x/../app/a.ts" :=
    ⟨by decide, .inr ⟨[['a', '.', 't', 's']], by decide, by decide, by decide⟩⟩
  have hhere : Within s.rootDir "src/app/./a.ts" :=
    ⟨by decide, .inr ⟨[['a', '.', 't', 's']], by decide, by decide, by decide⟩⟩
  have hdeeper : Within s.rootDir "src/app/b/a.ts" :=
    ⟨by decide, .inr ⟨[['b'], ['a', '.', 't', 's']], by decide, by decide, by decide⟩⟩
  obtain ⟨hcode, hdeclaration⟩ := hapart files hs hplain hinside
  refine ⟨.nil empty, hanswer, hoffered, hs, hplain, hinside, by decide, by decide, hdetour, hhere, hdeeper,
    ?_, ?_, ?_⟩
  · exact (hcode _ _ (by decide) (by decide) hdetour hhere).mpr (by decide)
  · exact fun h => absurd ((hcode _ _ (by decide) (by decide) hhere hdeeper).mp h) (by decide)
  · exact fun h => absurd ((hdeclaration _ _ (by decide) (by decide) hhere hdeeper).mp h) (by decide)

end Memory

end ConfigChain

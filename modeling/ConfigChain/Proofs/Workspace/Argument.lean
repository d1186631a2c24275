import ConfigChain.Command.Run
import ConfigChain.Proofs.Workspace.Places

/-! # Absolute file arguments

An absolute path that leads anywhere is told by its normal form: it is a key of the workspace exactly when that is the
root or lies below it. One that leads nowhere is taken as it is written. Then the names of the root have to stand in
front, and what follows them may climb out again. -/

namespace ConfigChain

open ConfigChain.Path (IsName Place Plain)

/-! ## The key of an argument -/

namespace Command

open ConfigChain.Path (segments normalize down)

variable {files : FileSystem} {root : Location} {path : String}

/-- The answer that an absolute argument should have: the way from the root, if its normal form is the root or lies
below it, and otherwise that it lies outside. -/
structure Right (root : Location) (path : String) (answer : Except Failure String) : Prop where
  inside : ∀ way : Location, way.Named → normalize path = FileSystem.spell (root ++ way) →
    answer = .ok (down way.pieces)
  outside : (∀ way : Location, way.Named → normalize path ≠ FileSystem.spell (root ++ way)) →
    answer = .error (.outside path (FileSystem.spell root))

/-- A path that is written below the root and does not climb out from there, wherever it may have been on the way. -/
def WrittenInside (root : Location) (path : String) : Prop :=
  ∃ tail, segments path = root.pieces ++ tail ∧ (Path.place (Path.link tail)).climbs = 0

/-- A path that is neither written below the root nor leads there. -/
def WrittenOutside (root : Location) (path : String) : Prop :=
  ¬ root.pieces <+: segments path ∧ ∀ way : Location, way.Named → normalize path ≠ FileSystem.spell (root ++ way)

/-- What a path is taken for when it is looked for below the root. -/
def taken (files : FileSystem) (path : String) : String := (files.canonical path).toOption.getD path

theorem taken_of_locate (habsolute : Path.isAbsolute path = true) (hplain : Plain path) {location : Location}
    (h : files.locate path = .ok location) : taken files path = normalize path := by
  rw [taken, FileSystem.canonical, h]
  exact FileSystem.spell_of_locate habsolute hplain h

theorem taken_of_error {fault : FileFault} (h : files.locate path = .error fault) : taken files path = path := by
  rw [taken, FileSystem.canonical, h]
  rfl

theorem isAbsolute_normalize (hplain : Plain path) : Path.isAbsolute (normalize path) = Path.isAbsolute path := by
  rw [Path.isAbsolute_eq_rooted, Path.isAbsolute_eq_rooted, Path.place_normalize hplain]

theorem plain_taken (files : FileSystem) (hplain : Plain path) (habsolute : Path.isAbsolute path = true) :
    Plain (taken files path) ∧ Path.isAbsolute (taken files path) = true := by
  cases h : files.locate path with
  | error fault =>
      rw [taken_of_error h]
      exact ⟨hplain, habsolute⟩
  | ok location =>
      rw [taken_of_locate habsolute hplain h, isAbsolute_normalize hplain]
      exact ⟨Path.plain_normalize path, habsolute⟩

theorem tail_subset {tail : List (List Char)} (h : segments path = root.pieces ++ tail) : tail ⊆ segments path := by
  rw [h]
  exact List.subset_append_right _ _

/-- An argument whose segments begin with the names of the root is answered by those that follow. -/
theorem keyOf_of_segments (hroot : root.Named) (hplain : Plain path) (habsolute : Path.isAbsolute path = true)
    {tail : List (List Char)} (h : segments (taken files path) = root.pieces ++ tail) :
    keyOf ⟨files, FileSystem.spell root⟩ path = .ok (normalize (String.ofList (Path.link tail))) := by
  obtain ⟨hplain', habsolute'⟩ := plain_taken files hplain habsolute
  have hafter : Path.after? (taken files path) (FileSystem.spell root) = some (String.ofList (Path.link tail)) := by
    rw [Path.after?_eq_some_iff habsolute' root.isAbsolute_spell, hroot.segments_spell]
    exact ⟨tail, h, rfl⟩
  have hback : '\\' ∉ Path.link tail := Path.backslash_not_mem_link hplain' (tail_subset h)
  simp only [taken] at hafter
  simp only [keyOf, if_pos habsolute, hafter, String.toList_ofList, Path.map_slashed hback]

/-- All other arguments lie outside. -/
theorem keyOf_of_not_prefix (hroot : root.Named) (hplain : Plain path) (habsolute : Path.isAbsolute path = true)
    (h : ¬ root.pieces <+: segments (taken files path)) :
    keyOf ⟨files, FileSystem.spell root⟩ path = .error (.outside path (FileSystem.spell root)) := by
  obtain ⟨-, habsolute'⟩ := plain_taken files hplain habsolute
  have hafter : Path.after? (taken files path) (FileSystem.spell root) = none := by
    apply Option.eq_none_iff_forall_ne_some.mpr
    intro rest hrest
    obtain ⟨tail, htail, -⟩ := (Path.after?_eq_some_iff habsolute' root.isAbsolute_spell).mp hrest
    rw [hroot.segments_spell] at htail
    exact h ⟨tail, htail.symm⟩
  simp only [taken] at hafter
  simp only [keyOf, if_pos habsolute, hafter]

/-! ## Where an argument lies -/

theorem rooted_of_isAbsolute (habsolute : Path.isAbsolute path = true) : (Path.place path.toList).rooted = true :=
  (Path.isAbsolute_eq_rooted path).symm.trans habsolute

theorem segments_normalize (hplain : Plain path) :
    segments (normalize path) = (Path.place path.toList).route := by
  rw [Path.segments_eq_route (Path.canonical_normalize hplain), Path.place_normalize hplain]

/-- The normal form of a path is that of a location when it leads along its names. -/
theorem normalize_eq_spell_iff (hplain : Plain path) (habsolute : Path.isAbsolute path = true) {location : Location}
    (hlocation : location.Named) :
    normalize path = FileSystem.spell location ↔ segments (normalize path) = location.pieces := by
  constructor
  · intro h
    rw [h, hlocation.segments_spell]
  · intro h
    rw [segments_normalize hplain, ← Location.route_place] at h
    have hplace : Path.place path.toList = location.place :=
      (Path.regular_place _).eq_of_route_eq hlocation.regular (rooted_of_isAbsolute habsolute) h
    apply String.toList_injective
    rw [Path.toList_normalize hplain, hplace, Location.toList_spell]

/-- The normal form of an absolute path leads through names alone. -/
theorem downward_segments_normalize (hplain : Plain path) (habsolute : Path.isAbsolute path = true) :
    Path.Downward (segments (normalize path)) := by
  have hregular := Path.regular_place path.toList
  have hroute : (Path.place path.toList).route = (Path.place path.toList).names.reverse := by
    rw [Place.route, hregular.climbs (rooted_of_isAbsolute habsolute), List.replicate_zero, List.nil_append]
  rw [segments_normalize hplain, hroute]
  exact ⟨fun name hname => hregular.names name (List.mem_reverse.mp hname),
    fun name hname => Path.backslash_not_mem_names hplain (List.mem_reverse.mp hname)⟩

theorem downward_of_segments_normalize (hplain : Plain path) (habsolute : Path.isAbsolute path = true)
    {names : List (List Char)} (h : segments (normalize path) = root.pieces ++ names) : Path.Downward names := by
  apply (downward_segments_normalize hplain habsolute).subset
  rw [h]
  exact List.subset_append_right _ _

/-- The right answer, read off the names that the normal form leads through. -/
theorem right_iff (hroot : root.Named) (hplain : Plain path) (habsolute : Path.isAbsolute path = true)
    {answer : Except Failure String} :
    Right root path answer ↔
      (∀ names, segments (normalize path) = root.pieces ++ names → answer = .ok (down names)) ∧
        (¬ root.pieces <+: segments (normalize path) →
          answer = .error (.outside path (FileSystem.spell root))) := by
  have hnamed {way : Location} (h : way.Named) : (root ++ way).Named := fun name hname =>
    (List.mem_append.mp hname).elim (hroot name) (h name)
  have hspell {way : Location} (h : way.Named) :
      normalize path = FileSystem.spell (root ++ way) ↔ segments (normalize path) = root.pieces ++ way.pieces := by
    rw [normalize_eq_spell_iff hplain habsolute (hnamed h), Location.pieces, List.map_append]
    rfl
  have hpieces (names : List (List Char)) : Location.pieces (names.map String.ofList) = names := by
    simp [Location.pieces, Function.comp_def]
  have hway {names : List (List Char)} (h : segments (normalize path) = root.pieces ++ names) :
      Location.Named (names.map String.ofList) := by
    apply Location.named_of_isName
    rw [hpieces]
    exact (downward_of_segments_normalize hplain habsolute h).isName
  constructor
  · intro h
    constructor
    · intro names hnames
      have hinside := h.inside _ (hway hnames) ((hspell (hway hnames)).mpr (by rw [hpieces, hnames]))
      rwa [hpieces] at hinside
    · intro hnot
      apply h.outside
      intro way hnamed heq
      exact hnot ⟨way.pieces, ((hspell hnamed).mp heq).symm⟩
  · rintro ⟨hinside, houtside⟩
    constructor
    · intro way hnamed heq
      exact hinside _ ((hspell hnamed).mp heq)
    · intro hnone
      apply houtside
      rintro ⟨names, hnames⟩
      refine hnone _ (hway hnames.symm) ((hspell (hway hnames.symm)).mpr ?_)
      rw [hpieces, hnames]

/-- A right key is a canonical path that leads down. -/
theorem Right.canonical (hroot : root.Named) (hplain : Plain path) (habsolute : Path.isAbsolute path = true)
    {key : String} (h : Right root path (.ok key)) : Path.Canonical key ∧ Path.Inside key := by
  obtain ⟨hinside, houtside⟩ := (right_iff hroot hplain habsolute).mp h
  by_cases hfront : root.pieces <+: segments (normalize path)
  · obtain ⟨names, hnames⟩ := hfront
    have hdown := downward_of_segments_normalize hplain habsolute hnames.symm
    obtain rfl : key = down names := Except.ok.inj (hinside names hnames.symm)
    exact ⟨hdown.canonical_down, hdown.inside_down⟩
  · cases houtside hfront

/-! ## Arguments that lead anywhere -/

theorem right_keyOf_of_locate (hroot : root.Named) (hplain : Plain path) (habsolute : Path.isAbsolute path = true)
    {location : Location} (h : files.locate path = .ok location) :
    Right root path (keyOf ⟨files, FileSystem.spell root⟩ path) := by
  have htaken := taken_of_locate habsolute hplain h
  rw [right_iff hroot hplain habsolute]
  constructor
  · intro names hnames
    have hdown := downward_of_segments_normalize hplain habsolute hnames
    rw [keyOf_of_segments hroot hplain habsolute (by rw [htaken, hnames]), hdown.normalize_link]
  · intro hnot
    exact keyOf_of_not_prefix hroot hplain habsolute (by rwa [htaken])

/-! ## Arguments that lead nowhere -/

section Written

variable {tail : List (List Char)}

/-- Where a path leads that is written below the root: what follows the names of the root leaves behind as many of
them as it climbs. -/
theorem place_of_written (hroot : root.Named) (habsolute : Path.isAbsolute path = true)
    (h : segments path = root.pieces ++ tail) :
    Path.place path.toList = ⟨true, 0, (Path.place (Path.link tail)).names ++
      root.pieces.reverse.drop (Path.place (Path.link tail)).climbs⟩ := by
  have hunrooted : (Path.place (Path.link tail)).rooted = false :=
    (Path.rooted_place _).trans (Path.startsAtRoot_link_of_subset (tail_subset h))
  rw [Path.place_of_absolute habsolute, h, List.foldl_append, Path.foldl_move_names fun _ => hroot.isName,
    Path.foldl_move_of_subset (tail_subset h), (Path.regular_place _).follow_eq hunrooted]
  simp

/-- What does not climb out is the way down from the root. -/
theorem normalize_tail_of_climbs_eq_zero (hplain : Plain path) (h : tail ⊆ segments path)
    (hclimbs : (Path.place (Path.link tail)).climbs = 0) :
    Path.Downward (Path.place (Path.link tail)).names.reverse ∧
      normalize (String.ofList (Path.link tail)) = down (Path.place (Path.link tail)).names.reverse := by
  have hback := Path.backslash_not_mem_link hplain h
  have hregular := Path.regular_place (Path.link tail)
  have hdown : Path.Downward (Path.place (Path.link tail)).names.reverse :=
    ⟨fun name hname => hregular.names name (List.mem_reverse.mp hname),
      fun name hname => Path.backslash_not_mem_names hback (List.mem_reverse.mp hname)⟩
  have hplain' : Plain (String.ofList (Path.link tail)) := by rwa [Plain, String.toList_ofList]
  refine ⟨hdown, (Path.canonical_normalize hplain').eq_of_place_eq hdown.canonical_down ?_⟩
  have hplace : Path.place (Path.link tail) = ⟨false, 0, (Path.place (Path.link tail)).names⟩ := by
    rw [← hclimbs, ← Path.startsAtRoot_link_of_subset h, ← Path.rooted_place]
  rw [Path.place_normalize hplain', String.toList_ofList, hdown.place_down, List.reverse_reverse]
  exact hplace

/-- What climbs out is not the way down from anywhere. -/
theorem normalize_tail_ne_down (hplain : Plain path) (h : tail ⊆ segments path)
    (hclimbs : (Path.place (Path.link tail)).climbs ≠ 0) {names : List (List Char)} (hdown : Path.Downward names) :
    normalize (String.ofList (Path.link tail)) ≠ down names := by
  intro heq
  have hplain' : Plain (String.ofList (Path.link tail)) := by
    rw [Plain, String.toList_ofList]
    exact Path.backslash_not_mem_link hplain h
  have hplace := congrArg (fun p => (Path.place p.toList).climbs) heq
  simp only [Path.place_normalize hplain', String.toList_ofList, hdown.place_down] at hplace
  exact hclimbs hplace

end Written

/-- An argument that leads nowhere is answered right in two cases: it is written below the root and does not climb out,
or it is not written below the root and does not lead there. -/
theorem right_keyOf_iff_of_error (hroot : root.Named) (hplain : Plain path) (habsolute : Path.isAbsolute path = true)
    {fault : FileFault} (h : files.locate path = .error fault) :
    Right root path (keyOf ⟨files, FileSystem.spell root⟩ path) ↔
      WrittenInside root path ∨ WrittenOutside root path := by
  have htaken := taken_of_error h
  by_cases hfront : root.pieces <+: segments path
  · obtain ⟨tail, htail⟩ := hfront
    have hsub := tail_subset htail.symm
    have hplace := place_of_written hroot habsolute htail.symm
    have hinside : WrittenInside root path ↔ (Path.place (Path.link tail)).climbs = 0 := by
      constructor
      · rintro ⟨other, hother, hclimbs⟩
        obtain rfl := List.append_cancel_left (htail.trans hother)
        exact hclimbs
      · exact fun hclimbs => ⟨tail, htail.symm, hclimbs⟩
    have hnotOutside : ¬ WrittenOutside root path := fun houtside => houtside.1 ⟨tail, htail⟩
    rw [or_iff_left hnotOutside, hinside, right_iff hroot hplain habsolute,
      keyOf_of_segments hroot hplain habsolute (by rw [htaken, htail])]
    by_cases hclimbs : (Path.place (Path.link tail)).climbs = 0
    · obtain ⟨-, hkey⟩ := normalize_tail_of_climbs_eq_zero hplain hsub hclimbs
      have hsegments : segments (normalize path) = root.pieces ++ (Path.place (Path.link tail)).names.reverse := by
        rw [segments_normalize hplain, hplace, hclimbs]
        simp [Place.route]
      refine iff_of_true ⟨fun names hnames => ?_, fun hnot => absurd ⟨_, hsegments.symm⟩ hnot⟩ hclimbs
      rw [hkey, List.append_cancel_left (hsegments.symm.trans hnames)]
    · -- The key climbs, so it is neither the way down to where the path leads nor a refusal.
      refine iff_of_false ?_ hclimbs
      rintro ⟨hkey, hrefused⟩
      by_cases hlies : root.pieces <+: segments (normalize path)
      · obtain ⟨names, hnames⟩ := hlies
        have hdown := downward_of_segments_normalize hplain habsolute hnames.symm
        exact normalize_tail_ne_down hplain hsub hclimbs hdown (Except.ok.inj (hkey names hnames.symm))
      · cases hrefused hlies
  · have hnotInside : ¬ WrittenInside root path := by
      rintro ⟨tail, htail, -⟩
      exact hfront ⟨tail, htail.symm⟩
    rw [or_iff_right hnotInside, keyOf_of_not_prefix hroot hplain habsolute (by rwa [htaken])]
    constructor
    · intro hright
      refine ⟨hfront, fun way hway heq => ?_⟩
      cases hright.inside way hway heq
    · intro houtside
      exact ⟨fun way hway heq => absurd heq (houtside.2 way hway), fun _ => rfl⟩

/-- The root that a directory stands for, and the answer to every absolute argument. One that leads anywhere is
answered right. One that leads nowhere is answered by what follows the names of the root as they are written; this is
right exactly when it does not climb out again, and a refusal is right exactly when the path does not lead to the root
or below it by a detour. -/
theorem keyOf_absolute {given : String} (hhere : files.here.Named) (hgiven : files.locate given = .ok root)
    (hplain : Plain path) (habsolute : Path.isAbsolute path = true) :
    rootOf files (some given) = .ok (FileSystem.spell root) ∧
      (Right root path (keyOf ⟨files, FileSystem.spell root⟩ path) ↔
        (∃ location, files.locate path = .ok location) ∨ WrittenInside root path ∨ WrittenOutside root path) ∧
      (∀ key, Right root path (.ok key) → Path.Canonical key ∧ Path.Inside key) ∧
      ∀ fault, files.locate path = .error fault →
        (∀ tail, segments path = root.pieces ++ tail →
          keyOf ⟨files, FileSystem.spell root⟩ path = .ok (normalize (String.ofList (Path.link tail)))) ∧
        (¬ root.pieces <+: segments path →
          keyOf ⟨files, FileSystem.spell root⟩ path = .error (.outside path (FileSystem.spell root))) := by
  have hroot := FileSystem.named_of_locate hhere hgiven
  refine ⟨?_, ?_, fun key hkey => hkey.canonical hroot hplain habsolute, ?_⟩
  · rw [rootOf, FileSystem.canonical, hgiven]
    rfl
  · cases h : files.locate path with
    | ok location =>
        exact iff_of_true (right_keyOf_of_locate hroot hplain habsolute h) (.inl ⟨location, rfl⟩)
    | error fault =>
        rw [right_keyOf_iff_of_error hroot hplain habsolute h]
        simp
  · intro fault h
    have htaken := taken_of_error h
    constructor
    · intro tail htail
      exact keyOf_of_segments hroot hplain habsolute (by rw [htaken, htail])
    · intro hnot
      exact keyOf_of_not_prefix hroot hplain habsolute (by rwa [htaken])

/-- A detour below the root makes no difference, even through a directory that is not there. -/
theorem keyOf_absolute_detour :
    let files : FileSystem := ⟨.directory [("ws", .directory [])], ["ws"], []⟩
    files.here.Named ∧ files.locate "." = .ok ["ws"] ∧ Plain "/ws/app/./../b.json" ∧
      Path.isAbsolute "/ws/app/./../b.json" = true ∧ rootOf files (some ".") = .ok "/ws" ∧
      Right ["ws"] "/ws/app/./../b.json" (.ok "b.json") ∧ Path.Inside "b.json" := by
  intro files
  have hhere : files.here.Named := by decide
  have hgiven : files.locate "." = .ok ["ws"] := by decide +kernel
  have hplain : Plain "/ws/app/./../b.json" := by decide
  obtain ⟨hrootOf, hright, hcanonical, -⟩ := keyOf_absolute hhere hgiven hplain (by decide)
  have hkey : keyOf ⟨files, FileSystem.spell ["ws"]⟩ "/ws/app/./../b.json" = .ok "b.json" := by decide +kernel
  rw [hkey] at hright
  have hwritten : WrittenInside ["ws"] "/ws/app/./../b.json" :=
    ⟨[['a', 'p', 'p'], ['.', '.'], ['b', '.', 'j', 's', 'o', 'n']], by decide, by decide⟩
  have hb := hright.mpr (.inr (.inl hwritten))
  exact ⟨hhere, hgiven, hplain, by decide, hrootOf, hb, (hcanonical "b.json" hb).2⟩

/-- A path through a directory that is not there climbs out of the workspace: its normal form lies beside the root, and
what it is taken for is a file that is read there. -/
theorem keyOf_climbs_out :
    let files : FileSystem := ⟨.directory [("ws", .directory []), ("x.json", .file [])], [], []⟩
    let path := "/ws/nowhere/../../x.json"
    rootOf files (some "/ws") = .ok (FileSystem.spell ["ws"]) ∧ normalize path = "/x.json" ∧
      keyOf ⟨files, FileSystem.spell ["ws"]⟩ path = .ok "../x.json" ∧
      ¬ Right ["ws"] path (keyOf ⟨files, FileSystem.spell ["ws"]⟩ path) ∧
      Right ["ws"] path (.error (.outside path (FileSystem.spell ["ws"]))) ∧
      files.read (Path.beneath (FileSystem.spell ["ws"]) "../x.json") = .ok [] := by
  intro files path
  have hkey : keyOf ⟨files, FileSystem.spell ["ws"]⟩ path = .ok "../x.json" := by decide +kernel
  have hlies : ¬ Location.pieces ["ws"] <+: segments (normalize path) := by decide +kernel
  have hroot : Location.Named ["ws"] := by decide
  have hplain : Plain path := by decide
  have habsolute : Path.isAbsolute path = true := by decide
  refine ⟨by decide +kernel, by decide +kernel, hkey, ?_, ?_, by decide +kernel⟩
  · rw [hkey, right_iff hroot hplain habsolute]
    intro h
    cases h.2 hlies
  · rw [right_iff hroot hplain habsolute]
    exact ⟨fun names hnames => absurd ⟨names, hnames.symm⟩ hlies, fun _ => rfl⟩

end Command

end ConfigChain

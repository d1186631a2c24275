import ConfigChain.Proofs.Extends.Levels

/-! # The walk upwards ends

From any directory the walk through the levels stops at a top, however the path is spelled. The first step leaves a
canonical path, and every later one takes a piece from it. `Packages.walk` takes the steps one at a time and gives up
when too few are allowed. -/

namespace ConfigChain

namespace Path

variable {p : String}

/-! ## The length of a route -/

theorem length_route_move_le (p : Place) (piece : List Char) :
    (p.move piece).route.length ≤ p.route.length + 1 := by
  unfold Place.move
  split
  · omega
  · split
    · split
      · rename_i hnames
        simp only [Place.route, hnames, List.length_append, List.length_reverse, List.length_cons]
        omega
      · split
        · omega
        · simp only [Place.route, List.length_append, List.length_replicate]
          omega
    · simp only [Place.route, List.length_append, List.length_reverse, List.length_cons]
      omega

theorem length_route_foldl_le (ps : List (List Char)) (p : Place) :
    (ps.foldl Place.move p).route.length ≤ p.route.length + ps.length := by
  induction ps generalizing p with
  | nil => exact le_rfl
  | cons piece ps ih =>
      have hrest := ih (p.move piece)
      have hpiece := length_route_move_le p piece
      rw [List.foldl_cons, List.length_cons]
      omega

theorem length_route_le (p : String) : (place p.toList).route.length ≤ (pieces p.toList).length := by
  have h := length_route_foldl_le (pieces p.toList) (start p.toList)
  have hstart : (start p.toList).route.length = 0 := rfl
  rwa [hstart, Nat.zero_add] at h

theorem length_route_directory (hp : Plain p) :
    (place (directory p).toList).route.length = (place p.toList).route.length - 1 := by
  rw [toList_directory hp, (regular_place p.toList).outer.place_spell]
  rcases Place.route_outer (place p.toList) with ⟨hroute, houter⟩ | ⟨last, hroute⟩
  · rw [houter, hroute]
    rfl
  · rw [hroute, List.length_append, List.length_singleton, Nat.add_sub_cancel]

theorem Canonical.eq_here (hp : Canonical p) (hrel : isAbsolute p = false)
    (hroute : (place p.toList).route = []) : p = "." := by
  apply String.toList_injective
  rw [isAbsolute_eq_rooted] at hrel
  rw [hp.toList_eq, Place.spell, hrel, hroute]
  rfl

end Path

namespace Resolver

variable {dir reference : String}

/-! ## The length of the walk -/

theorem length_upwards_pos (dir : String) : 0 < (upwards dir).length := by
  rw [upwards]
  exact Nat.succ_pos _

/-- From a canonical path there is a step for each piece and one more. -/
theorem length_upwards_canonical_le {count : Nat} (hdir : Path.Canonical dir)
    (hcount : (Path.place dir.toList).route.length = count) : (upwards dir).length ≤ count + 1 := by
  induction count generalizing dir with
  | zero =>
      have htop : isTop dir = true := by
        cases hrel : Path.isAbsolute dir with
        | true => simp [isTop, hrel]
        | false =>
            rw [hdir.eq_here hrel (List.eq_nil_of_length_eq_zero hcount)]
            exact isTop_here
      rw [upwards_of_isTop htop, List.length_singleton]
  | succ count ih =>
      cases htop : isTop dir with
      | true =>
          rw [upwards_of_isTop htop, List.length_singleton]
          omega
      | false =>
          have habove := ih (Path.canonical_directory hdir.plain)
            (by rw [Path.length_route_directory hdir.plain, hcount, Nat.add_sub_cancel])
          rw [upwards_of_not_isTop htop, List.length_cons]
          omega

theorem length_upwards_le (hdir : Path.Plain dir) :
    (upwards dir).length ≤ (Path.pieces dir.toList).length + 1 := by
  have hpieces : 0 < (Path.pieces dir.toList).length := List.length_pos_of_ne_nil (Path.pieces_ne_nil _)
  cases htop : isTop dir with
  | true =>
      rw [upwards_of_isTop htop, List.length_singleton]
      omega
  | false =>
      have habove := length_upwards_canonical_le (Path.canonical_directory hdir) (Path.length_route_directory hdir)
      have hroute := Path.length_route_le dir
      rw [upwards_of_not_isTop htop, List.length_cons]
      omega

/-! ## Step by step -/

/-- The walk from a level upwards, at most so many steps long, after some candidates have been gathered. -/
def Packages.walk (p : Packages) (reference : String) : Nat → String → List String → Option (List String)
  | 0, _, _ => none
  | steps + 1, level, before =>
    let gathered := before ++ if p.found (installed level reference) then
      p.candidates (installed level reference) reference else []
    if isTop level then some gathered else p.walk reference steps (Path.directory level) gathered

/-- The walk ends at a top if that many steps are allowed, and then has gathered level by level. -/
theorem Packages.walk_eq (p : Packages) (reference : String) (steps : Nat) (level : String) (before : List String) :
    p.walk reference steps level before =
      if (upwards level).length ≤ steps then some (before ++ p.gathered reference (upwards level)) else none := by
  induction steps generalizing level before with
  | zero =>
      have hpos := length_upwards_pos level
      rw [walk, if_neg (by omega)]
  | succ steps ih =>
      rw [walk, ← p.gathered_singleton]
      cases htop : isTop level with
      | true => simp [upwards_of_isTop htop]
      | false =>
          rw [if_neg Bool.false_ne_true, ih, upwards_of_not_isTop htop, List.length_cons, List.append_assoc,
            ← p.gathered_append, List.singleton_append]
          simp only [Nat.add_le_add_iff_right]

/-- From every directory the walk ends, whatever is installed, after at most one step more than the path has pieces;
that many steps are enough and fewer are not. A name is taken to what the walk has gathered then. -/
theorem package_walk_ends (p : Packages) (dir reference : String) :
    ∃ count candidates, 0 < count ∧ count ≤ (Path.pieces (Path.normalize dir).toList).length + 1 ∧
      (∀ steps, p.walk reference steps (Path.normalize dir) [] =
        if count ≤ steps then some candidates else none) ∧
      (Named reference → package p dir reference = candidates) := by
  refine ⟨(upwards (Path.normalize dir)).length, p.gathered reference (upwards (Path.normalize dir)),
    length_upwards_pos _, length_upwards_le (Path.plain_normalize dir), fun steps => ?_, package_eq_gathered p dir⟩
  rw [p.walk_eq, List.nil_append]

/-- From a path with a detour in it four steps are taken: the first leaves the detour behind, and the second level has
the package. -/
theorem package_walk_ends_detour :
    let p : Packages := ⟨fun path => path = "a/lib/node_modules/cfg.json", fun _ => none⟩
    let found := ["a/lib/node_modules/cfg/tsconfig.json", "a/lib/node_modules/cfg.json"]
    Named "cfg" ∧ Path.normalize "a\\lib\\.\\src" = "a/lib/./src" ∧
      4 ≤ (Path.pieces "a/lib/./src".toList).length + 1 ∧
      p.walk "cfg" 3 "a/lib/./src" [] = none ∧ p.walk "cfg" 4 "a/lib/./src" [] = some found ∧
      package p "a\\lib\\.\\src" "cfg" = found := by
  intro p found
  have hname : Named "cfg" := ⟨by decide, by decide, by decide⟩
  have hnormalize : Path.normalize "a\\lib\\.\\src" = "a/lib/./src" := by decide
  have hfound : p.walk "cfg" 4 "a/lib/./src" [] = some found := by decide +kernel
  refine ⟨hname, hnormalize, by decide, by decide +kernel, hfound, ?_⟩
  obtain ⟨count, candidates, -, -, hwalk, hpackage⟩ := package_walk_ends p "a\\lib\\.\\src" "cfg"
  have hfour := hwalk 4
  rw [hnormalize, hfound] at hfour
  split at hfour
  · rw [hpackage hname, Option.some.inj hfour]
  · cases hfour

end Resolver

end ConfigChain

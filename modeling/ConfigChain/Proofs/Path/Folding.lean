import ConfigChain.Proofs.Path.Canonical
import Mathlib.Logic.Relation

/-! # Cleaning a path by rules

To clean a path is to drop segments and pairs of segments by rules that leave open which comes first. Each rule keeps
the place where the path leads, and as long as its segments are not the route there one of them can be used. So all
ways of cleaning end with the same text, the spelling of that place. -/

namespace ConfigChain.Path

open Relation (ReflTransGen)

/-! ## The rules -/

/-- A rule, used once anywhere among the segments of a path. Empty segments and `.` go, and so does `..`, together with
the name in front of it or alone where a path from the root directory begins with it. -/
inductive Fold (rooted : Bool) : List (List Char) → List (List Char) → Prop
  | stay (front back : List (List Char)) {segment : List Char} (h : segment = [] ∨ segment = ['.']) :
      Fold rooted (front ++ segment :: back) (front ++ back)
  | name (front back : List (List Char)) {name : List Char} (h : IsName name) :
      Fold rooted (front ++ name :: ['.', '.'] :: back) (front ++ back)
  | root (back : List (List Char)) (h : rooted = true) : Fold rooted (['.', '.'] :: back) back

/-- Segments written as a path, and `.` where there is nothing to write. -/
def written (rooted : Bool) (segments : List (List Char)) : String :=
  if rooted then String.ofList ('/' :: ['/'].intercalate segments)
  else if segments = [] then "."
  else String.ofList (['/'].intercalate segments)

/-- What a path may become when the rules are used until none applies. -/
inductive Cleaned (p : String) : String → Prop
  | intro {segments : List (List Char)}
      (folds : ReflTransGen (Fold (isAbsolute p)) (p.toList.splitOn '/') segments)
      (done : ∀ next, ¬ Fold (isAbsolute p) segments next) : Cleaned p (written (isAbsolute p) segments)

/-! ## What the rules keep -/

section

variable {rooted : Bool} {xs ys : List (List Char)}

theorem Fold.length_lt (h : Fold rooted xs ys) : ys.length < xs.length := by
  cases h with
  | stay front back _ => simp
  | name front back _ =>
      simp only [List.length_append, List.length_cons]
      omega
  | root back _ => simp

theorem Fold.subset (h : Fold rooted xs ys) : ys ⊆ xs := by
  cases h with
  | stay front back _ =>
      exact List.append_subset.mpr ⟨List.subset_append_left _ _,
        List.subset_append_of_subset_right _ (List.subset_cons_self _ back)⟩
  | name front back _ =>
      refine List.append_subset.mpr ⟨List.subset_append_left _ _, List.subset_append_of_subset_right _ ?_⟩
      exact List.subset_cons_of_subset _ (List.subset_cons_self _ back)
  | root back _ => exact List.subset_cons_self _ _

theorem Fold.foldl_move (h : Fold rooted xs ys) :
    xs.foldl Place.move ⟨rooted, 0, []⟩ = ys.foldl Place.move ⟨rooted, 0, []⟩ := by
  cases h with
  | stay front back hstay => rw [List.foldl_append, List.foldl_cons, Place.move_stay _ hstay, ← List.foldl_append]
  | name front back hname =>
      rw [List.foldl_append, List.foldl_cons, List.foldl_cons, Place.move_name_up _ hname, ← List.foldl_append]
  | root back hroot => rw [List.foldl_cons, Place.move_up_root _ rfl hroot]

theorem foldl_move_of_folds (h : ReflTransGen (Fold rooted) xs ys) :
    ys ⊆ xs ∧ xs.foldl Place.move ⟨rooted, 0, []⟩ = ys.foldl Place.move ⟨rooted, 0, []⟩ := by
  induction h with
  | refl => exact ⟨List.Subset.refl _, rfl⟩
  | tail _ hfold ih => exact ⟨fun _ hmem => ih.1 (hfold.subset hmem), ih.2.trans hfold.foldl_move⟩

end

/-! ## Where the rules end -/

namespace Place

variable {p : Place}

theorem length_route_move (p : Place) (segment : List Char) : (p.move segment).route.length ≤ p.route.length + 1 := by
  unfold move
  split
  · exact Nat.le_succ _
  · split
    · split
      · rename_i hnames
        simp only [route, hnames, List.length_append, List.length_reverse, List.length_cons]
        omega
      · split
        · exact Nat.le_succ _
        · simp only [route, List.length_append, List.length_replicate]
          omega
    · simp only [route, List.length_append, List.length_reverse, List.length_cons]
      omega

theorem length_route_foldl_move (p : Place) (segments : List (List Char)) :
    (segments.foldl move p).route.length ≤ p.route.length + segments.length := by
  induction segments generalizing p with
  | nil => exact Nat.le_refl _
  | cons segment segments ih =>
      calc ((segment :: segments).foldl move p).route.length
        _ ≤ (p.move segment).route.length + segments.length := ih (p.move segment)
        _ ≤ p.route.length + 1 + segments.length := Nat.add_le_add_right (p.length_route_move segment) _
        _ = p.route.length + (segment :: segments).length := by rw [List.length_cons, Nat.add_assoc, Nat.add_comm 1]

/-- No rule applies to a route: what it left would lead to the same place in fewer steps than the route has. -/
theorem Regular.not_fold_route (hp : p.Regular) (next : List (List Char)) : ¬ Fold p.rooted p.route next := by
  intro h
  have hplace : next.foldl Place.move ⟨p.rooted, 0, []⟩ = p := h.foldl_move.symm.trans hp.foldl_route
  have hlength : p.route.length ≤ next.length := by
    simpa [hplace, route] using length_route_foldl_move ⟨p.rooted, 0, []⟩ next
  exact absurd h.length_lt (Nat.not_lt.mpr hlength)

/-- Behind the route to a place, a segment joins the route or a rule takes it away. -/
theorem Regular.folds_move (hp : p.Regular) {segment : List Char} (h : '/' ∉ segment) (back : List (List Char)) :
    ReflTransGen (Fold p.rooted) (p.route ++ segment :: back) ((p.move segment).route ++ back) := by
  rcases piece_cases h with hstay | rfl | hname
  · rw [p.move_stay hstay]
    exact .single (.stay _ _ hstay)
  · cases hn : p.names with
    | cons name outer =>
        have hroute : p.route = route { p with names := outer } ++ [name] := by simp [route, hn]
        rw [p.move_up_cons hn, hroute, List.append_assoc]
        exact .single (.name _ _ (hp.names name (hn ▸ List.mem_cons_self)))
    | nil =>
        cases hr : p.rooted with
        | true =>
            have hroute : p.route = [] := by simp [route, hn, hp.climbs hr]
            rw [p.move_up_root hn hr, hroute]
            exact .single (.root _ rfl)
        | false =>
            have hroute : route { p with climbs := p.climbs + 1 } = p.route ++ [['.', '.']] := by
              simp [route, hn, List.replicate_succ']
            rw [p.move_up_nil hn hr, hroute, List.append_assoc]
            exact .refl
  · have hroute : route { p with names := segment :: p.names } = p.route ++ [segment] := by simp [route]
    rw [p.move_name hname, hroute, List.append_assoc]
    exact .refl

/-- The rules lead from the segments of a path to the route, by induction on the segments. -/
theorem Regular.folds_route (hp : p.Regular) {segments : List (List Char)} (h : ∀ segment ∈ segments, '/' ∉ segment) :
    ReflTransGen (Fold p.rooted) (p.route ++ segments) (segments.foldl Place.move p).route := by
  induction segments generalizing p with
  | nil =>
      rw [List.append_nil]
      exact .refl
  | cons segment segments ih =>
      have hslash : '/' ∉ segment := h segment List.mem_cons_self
      have hrooted : (p.move segment).rooted = p.rooted := rooted_foldl [segment] p
      have hrest := ih (hp.move hslash) fun s hs => h s (List.mem_cons_of_mem _ hs)
      rw [hrooted] at hrest
      exact (hp.folds_move hslash segments).trans hrest

end Place

/-! ## Cleaned paths -/

theorem pieces_eq_splitOn (cs : List Char) : pieces cs = cs.splitOn '/' := by
  induction cs with
  | nil => rfl
  | cons c cs ih =>
      rw [List.splitOn_cons_eq_if_modifyHead, ← ih]
      by_cases hc : c = '/'
      · simp [hc, pieces_slash]
      · obtain ⟨piece, rest, hcs, hcut⟩ := pieces_cons hc cs
        simp [hc, hcs, hcut]

theorem link_eq_intercalate (ps : List (List Char)) : link ps = ['/'].intercalate ps := by
  induction ps with
  | nil => rfl
  | cons piece ps ih =>
      cases ps with
      | nil => rw [List.intercalate_singleton, link]
      | cons next ps =>
          rw [List.intercalate_cons_cons, ← ih, link_cons piece (List.cons_ne_nil next ps), List.append_assoc]
          rfl

theorem written_route (p : Place) : written p.rooted p.route = String.ofList p.spell := by
  rw [written, Place.spell, link_eq_intercalate]
  split
  · rfl
  · split <;> rfl

/-- All ways of cleaning a path end, and with the spelling of the place where it leads. -/
theorem cleaned_iff {p text : String} : Cleaned p text ↔ text = String.ofList (place p.toList).spell := by
  have hregular := regular_place p.toList
  have hrooted : (place p.toList).rooted = isAbsolute p := (isAbsolute_eq_rooted p).symm
  have hsplit : (p.toList.splitOn '/').foldl Place.move ⟨isAbsolute p, 0, []⟩ = place p.toList := by
    rw [← pieces_eq_splitOn]
    rfl
  have hslash : ∀ segment ∈ p.toList.splitOn '/', '/' ∉ segment := by
    rw [← pieces_eq_splitOn]
    exact fun _ => slash_not_mem_of_mem_pieces
  have hfolds {segments : List (List Char)} (h : segments ⊆ p.toList.splitOn '/') :=
    (regular_start p.toList).folds_route fun segment hsegment => hslash segment (h hsegment)
  constructor
  · rintro ⟨hfolded, hdone⟩
    rename_i segments
    obtain ⟨hsub, hplace⟩ := foldl_move_of_folds hfolded
    have hroute : ReflTransGen (Fold (isAbsolute p)) segments (place p.toList).route := by
      rw [← hsplit, hplace]
      exact hfolds hsub
    rcases hroute.cases_head with hsame | ⟨next, hfold, -⟩
    · rw [hsame, ← hrooted, written_route]
    · exact absurd hfold (hdone next)
  · rintro rfl
    have hroute : ReflTransGen (Fold (isAbsolute p)) (p.toList.splitOn '/') (place p.toList).route := by
      rw [← hsplit]
      exact hfolds (List.Subset.refl _)
    rw [← written_route, hrooted]
    exact .intro hroute (hrooted ▸ hregular.not_fold_route)

end ConfigChain.Path

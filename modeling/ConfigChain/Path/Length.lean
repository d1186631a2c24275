import ConfigChain.Path

/-!
How long paths are: the canonical spelling of a path is never longer than the path, and a directory is
shorter than what it holds. A walk upwards therefore ends.
-/

namespace ConfigChain.Path

/-- What pieces weigh: each its length and one for a slash. -/
def weight : List (List Char) → Nat
  | [] => 0
  | p :: ps => p.length + 1 + weight ps

theorem weight_append (ps qs : List (List Char)) : weight (ps ++ qs) = weight ps + weight qs := by
  induction ps with
  | nil => simp [weight]
  | cons p ps ih =>
    simp only [List.cons_append, weight, ih]
    omega

theorem weight_pieces (cs : List Char) : weight (pieces cs) = cs.length + 1 := by
  induction cs with
  | nil => rfl
  | cons c cs ih =>
    unfold pieces
    split
    · simp only [weight, List.length_nil, List.length_cons] at ih ⊢
      omega
    · split
      · rename_i h
        simp [h, weight] at ih
      · rename_i h
        simp only [h, weight, List.length_cons] at ih ⊢
        omega

theorem length_link (ps : List (List Char)) : (link ps).length = weight ps - 1 := by
  induction ps with
  | nil => rfl
  | cons p ps ih =>
    cases ps with
    | nil => simp [link, weight]
    | cons q ps =>
      simp only [link, List.length_append, List.length_cons, ih, weight]
      omega

theorem weight_route_move_le (p : Place) (piece : List Char) :
    weight (p.move piece).route ≤ weight p.route + (piece.length + 1) := by
  unfold Place.move
  split
  · omega
  · split
    · rename_i h
      subst h
      split
      · rename_i hn
        simp [weight, weight_append, Place.route, hn]
        omega
      · split
        · omega
        · simp [weight, weight_append, Place.route, List.replicate_succ]
          omega
    · simp [weight, weight_append, Place.route]
      omega

theorem weight_route_foldl_le (ps : List (List Char)) (p : Place) :
    weight (ps.foldl Place.move p).route ≤ weight p.route + weight ps := by
  induction ps generalizing p with
  | nil => simp [weight]
  | cons piece ps ih =>
    have h1 := ih (p.move piece)
    have h2 := weight_route_move_le p piece
    simp only [List.foldl_cons, weight] at h1 h2 ⊢
    omega

theorem rooted_foldl (ps : List (List Char)) (p : Place) :
    (ps.foldl Place.move p).rooted = p.rooted := by
  induction ps generalizing p with
  | nil => rfl
  | cons piece ps ih =>
    rw [List.foldl_cons, ih]
    unfold Place.move
    grind

theorem length_spell_place_le {cs : List Char} (h : cs ≠ []) :
    (place cs).spell.length ≤ cs.length := by
  have hpos : 0 < cs.length := List.length_pos_iff.2 h
  have hr : (place cs).rooted = startsAtRoot cs := rooted_foldl _ _
  have hw : weight (place cs).route ≤ cs.length + 1 - (if startsAtRoot cs then 1 else 0) := by
    by_cases hs : startsAtRoot cs
    · match cs, h with
      | c :: cs, _ =>
        have hc : c = '/' := by simpa [startsAtRoot] using hs
        subst hc
        have hp : pieces ('/' :: cs) = [] :: pieces cs := by simp [pieces]
        have hstart : (start ('/' :: cs)).move [] = start ('/' :: cs) := by simp [Place.move]
        have hzero : weight (start ('/' :: cs)).route = 0 := by simp [start, weight, Place.route]
        have hle := weight_route_foldl_le (pieces cs) (start ('/' :: cs))
        rw [weight_pieces, hzero] at hle
        simp only [place, hp, List.foldl_cons, hstart, hs, if_true, List.length_cons]
        omega
    · have := weight_route_foldl_le (pieces cs) (start cs)
      rw [weight_pieces] at this
      simpa [place, hs, weight, start, Place.route] using this
  unfold Place.spell
  split
  · rename_i hroot
    rw [hr] at hroot
    simp only [List.length_cons, length_link]
    simp only [hroot, if_true] at hw
    omega
  · split
    · exact hpos
    · rw [length_link]
      omega

theorem length_normalize_le {p : String} (h : p ≠ "") : (normalize p).length ≤ p.length := by
  have hne : p.toList ≠ [] := by simpa using h
  have := length_spell_place_le hne
  rw [String.length_toList] at this
  simpa [normalize] using this

theorem length_splitLast {cs before after : List Char} (h : splitLast cs = some (before, after)) :
    cs.length = before.length + after.length + 1 := by
  induction cs generalizing before after with
  | nil => simp [splitLast] at h
  | cons c cs ih =>
    unfold splitLast at h
    split at h
    · rename_i hs
      simp only [Option.some.injEq, Prod.mk.injEq] at h
      obtain ⟨rfl, rfl⟩ := h
      simp [ih hs]
      omega
    · split at h
      · simp only [Option.some.injEq, Prod.mk.injEq] at h
        obtain ⟨rfl, rfl⟩ := h
        simp
      · cases h

/-- The directory of a path is shorter than the path, but for the two directories that end every walk
upwards. -/
theorem length_directory_lt (p : String) :
    directory p = "." ∨ directory p = "/" ∨ (directory p).length < p.length := by
  unfold directory
  split
  · exact .inl rfl
  · exact .inr (.inl rfl)
  · rename_i before after _ h
    refine .inr (.inr ?_)
    have hl := length_splitLast h
    have hne : p ≠ "" := by
      rintro rfl
      revert h
      simp [normalize, place, pieces, Place.move, start, startsAtRoot, Place.spell, Place.route,
        slashed, splitLast]
    have hn := length_normalize_le hne
    rw [String.length_toList] at hl
    rw [String.length_ofList]
    omega

end ConfigChain.Path

import ConfigChain.Proofs.Path.Joining

/-! # The directory and the file name of a path

`directory` takes the last piece off the canonical form of a path, so what it answers is canonical too, and
`fileName` is that piece. Joined again, the two are the canonical form. -/

namespace ConfigChain.Path

theorem eq_of_splitLast {cs before after : List Char} (h : splitLast cs = some (before, after)) :
    cs = before ++ '/' :: after := by
  induction cs generalizing before after with
  | nil => simp [splitLast] at h
  | cons c cs ih =>
      unfold splitLast at h
      split at h
      · rename_i hs
        simp only [Option.some.injEq, Prod.mk.injEq] at h
        obtain ⟨rfl, rfl⟩ := h
        rw [ih hs]
        rfl
      · split at h
        · rename_i hc
          simp only [Option.some.injEq, Prod.mk.injEq] at h
          obtain ⟨rfl, rfl⟩ := h
          rw [hc]
          rfl
        · cases h

theorem plain_directory (p : String) : Plain (directory p) := by
  have hp := plain_normalize p
  unfold directory
  split
  · decide
  · decide
  · rename_i before after _ h
    rw [Plain, eq_of_splitLast h] at hp
    rw [Plain, String.toList_ofList]
    exact fun hmem => hp (List.mem_append_left _ hmem)

/-- A place without the last piece of its route. -/
def Place.outer (p : Place) : Place :=
  match p.names with
  | _ :: names => { p with names }
  | [] => { p with climbs := p.climbs - 1 }

@[simp] theorem Place.rooted_outer (p : Place) : p.outer.rooted = p.rooted := by
  unfold outer
  split <;> rfl

theorem Place.Regular.outer {p : Place} (hp : p.Regular) : p.outer.Regular := by
  unfold Place.outer
  split
  · rename_i name names hn
    exact ⟨fun n hmem => hp.names n (by simp [hn, hmem]), hp.climbs⟩
  · refine ⟨hp.names, ?_⟩
    intro hr
    simp [hp.climbs hr]

theorem Place.route_outer (p : Place) :
    p.route = [] ∧ p.outer = p ∨ ∃ last, p.route = p.outer.route ++ [last] := by
  obtain ⟨rooted, climbs, names⟩ := p
  cases names with
  | cons name names => exact .inr ⟨name, by simp [route, outer]⟩
  | nil =>
      cases climbs with
      | zero => exact .inl ⟨rfl, rfl⟩
      | succ climbs => exact .inr ⟨['.', '.'], by simp [route, outer, List.replicate_succ']⟩

theorem link_ne_nil {ps : List (List Char)} (hne : ps ≠ []) (h : ∀ piece ∈ ps, piece ≠ []) :
    link ps ≠ [] := by
  cases ps with
  | nil => exact absurd rfl hne
  | cons piece ps =>
      have hpiece := h piece List.mem_cons_self
      cases ps with
      | nil => exact hpiece
      | cons next ps => simp [link]

theorem toList_directory {p : String} (h : Plain p) :
    (directory p).toList = (place p.toList).outer.spell := by
  have hp := regular_place p.toList
  unfold directory
  rw [toList_normalize h]
  generalize place p.toList = place at hp ⊢
  rcases place.route_outer with ⟨hroute, houter⟩ | ⟨last, hroute⟩
  · rw [houter]
    cases hr : place.rooted <;> simp [Place.spell, hr, hroute, link, splitLast]
  · have hlast : '/' ∉ last := hp.slash_not_mem_route (by simp [hroute])
    by_cases hrest : place.outer.route = []
    · rw [hrest, List.nil_append] at hroute
      cases hr : place.rooted with
      | true =>
          have hsplit := splitLast_append hlast []
          rw [List.nil_append] at hsplit
          simp [Place.spell, hr, hroute, hrest, link, hsplit]
      | false =>
          simp [Place.spell, hr, hroute, hrest, link, splitLast_of_slash_not_mem hlast]
    · have hlink := link_concat last hrest
      cases hr : place.rooted with
      | true =>
          have hsplit := splitLast_append hlast ('/' :: link place.outer.route)
          rw [List.cons_append] at hsplit
          simp [Place.spell, hr, hroute, hlink, hsplit]
      | false =>
          have hne : link place.outer.route ≠ [] :=
            link_ne_nil hrest fun _ => hp.outer.ne_nil_of_mem_route
          obtain ⟨c, cs, hbefore⟩ := List.exists_cons_of_ne_nil hne
          have hsplit := splitLast_append hlast (c :: cs)
          rw [List.cons_append] at hsplit
          simp [Place.spell, hr, hroute, hlink, hrest, hbefore, hsplit]

theorem canonical_directory {p : String} (h : Plain p) : Canonical (directory p) :=
  (regular_place _).outer.canonical (plain_directory p) (toList_directory h)

/-! ## The last piece -/

theorem plain_fileName (p : String) : Plain (fileName p) := by
  have hp := plain_normalize p
  unfold fileName
  split
  · exact hp
  · rename_i before after h
    rw [Plain, eq_of_splitLast h] at hp
    rw [Plain, String.toList_ofList]
    exact fun hmem => hp (List.mem_append_right _ (List.mem_cons_of_mem _ hmem))

theorem toList_fileName {p : String} (h : Plain p) {last : List Char}
    (hroute : (place p.toList).route = (place p.toList).outer.route ++ [last]) :
    (fileName p).toList = last := by
  have hp := regular_place p.toList
  have htext := toList_normalize h
  unfold fileName
  generalize place p.toList = place at hp hroute htext
  have hlast : '/' ∉ last := hp.slash_not_mem_route (by simp [hroute])
  rw [htext]
  -- The text before the last piece: a slash, nothing, or the route to the directory.
  have hspell : place.spell = last ∨ ∃ before, place.spell = before ++ '/' :: last := by
    by_cases hrest : place.outer.route = []
    · cases hr : place.rooted with
      | true => exact .inr ⟨[], by simp [Place.spell, hr, hroute, hrest, link]⟩
      | false => exact .inl (by simp [Place.spell, hr, hroute, hrest, link])
    · have hlink := link_concat last hrest
      cases hr : place.rooted with
      | true => exact .inr ⟨'/' :: link place.outer.route, by simp [Place.spell, hr, hroute, hlink]⟩
      | false => exact .inr ⟨link place.outer.route, by simp [Place.spell, hr, hroute, hlink]⟩
  rcases hspell with hspell | ⟨before, hspell⟩
  · rw [hspell, splitLast_of_slash_not_mem hlast, htext, hspell]
  · rw [hspell, splitLast_append hlast, String.toList_ofList]

theorem place_fileName_of_route_nil {p : String} (h : Plain p) (hroute : (place p.toList).route = []) :
    place (fileName p).toList = Place.here := by
  have htext := toList_normalize h
  unfold fileName
  generalize place p.toList = place at hroute htext
  rw [htext]
  cases hr : place.rooted <;>
    simp [Place.spell, hr, hroute, link, splitLast, htext] <;> rfl

theorem Place.Regular.outer_move {p : Place} (hp : p.Regular) {last : List Char}
    (hroute : p.route = p.outer.route ++ [last]) : p.outer.move last = p := by
  have hfold := hp.foldl_route
  have houter := hp.outer.foldl_route
  rw [hroute, List.foldl_append, ← p.rooted_outer, houter] at hfold
  exact hfold

/-- The file name counts from the directory. -/
theorem follow_fileName {p : String} (h : Plain p) :
    (place p.toList).outer.follow (place (fileName p).toList) = place p.toList := by
  have hp := regular_place p.toList
  rcases (place p.toList).route_outer with ⟨hroute, houter⟩ | ⟨last, hroute⟩
  · rw [houter, place_fileName_of_route_nil h hroute]
    rfl
  · have hlast : last ∈ (place p.toList).route := by simp [hroute]
    have hslash : '/' ∉ last := hp.slash_not_mem_route hlast
    have hstart : startsAtRoot last = false := by
      cases last with
      | nil => rfl
      | cons c last => simpa [startsAtRoot] using fun hc : c = '/' => hslash (by simp [hc])
    rw [toList_fileName h hroute, ← place_eq_follow hstart, pieces_of_slash_not_mem hslash]
    exact hp.outer_move hroute

/-- Splitting a path and joining it again gives its canonical form. -/
theorem join_directory_fileName {p : String} (h : Plain p) :
    join (directory p) (fileName p) = normalize p := by
  have hd := plain_directory p
  have hf := plain_fileName p
  apply (canonical_join hd hf).eq_of_place_eq (canonical_normalize h)
  rw [place_join hd hf, place_normalize h, toList_directory h,
    (regular_place p.toList).outer.place_spell, follow_fileName h]

end ConfigChain.Path

import ConfigChain.Path

/-! # Texts and their pieces

Cutting a text at its slashes and linking pieces undo each other, as long as no piece holds a slash. -/

namespace ConfigChain.Path

/-! ## Cutting -/

theorem pieces_ne_nil (cs : List Char) : pieces cs ≠ [] := by
  cases cs with
  | nil => simp [pieces]
  | cons c cs =>
      unfold pieces
      split
      · simp
      · split <;> simp

theorem pieces_slash (cs : List Char) : pieces ('/' :: cs) = [] :: pieces cs := by
  simp [pieces]

theorem pieces_cons {c : Char} (hc : c ≠ '/') (cs : List Char) :
    ∃ piece rest, pieces cs = piece :: rest ∧ pieces (c :: cs) = (c :: piece) :: rest := by
  cases h : pieces cs with
  | nil => exact absurd h (pieces_ne_nil cs)
  | cons piece rest => exact ⟨piece, rest, rfl, by simp [pieces, hc, h]⟩

/-- A slash always ends a piece. -/
theorem pieces_append_slash (front back : List Char) :
    pieces (front ++ '/' :: back) = pieces front ++ pieces back := by
  induction front with
  | nil => exact pieces_slash back
  | cons c front ih =>
      by_cases hc : c = '/'
      · subst hc
        rw [List.cons_append, pieces_slash, pieces_slash, ih, List.cons_append]
      · obtain ⟨piece, rest, hfront, hcut⟩ := pieces_cons hc front
        rw [hfront] at ih
        rw [hcut, List.cons_append, pieces, if_neg hc, ih]
        rfl

theorem pieces_of_slash_not_mem {piece : List Char} (h : '/' ∉ piece) : pieces piece = [piece] := by
  induction piece with
  | nil => rfl
  | cons c piece ih =>
      obtain ⟨hc, hpiece⟩ := List.ne_and_not_mem_of_not_mem_cons h
      simp [pieces, hc.symm, ih hpiece]

theorem slash_not_mem_of_mem_pieces {cs piece : List Char} (h : piece ∈ pieces cs) :
    '/' ∉ piece := by
  induction cs generalizing piece with
  | nil => simp_all [pieces]
  | cons c cs ih =>
      by_cases hc : c = '/'
      · subst hc
        rw [pieces_slash] at h
        rcases List.mem_cons.mp h with rfl | h
        · simp
        · exact ih h
      · obtain ⟨first, rest, hcs, hcut⟩ := pieces_cons hc cs
        rw [hcut] at h
        rw [hcs] at ih
        rcases List.mem_cons.mp h with rfl | h
        · simpa [Ne.symm hc] using ih (List.mem_cons_self)
        · exact ih (List.mem_cons_of_mem _ h)

theorem mem_of_mem_pieces {cs piece : List Char} {c : Char} (hpiece : piece ∈ pieces cs)
    (hc : c ∈ piece) : c ∈ cs := by
  induction cs generalizing piece with
  | nil => simp_all [pieces]
  | cons d cs ih =>
      by_cases hd : d = '/'
      · subst hd
        rw [pieces_slash] at hpiece
        rcases List.mem_cons.mp hpiece with rfl | hpiece
        · simp at hc
        · exact List.mem_cons_of_mem _ (ih hpiece hc)
      · obtain ⟨first, rest, hcs, hcut⟩ := pieces_cons hd cs
        rw [hcut] at hpiece
        rw [hcs] at ih
        rcases List.mem_cons.mp hpiece with rfl | hpiece
        · rcases List.mem_cons.mp hc with rfl | hc
          · exact List.mem_cons_self
          · exact List.mem_cons_of_mem _ (ih List.mem_cons_self hc)
        · exact List.mem_cons_of_mem _ (ih (List.mem_cons_of_mem _ hpiece) hc)

/-! ## Linking -/

theorem link_cons {rest : List (List Char)} (piece : List Char) (h : rest ≠ []) :
    link (piece :: rest) = piece ++ '/' :: link rest := by
  cases rest with
  | nil => exact absurd rfl h
  | cons _ _ => rfl

theorem link_append {front back : List (List Char)} (hf : front ≠ []) (hb : back ≠ []) :
    link (front ++ back) = link front ++ '/' :: link back := by
  induction front with
  | nil => exact absurd rfl hf
  | cons first front ih =>
      cases front with
      | nil => exact link_cons first hb
      | cons second front =>
          have hlinked : link (first :: second :: front) = first ++ '/' :: link (second :: front) :=
            link_cons first (by simp)
          rw [List.cons_append, link_cons first (by simp), ih (by simp), hlinked, List.append_assoc]
          rfl

theorem link_concat {front : List (List Char)} (piece : List Char) (h : front ≠ []) :
    link (front ++ [piece]) = link front ++ '/' :: piece :=
  link_append h (List.cons_ne_nil piece [])

theorem link_pieces (cs : List Char) : link (pieces cs) = cs := by
  induction cs with
  | nil => rfl
  | cons c cs ih =>
      by_cases hc : c = '/'
      · rw [hc, pieces_slash, link_cons [] (pieces_ne_nil cs), ih]
        rfl
      · obtain ⟨piece, rest, hcs, hcut⟩ := pieces_cons hc cs
        rw [hcut]
        rw [hcs] at ih
        rw [← ih]
        cases rest <;> rfl

theorem pieces_link {ps : List (List Char)} (hne : ps ≠ []) (h : ∀ piece ∈ ps, '/' ∉ piece) :
    pieces (link ps) = ps := by
  induction ps with
  | nil => exact absurd rfl hne
  | cons piece ps ih =>
      have hpiece : pieces piece = [piece] := pieces_of_slash_not_mem (h piece List.mem_cons_self)
      cases ps with
      | nil => exact hpiece
      | cons next ps =>
          rw [link_cons _ (by simp), pieces_append_slash, hpiece,
            ih (by simp) (fun p hp => h p (List.mem_cons_of_mem _ hp))]
          rfl

theorem mem_link {ps : List (List Char)} {c : Char} (h : c ∈ link ps) :
    c = '/' ∨ ∃ piece ∈ ps, c ∈ piece := by
  induction ps with
  | nil => simp [link] at h
  | cons piece ps ih =>
      cases ps with
      | nil => exact .inr ⟨piece, by simp, h⟩
      | cons next ps =>
          rw [link_cons _ (by simp)] at h
          rcases List.mem_append.mp h with h | h
          · exact .inr ⟨piece, List.mem_cons_self, h⟩
          · rcases List.mem_cons.mp h with h | h
            · exact .inl h
            · rcases ih h with h | ⟨p, hp, h⟩
              · exact .inl h
              · exact .inr ⟨p, List.mem_cons_of_mem _ hp, h⟩

/-! ## The last slash -/

theorem splitLast_of_slash_not_mem {cs : List Char} (h : '/' ∉ cs) : splitLast cs = none := by
  induction cs with
  | nil => rfl
  | cons c cs ih =>
      obtain ⟨hc, hcs⟩ := List.ne_and_not_mem_of_not_mem_cons h
      simp [splitLast, ih hcs, hc.symm]

theorem splitLast_append {after : List Char} (h : '/' ∉ after) (before : List Char) :
    splitLast (before ++ '/' :: after) = some (before, after) := by
  induction before with
  | nil => simp [splitLast, splitLast_of_slash_not_mem h]
  | cons c before ih => simp [splitLast, ih]

end ConfigChain.Path

import ConfigChain.Proofs.Path.Below

/-! # Segments

The segments of a path are its pieces without those that stay. Those of a canonical path are its route, and those
of a path that never climbs are the names it leads through, so such a path is told by its segments alone. -/

namespace ConfigChain.Path

variable {p : String}

/-- Whether a piece leads anywhere. -/
def leads (piece : List Char) : Bool := ¬ (piece = [] ∨ piece = ['.'])

theorem leads_iff (piece : List Char) : leads piece = true ↔ ¬ (piece = [] ∨ piece = ['.']) :=
  decide_eq_true_iff

/-- The pieces of a path, without those that stay. -/
def segments (p : String) : List (List Char) := (pieces p.toList).filter leads

theorem slash_not_mem_of_mem_segments {segment : List Char} (h : segment ∈ segments p) : '/' ∉ segment :=
  slash_not_mem_of_mem_pieces (List.mem_filter.mp h).1

theorem backslash_not_mem_of_mem_segments (hp : Plain p) {segment : List Char} (h : segment ∈ segments p) :
    '\\' ∉ segment :=
  fun hmem => hp (mem_of_mem_pieces (List.mem_filter.mp h).1 hmem)

/-! ## Canonical paths -/

theorem IsName.leads {name : List Char} (h : IsName name) : leads name = true :=
  (leads_iff name).mpr (not_or.mpr ⟨h.ne_nil, h.ne_here⟩)

theorem Place.Regular.leads_of_mem_route {p : Place} (hp : p.Regular) {piece : List Char} (h : piece ∈ p.route) :
    leads piece = true := by
  rcases List.mem_append.mp h with hup | hname
  · rw [List.eq_of_mem_replicate hup]
    decide
  · exact (hp.names piece (List.mem_reverse.mp hname)).leads

theorem Place.Regular.filter_pieces_spell {p : Place} (hp : p.Regular) : (pieces p.spell).filter leads = p.route := by
  by_cases hroute : p.route = []
  · rw [spell, hroute]
    cases p.rooted <;> decide
  · have hfilter : p.route.filter leads = p.route := List.filter_eq_self.mpr fun _ => hp.leads_of_mem_route
    rw [hp.pieces_spell hroute]
    cases p.rooted with
    | true => exact (List.filter_cons_of_neg (by decide)).trans hfilter
    | false => exact hfilter

theorem segments_eq_route (h : Canonical p) : segments p = (place p.toList).route := by
  conv_lhs => rw [segments, h.toList_eq]
  exact (regular_place p.toList).filter_pieces_spell

/-! ## Paths that never climb -/

/-- A path that is not absolute, and none of whose segments climbs. -/
def Inside (p : String) : Prop := isAbsolute p = false ∧ ['.', '.'] ∉ segments p

instance (p : String) : Decidable (Inside p) := inferInstanceAs (Decidable (_ ∧ _))

theorem Inside.isName (h : Inside p) {segment : List Char} (hmem : segment ∈ segments p) : IsName segment := by
  have hslash := slash_not_mem_of_mem_segments hmem
  rcases piece_cases hslash with hstay | rfl | hname
  · exact absurd hstay ((leads_iff segment).mp (List.mem_filter.mp hmem).2)
  · exact absurd hmem h.2
  · exact hname

theorem foldl_move_filter (ps : List (List Char)) (p : Place) :
    (ps.filter leads).foldl Place.move p = ps.foldl Place.move p := by
  induction ps generalizing p with
  | nil => rfl
  | cons piece ps ih =>
      by_cases hstay : piece = [] ∨ piece = ['.']
      · have hleads : ¬ leads piece = true := fun h => (leads_iff piece).mp h hstay
        rw [List.filter_cons_of_neg hleads, ih, List.foldl_cons, p.move_stay hstay]
      · rw [List.filter_cons_of_pos ((leads_iff piece).mpr hstay), List.foldl_cons, ih, List.foldl_cons]

/-- A path that never climbs leads through its segments. -/
theorem Inside.place_eq (h : Inside p) : place p.toList = ⟨false, 0, (segments p).reverse⟩ := by
  have hstart : start p.toList = ⟨false, 0, []⟩ := by
    rw [start, show startsAtRoot p.toList = false from h.1]
  rw [place, hstart, ← foldl_move_filter, ← segments, foldl_move_names fun _ => h.isName, List.append_nil]

/-- Paths that never climb have one canonical form exactly when they have the same segments. -/
theorem Inside.normalize_eq_iff {q : String} (hp : Plain p) (hq : Plain q) (hinp : Inside (normalize p))
    (hinq : Inside (normalize q)) :
    normalize p = normalize q ↔ segments (normalize p) = segments (normalize q) := by
  constructor
  · exact congrArg segments
  · intro h
    apply (canonical_normalize hp).eq_of_place_eq (canonical_normalize hq)
    rw [hinp.place_eq, hinq.place_eq, h]

/-! ## The way down -/

/-- Names that a path can lead down through. -/
structure Downward (names : List (List Char)) : Prop where
  isName : ∀ name ∈ names, IsName name
  plain : ∀ name ∈ names, '\\' ∉ name

theorem Inside.downward (h : Inside p) (hp : Plain p) : Downward (segments p) :=
  ⟨fun _ => h.isName, fun _ => backslash_not_mem_of_mem_segments hp⟩

variable {names : List (List Char)}

theorem Downward.subset (h : Downward names) {part : List (List Char)} (hpart : part ⊆ names) : Downward part :=
  ⟨fun name hname => h.isName name (hpart hname), fun name hname => h.plain name (hpart hname)⟩

/-- The path down through names. -/
def down (names : List (List Char)) : String := if names = [] then "." else String.ofList (link names)

theorem down_of_ne_nil (h : names ≠ []) : down names = String.ofList (link names) :=
  if_neg h

theorem toList_down (names : List (List Char)) : (down names).toList = Place.spell ⟨false, 0, names.reverse⟩ := by
  have hroute : Place.route ⟨false, 0, names.reverse⟩ = names := by simp [Place.route]
  unfold down Place.spell
  rw [hroute]
  split
  · rfl
  · exact String.toList_ofList

theorem Downward.regular (h : Downward names) : Place.Regular ⟨false, 0, names.reverse⟩ :=
  ⟨fun name hname => h.isName name (List.mem_reverse.mp hname), by simp⟩

theorem Downward.place_down (h : Downward names) : place (down names).toList = ⟨false, 0, names.reverse⟩ := by
  rw [toList_down]
  exact h.regular.place_spell

theorem Downward.plain_down (h : Downward names) : Plain (down names) := by
  rw [Plain, toList_down]
  exact Place.backslash_not_mem_spell fun name hname => h.plain name (List.mem_reverse.mp hname)

theorem Downward.canonical_down (h : Downward names) : Canonical (down names) :=
  h.regular.canonical h.plain_down (toList_down names)

/-- The names are found again in the path down through them. -/
theorem Downward.segments_down (h : Downward names) : segments (down names) = names := by
  rw [segments_eq_route h.canonical_down, h.place_down]
  simp [Place.route]

theorem Downward.inside_down (h : Downward names) : Inside (down names) := by
  refine ⟨?_, ?_⟩
  · rw [isAbsolute_eq_rooted, h.place_down]
  · rw [h.segments_down]
    exact fun hmem => (h.isName _ hmem).ne_up rfl

/-- A canonical path that never climbs is the way down through its segments. -/
theorem Inside.eq_down (h : Inside p) (hp : Canonical p) : p = down (segments p) := by
  apply String.toList_injective
  rw [hp.toList_eq, h.place_eq, toList_down]

end ConfigChain.Path

import ConfigChain.Path.Length
import ConfigChain.Proofs.Path.Pieces

/-! # Canonical paths

`Place.spell` and `place` undo each other, so paths without backslashes have one canonical form for
each place. A backslash becomes a slash only after a path has been followed, and the result may need
to be followed once more. -/

namespace ConfigChain.Path

/-! ## Places -/

/-- A piece that enters a directory or names a file. -/
structure IsName (piece : List Char) : Prop where
  ne_nil : piece ≠ []
  ne_here : piece ≠ ['.']
  ne_up : piece ≠ ['.', '.']
  slash_not_mem : '/' ∉ piece

/-- A place that a path can lead to: down through names only, and not above the root directory. -/
structure Place.Regular (p : Place) : Prop where
  names : ∀ name ∈ p.names, IsName name
  climbs : p.rooted = true → p.climbs = 0

theorem Place.move_stay (p : Place) {piece : List Char} (h : piece = [] ∨ piece = ['.']) :
    p.move piece = p := by
  simp [move, h]

theorem Place.move_name (p : Place) {piece : List Char} (h : IsName piece) :
    p.move piece = { p with names := piece :: p.names } := by
  simp [move, h.ne_nil, h.ne_here, h.ne_up]

theorem Place.move_up_cons (p : Place) {name : List Char} {outer : List (List Char)}
    (h : p.names = name :: outer) : p.move ['.', '.'] = { p with names := outer } := by
  simp [move, h]

theorem Place.move_up_nil (p : Place) (hn : p.names = []) (hr : p.rooted = false) :
    p.move ['.', '.'] = { p with climbs := p.climbs + 1 } := by
  simp [move, hn, hr]

theorem Place.move_up_root (p : Place) (hn : p.names = []) (hr : p.rooted = true) :
    p.move ['.', '.'] = p := by
  simp [move, hn, hr]

theorem Place.move_name_up (p : Place) {name : List Char} (h : IsName name) :
    (p.move name).move ['.', '.'] = p := by
  rw [p.move_name h, Place.move_up_cons _ rfl]

/-- A piece stays, climbs or is a name. -/
theorem piece_cases {piece : List Char} (h : '/' ∉ piece) :
    (piece = [] ∨ piece = ['.']) ∨ piece = ['.', '.'] ∨ IsName piece := by
  by_cases hstay : piece = [] ∨ piece = ['.']
  · exact .inl hstay
  · by_cases hup : piece = ['.', '.']
    · exact .inr (.inl hup)
    · obtain ⟨hnil, hhere⟩ := not_or.mp hstay
      exact .inr (.inr ⟨hnil, hhere, hup, h⟩)

theorem Place.Regular.move {p : Place} (hp : p.Regular) {piece : List Char} (h : '/' ∉ piece) :
    (p.move piece).Regular := by
  rcases piece_cases h with hstay | rfl | hname
  · rwa [p.move_stay hstay]
  · cases hn : p.names with
    | cons name outer =>
        rw [p.move_up_cons hn]
        exact ⟨fun n hmem => hp.names n (by simp [hn, hmem]), hp.climbs⟩
    | nil =>
        cases hr : p.rooted with
        | true => rwa [p.move_up_root hn hr]
        | false =>
            rw [p.move_up_nil hn hr]
            exact ⟨hp.names, by simp [hr]⟩
  · rw [p.move_name hname]
    refine ⟨?_, hp.climbs⟩
    intro n hmem
    rcases List.mem_cons.mp hmem with rfl | hmem
    · exact hname
    · exact hp.names n hmem

theorem Place.Regular.foldl_move {p : Place} (hp : p.Regular) {ps : List (List Char)}
    (h : ∀ piece ∈ ps, '/' ∉ piece) : (ps.foldl Place.move p).Regular := by
  induction ps generalizing p with
  | nil => exact hp
  | cons piece ps ih =>
      exact ih (hp.move (h piece List.mem_cons_self)) fun q hq => h q (List.mem_cons_of_mem _ hq)

theorem regular_start (cs : List Char) : (start cs).Regular :=
  ⟨by simp [start], by simp [start]⟩

theorem regular_place (cs : List Char) : (place cs).Regular :=
  (regular_start cs).foldl_move fun _ => slash_not_mem_of_mem_pieces

@[simp] theorem rooted_place (cs : List Char) : (place cs).rooted = startsAtRoot cs :=
  rooted_foldl _ _

theorem isAbsolute_eq_rooted (p : String) : isAbsolute p = (place p.toList).rooted :=
  (rooted_place _).symm

/-! ## The route to a place -/

theorem foldl_move_names {names : List (List Char)} (h : ∀ name ∈ names, IsName name) (p : Place) :
    names.foldl Place.move p = { p with names := names.reverse ++ p.names } := by
  induction names generalizing p with
  | nil => rfl
  | cons name names ih =>
      rw [List.foldl_cons, p.move_name (h name List.mem_cons_self),
        ih (fun n hn => h n (List.mem_cons_of_mem _ hn))]
      simp

theorem foldl_move_ups (k : Nat) {p : Place} (hn : p.names = []) (hr : p.rooted = false) :
    (List.replicate k ['.', '.']).foldl Place.move p = { p with climbs := p.climbs + k } := by
  induction k generalizing p with
  | zero => rfl
  | succ k ih =>
      have hrest := ih (p := { p with climbs := p.climbs + 1 }) hn hr
      rw [List.replicate_succ, List.foldl_cons, p.move_up_nil hn hr, hrest]
      simp only [Place.mk.injEq, true_and, and_true]
      omega

/-- Following the route to a place leads there. -/
theorem Place.Regular.foldl_route {p : Place} (hp : p.Regular) :
    p.route.foldl Place.move ⟨p.rooted, 0, []⟩ = p := by
  obtain ⟨rooted, climbs, names⟩ := p
  have hnames : ∀ name ∈ names.reverse, IsName name := fun n hn => hp.names n (by simpa using hn)
  have hups : (List.replicate climbs ['.', '.']).foldl Place.move ⟨rooted, 0, []⟩ =
      ⟨rooted, climbs, []⟩ := by
    cases rooted with
    | true => simp [show climbs = 0 from hp.climbs rfl]
    | false => simpa using foldl_move_ups climbs (p := ⟨false, 0, []⟩) rfl rfl
  rw [route, List.foldl_append, hups, foldl_move_names hnames]
  simp

theorem Place.Regular.slash_not_mem_route {p : Place} (hp : p.Regular) {piece : List Char}
    (h : piece ∈ p.route) : '/' ∉ piece := by
  rcases List.mem_append.mp h with h | h
  · rw [List.eq_of_mem_replicate h]
    decide
  · exact (hp.names piece (by simpa using h)).slash_not_mem

theorem Place.Regular.ne_nil_of_mem_route {p : Place} (hp : p.Regular) {piece : List Char}
    (h : piece ∈ p.route) : piece ≠ [] := by
  rcases List.mem_append.mp h with h | h
  · rw [List.eq_of_mem_replicate h]
    decide
  · exact (hp.names piece (by simpa using h)).ne_nil

theorem startsAtRoot_link {ps : List (List Char)} (hne : ∀ piece ∈ ps, piece ≠ [])
    (hslash : ∀ piece ∈ ps, '/' ∉ piece) : startsAtRoot (link ps) = false := by
  cases ps with
  | nil => rfl
  | cons piece ps =>
      cases piece with
      | nil => exact absurd rfl (hne [] List.mem_cons_self)
      | cons c piece =>
          have hc : c ≠ '/' := fun hc => hslash (c :: piece) List.mem_cons_self (by simp [hc])
          cases ps <;> simp [link, startsAtRoot, hc]

theorem Place.spell_of_unrooted {p : Place} (hr : p.rooted = false) (hroute : p.route ≠ []) :
    p.spell = link p.route := by
  simp [spell, hr, hroute]

/-- Reading the spelling of a place leads back to it. -/
theorem Place.Regular.place_spell {p : Place} (hp : p.Regular) : place p.spell = p := by
  have hfold := hp.foldl_route
  unfold spell
  cases hr : p.rooted with
  | true =>
      rw [hr] at hfold
      simp only [if_true, place, start, startsAtRoot, List.head?_cons, beq_self_eq_true,
        pieces_slash, List.foldl_cons, Place.move_stay _ (.inl rfl)]
      by_cases hroute : p.route = []
      · simpa [hroute, link, pieces, Place.move] using hfold
      · rwa [pieces_link hroute fun _ => hp.slash_not_mem_route]
  | false =>
      rw [hr] at hfold
      simp only [Bool.false_eq_true, if_false]
      split
      · rename_i hroute
        simpa [hroute, place, pieces, start, startsAtRoot, Place.move] using hfold
      · rename_i hroute
        have hstart := startsAtRoot_link (fun _ => hp.ne_nil_of_mem_route)
          fun _ => hp.slash_not_mem_route
        rwa [place, start, hstart, pieces_link hroute fun _ => hp.slash_not_mem_route]

/-! ## Texts without backslashes -/

/-- A path in which no backslash could become a slash. -/
def Plain (p : String) : Prop := '\\' ∉ p.toList

/-- A path that `normalize` leaves as it is. -/
def Canonical (p : String) : Prop := normalize p = p

instance (p : String) : Decidable (Plain p) := inferInstanceAs (Decidable (_ ∉ _))

instance (p : String) : Decidable (Canonical p) := inferInstanceAs (Decidable (_ = _))

theorem slashed_ne (c : Char) : slashed c ≠ '\\' := by
  unfold slashed
  split
  · decide
  · assumption

theorem map_slashed {cs : List Char} (h : '\\' ∉ cs) : cs.map slashed = cs := by
  induction cs with
  | nil => rfl
  | cons c cs ih =>
      obtain ⟨hc, hcs⟩ := List.ne_and_not_mem_of_not_mem_cons h
      simp [slashed, hc.symm, ih hcs]

theorem mem_names_foldl_move {ps : List (List Char)} {p : Place} {name : List Char}
    (h : name ∈ (ps.foldl Place.move p).names) : name ∈ ps ∨ name ∈ p.names := by
  induction ps generalizing p with
  | nil => exact .inr h
  | cons piece ps ih =>
      rcases ih h with h | h
      · exact .inl (List.mem_cons_of_mem _ h)
      · unfold Place.move at h
        grind

theorem backslash_not_mem_names {cs name : List Char} (h : '\\' ∉ cs) (hname : name ∈ (place cs).names) :
    '\\' ∉ name := by
  intro hmem
  rcases mem_names_foldl_move hname with hname | hname
  · exact h (mem_of_mem_pieces hname hmem)
  · simp [start] at hname

theorem Place.backslash_not_mem_spell {p : Place} (h : ∀ name ∈ p.names, '\\' ∉ name) : '\\' ∉ p.spell := by
  have hroute : '\\' ∉ link p.route := by
    intro hmem
    rcases mem_link hmem with hslash | ⟨piece, hpiece, hmem⟩
    · exact absurd hslash (by decide)
    · rcases List.mem_append.mp hpiece with hup | hname
      · rw [List.eq_of_mem_replicate hup] at hmem
        exact absurd hmem (by decide)
      · exact h piece (List.mem_reverse.mp hname) hmem
  unfold spell
  split
  · simpa using hroute
  · split
    · decide
    · exact hroute

theorem backslash_not_mem_spell {cs : List Char} (h : '\\' ∉ cs) : '\\' ∉ (place cs).spell :=
  Place.backslash_not_mem_spell fun _ => backslash_not_mem_names h

/-- What `normalize` answers never holds a backslash. -/
theorem plain_normalize (p : String) : Plain (normalize p) := by
  simp only [Plain, normalize, String.toList_ofList, List.mem_map, not_exists, not_and]
  exact fun c _ => slashed_ne c

theorem toList_normalize {p : String} (h : Plain p) :
    (normalize p).toList = (place p.toList).spell := by
  rw [normalize, String.toList_ofList, map_slashed (backslash_not_mem_spell h)]

theorem place_normalize {p : String} (h : Plain p) :
    place (normalize p).toList = place p.toList := by
  rw [toList_normalize h, (regular_place _).place_spell]

/-- Two paths without backslashes have one canonical form exactly when they lead to one place. -/
theorem normalize_eq_normalize_iff {p q : String} (hp : Plain p) (hq : Plain q) :
    normalize p = normalize q ↔ place p.toList = place q.toList := by
  constructor
  · intro h
    rw [← place_normalize hp, ← place_normalize hq, h]
  · intro h
    rw [normalize, normalize, h]

/-- Without backslashes one round of `normalize` is enough. -/
theorem canonical_normalize {p : String} (h : Plain p) : Canonical (normalize p) :=
  (normalize_eq_normalize_iff (plain_normalize p) h).mpr (place_normalize h)

/-- With backslashes two rounds are. -/
theorem canonical_normalize_normalize (p : String) : Canonical (normalize (normalize p)) :=
  canonical_normalize (plain_normalize p)

theorem Canonical.plain {p : String} (h : Canonical p) : Plain p :=
  h ▸ plain_normalize p

theorem Canonical.toList_eq {path : String} (h : Canonical path) :
    path.toList = (place path.toList).spell := by
  have hlist := toList_normalize h.plain
  rwa [h] at hlist

/-- The spelling of a place is canonical. -/
theorem Place.Regular.canonical {p : Place} (hp : p.Regular) {text : String} (hplain : Plain text)
    (h : text.toList = p.spell) : Canonical text := by
  apply String.toList_injective
  rw [toList_normalize hplain, h, hp.place_spell]

/-- Canonical paths that lead to one place are equal. -/
theorem Canonical.eq_of_place_eq {p q : String} (hp : Canonical p) (hq : Canonical q)
    (h : place p.toList = place q.toList) : p = q := by
  rw [← hp, ← hq]
  exact (normalize_eq_normalize_iff hp.plain hq.plain).mpr h

/-- A backslash may hide a detour, which only the second round takes. -/
example : normalize "x\\..\\b" = "x/../b" ∧ normalize "x/../b" = "b" := by decide

end ConfigChain.Path

import ConfigChain.Proofs.Path.Folding

/-! # The form of a normalized path

A path can also be read by a machine that keeps a stack of segments and knows nothing of places. What it leaves on the
stack is the route to the place where the path leads, so the machine tells paths apart exactly as `normalize` does, and
each place has one path of normal form. -/

namespace ConfigChain.Path

variable {p q : String}

/-! ## Reading onto a stack -/

/-- One more segment, read onto a stack whose top comes first. `.` and an empty segment do nothing. `..` pops a name;
it is kept when there is none to pop, and dropped at the root directory. Any other segment is pushed. -/
def keep (rooted : Bool) (stack : List (List Char)) (segment : List Char) : List (List Char) :=
  if segment = [] ∨ segment = ['.'] then stack
  else if segment = ['.', '.'] then
    match stack with
    | [] => if rooted then [] else [segment]
    | top :: below => if top = ['.', '.'] then segment :: stack else below
  else segment :: stack

/-- What is left on the stack when the segments of a path have been read from left to right. -/
def kept (p : String) : List (List Char) := (p.toList.splitOn '/').foldl (keep (isAbsolute p)) []

/-- Paths that count from the same directory and leave the same stack. -/
def SamePlace (p q : String) : Prop := isAbsolute p = isAbsolute q ∧ kept p = kept q

instance (p q : String) : Decidable (SamePlace p q) := inferInstanceAs (Decidable (_ ∧ _))

/-! ## The stack and the place -/

theorem keep_stay (rooted : Bool) (stack : List (List Char)) {segment : List Char}
    (h : segment = [] ∨ segment = ['.']) : keep rooted stack segment = stack :=
  if_pos h

theorem keep_name (rooted : Bool) (stack : List (List Char)) {name : List Char} (h : IsName name) :
    keep rooted stack name = name :: stack := by
  simp [keep, h.ne_nil, h.ne_here, h.ne_up]

theorem keep_up_nil (rooted : Bool) : keep rooted [] ['.', '.'] = if rooted then [] else [['.', '.']] := by
  simp [keep]

theorem keep_up_up (rooted : Bool) (below : List (List Char)) :
    keep rooted (['.', '.'] :: below) ['.', '.'] = ['.', '.'] :: ['.', '.'] :: below := by
  simp [keep]

theorem keep_up_name (rooted : Bool) (below : List (List Char)) {name : List Char} (h : IsName name) :
    keep rooted (name :: below) ['.', '.'] = below := by
  simp [keep, h.ne_up]

theorem Place.reverse_route (p : Place) : p.route.reverse = p.names ++ List.replicate p.climbs ['.', '.'] := by
  simp [route]

/-- One move: with the route to a place on the stack, reading a segment leaves the route to the next. -/
theorem Place.Regular.keep_route {p : Place} (hp : p.Regular) {segment : List Char} (h : '/' ∉ segment) :
    keep p.rooted p.route.reverse segment = (p.move segment).route.reverse := by
  rcases piece_cases h with hstay | rfl | hname
  · rw [keep_stay _ _ hstay, p.move_stay hstay]
  · cases hn : p.names with
    | cons name outer =>
        have htop : IsName name := hp.names name (hn ▸ List.mem_cons_self)
        rw [p.move_up_cons hn, reverse_route, reverse_route, hn]
        exact keep_up_name _ _ htop
    | nil =>
        cases hr : p.rooted with
        | true =>
            -- A rooted place has no climbs either, so the stack is empty.
            rw [p.move_up_root hn hr, reverse_route, hn, hp.climbs hr]
            exact keep_up_nil true
        | false =>
            rw [p.move_up_nil hn hr, reverse_route, reverse_route, hn, List.nil_append, List.nil_append]
            cases p.climbs with
            | zero => exact keep_up_nil false
            | succ climbs => exact keep_up_up false _
  · rw [keep_name _ _ hname, p.move_name hname, reverse_route, reverse_route]
    rfl

/-- All moves of a path, by induction on its segments. -/
theorem Place.Regular.foldl_keep {p : Place} (hp : p.Regular) {segments : List (List Char)}
    (h : ∀ segment ∈ segments, '/' ∉ segment) :
    segments.foldl (keep p.rooted) p.route.reverse = (segments.foldl Place.move p).route.reverse := by
  induction segments generalizing p with
  | nil => rfl
  | cons segment segments ih =>
      have hslash : '/' ∉ segment := h segment List.mem_cons_self
      have hrooted : (p.move segment).rooted = p.rooted := rooted_foldl [segment] p
      have hrest := ih (hp.move hslash) fun s hs => h s (List.mem_cons_of_mem _ hs)
      rw [List.foldl_cons, List.foldl_cons, hp.keep_route hslash, ← hrest, hrooted]

theorem kept_eq_route (p : String) : kept p = (place p.toList).route.reverse := by
  rw [kept, ← pieces_eq_splitOn]
  exact (regular_start p.toList).foldl_keep fun _ => slash_not_mem_of_mem_pieces

/-- A place is told by where its route begins and the route. -/
theorem Place.Regular.eq_of_route_eq {p d : Place} (hp : p.Regular) (hd : d.Regular) (hrooted : p.rooted = d.rooted)
    (hroute : p.route = d.route) : p = d :=
  calc
    p = p.route.foldl Place.move ⟨p.rooted, 0, []⟩ := hp.foldl_route.symm
    _ = d.route.foldl Place.move ⟨d.rooted, 0, []⟩ := by rw [hrooted, hroute]
    _ = d := hd.foldl_route

/-- The machine tells apart what leads to different places, and nothing else. -/
theorem samePlace_iff (p q : String) : SamePlace p q ↔ place p.toList = place q.toList := by
  rw [SamePlace, isAbsolute_eq_rooted, isAbsolute_eq_rooted, kept_eq_route, kept_eq_route, List.reverse_inj]
  constructor
  · intro h
    exact (regular_place _).eq_of_route_eq (regular_place _) h.1 h.2
  · intro h
    exact ⟨congrArg Place.rooted h, congrArg Place.route h⟩

/-! ## The normal form -/

/-- `.`, `/`, or segments with one slash between neighbours, of which none is empty or `.`: from the root directory
they are all names, and otherwise there may be a leading run of `..`. -/
inductive NormalForm : String → Prop
  | here : NormalForm "."
  | root : NormalForm "/"
  | relative (climbs : Nat) (names : List (List Char))
      (hne : List.replicate climbs ['.', '.'] ++ names ≠ []) (hnames : ∀ name ∈ names, IsName name) :
      NormalForm (String.ofList (['/'].intercalate (List.replicate climbs ['.', '.'] ++ names)))
  | absolute (names : List (List Char)) (hne : names ≠ []) (hnames : ∀ name ∈ names, IsName name) :
      NormalForm (String.ofList ('/' :: ['/'].intercalate names))

/-- The spelling of a place is of normal form. -/
theorem Place.Regular.normalForm_spell {p : Place} (hp : p.Regular) : NormalForm (String.ofList p.spell) := by
  have hnames : ∀ name ∈ p.names.reverse, IsName name := fun name h => hp.names name (List.mem_reverse.mp h)
  by_cases hroute : p.route = []
  · cases hr : p.rooted with
    | true =>
        rw [spell, if_pos hr, hroute]
        exact .root
    | false =>
        rw [spell, if_neg (Bool.eq_false_iff.mp hr), if_pos hroute]
        exact .here
  · cases hr : p.rooted with
    | true =>
        have hdown : p.route = p.names.reverse := by rw [route, hp.climbs hr, List.replicate_zero, List.nil_append]
        rw [hdown] at hroute
        rw [spell, if_pos hr, hdown, link_eq_intercalate]
        exact .absolute _ hroute hnames
    | false =>
        rw [spell_of_unrooted hr hroute, link_eq_intercalate]
        exact .relative _ _ hroute hnames

/-- A text of normal form is the spelling of a place. -/
theorem NormalForm.exists_spell (h : NormalForm p) : ∃ d : Place, d.Regular ∧ p.toList = d.spell := by
  cases h with
  | here => exact ⟨⟨false, 0, []⟩, ⟨by simp, by simp⟩, rfl⟩
  | root => exact ⟨⟨true, 0, []⟩, ⟨by simp, by simp⟩, rfl⟩
  | relative climbs names hne hnames =>
      refine ⟨⟨false, climbs, names.reverse⟩, ⟨fun name h => hnames name (List.mem_reverse.mp h), by simp⟩, ?_⟩
      have hroute : Place.route ⟨false, climbs, names.reverse⟩ = List.replicate climbs ['.', '.'] ++ names := by
        simp [Place.route]
      rw [Place.spell_of_unrooted rfl (hroute ▸ hne), hroute, String.toList_ofList, link_eq_intercalate]
  | absolute names hne hnames =>
      refine ⟨⟨true, 0, names.reverse⟩, ⟨fun name h => hnames name (List.mem_reverse.mp h), by simp⟩, ?_⟩
      have hroute : Place.route ⟨true, 0, names.reverse⟩ = names := by simp [Place.route]
      rw [Place.spell, if_pos rfl, hroute, String.toList_ofList, link_eq_intercalate]

/-- Among paths without backslashes, those of normal form are the canonical ones. -/
theorem canonical_iff_normalForm (hp : Plain p) : Canonical p ↔ NormalForm p := by
  constructor
  · intro h
    have hform := (regular_place p.toList).normalForm_spell
    rwa [← h.toList_eq, String.ofList_toList] at hform
  · intro h
    obtain ⟨d, hd, htext⟩ := h.exists_spell
    exact hd.canonical hp htext

/-- A path is normalized to the one path of normal form that leads to the same place. -/
theorem normalize_eq_iff (hp : Plain p) (hq : Plain q) : normalize p = q ↔ NormalForm q ∧ SamePlace q p := by
  rw [samePlace_iff, ← canonical_iff_normalForm hq]
  constructor
  · rintro rfl
    exact ⟨canonical_normalize hp, place_normalize hp⟩
  · intro ⟨hcanonical, hplace⟩
    refine (canonical_normalize hp).eq_of_place_eq hcanonical ?_
    rw [place_normalize hp, hplace]

theorem cleaned_iff_normalize_eq (hp : Plain p) {text : String} : Cleaned p text ↔ normalize p = text := by
  rw [cleaned_iff, ← Path.toList_normalize hp, String.ofList_toList]
  exact eq_comm

/-- What `normalize` answers is of normal form and leads to the same place, no other path is both, so that two paths
have one answer exactly when they lead to the same place; and a second round changes nothing. The rules of cleaning
come to this answer in whatever order they are used. -/
theorem normalize_unique_form (hp : Plain p) :
    NormalForm (normalize p) ∧ SamePlace (normalize p) p ∧ normalize (normalize p) = normalize p ∧
      (∀ q, Plain q → (normalize p = normalize q ↔ SamePlace p q) ∧
        (NormalForm q → SamePlace q p → q = normalize p)) ∧
      ∀ text, Cleaned p text ↔ normalize p = text := by
  have hself := (normalize_eq_iff hp (plain_normalize p)).mp rfl
  refine ⟨hself.1, hself.2, canonical_normalize hp, ?_, fun text => cleaned_iff_normalize_eq hp⟩
  intro q hq
  constructor
  · rw [normalize_eq_normalize_iff hp hq, samePlace_iff]
  · intro hform hplace
    exact ((normalize_eq_iff hp hq).mpr ⟨hform, hplace⟩).symm

/-- A path that climbs out of its own beginning and on. -/
theorem normalize_unique_form_climbing :
    Plain "a/.//../../b" ∧ NormalForm "../b" ∧ SamePlace "../b" "a/.//../../b" ∧
      (∀ q, Plain q → ("../b" = normalize q ↔ SamePlace "a/.//../../b" q)) ∧ Cleaned "a/.//../../b" "../b" := by
  have hplain : Plain "a/.//../../b" := by decide
  have hnorm : normalize "a/.//../../b" = "../b" := by decide
  obtain ⟨hform, hplace, -, hunique, hcleaned⟩ := normalize_unique_form hplain
  rw [hnorm] at hform hplace hunique
  exact ⟨hplain, hform, hplace, fun q hq => (hunique q hq).1, (hcleaned "../b").mpr hnorm⟩

end ConfigChain.Path

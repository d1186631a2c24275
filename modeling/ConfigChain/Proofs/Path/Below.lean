import ConfigChain.Proofs.Path.Visible
import Mathlib.Data.List.Infix

/-! # What lies below a directory

`below?` compares texts. For canonical paths this is a comparison of routes: what remains of a path is where its
route goes on. It goes on below the directory, with one exception: behind a directory that only climbs, it may
climb on. -/

namespace ConfigChain.Path

variable {p dir rest : String} {tail : List (List Char)}

/-! ## Routes that go on -/

theorem below?_eq_some_iff (p dir rest : String) :
    below? p dir = some rest ↔
      dir ≠ "." ∧ rest ≠ "" ∧ p.toList = dir.toList ++ '/' :: rest.toList := by
  unfold below?
  split
  · simp [*]
  · rename_i hdir
    split
    · rename_i c cs h
      have htext := List.isPrefixOf?_eq_some_iff_append_eq.mp h
      constructor
      · rintro ⟨⟩
        exact ⟨hdir, by simp [← String.toList_inj], by simp [← htext]⟩
      · rintro ⟨-, -, hp⟩
        rw [← htext, List.append_cancel_left_eq, List.cons_inj_right] at hp
        rw [hp, String.ofList_toList]
    · rename_i hnone
      refine iff_of_false (by simp) ?_
      rintro ⟨-, hrest, hp⟩
      obtain ⟨c, cs, hcs⟩ := List.exists_cons_of_ne_nil fun h => hrest (String.toList_eq_nil_iff.mp h)
      exact hnone c cs (List.isPrefixOf?_eq_some_iff_append_eq.mpr (by rw [hp, hcs]))

theorem Place.Regular.startsAtRoot_spell {p : Place} (hp : p.Regular) : startsAtRoot p.spell = p.rooted := by
  rw [← rooted_place, hp.place_spell]

theorem Place.Regular.spell_ne_nil {p : Place} (hp : p.Regular) : p.spell ≠ [] := by
  unfold spell
  split
  · exact List.cons_ne_nil _ _
  · split
    · exact List.cons_ne_nil _ _
    · exact link_ne_nil ‹_› fun _ => hp.ne_nil_of_mem_route

theorem Place.Regular.pieces_spell {p : Place} (hp : p.Regular) (hroute : p.route ≠ []) :
    pieces p.spell = if p.rooted then [] :: p.route else p.route := by
  have hlink : pieces (link p.route) = p.route := pieces_link hroute fun _ => hp.slash_not_mem_route
  cases hr : p.rooted with
  | true => simp [spell, hr, pieces_slash, hlink]
  | false => simp [spell_of_unrooted hr hroute, hlink]

/-- A text goes on behind a slash where the route goes on. -/
theorem Place.Regular.spell_eq_append_iff {p d : Place} (hp : p.Regular) (hd : d.Regular) (hroute : d.route ≠ [])
    {cs : List Char} (hcs : cs ≠ []) :
    p.spell = d.spell ++ '/' :: cs ↔
      p.rooted = d.rooted ∧ ∃ tail, tail ≠ [] ∧ p.route = d.route ++ tail ∧ cs = link tail := by
  constructor
  · intro h
    have hrooted : p.rooted = d.rooted := by
      rw [← hp.startsAtRoot_spell, ← hd.startsAtRoot_spell, h, startsAtRoot_append hd.spell_ne_nil]
    have hne : p.route ≠ [] := by
      intro hnil
      have hlength : p.spell.length = 1 := by
        unfold spell
        split <;> simp [hnil, link]
      have hpos := List.length_pos_iff.mpr hd.spell_ne_nil
      rw [h, List.length_append, List.length_cons] at hlength
      omega
    have hpieces := congrArg pieces h
    rw [pieces_append_slash, hp.pieces_spell hne, hd.pieces_spell hroute, hrooted] at hpieces
    refine ⟨hrooted, pieces cs, pieces_ne_nil cs, ?_, (link_pieces cs).symm⟩
    cases hr : d.rooted <;> simpa [hr] using hpieces
  · rintro ⟨hrooted, tail, htail, hgoes, rfl⟩
    have hne : p.route ≠ [] := by simp [hgoes, hroute]
    have hlink : link p.route = link d.route ++ '/' :: link tail := by rw [hgoes, link_append hroute htail]
    unfold spell
    rw [hrooted, if_neg hne, if_neg hroute, hlink]
    split <;> rfl

/-- What remains of a canonical path below a canonical directory is linked from where its route goes on. -/
theorem below?_canonical_iff (hp : Canonical p) (hdir : Canonical dir) :
    below? p dir = some rest ↔ (place dir.toList).route ≠ [] ∧
      (place p.toList).rooted = (place dir.toList).rooted ∧
      ∃ tail, tail ≠ [] ∧ (place p.toList).route = (place dir.toList).route ++ tail ∧
        rest.toList = link tail := by
  have hrp := regular_place p.toList
  have hrd := regular_place dir.toList
  rw [below?_eq_some_iff]
  by_cases hroute : (place dir.toList).route = []
  · refine iff_of_false ?_ fun h => h.1 hroute
    rintro ⟨hdot, -, htext⟩
    have hspell := hdir.toList_eq
    cases hr : (place dir.toList).rooted with
    | false =>
        rw [Place.spell, hr, if_neg (by decide), if_pos hroute] at hspell
        exact hdot (String.toList_injective hspell)
    | true =>
        rw [Place.spell, hr, if_pos rfl, hroute] at hspell
        rw [hspell] at htext
        have hrooted : (place p.toList).rooted = true := by simp [htext, startsAtRoot, link]
        have hstart := startsAtRoot_link (fun _ => hrp.ne_nil_of_mem_route)
          fun _ => hrp.slash_not_mem_route
        rw [hp.toList_eq, Place.spell, if_pos hrooted, link, List.cons_append, List.nil_append,
          List.cons_inj_right] at htext
        rw [htext] at hstart
        cases hstart
  · have hdot : dir ≠ "." := by
      rintro rfl
      exact hroute (by decide)
    have hspell (hcs : rest.toList ≠ []) := hrp.spell_eq_append_iff hrd hroute hcs
    rw [← hp.toList_eq, ← hdir.toList_eq] at hspell
    constructor
    · rintro ⟨-, hrest, htext⟩
      exact ⟨hroute, (hspell (by simpa using hrest)).mp htext⟩
    · rintro ⟨-, hrooted, tail, htail, hgoes, hrest⟩
      have hcs : rest.toList ≠ [] := by
        rw [hrest]
        refine link_ne_nil htail fun piece hpiece => hrp.ne_nil_of_mem_route ?_
        rw [hgoes]
        exact List.mem_append_right _ hpiece
      exact ⟨hdot, by simpa using hcs, (hspell hcs).mpr ⟨hrooted, tail, htail, hgoes, hrest⟩⟩

/-! ## Where a route goes on to -/

/-- A place that is reached from a directory through names alone, one at least. -/
def Place.Below (p d : Place) : Prop :=
  p.rooted = d.rooted ∧ p.climbs = d.climbs ∧ d.names <:+ p.names ∧ d.names ≠ p.names

/-- A path that leads below a directory: it climbs as far, and then leads through the names of the directory and
further ones. One that climbs less does not count, since the text does not tell which names lead there. -/
def Below (p dir : String) : Prop := (place p.toList).Below (place dir.toList)

instance (p dir : String) : Decidable (Below p dir) := inferInstanceAs (Decidable (_ ∧ _ ∧ _ ∧ _))

/-- A path that climbs further than a directory which does nothing but climb. -/
def ClimbsPast (p dir : String) : Prop :=
  OnlyClimbs dir ∧ isAbsolute p = false ∧ (place dir.toList).climbs < (place p.toList).climbs

instance (p dir : String) : Decidable (ClimbsPast p dir) := inferInstanceAs (Decidable (_ ∧ _ ∧ _))

/-- A path that climbs past a directory does not lead below it. -/
theorem ClimbsPast.not_below (h : ClimbsPast p dir) : ¬ Below p dir := fun hbelow =>
  absurd hbelow.2.1 (Nat.ne_of_gt h.2.2)

theorem Place.Regular.count_route {p : Place} (hp : p.Regular) : p.route.count ['.', '.'] = p.climbs := by
  have hnames : p.names.reverse.count ['.', '.'] = 0 :=
    List.count_eq_zero_of_not_mem fun hmem => (hp.names _ (List.mem_reverse.mp hmem)).ne_up rfl
  rw [route, List.count_append, List.count_replicate_self, hnames, Nat.add_zero]

/-- A route that goes on from a directory goes on through names, or the directory does nothing but climb, and the
route climbs on. -/
theorem Place.Regular.route_cases {p d : Place} (hp : p.Regular) (hd : d.Regular)
    (hgoes : p.route = d.route ++ tail) (htail : tail ≠ []) :
    (∃ names, names ≠ [] ∧ p.names = names ++ d.names ∧ p.climbs = d.climbs ∧ tail = names.reverse) ∨
      d.names = [] ∧ d.climbs < p.climbs ∧ tail = route ⟨false, p.climbs - d.climbs, p.names⟩ := by
  have hclimbs : p.climbs = d.climbs + tail.count ['.', '.'] := by
    rw [← hp.count_route, ← hd.count_route, hgoes, List.count_append]
  obtain ⟨n, hn⟩ : ∃ n, tail.count ['.', '.'] = n := ⟨_, rfl⟩
  rw [hn] at hclimbs
  rw [route, route, hclimbs, ← List.replicate_append_replicate, List.append_assoc, List.append_assoc,
    List.append_cancel_left_eq] at hgoes
  cases n with
  | zero =>
      rw [List.replicate_zero, List.nil_append] at hgoes
      refine .inl ⟨tail.reverse, by simpa using htail, ?_, hclimbs, tail.reverse_reverse.symm⟩
      rw [← p.names.reverse_reverse, hgoes, List.reverse_append, List.reverse_reverse]
  | succ n =>
      refine .inr ?_
      -- The names of the directory cannot begin with the next climb.
      have hnames : d.names = [] := by
        rw [← List.reverse_eq_nil_iff]
        cases hrev : d.names.reverse with
        | nil => rfl
        | cons name names =>
            rw [hrev, List.replicate_succ, List.cons_append, List.cons_append, List.cons.injEq] at hgoes
            have hmem : name ∈ d.names := List.mem_reverse.mp (hrev ▸ List.mem_cons_self)
            exact absurd hgoes.1.symm (hd.names name hmem).ne_up
      rw [hnames, List.reverse_nil, List.nil_append] at hgoes
      refine ⟨hnames, by omega, ?_⟩
      rw [← hgoes, route, hclimbs, Nat.add_sub_cancel_left]

/-! ## What remains -/

/-- A path that leads down, through names alone. -/
def Descends (way : String) : Prop :=
  isAbsolute way = false ∧ (place way.toList).climbs = 0 ∧ (place way.toList).names ≠ []

instance (way : String) : Decidable (Descends way) := inferInstanceAs (Decidable (_ ∧ _ ∧ _))

/-- A path, with so many of its climbs left out. -/
def lifted (p : String) (n : Nat) : String :=
  String.ofList (Place.spell ⟨false, (place p.toList).climbs - n, (place p.toList).names⟩)

theorem toList_lifted (p : String) (n : Nat) :
    (lifted p n).toList = Place.spell ⟨false, (place p.toList).climbs - n, (place p.toList).names⟩ :=
  String.toList_ofList

theorem regular_lifted (p : String) (n : Nat) :
    Place.Regular ⟨false, (place p.toList).climbs - n, (place p.toList).names⟩ :=
  ⟨(regular_place p.toList).names, by simp⟩

theorem place_lifted (p : String) (n : Nat) :
    place (lifted p n).toList = ⟨false, (place p.toList).climbs - n, (place p.toList).names⟩ := by
  rw [toList_lifted, (regular_lifted p n).place_spell]

theorem plain_lifted (hp : Plain p) (n : Nat) : Plain (lifted p n) := by
  rw [Plain, toList_lifted]
  exact Place.backslash_not_mem_spell fun _ => backslash_not_mem_names hp

/-- What remains of a path leads down, or it is that path with the climbs of the directory left out. -/
theorem below?_cases (hp : Canonical p) (hdir : Canonical dir) (h : below? p dir = some rest) :
    Canonical rest ∧ (Below p dir ∧ Descends rest ∨
      ClimbsPast p dir ∧ rest = lifted p (place dir.toList).climbs) := by
  have hrp := regular_place p.toList
  have hrd := regular_place dir.toList
  have hplain : Plain rest := by
    obtain ⟨-, -, htext⟩ := (below?_eq_some_iff p dir rest).mp h
    refine fun hmem => hp.plain ?_
    rw [htext]
    exact List.mem_append_right _ (List.mem_cons_of_mem _ hmem)
  obtain ⟨hroute, hrooted, tail, htail, hgoes, hrest⟩ := (below?_canonical_iff hp hdir).mp h
  -- The rest is the spelling of the place that its route leads to.
  have hspelled {q : Place} (hq : q.Regular) (hr : q.rooted = false) (heq : tail = q.route) :
      rest.toList = q.spell ∧ Canonical rest := by
    have htext : rest.toList = q.spell := by
      rw [hrest, Place.spell_of_unrooted hr (heq ▸ htail), heq]
    exact ⟨htext, hq.canonical hplain htext⟩
  rcases hrp.route_cases hrd hgoes htail with ⟨names, hne, hnames, hclimbs, heq⟩ | ⟨hnames, hclimbs, heq⟩
  · have hq : Place.Regular ⟨false, 0, names⟩ :=
      ⟨fun name hname => hrp.names name (hnames ▸ List.mem_append_left _ hname), by simp⟩
    obtain ⟨htext, hcanonical⟩ := hspelled hq rfl (by simpa [Place.route] using heq)
    have hplace : place rest.toList = ⟨false, 0, names⟩ := by rw [htext, hq.place_spell]
    have hbelow : Below p dir := by
      refine ⟨hrooted, hclimbs, ⟨names, hnames.symm⟩, ?_⟩
      simpa [hnames] using hne
    have hdescends : Descends rest := by
      simpa [Descends, isAbsolute_eq_rooted, hplace] using hne
    exact ⟨hcanonical, .inl ⟨hbelow, hdescends⟩⟩
  · obtain ⟨htext, hcanonical⟩ := hspelled (regular_lifted p (place dir.toList).climbs) rfl heq
    have hpos : 0 < (place dir.toList).climbs := by
      refine Nat.pos_of_ne_zero fun hzero => hroute ?_
      simp [Place.route, hzero, hnames]
    have hunrooted : (place dir.toList).rooted = false := by
      refine Bool.eq_false_iff.mpr fun hr => ?_
      rw [hrd.climbs hr] at hpos
      exact absurd hpos (Nat.lt_irrefl 0)
    have hpast : ClimbsPast p dir := by
      refine ⟨⟨?_, hpos, hnames⟩, ?_, hclimbs⟩
      · exact (isAbsolute_eq_rooted dir).trans hunrooted
      · exact (isAbsolute_eq_rooted p).trans (hrooted.trans hunrooted)
    rw [← toList_lifted] at htext
    exact ⟨hcanonical, .inr ⟨hpast, String.toList_injective htext⟩⟩

theorem below?_of_climbsPast (hp : Canonical p) (hdir : Canonical dir) (h : ClimbsPast p dir) :
    below? p dir = some (lifted p (place dir.toList).climbs) := by
  obtain ⟨⟨hunrooted, hpos, hnames⟩, hrooted, hclimbs⟩ := h
  rw [isAbsolute_eq_rooted] at hunrooted hrooted
  obtain ⟨n, hn⟩ := Nat.exists_eq_add_of_lt hclimbs
  have hleft : (place p.toList).climbs - (place dir.toList).climbs = n + 1 := by omega
  have hne : Place.route ⟨false, n + 1, (place p.toList).names⟩ ≠ [] := by
    simp [Place.route, List.replicate_succ]
  refine (below?_canonical_iff hp hdir).mpr ⟨?_, hrooted.trans hunrooted.symm, _, hne, ?_, ?_⟩
  · simp [Place.route, hnames, Nat.ne_of_gt hpos]
  · rw [Place.route, Place.route, Place.route, hn, hnames, Nat.add_assoc,
      ← List.replicate_append_replicate, List.reverse_nil, List.append_nil, List.append_assoc]
  · rw [toList_lifted, hleft, Place.spell_of_unrooted rfl hne]

/-! ## Joined to another directory -/

/-- Down from a directory is below it. -/
theorem below_join {target way : String} (htarget : Plain target) (hway : Plain way) (h : Descends way) :
    Below (join target way) target := by
  obtain ⟨hrooted, hclimbs, hnames⟩ := h
  rw [isAbsolute_eq_rooted] at hrooted
  rw [Below, place_join htarget hway, (regular_place _).follow_eq hrooted, hclimbs]
  refine ⟨rfl, ?_, ⟨_, rfl⟩, by simpa using hnames⟩
  simp

/-- Leaving climbs out makes a difference, unless those that are left lead up to the root directory. -/
theorem join_lifted_eq_iff {target : String} (htarget : Plain target) (hp : Plain p)
    (hrooted : isAbsolute p = false) {n : Nat} (hpos : 0 < n) (hn : n ≤ (place p.toList).climbs) :
    join target (lifted p n) = join target p ↔
      isAbsolute target = true ∧ (place target.toList).names.length ≤ (place p.toList).climbs - n := by
  have hl := plain_lifted hp n
  obtain ⟨left, hleft⟩ := Nat.exists_eq_add_of_le' hn
  have hlifted : place (join target (lifted p n)).toList = _ :=
    (place_join htarget hl).trans (by rw [place_lifted, (regular_lifted p n).follow_eq rfl])
  have hunrooted : (place p.toList).rooted = false := (isAbsolute_eq_rooted p).symm.trans hrooted
  have hwhole : place (join target p).toList = _ :=
    (place_join htarget hp).trans ((regular_place _).follow_eq hunrooted _)
  have heq : join target (lifted p n) = join target p ↔
      place (join target (lifted p n)).toList = place (join target p).toList :=
    ⟨fun h => by rw [h], (canonical_join htarget hl).eq_of_place_eq (canonical_join htarget hp)⟩
  rw [heq, hlifted, hwhole, hleft, Nat.add_sub_cancel, isAbsolute_eq_rooted]
  simp only [Place.mk.injEq, true_and, List.append_cancel_left_eq]
  generalize (place target.toList).names = names
  constructor
  · rintro ⟨hclimbs, hnames⟩
    have hlength := congrArg List.length hnames
    simp only [List.length_drop] at hlength
    refine ⟨?_, by omega⟩
    by_contra hr
    rw [if_neg hr, if_neg hr] at hclimbs
    omega
  · rintro ⟨hr, hlength⟩
    rw [if_pos hr, if_pos hr, List.drop_eq_nil_of_le hlength, List.drop_eq_nil_of_le (by omega)]
    exact ⟨rfl, rfl⟩

end ConfigChain.Path

import ConfigChain.Path.Relative
import ConfigChain.Proofs.Path.Splitting

/-! # Seeing a place from another directory

`difference` answers a way that leads from the second place to the first one, and so `rebase` keeps the
directory that is meant, wherever the new point of view does not climb. -/

namespace ConfigChain.Path

/-! ## Steps -/

/-- Where steps lead. -/
def Step.walk (p : Place) (way : List Step) : Place := way.foldl (fun p step => p.move step.text) p

theorem Step.walk_append (p : Place) (way rest : List Step) :
    walk p (way ++ rest) = walk (walk p way) rest :=
  List.foldl_append

theorem Step.walk_eq_foldl_move (p : Place) (way : List Step) :
    walk p way = (way.map Step.text).foldl Place.move p :=
  List.foldl_map.symm

/-- The steps to a place from where its path begins. -/
def Place.way (p : Place) : List Step :=
  List.replicate p.climbs .up ++ p.names.reverse.map .into

theorem Place.map_text_way (p : Place) : p.way.map Step.text = p.route := by
  simp [way, route, Step.text, Function.comp_def]

theorem Place.way_eq_nil_iff (p : Place) : p.way = [] ↔ p.route = [] := by
  rw [← p.map_text_way, List.map_eq_nil_iff]

theorem Place.Regular.walk_way {p : Place} (hp : p.Regular) :
    Step.walk ⟨p.rooted, 0, []⟩ p.way = p := by
  rw [Step.walk_eq_foldl_move, p.map_text_way, hp.foldl_route]

theorem Step.ofPiece_name {name : List Char} (h : IsName name) : ofPiece name = [.into name] := by
  simp [ofPiece, h.ne_nil, h.ne_here, h.ne_up]

theorem Place.Regular.flatMap_route {p : Place} (hp : p.Regular) :
    p.route.flatMap Step.ofPiece = p.way := by
  have hnames : ∀ names : List (List Char), (∀ name ∈ names, IsName name) →
      names.flatMap Step.ofPiece = names.map Step.into := by
    intro names h
    induction names with
    | nil => rfl
    | cons name names ih =>
        rw [List.flatMap_cons, Step.ofPiece_name (h name List.mem_cons_self),
          ih fun n hn => h n (List.mem_cons_of_mem _ hn)]
        rfl
  have hups (k : Nat) : (List.replicate k ['.', '.']).flatMap Step.ofPiece = List.replicate k .up := by
    induction k with
    | zero => rfl
    | succ k ih => rw [List.replicate_succ, List.flatMap_cons, ih]; rfl
  rw [route, List.flatMap_append, hups, hnames _ fun n hn => hp.names n (by simpa using hn), way]

/-- The way to a place that is not rooted, as it is written: where there is nowhere to go, one stays. -/
def Place.opening (p : Place) : List Step := if p.way = [] then [.here] else p.way

theorem Place.opening_ne_nil (p : Place) : p.opening ≠ [] := by
  unfold opening
  split <;> simp [*]

theorem Place.mem_way_of_mem_opening {p : Place} {step : Step} (h : step ∈ p.opening) :
    step ∈ p.way ∨ step = .here := by
  unfold opening at h
  split at h
  · exact .inr (List.mem_singleton.mp h)
  · exact .inl h

/-- A place that climbs is written with its climbs in front. -/
theorem Place.exists_opening_eq (p : Place) {k : Nat} (h : k ≤ p.climbs) :
    ∃ rest, p.opening = List.replicate k .up ++ rest := by
  obtain ⟨n, hn⟩ := Nat.exists_eq_add_of_le h
  have hway : p.way = List.replicate k .up ++ (List.replicate n .up ++ p.names.reverse.map .into) := by
    rw [way, hn, ← List.replicate_append_replicate, List.append_assoc]
  unfold opening
  split
  · rename_i hnil
    obtain ⟨hk, -⟩ := List.append_eq_nil_iff.mp (hway.symm.trans hnil)
    exact ⟨[.here], by rw [hk]; rfl⟩
  · exact ⟨_, hway⟩

theorem Place.walk_opening (p base : Place) : Step.walk base p.opening = Step.walk base p.way := by
  unfold opening
  split
  · rename_i hnil
    rw [hnil]
    exact base.move_stay (.inr rfl)
  · rfl

theorem Place.Regular.steps_spell {p : Place} (hp : p.Regular) :
    steps p.spell = if p.rooted then .root :: p.way else p.opening := by
  cases hr : p.rooted with
  | true =>
      by_cases hroute : p.route = []
      · simp [spell, hr, hroute, steps, startsAtRoot, link, pieces, Step.ofPiece,
          p.way_eq_nil_iff.mpr hroute]
      · simp [spell, hr, steps, startsAtRoot, pieces_slash, Step.ofPiece,
          pieces_link hroute fun _ => hp.slash_not_mem_route, hp.flatMap_route]
  | false =>
      by_cases hroute : p.route = []
      · simp [spell, hr, hroute, steps, startsAtRoot, pieces, Step.ofPiece, opening,
          p.way_eq_nil_iff.mpr hroute]
      · have hstart := startsAtRoot_link (fun _ => hp.ne_nil_of_mem_route)
          fun _ => hp.slash_not_mem_route
        have hhead : p.route.head? ≠ some ['.'] := by
          intro h
          rcases List.mem_append.mp (List.mem_of_head? h) with h | h
          · exact absurd (List.eq_of_mem_replicate h) (by decide)
          · exact (hp.names _ (by simpa using h)).ne_here rfl
        simp [spell, hr, hroute, steps, hstart, hhead, opening, p.way_eq_nil_iff,
          pieces_link hroute fun _ => hp.slash_not_mem_route, hp.flatMap_route]

/-! ## Differences -/

theorem difference_nil (shared : Bool) (base : List Step) :
    difference shared [] base = some (List.replicate base.length .up) := by
  induction base generalizing shared with
  | nil => rfl
  | cons step base ih => simp [difference, ih, List.replicate_succ]

theorem difference_to_nil (shared : Bool) (target : List Step) :
    difference shared target [] = some target := by
  cases target <;> rfl

/-- What two ways share in front makes no difference. -/
theorem difference_append (front target base : List Step) :
    difference true (front ++ target) (front ++ base) = difference true target base := by
  induction front with
  | nil => rfl
  | cons step front ih => simpa [difference] using ih

/-- Going down through names and up as often leads back. -/
theorem Step.walk_names_ups {names : List (List Char)} (h : ∀ name ∈ names, IsName name)
    (p : Place) : walk (walk p (names.map .into)) (List.replicate names.length .up) = p := by
  induction names generalizing p with
  | nil => rfl
  | cons name names ih =>
      have hrest := ih (fun n hn => h n (List.mem_cons_of_mem _ hn)) (p.move name)
      rw [List.length_cons, List.replicate_succ', walk_append]
      change (walk (walk (p.move name) (names.map .into)) _).move ['.', '.'] = p
      rw [hrest, p.move_name_up (h name List.mem_cons_self)]

/-- From a directory that lies below the common start, the difference leads to the target. -/
theorem difference_names {names : List (List Char)} (h : ∀ name ∈ names, IsName name)
    (target : List Step) (p : Place) :
    ∃ way, difference true target (names.map .into) = some way ∧
      Step.walk (Step.walk p (names.map .into)) way = Step.walk p target := by
  induction names generalizing target p with
  | nil => exact ⟨target, difference_to_nil true target, rfl⟩
  | cons name names ih =>
      have hnames : ∀ n ∈ names, IsName n := fun n hn => h n (List.mem_cons_of_mem _ hn)
      have hback := Step.walk_names_ups h p
      cases target with
      | nil =>
          refine ⟨_, difference_nil true _, ?_⟩
          rw [List.length_map]
          exact hback
      | cons step target =>
          by_cases hstep : step = .into name
          · subst hstep
            obtain ⟨way, hway, hwalk⟩ := ih hnames target (p.move name)
            exact ⟨way, by simp [difference, hway], hwalk⟩
          · refine ⟨List.replicate (name :: names).length .up ++ step :: target, ?_, ?_⟩
            · simp [difference, hstep, List.map_const', List.replicate_succ, Function.comp_def]
            · rw [Step.walk_append, hback]

/-- From where one stands, the difference is the target itself. -/
theorem difference_here {target : List Step} (hne : target ≠ []) (p : Place) :
    ∃ way, difference true target [.here] = some way ∧ Step.walk p way = Step.walk p target := by
  cases target with
  | nil => exact absurd rfl hne
  | cons step target =>
      by_cases hstep : step = .here
      · subst hstep
        refine ⟨target, by simp [difference, difference_to_nil], ?_⟩
        change _ = Step.walk (p.move ['.']) target
        rw [p.move_stay (.inr rfl)]
      · exact ⟨step :: target, by simp [difference, hstep, difference_to_nil], rfl⟩

theorem mem_of_difference {shared : Bool} {target base way : List Step}
    (h : difference shared target base = some way) {step : Step} (hstep : step ∈ way) :
    step ∈ target ∨ step = .up := by
  fun_induction difference shared target base generalizing way with
  | case1 => simp_all
  | case2 => simp_all
  | case3 shared other base ih =>
      obtain ⟨rest, hrest, rfl⟩ := Option.map_eq_some_iff.mp h
      rcases List.mem_cons.mp hstep with rfl | hstep
      · exact .inr rfl
      · exact ih hrest hstep
  | case4 shared first target other base _ ih =>
      exact (ih h hstep).imp_left (List.mem_cons_of_mem _)
  | case5 shared first target base _ ih =>
      obtain ⟨rest, hrest, rfl⟩ := Option.map_eq_some_iff.mp h
      rcases List.mem_cons.mp hstep with rfl | hstep
      · exact .inl List.mem_cons_self
      · exact (ih hrest hstep).imp_left (List.mem_cons_of_mem _)
  | case6 => cases h
  | case7 shared first target other base _ _ _ =>
      cases h
      simp only [List.cons_append, List.mem_cons, List.mem_append, List.mem_map] at hstep ⊢
      grind

/-! ## Ways as texts -/

/-- A step that a canonical path may hold behind its beginning. -/
def Step.Written : Step → Prop
  | .root => False
  | .here => True
  | .up => True
  | .into name => IsName name ∧ '\\' ∉ name

theorem Step.Written.text_ne_nil {step : Step} (h : step.Written) : step.text ≠ [] := by
  cases step with
  | root => exact h.elim
  | here => decide
  | up => decide
  | into name => exact h.1.ne_nil

theorem Step.Written.slash_not_mem {step : Step} (h : step.Written) : '/' ∉ step.text := by
  cases step with
  | root => exact h.elim
  | here => decide
  | up => decide
  | into name => exact h.1.slash_not_mem

theorem Step.Written.backslash_not_mem {step : Step} (h : step.Written) : '\\' ∉ step.text := by
  cases step with
  | root => exact h.elim
  | here => decide
  | up => decide
  | into name => exact h.2

/-- How a way is written. -/
def Step.textOf (way : List Step) : List Char := link (way.map Step.text)

theorem Step.backslash_not_mem_textOf {way : List Step} (h : ∀ step ∈ way, step.Written) :
    '\\' ∉ textOf way := by
  intro hmem
  rcases mem_link hmem with hslash | ⟨piece, hpiece, hmem⟩
  · exact absurd hslash (by decide)
  · obtain ⟨step, hstep, rfl⟩ := List.mem_map.mp hpiece
    exact (h step hstep).backslash_not_mem hmem

theorem Step.startsAtRoot_textOf {way : List Step} (h : ∀ step ∈ way, step.Written) :
    startsAtRoot (textOf way) = false := by
  apply startsAtRoot_link <;> intro piece hpiece <;>
    obtain ⟨step, hstep, rfl⟩ := List.mem_map.mp hpiece
  · exact (h step hstep).text_ne_nil
  · exact (h step hstep).slash_not_mem

/-- A way that is written down leads where its steps lead. -/
theorem Step.follow_textOf {way : List Step} (h : ∀ step ∈ way, step.Written) (base : Place) :
    base.follow (place (textOf way)) = walk base way := by
  rw [← place_eq_follow (startsAtRoot_textOf h), walk_eq_foldl_move, textOf]
  cases way with
  | nil => exact base.move_stay (.inl rfl)
  | cons step way =>
      rw [pieces_link (by simp)]
      intro piece hpiece
      obtain ⟨step, hstep, rfl⟩ := List.mem_map.mp hpiece
      exact (h step hstep).slash_not_mem

theorem Place.written_of_mem_way {cs : List Char} (h : '\\' ∉ cs) {step : Step}
    (hstep : step ∈ (place cs).way) : step.Written := by
  rcases List.mem_append.mp hstep with hstep | hstep
  · rw [List.eq_of_mem_replicate hstep]
    trivial
  · obtain ⟨name, hname, rfl⟩ := List.mem_map.mp hstep
    have hname := List.mem_reverse.mp hname
    exact ⟨(regular_place cs).names name hname, backslash_not_mem_names h hname⟩

/-! ## Paths as seen from a directory -/

/-- Between two rooted places, or two that are not, the difference exists if the second one climbs no further
than the first one, and it leads from the second one to the first one. -/
theorem exists_difference {target base : Place} (ht : target.Regular) (hb : base.Regular)
    (hclimbs : base.climbs ≤ target.climbs) (hrooted : target.rooted = base.rooted) :
    ∃ way, difference true (steps target.spell) (steps base.spell) = some way ∧
      (∀ step ∈ way, step ∈ target.way ∨ step = .here ∨ step = .up) ∧
      Step.walk base way = target := by
  have hnames : ∀ name ∈ base.names.reverse, IsName name :=
    fun n hn => hb.names n (List.mem_reverse.mp hn)
  have hbwalk := hb.walk_way
  have htwalk := ht.walk_way
  rw [ht.steps_spell, hb.steps_spell, hrooted]
  rw [hrooted] at htwalk
  cases hr : base.rooted with
  | true =>
      have hway : base.way = base.names.reverse.map .into := by simp [Place.way, hb.climbs hr]
      rw [hr, hway] at hbwalk
      rw [hr] at htwalk
      obtain ⟨way, hdiff, hwalk⟩ := difference_names hnames target.way ⟨true, 0, []⟩
      refine ⟨way, by simpa [difference, hway] using hdiff, ?_, ?_⟩
      · intro step hstep
        exact (mem_of_difference hdiff hstep).imp_right .inr
      · rwa [hbwalk, htwalk] at hwalk
  | false =>
      rw [hr] at hbwalk htwalk
      rw [← target.walk_opening] at htwalk
      by_cases hempty : base.way = []
      · have hopening : base.opening = [.here] := if_pos hempty
        rw [hempty] at hbwalk
        obtain ⟨way, hdiff, hwalk⟩ := difference_here target.opening_ne_nil ⟨false, 0, []⟩
        refine ⟨way, by rwa [hopening], fun step hstep => ?_, ?_⟩
        · rcases mem_of_difference hdiff hstep with hstep | hstep
          · exact (Place.mem_way_of_mem_opening hstep).imp_right .inl
          · exact .inr (.inr hstep)
        · rw [← hbwalk]
          exact hwalk.trans htwalk
      · have hopening : base.opening = base.way := if_neg hempty
        -- Both begin with the climbs of `base`, and behind them `base` has names only.
        obtain ⟨rest, hrest⟩ := target.exists_opening_eq hclimbs
        obtain ⟨way, hdiff, hwalk⟩ := difference_names hnames rest
          (Step.walk ⟨false, 0, []⟩ (List.replicate base.climbs .up))
        rw [Place.way, Step.walk_append] at hbwalk
        rw [hbwalk, ← Step.walk_append, ← hrest, htwalk] at hwalk
        refine ⟨way, ?_, fun step hstep => ?_, hwalk⟩
        · rw [if_neg (by decide), if_neg (by decide), hopening, hrest, Place.way, difference_append, hdiff]
        · rcases mem_of_difference hdiff hstep with hstep | hstep
          · have hmem : step ∈ target.opening := by simp [hrest, hstep]
            exact (Place.mem_way_of_mem_opening hmem).imp_right .inl
          · exact .inr (.inr hstep)

/-- A directory that can be told from `base` by the texts alone: it is absolute, or both are not and `base`
climbs no further. -/
def Visible (target base : String) : Prop :=
  isAbsolute target = true ∨
    isAbsolute base = false ∧ (place base.toList).climbs ≤ (place target.toList).climbs

instance (target base : String) : Decidable (Visible target base) :=
  inferInstanceAs (Decidable (_ ∨ _ ∧ _))

/-- What can be told is told, and leads there. -/
theorem exists_seenFrom {target base : String} (ht : Canonical target) (hb : Canonical base)
    (hvisible : Visible target base) :
    ∃ way, seenFrom? target base = some way ∧ Plain way ∧
      (place base.toList).follow (place way.toList) = place target.toList := by
  unfold seenFrom?
  split
  · rename_i hsame
    rw [isAbsolute_eq_rooted, isAbsolute_eq_rooted] at hsame
    have hclimbs : (place base.toList).climbs ≤ (place target.toList).climbs := by
      rcases hvisible with habsolute | ⟨-, hle⟩
      · rw [isAbsolute_eq_rooted, hsame] at habsolute
        rw [(regular_place base.toList).climbs habsolute]
        exact Nat.zero_le _
      · exact hle
    obtain ⟨way, hdiff, hmem, hwalk⟩ :=
      exists_difference (regular_place target.toList) (regular_place base.toList) hclimbs hsame
    rw [← ht.toList_eq, ← hb.toList_eq] at hdiff
    have hwritten : ∀ step ∈ way, step.Written := by
      intro step hstep
      rcases hmem step hstep with hstep | rfl | rfl
      · exact Place.written_of_mem_way ht.plain hstep
      · trivial
      · trivial
    refine ⟨String.ofList (Step.textOf way), by rw [hdiff]; rfl, ?_, ?_⟩
    · rw [Plain, String.toList_ofList]
      exact Step.backslash_not_mem_textOf hwritten
    · rw [String.toList_ofList, Step.follow_textOf hwritten, hwalk]
  · rename_i hdiffer
    have htarget : isAbsolute target = true := by
      rcases hvisible with habsolute | ⟨hbase, -⟩
      · exact habsolute
      · simpa [hbase] using hdiffer
    refine ⟨target, if_pos htarget, ht.plain, Place.follow_rooted _ ?_⟩
    rwa [isAbsolute_eq_rooted] at htarget

theorem plain_rebase (rel source destination : String) : Plain (rebase rel source destination) := by
  unfold rebase
  dsimp only
  split
  · exact plain_normalize _
  · split <;> exact plain_normalize _

theorem join_normalize {base rel : String} (hb : Plain base) (hr : Plain rel) :
    join (normalize base) rel = join base rel := by
  have hn := plain_normalize base
  apply (canonical_join hn hr).eq_of_place_eq (canonical_join hb hr)
  rw [place_join hn hr, place_join hb hr, place_normalize hb]

theorem join_normalize_right {base rel : String} (hb : Plain base) (hr : Plain rel) :
    join base (normalize rel) = join base rel := by
  have hn := plain_normalize rel
  apply (canonical_join hb hn).eq_of_place_eq (canonical_join hb hr)
  rw [place_join hb hn, place_join hb hr, place_normalize hr]

theorem visible_normalize_iff {base : String} (hb : Plain base) (target : String) :
    Visible target (normalize base) ↔ Visible target base := by
  simp only [Visible, isAbsolute_eq_rooted, place_normalize hb]

/-- A directory that is rebased is still the directory that was meant, if it can be told. -/
theorem join_rebase {rel source destination : String} (hrel : Plain rel) (hs : Plain source)
    (hd : Plain destination) (hvisible : Visible (join source rel) destination) :
    join destination (rebase rel source destination) = join source rel := by
  have hplain := plain_rebase rel source destination
  apply (canonical_join hd hplain).eq_of_place_eq (canonical_join hs hrel)
  rw [place_join hd hplain]
  unfold rebase
  dsimp only
  split
  · rename_i hsame
    have hplace := (normalize_eq_normalize_iff hs hd).mp hsame
    rw [place_normalize hrel, place_join hs hrel, hplace]
  · obtain ⟨way, hway, hplainWay, hfollow⟩ := exists_seenFrom (canonical_join hs hrel)
      (canonical_normalize hd) ((visible_normalize_iff hd _).mpr hvisible)
    rw [join_normalize hs hrel, hway]
    simp only
    rw [map_slashed hplainWay, String.ofList_toList, place_normalize hplainWay]
    rwa [place_normalize hd] at hfollow

end ConfigChain.Path

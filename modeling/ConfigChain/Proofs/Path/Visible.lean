import ConfigChain.Proofs.Path.Rebasing

/-! # Which directories can be told from another one

A path leads from one directory to another exactly when the second one is visible from the first one, and then
`rebase` finds such a path. For what is not visible it keeps the path as it was written, with one exception:
a directory that lies straight above is lost, and `rebase` climbs from it instead of to it. -/

namespace ConfigChain.Path

/-! ## What a path can lead to -/

/-- Whatever a path leads to is visible from where it begins. -/
theorem visible_join {base way : String} (hb : Plain base) (hway : Plain way) :
    Visible (join base way) base := by
  rw [Visible, isAbsolute_eq_rooted, isAbsolute_eq_rooted, place_join hb hway, Place.rooted_follow]
  cases hw : (place way.toList).rooted with
  | true => exact .inl (by simp)
  | false =>
      cases hr : (place base.toList).rooted with
      | true => exact .inl (by simp)
      | false =>
          rw [(regular_place _).follow_eq hw, hr, if_neg (by decide)]
          exact .inr ⟨rfl, Nat.le_add_right _ _⟩

/-! ## What is not visible -/

/-- A path that climbs, and then goes nowhere. -/
def OnlyClimbs (p : String) : Prop :=
  isAbsolute p = false ∧ 0 < (place p.toList).climbs ∧ (place p.toList).names = []

instance (p : String) : Decidable (OnlyClimbs p) := inferInstanceAs (Decidable (_ ∧ _ ∧ _))

/-- The path that climbs so many directories. -/
def climbing (n : Nat) : String := String.ofList (Place.spell ⟨false, n, []⟩)

theorem toList_climbing {n : Nat} (h : 0 < n) :
    (climbing n).toList = Step.textOf (List.replicate n .up) := by
  have hne : n ≠ 0 := Nat.ne_of_gt h
  simp [climbing, Place.spell, Place.route, Step.textOf, Step.text, hne]

theorem canonical_climbing (n : Nat) : Canonical (climbing n) := by
  have hregular : Place.Regular ⟨false, n, []⟩ := ⟨by simp, by simp⟩
  refine hregular.canonical ?_ String.toList_ofList
  rw [Plain, climbing, String.toList_ofList]
  exact Place.backslash_not_mem_spell (by simp)

/-- A place that does not only climb is written with a step behind its climbs. -/
theorem Place.exists_opening_cons {p : Place} (h : ¬ (0 < p.climbs ∧ p.names = [])) :
    ∃ step rest, p.opening = List.replicate p.climbs .up ++ step :: rest ∧ step ≠ .up := by
  cases hnames : p.names.reverse with
  | nil =>
      rw [List.reverse_eq_nil_iff] at hnames
      have hclimbs : p.climbs = 0 := by
        rcases Nat.eq_zero_or_pos p.climbs with hzero | hpos
        · exact hzero
        · exact absurd ⟨hpos, hnames⟩ h
      exact ⟨.here, [], by simp [opening, way, hclimbs, hnames], by decide⟩
  | cons name names =>
      exact ⟨.into name, names.map .into, by simp [opening, way, hnames], by simp⟩

/-- Where `base` climbs further than `target`, the difference exists only if `target` does nothing but climb, and
then it climbs on, from `base`. -/
theorem difference_of_climbs_lt {target base : Place} (ht : target.Regular) (hb : base.Regular)
    (hroot : target.rooted = false) (hroot' : base.rooted = false) (hclimbs : target.climbs < base.climbs) :
    difference true (steps target.spell) (steps base.spell) =
      if 0 < target.climbs ∧ target.names = [] then
        some (List.replicate (base.climbs + base.names.length - target.climbs) .up)
      else none := by
  obtain ⟨n, hn⟩ := Nat.exists_eq_add_of_lt hclimbs
  obtain ⟨rest, hbase, hlength⟩ : ∃ rest, base.opening = List.replicate target.climbs .up ++ .up :: rest ∧
      rest.length = n + base.names.length := by
    refine ⟨List.replicate n .up ++ base.names.reverse.map .into, ?_, by simp⟩
    have hway : base.way = List.replicate target.climbs .up ++
        .up :: (List.replicate n .up ++ base.names.reverse.map .into) := by
      rw [Place.way, hn, Nat.add_assoc, ← List.replicate_append_replicate, List.replicate_succ]
      simp
    rw [Place.opening, hway]
    exact if_neg (by simp)
  rw [ht.steps_spell, hb.steps_spell, hroot, hroot', if_neg (by decide), if_neg (by decide), hbase]
  split
  · rename_i honly
    have htarget : target.opening = List.replicate target.climbs .up ++ [] := by
      have hpos : target.climbs ≠ 0 := Nat.ne_of_gt honly.1
      simp [Place.opening, Place.way, honly.2, hpos]
    have hsize : (Step.up :: rest).length = base.climbs + base.names.length - target.climbs := by
      rw [List.length_cons, hlength]
      omega
    rw [htarget, difference_append, difference_nil, hsize]
  · rename_i honly
    obtain ⟨step, steps, htarget, hstep⟩ := Place.exists_opening_cons honly
    rw [htarget, difference_append]
    simp [difference, hstep]

/-- What is seen of a directory that is not visible. -/
theorem seenFrom?_of_not_visible {target base : String} (ht : Canonical target) (hb : Canonical base)
    (h : ¬ Visible target base) :
    seenFrom? target base = if OnlyClimbs target ∧ isAbsolute base = false then
        some (climbing ((place base.toList).climbs + (place base.toList).names.length -
          (place target.toList).climbs))
      else none := by
  obtain ⟨htarget, hclimbs⟩ := not_or.mp h
  rw [Bool.not_eq_true] at htarget
  unfold seenFrom?
  cases hbase : isAbsolute base with
  | true => simp [htarget]
  | false =>
      have hlt : (place target.toList).climbs < (place base.toList).climbs := by
        simpa [hbase] using hclimbs
      have hdiff := difference_of_climbs_lt (regular_place target.toList) (regular_place base.toList)
        (by rwa [← isAbsolute_eq_rooted]) (by rwa [← isAbsolute_eq_rooted]) hlt
      rw [← ht.toList_eq, ← hb.toList_eq] at hdiff
      rw [htarget, if_pos rfl, hdiff]
      by_cases honly : 0 < (place target.toList).climbs ∧ (place target.toList).names = []
      · have hpos : 0 < (place base.toList).climbs + (place base.toList).names.length -
            (place target.toList).climbs := by omega
        rw [if_pos honly, if_pos ⟨⟨htarget, honly⟩, rfl⟩, Option.map_some, ← Step.textOf,
          ← toList_climbing hpos, String.ofList_toList]
      · rw [if_neg honly, if_neg fun hboth => honly hboth.1.2, Option.map_none]

/-! ## Rebased directories -/

/-- What `rebase` answers leads to the directory that was meant exactly when anything does, and that is when the
directory is visible. Of what is not visible a directory straight above is lost, and other paths are kept. -/
theorem rebase_leads {rel source destination : String} (hrel : Plain rel) (hs : Plain source)
    (hd : Plain destination) :
    (join destination (rebase rel source destination) = join source rel ↔
      Visible (join source rel) destination) ∧
    (Visible (join source rel) destination ↔
      ∃ way, Plain way ∧ join destination way = join source rel) ∧
    (¬ Visible (join source rel) destination →
      rebase rel source destination = if OnlyClimbs (join source rel) ∧ isAbsolute destination = false then
          climbing ((place destination.toList).climbs + (place destination.toList).names.length -
            (place (join source rel).toList).climbs)
        else normalize rel) := by
  have hvisible {way : String} (hway : Plain way) (h : join destination way = join source rel) :
      Visible (join source rel) destination := h ▸ visible_join hd hway
  refine ⟨⟨hvisible (plain_rebase rel source destination), join_rebase hrel hs hd⟩, ?_, ?_⟩
  · constructor
    · exact fun h => ⟨_, plain_rebase rel source destination, join_rebase hrel hs hd h⟩
    · rintro ⟨way, hway, h⟩
      exact hvisible hway h
  · intro h
    have hne : normalize source ≠ normalize destination := by
      intro hsame
      refine h (hvisible hrel ?_)
      rw [← join_normalize hd hrel, ← hsame, join_normalize hs hrel]
    have hseen := seenFrom?_of_not_visible (canonical_join hs hrel) (canonical_normalize hd)
      (mt (visible_normalize_iff hd _).mp h)
    rw [isAbsolute_eq_rooted (normalize destination), place_normalize hd, ← isAbsolute_eq_rooted] at hseen
    unfold rebase
    simp only [if_neg hne, join_normalize hs hrel, hseen]
    by_cases honly : OnlyClimbs (join source rel) ∧ isAbsolute destination = false
    · have hcanonical := canonical_climbing ((place destination.toList).climbs +
        (place destination.toList).names.length - (place (join source rel).toList).climbs)
      rw [if_pos honly, if_pos honly]
      simp only [map_slashed hcanonical.plain, String.ofList_toList]
      exact hcanonical
    · rw [if_neg honly, if_neg honly]

/-- From two directories above, a directory above is lost. Behind a climb in which the two agree, all is visible. -/
theorem rebase_leads_outside :
    (Visible (join "." "../../shared") "../a" ∧
      join "../a" (rebase "../../shared" "." "../a") = "../../shared") ∧
    (¬ Visible (join ".." "lib/") "../../a" ∧ rebase "lib/" ".." "../../a" = "lib" ∧
      ∀ way, Plain way → join "../../a" way ≠ "../lib") ∧
    ¬ Visible (join "a" "../..") "../../b" ∧ rebase "../.." "a" "../../b" = "../.." := by
  have hseen := rebase_leads (show Plain "../../shared" by decide) (show Plain "." by decide)
    (show Plain "../a" by decide)
  have hkept := rebase_leads (show Plain "lib/" by decide) (show Plain ".." by decide)
    (show Plain "../../a" by decide)
  have hlost := rebase_leads (show Plain "../.." by decide) (show Plain "a" by decide)
    (show Plain "../../b" by decide)
  have hjoin : join "." "../../shared" = "../../shared" ∧ join ".." "lib/" = "../lib" := by decide
  refine ⟨⟨by decide, (hseen.1.mpr (by decide)).trans hjoin.1⟩, ⟨by decide, ?_, ?_⟩, by decide, ?_⟩
  · exact (hkept.2.2 (by decide)).trans (by decide)
  · intro way hway heq
    exact absurd (hkept.2.1.mpr ⟨way, hway, heq.trans hjoin.2.symm⟩) (by decide)
  · exact (hlost.2.2 (by decide)).trans (by decide)

/-- A base directory straight above becomes another one: neither is it reached, which from two directories above
it cannot be, nor is it kept as it was written. -/
theorem rebase_loses_parent :
    join "a" "../.." = ".." ∧ (∀ way, Plain way → join "../.." way ≠ "..") ∧
      rebase "../.." "a" "../.." = ".." ∧ join "../.." ".." = "../../.." ∧ normalize "../.." = "../.." := by
  refine ⟨by decide, fun way hway heq => ?_, by decide, by decide, by decide⟩
  have hvisible := visible_join (show Plain "../.." by decide) hway
  rw [heq] at hvisible
  exact absurd hvisible (by decide)

end ConfigChain.Path

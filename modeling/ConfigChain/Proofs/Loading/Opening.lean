import ConfigChain.Proofs.Loading.Depth

/-! # The file that is opened inside

Settling a file opens at most one other. Whether the recursion goes on is a matter of that file alone, and
the marks of the files that are open already only keep candidates from being opened. -/

namespace ConfigChain

namespace Memory

variable {source : Source} {m base : Memory} {key candidate : String} {d : Declaration}

/-- Settling a file that declares `d` makes the loading open a candidate for what it extends. -/
structure Opens (source : Source) (m : Memory) (key : String) (d : Declaration) (candidate : String) :
    Prop where
  next : m.next? source key d = some candidate
  new : m.known? candidate = none
  unsettled : m.get? candidate = none

/-! ## Opened files -/

theorem exists_written_of_next? (h : m.next? source key d = some candidate) :
    ∃ written ∈ source.resolver (Path.directory key) d.referenceText,
      Path.normalize written = candidate := by
  unfold next? target? at h
  split at h
  · cases h
  · exact List.mem_map.mp (List.mem_of_find?_eq_some h)

theorem decides_of_next? (h : m.next? source key d = some candidate) :
    m.decides source candidate = true := by
  unfold next? target? at h
  split at h
  · cases h
  · exact List.find?_some h

theorem Opens.canonical (h : m.Opens source key d candidate) :
    Path.Canonical (Path.normalize candidate) := by
  obtain ⟨written, -, rfl⟩ := exists_written_of_next? h.next
  exact Path.canonical_normalize_normalize written

theorem Opens.get?_normalize (h : m.Opens source key d candidate) :
    m.get? (Path.normalize candidate) = none := by
  obtain ⟨written, -, rfl⟩ := exists_written_of_next? h.next
  exact (m.get?_normalize (Path.plain_normalize written)).trans h.unsettled

theorem Opens.exists_declared (h : m.Opens source key d candidate) :
    ∃ d', source.declared (Path.normalize candidate) = .ok d' := by
  have hdecides := decides_of_next? h.next
  simp only [decides, h.new, h.unsettled, Option.isSome_none, Bool.false_or] at hdecides
  exact (Source.isOk_iff _).mp hdecides

theorem Opens.unique {other : String} (h : m.Opens source key d candidate)
    (h' : m.Opens source key d other) : candidate = other :=
  Option.some.inj (h.next.symm.trans h'.next)

theorem Opens.load_eq (h : m.Opens source key d candidate) {d' : Declaration}
    (hd : source.declared (Path.normalize candidate) = .ok d') (depth : Nat) :
    load source (depth + 1) m candidate =
      m.resolve (load source depth) source (Path.normalize candidate) d' := by
  have hcanonical : Path.normalize (Path.normalize candidate) = Path.normalize candidate := h.canonical
  rw [load_of_ok h.get?_normalize hd, hcanonical]

/-- A file is settled unless the file that it opens is not. -/
theorem resolve_unfinished_iff (source : Source) (depth : Nat) (m : Memory) (key : String)
    (d : Declaration) :
    (m.resolve (load source (depth + 1)) source key d).2 = .unfinished ↔
      ∃ candidate d', (m.set key .pending).Opens source key d candidate ∧
        source.declared (Path.normalize candidate) = .ok d' ∧
        ((m.set key .pending).resolve (load source depth) source (Path.normalize candidate) d').2 =
          .unfinished := by
  rw [resolve_eq]
  generalize m.set key .pending = m
  constructor
  · intro h
    cases hnext : m.next? source key d with
    | none => simp [hnext, settleOver, settle] at h
    | some candidate =>
        cases hentry : m.known? candidate with
        | some e => cases e <;> simp [hnext, settleOver, hentry, settle] at h
        | none =>
            cases hget : m.get? candidate with
            | some s =>
                obtain ⟨written, -, rfl⟩ := exists_written_of_next? hnext
                have hload := load_of_get?
                  ((m.get?_normalize (Path.plain_normalize written)).trans hget) source depth
                simp [hnext, settleOver, hentry, hload, settle] at h
            | none =>
                have hopens : m.Opens source key d candidate := ⟨hnext, hentry, hget⟩
                obtain ⟨d', hd'⟩ := hopens.exists_declared
                refine ⟨candidate, d', hopens, hd', ?_⟩
                simp only [hnext, settleOver, hentry, hopens.load_eq hd'] at h
                generalize m.resolve (load source depth) source _ d' = result at h ⊢
                obtain ⟨m', outcome⟩ := result
                cases outcome with
                | loaded s => simp [settle] at h
                | failed fault => simp [settle] at h
                | unfinished => rfl
  · rintro ⟨candidate, d', hopens, hd', h⟩
    simp only [hopens.next, settleOver, hopens.new, hopens.load_eq hd']
    generalize m.resolve (load source depth) source _ d' = result at h ⊢
    obtain ⟨m', outcome⟩ := result
    cases h
    rfl

/-- Without depth nothing is settled that makes the loading open a file. -/
theorem resolve_zero_of_opens (h : (m.set key .pending).Opens source key d candidate) :
    (m.resolve (load source 0) source key d).2 = .unfinished := by
  have hnext := h.next
  have hnew := h.new
  unfold next? target? at hnext
  unfold resolve base
  generalize m.set key .pending = m at hnext hnew
  by_cases href : d.referenceText = ""
  · simp [href] at hnext
  · simp only [href, if_false] at hnext ⊢
    cases hcandidates : source.resolver (Path.directory key) d.referenceText with
    | nil => simp [hcandidates] at hnext
    | cons written rest =>
        -- The first candidate is either the one that is opened, or one of which nothing is known.
        have hfirst : m.known? (Path.normalize written) = none := by
          rw [hcandidates, List.map_cons] at hnext
          by_cases hdecides : m.decides source (Path.normalize written)
          · rw [List.find?_cons_of_pos hdecides] at hnext
            rw [Option.some.inj hnext, hnew]
          · simp only [decides, Bool.or_eq_true, not_or, Bool.not_eq_true, Option.isSome_eq_false_iff,
              Option.isNone_iff_eq_none] at hdecides
            exact hdecides.1.1
        simp [search, hfirst, load]

/-! ## Marks -/

/-- The files `marks` have been marked over what `base` knows. -/
structure Marked (source : Source) (base : Memory) (marks : List String) (m : Memory) : Prop where
  known?_eq : ∀ key, m.known? key = if key ∈ marks then some .pending else base.known? key
  canonical : ∀ key ∈ marks, Path.Canonical key
  isOk : ∀ key ∈ marks, (source.declared key).isOk = true
  unsettled : ∀ key ∈ marks, base.get? key = none

theorem Marked.nil (source : Source) (base : Memory) : Marked source base [] base := by
  refine ⟨?_, ?_, ?_, ?_⟩ <;> simp

theorem Marked.cons {marks : List String} (h : Marked source base marks m)
    (hcanonical : Path.Canonical key) (hkey : (source.declared key).isOk = true)
    (hunsettled : base.get? key = none) : Marked source base (key :: marks) (m.set key .pending) := by
  refine ⟨?_, List.forall_mem_cons.mpr ⟨hcanonical, h.canonical⟩,
    List.forall_mem_cons.mpr ⟨hkey, h.isOk⟩,
    List.forall_mem_cons.mpr ⟨hunsettled, h.unsettled⟩⟩
  intro k
  rw [known?_set, h.known?_eq]
  by_cases hk : k = key <;> simp [hk]

theorem Marked.get?_eq {marks : List String} (h : Marked source base marks m) (path : String) :
    m.get? path = base.get? path := by
  by_cases hmem : Path.normalize path ∈ marks
  · have hcanonical : Path.normalize (Path.normalize path) = Path.normalize path := h.canonical _ hmem
    have hunsettled := h.unsettled _ hmem
    rw [get?, hcanonical] at hunsettled
    rw [get?, h.known?_eq, if_pos hmem, get?, hunsettled]
  · rw [get?, h.known?_eq, if_neg hmem, get?]

theorem Marked.decides_eq {marks : List String} (h : Marked source base marks m) (path : String) :
    m.decides source path = base.decides source path := by
  rw [decides, decides, h.get?_eq, h.known?_eq]
  by_cases hmem : path ∈ marks
  · have hcanonical : Path.normalize path = path := h.canonical path hmem
    simp [hcanonical, h.isOk path hmem]
  · rw [if_neg hmem]

/-- Marks do not change which file comes next, they only keep it from being opened. -/
theorem Marked.opens_iff {marks : List String} (h : Marked source base marks m) :
    m.Opens source key d candidate ↔ base.Opens source key d candidate ∧ candidate ∉ marks := by
  have hdecides : m.decides source = base.decides source := funext h.decides_eq
  have hnext : m.next? source key d = base.next? source key d := by
    rw [next?, next?, target?, target?, hdecides]
  by_cases hmem : candidate ∈ marks
  · refine iff_of_false (fun hopens => ?_) (fun hopens => hopens.2 hmem)
    have hnew := hopens.new
    rw [h.known?_eq, if_pos hmem] at hnew
    cases hnew
  · have hentry : m.known? candidate = base.known? candidate := by rw [h.known?_eq, if_neg hmem]
    constructor
    · rintro ⟨hn, hnew, hunsettled⟩
      exact ⟨⟨hnext ▸ hn, hentry ▸ hnew, h.get?_eq candidate ▸ hunsettled⟩, hmem⟩
    · rintro ⟨⟨hn, hnew, hunsettled⟩, -⟩
      exact ⟨hnext.trans hn, hentry.trans hnew, (h.get?_eq candidate).trans hunsettled⟩

end Memory

end ConfigChain

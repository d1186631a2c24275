import ConfigChain.Proofs.Loading.Circles

/-! # Faults of extended files

A file that is extended and cannot be loaded leaves no trace: neither whether it is missing or malformed, nor
where among the candidates it stands, makes a difference. Only the requested file itself can be the reason
why a load fails. -/

namespace ConfigChain

namespace Source

/-- What is wrong with the file at `key`. -/
inductive Faults (source : Source) (key : String) : LoadFault → Prop where
  | unreadable {fault} (hread : source.read key = .error fault) :
      Faults source key (.unreadable (Path.beneath source.root key) fault)
  | malformed {text fault} (hread : source.read key = .ok text)
      (hparse : Declaration.parse text = .error fault) :
      Faults source key (.malformed (Path.beneath source.root key) fault)

/-- The file at `key` has the same text in both sources, or can be loaded from neither. -/
def AlikeAt (source other : Source) (key : String) : Prop :=
  (∃ text, source.read key = .ok text ∧ other.read key = .ok text) ∨
    (∃ fault, source.Faults key fault) ∧ ∃ fault, other.Faults key fault

/-- Sources with the same resolver whose files are alike. -/
structure Alike (source other : Source) : Prop where
  resolver : other.resolver = source.resolver
  files : ∀ key, Path.Canonical key → AlikeAt source other key

variable {source other : Source} {key : String}

theorem declared_eq_error_iff (hkey : Path.Canonical key) (fault : LoadFault) :
    source.declared key = .error fault ↔ source.Faults key fault := by
  have hnormalize : Path.normalize key = key := hkey
  unfold declared
  rw [hnormalize]
  constructor
  · intro h
    split at h
    · rename_i hread
      cases h
      exact .unreadable hread
    · rename_i hread
      split at h
      · rename_i hparse
        cases h
        exact .malformed hread hparse
      · cases h
  · rintro (hread | ⟨hread, hparse⟩)
    · rw [hread]
    · simp only [hread, hparse]

theorem AlikeAt.symm (h : AlikeAt source other key) : AlikeAt other source key :=
  h.imp (fun ⟨text, hread, hread'⟩ => ⟨text, hread', hread⟩) And.symm

theorem AlikeAt.declared_ok (h : AlikeAt source other key) (hkey : Path.Canonical key) {d : Declaration}
    (hd : source.declared key = .ok d) : other.declared key = .ok d := by
  rcases h with ⟨text, hread, hread'⟩ | ⟨⟨fault, hfault⟩, -⟩
  · unfold declared at hd ⊢
    rw [hread] at hd
    rw [hread']
    dsimp only at hd ⊢
    split at hd
    · cases hd
    · exact hd
  · rw [(declared_eq_error_iff hkey fault).mpr hfault] at hd
    cases hd

theorem AlikeAt.exists_declared_error (h : AlikeAt source other key) (hkey : Path.Canonical key)
    {fault : LoadFault} (hd : source.declared key = .error fault) :
    ∃ fault', other.declared key = .error fault' := by
  cases hd' : other.declared key with
  | error fault' => exact ⟨fault', rfl⟩
  | ok d =>
      rw [h.symm.declared_ok hkey hd'] at hd
      cases hd

end Source

namespace Memory

variable {source other : Source} {m m' : Memory} {path : String} {s : Settings}

/-! ## What a run comes to -/

/-- The recursion of a run ends, with this result. -/
def Returns (run : Nat → Memory × Outcome) (result : Memory × Outcome) : Prop :=
  result.2 ≠ .unfinished ∧ ∃ depth, ∀ more, depth ≤ more → run more = result

theorem ends_iff_exists_returns {run : Nat → Memory × Outcome} :
    Ends run ↔ ∃ result, Returns run result :=
  ⟨fun ⟨depth, result, hfinished, hrun⟩ => ⟨result, hfinished, depth, hrun⟩,
    fun ⟨result, hfinished, depth, hrun⟩ => ⟨depth, result, hfinished, hrun⟩⟩

theorem returns_of_load {depth : Nat} {result : Memory × Outcome} (h : load source depth m path = result)
    (hfinished : result.2 ≠ .unfinished) : Returns (fun depth => load source depth m path) result := by
  subst h
  exact ⟨hfinished, depth, fun more hmore => refines_load source hmore m path hfinished⟩

theorem Returns.unique {run : Nat → Memory × Outcome} {result result' : Memory × Outcome}
    (h : Returns run result) (h' : Returns run result') : result = result' := by
  obtain ⟨-, depth, hrun⟩ := h
  obtain ⟨-, depth', hrun'⟩ := h'
  rw [← hrun (max depth depth') (Nat.le_max_left _ _), hrun' _ (Nat.le_max_right _ _)]

theorem Returns.eq_succ {run : Nat → Memory × Outcome} {result : Memory × Outcome}
    (h : Returns run result) : ∃ depth, run (depth + 1) = result := by
  obtain ⟨-, depth, hrun⟩ := h
  exact ⟨depth, hrun (depth + 1) (Nat.le_succ depth)⟩

/-! ## Files that cannot be loaded leave no trace -/

/-- Two ways of loading that differ in the faults at most: they leave the same memory, and a search that goes
on with the outcome sees the same. -/
def Agree (load load' : Memory → String → Memory × Outcome) : Prop :=
  ∀ m path, Path.Plain path →
    (load m path).1 = (load' m path).1 ∧ (load m path).2.toSearch = (load' m path).2.toSearch

section

variable {load load' : Memory → String → Memory × Outcome}

theorem Agree.search (h : Agree load load') (m : Memory) (candidates : List String) :
    m.search load candidates = m.search load' candidates := by
  induction candidates generalizing m with
  | nil => rfl
  | cons candidate rest ih =>
      cases hentry : m.known? (Path.normalize candidate) with
      | some e => cases e <;> simp only [Memory.search, hentry]
      | none =>
          obtain ⟨hmemory, houtcome⟩ := h m (Path.normalize candidate) (Path.plain_normalize candidate)
          simp only [Memory.search, hentry]
          generalize load m (Path.normalize candidate) = result at hmemory houtcome
          generalize load' m (Path.normalize candidate) = result' at hmemory houtcome
          obtain ⟨after, outcome⟩ := result
          obtain ⟨after', outcome'⟩ := result'
          obtain rfl : after = after' := hmemory
          -- What a search sees of an outcome tells how it goes on.
          cases outcome <;> cases outcome' <;> cases houtcome
          · rfl
          · exact ih after
          · rfl

theorem Agree.resolve (h : Agree load load') (hresolver : other.resolver = source.resolver) (m : Memory)
    (key : String) (d : Declaration) :
    m.resolve load source key d = m.resolve load' other key d := by
  have hbase : (m.set key .pending).base load source key d =
      (m.set key .pending).base load' other key d := by
    unfold Memory.base
    rw [hresolver, h.search]
  unfold Memory.resolve
  rw [hbase]

end

theorem agree_load (h : source.Alike other) (depth : Nat) : Agree (load source depth) (load other depth) := by
  induction depth with
  | zero => exact fun m path _ => ⟨rfl, rfl⟩
  | succ depth ih =>
      intro m path hpath
      have hkey : Path.Canonical (Path.normalize path) := Path.canonical_normalize hpath
      have halike := h.files _ hkey
      cases hget : m.get? (Path.normalize path) with
      | some s =>
          rw [load_of_get? hget, load_of_get? hget]
          exact ⟨rfl, rfl⟩
      | none =>
          cases hd : source.declared (Path.normalize path) with
          | error fault =>
              obtain ⟨fault', hd'⟩ := halike.exists_declared_error hkey hd
              rw [load_of_error hget hd, load_of_error hget hd']
              exact ⟨rfl, rfl⟩
          | ok d =>
              rw [load_of_ok hget hd, load_of_ok hget (halike.declared_ok hkey hd),
                ih.resolve h.resolver]
              exact ⟨rfl, rfl⟩

theorem returns_loaded_of_agree (h : ∀ depth, Agree (load source depth) (load other depth))
    (hpath : Path.Plain path) (hreturns : Returns (fun depth => load source depth m path) (m', .loaded s)) :
    Returns (fun depth => load other depth m path) (m', .loaded s) := by
  obtain ⟨-, depth, hrun⟩ := hreturns
  refine ⟨by simp, depth, fun more hmore => ?_⟩
  have hmore' : load source more m path = (m', .loaded s) := hrun more hmore
  obtain ⟨hmemory, houtcome⟩ := h more m path hpath
  rw [hmore'] at hmemory houtcome
  dsimp only at hmemory houtcome ⊢
  generalize load other more m path = result at hmemory houtcome
  obtain ⟨after, outcome⟩ := result
  subst hmemory
  cases outcome <;> cases houtcome
  rfl

/-! ## Loads that fail -/

/-- A load that comes to an end, and fails only by what is wrong with the requested file. -/
structure FailsByItself (source : Source) (m : Memory) (path : String) : Prop where
  ends : ∃ result, Returns (fun depth => load source depth m path) result
  failed_iff : ∀ m' fault, Returns (fun depth => load source depth m path) (m', .failed fault) ↔
    m' = m ∧ m.get? path = none ∧ source.Faults (Path.normalize path) fault

theorem failed_of_load (hpath : Path.Plain path) {depth : Nat} {fault : LoadFault}
    (h : load source (depth + 1) m path = (m', .failed fault)) :
    m' = m ∧ m.get? path = none ∧ source.Faults (Path.normalize path) fault := by
  rw [← get?_normalize m hpath]
  cases hget : m.get? (Path.normalize path) with
  | some s =>
      rw [load_of_get? hget] at h
      cases h
  | none =>
      cases hd : source.declared (Path.normalize path) with
      | error fault' =>
          rw [load_of_error hget hd] at h
          cases h
          exact ⟨rfl, rfl, (Source.declared_eq_error_iff (Path.canonical_normalize hpath) fault).mp hd⟩
      | ok d =>
          rw [load_of_ok hget hd] at h
          exact absurd (congrArg Prod.snd h) (resolve_ne_failed _ source m _ d fault)

theorem failsByItself (hfin : source.readable.Finite) (hplain : source.PlainCandidates) (m : Memory)
    (hpath : Path.Plain path) : FailsByItself source m path := by
  refine ⟨ends_iff_exists_returns.mp ?_, fun m' fault => ⟨fun hreturns => ?_, ?_⟩⟩
  · exact (ends_load_iff_not_entangled hfin m path).mpr fun d _ _ =>
      not_entangled_of_plainCandidates hplain m _ d
  · obtain ⟨depth, hrun⟩ := hreturns.eq_succ
    exact failed_of_load hpath hrun
  · rintro ⟨rfl, hget, hfault⟩
    rw [← get?_normalize m' hpath] at hget
    have hd := (Source.declared_eq_error_iff (Path.canonical_normalize hpath) fault).mpr hfault
    exact returns_of_load (load_of_error hget hd 0) (by simp)

/-- Where files are alike, a load ends in both sources, with the same settings and the same memory if with
any: what is wrong with an extended file is not told. A load fails, and leaves the memory as it was, exactly
when the requested file is not settled and there is something wrong with the file itself, which is what it
answers. -/
theorem load_of_alike (halike : source.Alike other) (hplain : source.PlainCandidates)
    (hfin : source.readable.Finite) (hfin' : other.readable.Finite) (m : Memory)
    (hpath : Path.Plain path) :
    (∀ m' s, Returns (fun depth => load source depth m path) (m', .loaded s) ↔
      Returns (fun depth => load other depth m path) (m', .loaded s)) ∧
      FailsByItself source m path ∧ FailsByItself other m path := by
  have hplain' : other.PlainCandidates := by
    intro dir reference
    rw [halike.resolver]
    exact hplain dir reference
  have hagree := agree_load halike
  have hagree' : ∀ depth, Agree (load other depth) (load source depth) := fun depth m path hpath =>
    (hagree depth m path hpath).imp Eq.symm Eq.symm
  refine ⟨fun m' s => ⟨?_, ?_⟩, failsByItself hfin hplain m hpath, failsByItself hfin' hplain' m hpath⟩
  · exact returns_loaded_of_agree hagree hpath
  · exact returns_loaded_of_agree hagree' hpath

/-- Of the first two candidates each is malformed in one source and missing in the other; the third one is
found in both. -/
theorem load_of_alike_spoiled :
    let files := Source.linked [("a.json", "x"), ("b.json", "")]
      fun _ _ => ["first.json", "second.json", "b.json"]
    let spoiled (key : String) : Source :=
      { files with read := fun path => if path = key then .ok [] else files.read path }
    let source := spoiled "first.json"
    let other := spoiled "second.json"
    let b := Settings.inherit "b.json" { reference := some "" } none
    let a := Settings.inherit "a.json" { reference := some "x" } (some b)
    let m : Memory := ⟨[("a.json", .settled a), ("b.json", .settled b)]⟩
    source.Alike other ∧ source.PlainCandidates ∧ source.readable.Finite ∧ other.readable.Finite ∧
      Path.Plain "./a.json" ∧ Path.Plain "first.json" ∧
      Returns (fun depth => load source depth empty "./a.json") (m, .loaded a) ∧
      Returns (fun depth => load other depth empty "./a.json") (m, .loaded a) ∧
      Returns (fun depth => load other depth m "first.json")
        (m, .failed (.unreadable "./first.json" .notFound)) := by
  intro files spoiled source other b a m
  have halike : source.Alike other := by
    refine ⟨rfl, fun key hkey => ?_⟩
    by_cases hfirst : key = "first.json"
    · subst hfirst
      exact .inr ⟨⟨_, (Source.declared_eq_error_iff hkey _).mp rfl⟩,
        ⟨_, (Source.declared_eq_error_iff hkey _).mp rfl⟩⟩
    · by_cases hsecond : key = "second.json"
      · subst hsecond
        exact .inr ⟨⟨_, (Source.declared_eq_error_iff hkey _).mp rfl⟩,
          ⟨_, (Source.declared_eq_error_iff hkey _).mp rfl⟩⟩
      · have hread : source.read key = files.read key := if_neg hfirst
        have hread' : other.read key = files.read key := if_neg hsecond
        cases hfile : files.read key with
        | ok text => exact .inl ⟨text, hread.trans hfile, hread'.trans hfile⟩
        | error fault =>
            exact .inr ⟨⟨_, .unreadable (hread.trans hfile)⟩, ⟨_, .unreadable (hread'.trans hfile)⟩⟩
  have hplain : source.PlainCandidates := by
    intro dir reference
    change ∀ candidate ∈ ["first.json", "second.json", "b.json"], Path.Plain candidate
    decide
  have hfin (key : String) : (spoiled key).readable.Finite := by
    have hfiles : files.readable.Finite := Source.finite_readable_linked _ _
    refine (hfiles.insert key).subset ?_
    rintro path ⟨hcanonical, text, hread⟩
    by_cases hpath : path = key
    · exact .inl hpath
    · exact .inr ⟨hcanonical, text, (if_neg hpath).symm.trans hread⟩
  have hpath : Path.Plain "./a.json" := by decide
  have hfirst : Path.Plain "first.json" := by decide
  have hrun : load source 3 empty "./a.json" = (m, .loaded a) := by decide +kernel
  have hreturns := returns_of_load hrun (by simp)
  obtain ⟨hsame, -, -⟩ := load_of_alike halike hplain (hfin _) (hfin _) empty hpath
  obtain ⟨-, -, hfails⟩ := load_of_alike halike hplain (hfin _) (hfin _) m hfirst
  have hfault : other.Faults "first.json" (.unreadable "./first.json" .notFound) :=
    (Source.declared_eq_error_iff (by decide) _).mp (by decide +kernel)
  refine ⟨halike, hplain, hfin _, hfin _, hpath, hfirst, hreturns, (hsame m a).mp hreturns, ?_⟩
  exact (hfails.failed_iff m _).mpr ⟨rfl, by decide, hfault⟩

end Memory

end ConfigChain

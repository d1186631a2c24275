import ConfigChain.Loading
import ConfigChain.Proofs.Path.Canonical
import Mathlib.Data.Set.Finite.Basic

/-! # One step of loading

To load a file is to mark it, to settle the file that it extends, and to settle the file itself. Which file
comes next depends on the memory and the texts of the files alone; `resolve_eq` says this for every
resolver, and nothing after it unfolds the search. -/

namespace ConfigChain

namespace Source

/-- What the file at a path declares, or why it cannot be loaded. -/
def declared (source : Source) (path : String) : Except LoadFault Declaration :=
  match source.read path with
  | .error fault => .error (.unreadable (Path.beneath source.root path) fault)
  | .ok text =>
    match Declaration.parse text with
    | .error fault => .error (.malformed (Path.beneath source.root (Path.normalize path)) fault)
    | .ok d => .ok d

/-- The canonical paths at which something can be read. -/
def readable (source : Source) : Set String :=
  {path | Path.Canonical path ∧ ∃ text, source.read path = .ok text}

theorem isOk_iff {ε α : Type} (result : Except ε α) : result.isOk = true ↔ ∃ a, result = .ok a := by
  cases result <;> simp [Except.isOk, Except.toBool]

theorem isOk_of_eq {ε α : Type} {result : Except ε α} {a : α} (h : result = .ok a) :
    result.isOk = true :=
  (isOk_iff result).mpr ⟨a, h⟩

theorem exists_read_of_isOk {source : Source} {path : String} (h : (source.declared path).isOk = true) :
    ∃ text, source.read path = .ok text := by
  obtain ⟨d, hd⟩ := (isOk_iff _).mp h
  unfold declared at hd
  split at hd
  · cases hd
  · rename_i text htext
    exact ⟨text, htext⟩

theorem mem_readable_of_isOk {source : Source} {path : String} (hcanonical : Path.Canonical path)
    (h : (source.declared path).isOk = true) : path ∈ source.readable :=
  ⟨hcanonical, exists_read_of_isOk h⟩

end Source

/-- What a search answers that ended with loading a file. -/
def Outcome.toSearch : Outcome → Search
  | .loaded s => .found s
  | .failed _ => .nothing
  | .unfinished => .unfinished

namespace Memory

/-! ## What is known of a file -/

@[simp] theorem known?_empty (key : String) : empty.known? key = none := rfl

theorem lookup_filter_ne {key other : String} (h : other ≠ key) (known : List (String × Entry)) :
    (known.filter fun entry => entry.1 ≠ key).lookup other = known.lookup other := by
  induction known with
  | nil => rfl
  | cons entry known ih =>
      obtain ⟨name, e⟩ := entry
      by_cases hname : name = key
      · subst hname
        simpa [List.filter_cons, List.lookup_cons, beq_eq_false_iff_ne.mpr h] using ih
      · simp only [List.filter_cons, hname, ne_eq, not_false_eq_true, decide_true, if_true,
          List.lookup_cons]
        rw [← ih]

theorem known?_set (m : Memory) (key other : String) (e : Entry) :
    known? (m.set key e) other = if other = key then some e else m.known? other := by
  by_cases h : other = key
  · simp [known?, set, h]
  · simpa [known?, set, h, List.lookup_cons, beq_eq_false_iff_ne.mpr h] using
      lookup_filter_ne h m.entries

@[simp] theorem known?_set_self (m : Memory) (key : String) (e : Entry) :
    known? (m.set key e) key = some e := by
  rw [known?_set, if_pos rfl]

theorem known?_set_of_ne (m : Memory) {key other : String} (h : other ≠ key) (e : Entry) :
    known? (m.set key e) other = m.known? other := by
  rw [known?_set, if_neg h]

theorem get?_eq_some_iff (m : Memory) (path : String) (s : Settings) :
    m.get? path = some s ↔ m.known? (Path.normalize path) = some (.settled s) := by
  unfold get?
  split <;> simp_all

theorem get?_normalize (m : Memory) {path : String} (h : Path.Plain path) :
    m.get? (Path.normalize path) = m.get? path := by
  rw [get?, get?, Path.canonical_normalize h]

/-! ## Which file comes next -/

/-- Whether a candidate, written as `normalize` answers it, ends the search for the extended file:
something is known of it, or it can be loaded. -/
def decides (m : Memory) (source : Source) (candidate : String) : Bool :=
  (m.known? candidate).isSome || (m.get? candidate).isSome ||
    (source.declared (Path.normalize candidate)).isOk

/-- The candidate that ends the search. -/
def target? (m : Memory) (source : Source) (candidates : List String) : Option String :=
  (candidates.map Path.normalize).find? (m.decides source)

/-- The candidate that ends the search for what the file at `key` extends. -/
def next? (m : Memory) (source : Source) (key : String) (d : Declaration) : Option String :=
  if d.referenceText = "" then none
  else m.target? source (source.resolver (Path.directory key) d.referenceText)

/-- The file at `key` over the settings `base`. -/
def settle (m : Memory) (key : String) (d : Declaration) (base : Option Settings) : Memory × Outcome :=
  (m.set key (.settled (.inherit key d base)), .loaded (.inherit key d base))

/-- The file at `key` once the candidate that decides what it extends is known: the candidate is taken from
the memory, dropped if it is marked, or else loaded. -/
def settleOver (m : Memory) (load : Memory → String → Memory × Outcome) (key : String)
    (d : Declaration) : Option String → Memory × Outcome
  | none => m.settle key d none
  | some candidate =>
    match m.known? candidate with
    | some (.settled s) => m.settle key d (some s)
    | some .pending => m.settle key d none
    | none =>
      match load m candidate with
      | (m', .loaded s) => m'.settle key d (some s)
      | (m', .failed _) => m'.settle key d none
      | (m', .unfinished) => (m', .unfinished)

/-! ## Equations of loading -/

theorem load_of_get? {m : Memory} {path : String} {s : Settings}
    (h : m.get? (Path.normalize path) = some s) (source : Source) (depth : Nat) :
    load source (depth + 1) m path = (m, .loaded s) := by
  simp [load, h]

theorem load_of_error {source : Source} {m : Memory} {path : String} {fault : LoadFault}
    (hm : m.get? (Path.normalize path) = none)
    (h : source.declared (Path.normalize path) = .error fault) (depth : Nat) :
    load source (depth + 1) m path = (m, .failed fault) := by
  unfold Source.declared at h
  cases hread : source.read (Path.normalize path) with
  | error unread =>
      rw [hread] at h
      cases h
      simp only [load, hm, hread]
  | ok text =>
      cases hparse : Declaration.parse text with
      | error broken =>
          simp only [hread, hparse] at h
          cases h
          simp only [load, hm, hread, parseWith, hparse]
      | ok d => simp [hread, hparse] at h

theorem load_of_ok {source : Source} {m : Memory} {path : String} {d : Declaration}
    (hm : m.get? (Path.normalize path) = none)
    (h : source.declared (Path.normalize path) = .ok d) (depth : Nat) :
    load source (depth + 1) m path =
      m.resolve (load source depth) source (Path.normalize (Path.normalize path)) d := by
  unfold Source.declared at h
  cases hread : source.read (Path.normalize path) with
  | error unread => simp [hread] at h
  | ok text =>
      cases hparse : Declaration.parse text with
      | error broken => simp [hread, hparse] at h
      | ok d' =>
          simp only [hread, hparse] at h
          cases h
          simp only [load, hm, hread, parseWith, hparse]

/-- A file that is settled as soon as its base is found cannot fail any more. -/
theorem resolve_ne_failed (load : Memory → String → Memory × Outcome) (source : Source) (m : Memory)
    (key : String) (d : Declaration) (fault : LoadFault) :
    (m.resolve load source key d).2 ≠ .failed fault := by
  unfold resolve
  split <;> simp

theorem load_ne_failed {source : Source} {m : Memory} {candidate : String}
    (hplain : Path.Plain candidate) (hnone : m.known? candidate = none)
    (h : m.decides source candidate = true) (depth : Nat) (fault : LoadFault) :
    (load source (depth + 1) m candidate).2 ≠ .failed fault := by
  cases hget : m.get? candidate with
  | some s =>
      rw [load_of_get? ((m.get?_normalize hplain).trans hget)]
      simp
  | none =>
      cases hd : source.declared (Path.normalize candidate) with
      | error _ => simp [decides, hnone, hget, hd, Except.isOk, Except.toBool] at h
      | ok d =>
          rw [load_of_ok ((m.get?_normalize hplain).trans hget) hd]
          exact resolve_ne_failed _ _ _ _ _ _

/-- A candidate that does not end the search leaves no trace. -/
theorem search_cons_of_not_decides {source : Source} {m : Memory} {candidate : String}
    (h : m.decides source (Path.normalize candidate) = false) (depth : Nat) (rest : List String) :
    m.search (load source (depth + 1)) (candidate :: rest) = m.search (load source (depth + 1)) rest := by
  simp only [decides, Bool.or_eq_false_iff, Option.isSome_eq_false_iff, Option.isNone_iff_eq_none] at h
  obtain ⟨⟨hentry, hget⟩, hok⟩ := h
  cases hd : source.declared (Path.normalize (Path.normalize candidate)) with
  | ok d => simp [hd, Except.isOk, Except.toBool] at hok
  | error fault =>
      have hload := load_of_error ((m.get?_normalize (Path.plain_normalize candidate)).trans hget) hd depth
      simp [search, hentry, hload]

theorem search_cons_of_decides {source : Source} {m : Memory} {candidate : String}
    (h : m.decides source (Path.normalize candidate) = true)
    (hnone : m.known? (Path.normalize candidate) = none) (depth : Nat) (rest : List String) :
    m.search (load source (depth + 1)) (candidate :: rest) =
      ((load source (depth + 1) m (Path.normalize candidate)).1,
        (load source (depth + 1) m (Path.normalize candidate)).2.toSearch) := by
  have hfailed := load_ne_failed (Path.plain_normalize candidate) hnone h depth
  simp only [search, hnone]
  generalize load source (depth + 1) m (Path.normalize candidate) = result at hfailed
  obtain ⟨m', outcome⟩ := result
  cases outcome with
  | loaded s => rfl
  | failed fault => exact absurd rfl (hfailed fault)
  | unfinished => rfl

/-- A search ends with the first candidate that decides it, and the ones before it do not matter. -/
theorem search_eq (source : Source) (depth : Nat) (m : Memory) (candidates : List String) :
    m.search (load source (depth + 1)) candidates =
      match m.target? source candidates with
      | none => (m, .nothing)
      | some candidate =>
        match m.known? candidate with
        | some (.settled s) => (m, .found s)
        | some .pending => (m, .nothing)
        | none =>
          ((load source (depth + 1) m candidate).1, (load source (depth + 1) m candidate).2.toSearch) := by
  induction candidates with
  | nil => rfl
  | cons candidate rest ih =>
      cases hdec : m.decides source (Path.normalize candidate) with
      | false =>
          have htarget : m.target? source (candidate :: rest) = m.target? source rest := by
            rw [target?, List.map_cons, List.find?_cons_of_neg (by simp [hdec]), target?]
          rw [search_cons_of_not_decides hdec, ih, htarget]
      | true =>
          have htarget : m.target? source (candidate :: rest) = some (Path.normalize candidate) := by
            rw [target?, List.map_cons, List.find?_cons_of_pos hdec]
          rw [htarget]
          cases hentry : m.known? (Path.normalize candidate) with
          | none => simp only [search_cons_of_decides hdec hentry, hentry]
          | some e => cases e <;> simp only [search, hentry]

/-- How the file at `key` is settled: it is marked first, and then the one candidate that decides what it
extends matters. -/
theorem resolve_eq (source : Source) (depth : Nat) (m : Memory) (key : String) (d : Declaration) :
    m.resolve (load source (depth + 1)) source key d =
      (m.set key .pending).settleOver (load source (depth + 1)) key d
        ((m.set key .pending).next? source key d) := by
  unfold resolve base next?
  by_cases href : d.referenceText = ""
  · simp only [href, if_true]
    rfl
  · simp only [href, if_false, search_eq]
    cases (m.set key .pending).target? source
        (source.resolver (Path.directory key) d.referenceText) with
    | none => rfl
    | some candidate =>
        simp only [settleOver]
        cases known? (m.set key .pending) candidate with
        | some e => cases e <;> rfl
        | none =>
            simp only
            generalize load source (depth + 1) (m.set key .pending) candidate = result
            obtain ⟨m', outcome⟩ := result
            cases outcome <;> rfl

end Memory

end ConfigChain

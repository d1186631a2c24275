import ConfigChain.Proofs.Loading.Succession
import Mathlib.Data.List.Find

/-! # Files open one inside the other

Loading a file opens the files that it needs one inside the other, and settles them from the innermost
one outwards. `Nests` describes how far this goes from a memory, and `exists_load_of_nests` what it leaves. -/

namespace ConfigChain

namespace Memory

/-- Loading the first of some files opens all of them, each inside the one before, and the innermost one
extends the settings `base`. -/
inductive Nests (source : Source) : Memory → List String → Option Settings → Prop where
  | alone {m key} (hnew : m.known? key = none)
      (hlast : ∀ next, source.Leads key next → next = key ∨ m.known? next = some .pending) :
      Nests source m [key] none
  | settled {m key next s} (hnew : m.known? key = none) (hnext : source.Leads key next)
      (hs : m.known? next = some (.settled s)) : Nests source m [key] (some s)
  | inside {m key next rest base} (hnew : m.known? key = none) (hnext : source.Leads key next)
      (hrest : Nests source (m.set key .pending) (next :: rest) base) :
      Nests source m (key :: next :: rest) base

/-- Whatever is known is known of files that can be loaded. -/
def KnowsLoadable (m : Memory) (source : Source) : Prop :=
  ∀ key e, m.known? key = some e → (source.declared key).isOk = true

variable {source : Source} {m : Memory}

theorem knowsLoadable_empty (source : Source) : empty.KnowsLoadable source := by
  intro key e h
  cases h

theorem KnowsLoadable.set (h : m.KnowsLoadable source) {key : String}
    (hkey : (source.declared key).isOk = true) (e : Entry) : (m.set key e).KnowsLoadable source := by
  intro other e' he
  rw [known?_set] at he
  split at he
  · rename_i heq
    exact heq ▸ hkey
  · exact h other e' he

/-! ## The next file -/

theorem decides_eq (hm : m.KnowsLoadable source) {candidate : String}
    (hcanonical : Path.Canonical candidate) :
    m.decides source candidate = (source.declared candidate).isOk := by
  have hnormalize : Path.normalize candidate = candidate := hcanonical
  rw [decides, get?, hnormalize]
  cases hentry : m.known? candidate with
  | none => simp
  | some e => simp [hm candidate e hentry]

/-- Where every known file can be loaded, the memory has no say in which file comes next. -/
theorem next?_eq_successor? (hplain : source.PlainCandidates) (hm : m.KnowsLoadable source)
    {key : String} {d : Declaration} (hd : source.declared key = .ok d) :
    m.next? source key d = source.successor? key := by
  simp only [next?, target?, Source.successor?, hd]
  split
  · rfl
  · refine List.find?_congr fun candidate hmem => ?_
    obtain ⟨written, hwritten, rfl⟩ := List.mem_map.mp hmem
    exact decides_eq hm (Path.canonical_normalize (hplain _ _ written hwritten))

/-! ## What is left -/

/-- What `m'` knows, and the settings `s` that it ends with, when the files `keys` were opened from `m`,
each inside the one before, over the settings `base`. -/
structure Settles (source : Source) (m : Memory) (keys : List String) (base : Option Settings)
    (m' : Memory) (s : Option Settings) : Prop where
  chained_eq : Settings.chained base (source.files keys) = s
  inside : ∀ key back, key :: back <:+ keys →
    ∃ t, Settings.chained base (source.files (key :: back)) = some t ∧ m'.known? key = some (.settled t)
  outside : ∀ key, key ∉ keys → m'.known? key = m.known? key

theorem Settles.nil (source : Source) (m : Memory) (base : Option Settings) :
    Settles source m [] base m base := by
  refine ⟨rfl, ?_, fun _ _ => rfl⟩
  intro key back h
  exact absurd (List.suffix_nil.mp h) (List.cons_ne_nil key back)

/-- One more file around those that are settled. -/
theorem Settles.cons {key : String} {d : Declaration} {keys : List String} {base s : Option Settings}
    {m' : Memory} (h : Settles source (m.set key .pending) keys base m' s)
    (hd : source.declared key = .ok d) (hnew : key ∉ keys) :
    Settles source m (key :: keys) base (m'.settle key d s).1 (some (Settings.inherit key d s)) := by
  have hchained : Settings.chained base (source.files (key :: keys)) =
      some (Settings.inherit key d s) := by
    rw [Source.files_cons hd, Settings.chained, h.chained_eq]
  refine ⟨hchained, ?_, ?_⟩
  · intro k back hsuffix
    rcases List.suffix_cons_iff.mp hsuffix with heq | hsuffix
    · obtain ⟨rfl, rfl⟩ := List.cons.inj heq
      exact ⟨_, hchained, known?_set_self _ _ _⟩
    · obtain ⟨t, ht, hentry⟩ := h.inside k back hsuffix
      have hk : k ≠ key := fun heq => hnew (heq ▸ hsuffix.subset List.mem_cons_self)
      exact ⟨t, ht, (known?_set_of_ne _ hk _).trans hentry⟩
  · intro k hk
    obtain ⟨hne, hk⟩ := List.ne_and_not_mem_of_not_mem_cons hk
    calc known? (m'.settle key d s).1 k
        = m'.known? k := known?_set_of_ne _ hne _
      _ = known? (m.set key .pending) k := h.outside k hk
      _ = m.known? k := known?_set_of_ne _ hne _

/-! ## Loading nested files -/

theorem Nests.ne_nil {keys : List String} {base : Option Settings} (h : Nests source m keys base) :
    keys ≠ [] := by
  cases h <;> simp

theorem Nests.not_known {keys : List String} {base : Option Settings} (h : Nests source m keys base) :
    ∀ key ∈ keys, m.known? key = none := by
  induction h with
  | alone hnew _ => simpa using hnew
  | settled hnew _ _ => simpa using hnew
  | @inside m key next rest base hnew _ hrest ih =>
      refine List.forall_mem_cons.mpr ⟨hnew, fun k hk => ?_⟩
      have hne : k ≠ key := by
        rintro rfl
        simpa using ih k hk
      rw [← ih k hk, known?_set_of_ne _ hne]

theorem Nests.not_mem {key : String} {keys : List String} {base : Option Settings}
    (h : Nests source (m.set key .pending) keys base) : key ∉ keys := by
  intro hmem
  simpa using h.not_known key hmem

/-- A file of which nothing is known is marked, then the file that it extends is looked for. -/
theorem load_of_new (hplain : source.PlainCandidates) (hm : m.KnowsLoadable source)
    {path key : String} {d : Declaration} (hpath : Path.normalize path = key)
    (hcanonical : Path.Canonical key) (hnew : m.known? key = none)
    (hd : source.declared key = .ok d) (depth : Nat) :
    load source (depth + 2) m path =
      (m.set key .pending).settleOver (load source (depth + 1)) key d (source.successor? key) := by
  have hnormalize : Path.normalize key = key := hcanonical
  have hget : m.get? (Path.normalize path) = none := by
    simp [get?, hpath, hnormalize, hnew]
  have hmarked := hm.set (Source.isOk_of_eq hd) .pending
  rw [load_of_ok hget (hpath ▸ hd), hpath, hnormalize, resolve_eq,
    next?_eq_successor? hplain hmarked hd]

/-- The run of a load, from the innermost file outwards. -/
theorem exists_load_of_nests (hplain : source.PlainCandidates) {key : String} {rest : List String}
    {base : Option Settings} (h : Nests source m (key :: rest) base) (hm : m.KnowsLoadable source)
    (hcanonical : Path.Canonical key) (hkey : (source.declared key).isOk = true) :
    ∃ m' s, Settles source m (key :: rest) base m' (some s) ∧
      ∀ path depth, Path.normalize path = key → (key :: rest).length < depth →
        load source depth m path = (m', .loaded s) := by
  induction rest generalizing m key with
  | nil =>
      obtain ⟨d, hd⟩ := (Source.isOk_iff _).mp hkey
      have hsettles := (Settles.nil source (m.set key .pending) base).cons hd List.not_mem_nil
      refine ⟨_, _, hsettles, fun path depth hpath hdepth => ?_⟩
      -- One depth is for the file, one for the candidates that cannot be loaded.
      obtain ⟨depth, rfl⟩ : ∃ n, depth = n + 2 := ⟨depth - 2, by simp at hdepth; omega⟩
      cases h with
      | alone hnew hlast =>
          rw [load_of_new hplain hm hpath hcanonical hnew hd]
          cases hnext : source.successor? key with
          | none => rfl
          | some next =>
              have hpending : known? (m.set key .pending) next = some .pending := by
                rcases hlast next hnext with rfl | hpending
                · exact known?_set_self _ _ _
                · rw [known?_set, hpending, ite_self]
              simp only [settleOver, hpending]
              rfl
      | @settled _ _ next s hnew hnext hs =>
          have hne : next ≠ key := by
            rintro rfl
            simp [hnew] at hs
          have hentry : known? (m.set key .pending) next = some (.settled s) := by
            rw [known?_set_of_ne _ hne, hs]
          have hsucc : source.successor? key = some next := hnext
          rw [load_of_new hplain hm hpath hcanonical hnew hd]
          simp only [hsucc, settleOver, hentry]
          rfl
  | cons next rest ih =>
      obtain ⟨d, hd⟩ := (Source.isOk_iff _).mp hkey
      cases h with
      | inside hnew hnext hrest =>
          have hsucc : source.successor? key = some next := hnext
          have hnone : known? (m.set key .pending) next = none := hrest.not_known next List.mem_cons_self
          obtain ⟨m', s, hsettles, hload⟩ := ih hrest (hm.set hkey .pending)
            (Source.canonical_of_leads hplain hnext) (Source.isOk_of_leads hnext)
          refine ⟨_, _, hsettles.cons hd hrest.not_mem, fun path depth hpath hdepth => ?_⟩
          obtain ⟨depth, rfl⟩ : ∃ n, depth = n + 2 := ⟨depth - 2, by simp at hdepth; omega⟩
          have hinner := hload next (depth + 1) (Source.canonical_of_leads hplain hnext)
            (by simp only [List.length_cons] at hdepth ⊢; omega)
          rw [load_of_new hplain hm hpath hcanonical hnew hd]
          simp only [hsucc, settleOver, hnone, hinner]
          rfl

end Memory

end ConfigChain

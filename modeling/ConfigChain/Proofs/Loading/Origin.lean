import ConfigChain.Proofs.Loading.Session

/-! # Where settings come from

Whatever is settled was made from texts that requests read or brought along, one laid over the other. A text
that is read is settled under a canonical path; only a text that is brought along can be settled under
another one. -/

namespace ConfigChain

namespace Settings

/-- Settings of the file at `key` that are the fold of some files, `key` first, each of which declares
something that `Offered` allows. -/
def Layered (Offered : String → Declaration → Prop) (key : String) (s : Settings) : Prop :=
  ∃ d rest, (∀ file ∈ (key, d) :: rest, Offered file.1 file.2) ∧ chained none ((key, d) :: rest) = some s

variable {Offered : String → Declaration → Prop} {key : String} {d : Declaration} {s : Settings}

theorem Layered.offered (h : s.Layered Offered key) : ∃ d base, Offered key d ∧ inherit key d base = s := by
  obtain ⟨d, rest, hoffered, hs⟩ := h
  exact ⟨d, chained none rest, hoffered _ List.mem_cons_self, Option.some.inj hs⟩

theorem layered_alone (hd : Offered key d) : (inherit key d none).Layered Offered key :=
  ⟨d, [], by simpa using hd, rfl⟩

theorem Layered.over {k : String} (h : s.Layered Offered k) (hd : Offered key d) :
    (inherit key d (some s)).Layered Offered key := by
  obtain ⟨d', rest, hoffered, hs⟩ := h
  refine ⟨d, (k, d') :: rest, List.forall_mem_cons.mpr ⟨hd, hoffered⟩, ?_⟩
  rw [chained, hs]

end Settings

/-- What a source says of the file at a canonical path. -/
inductive Source.Offers (source : Source) : String → Declaration → Prop where
  | read {path text d} (hpath : Path.Plain path) (hread : source.read path = .ok text)
      (hparse : Declaration.parse text = .ok d) : Source.Offers source (Path.normalize path) d

theorem Source.Offers.canonical {source : Source} {key : String} {d : Declaration}
    (h : source.Offers key d) : Path.Canonical key := by
  cases h with
  | read hpath _ _ => exact Path.canonical_normalize hpath

namespace Memory

section

variable {Offered : String → Declaration → Prop} {touched : Set String} {m m' : Memory}
variable {key : String} {d : Declaration} {s : Settings}

/-! ## What a run adds -/

/-- Every settled file is the fold of files that declare what is offered. -/
def Layered (Offered : String → Declaration → Prop) (m : Memory) : Prop :=
  ∀ key s, m.known? key = some (.settled s) → s.Layered Offered key

theorem layered_empty (Offered : String → Declaration → Prop) : empty.Layered Offered := by
  intro key s h
  cases h

/-- From `m` to `m'` only files in `touched` have changed, and what has been settled is layered. -/
structure Grows (Offered : String → Declaration → Prop) (touched : Set String) (m m' : Memory) :
    Prop where
  layered : m.Layered Offered → m'.Layered Offered
  outside : ∀ key, key ∉ touched → m'.known? key = m.known? key

theorem Grows.refl (m : Memory) : Grows Offered touched m m := ⟨id, fun _ _ => rfl⟩

theorem Grows.trans {m'' : Memory} (h : Grows Offered touched m m') (h' : Grows Offered touched m' m'') :
    Grows Offered touched m m'' :=
  ⟨fun hm => h'.layered (h.layered hm), fun key hkey => (h'.outside key hkey).trans (h.outside key hkey)⟩

theorem Grows.mono {more : Set String} (h : Grows Offered touched m m') (hmore : touched ⊆ more) :
    Grows Offered more m m' :=
  ⟨h.layered, fun key hkey => h.outside key fun hmem => hkey (hmore hmem)⟩

theorem grows_pending (hkey : key ∈ touched) (m : Memory) :
    Grows Offered touched m (m.set key .pending) := by
  refine ⟨fun hm other t ht => ?_, fun other hother => ?_⟩
  · rw [known?_set] at ht
    split at ht
    · cases ht
    · exact hm other t ht
  · exact known?_set_of_ne m (ne_of_mem_of_not_mem hkey hother).symm .pending

theorem Layered.set (hm : m.Layered Offered) (hs : s.Layered Offered key) :
    (m.set key (.settled s)).Layered Offered := by
  intro other t ht
  rw [known?_set] at ht
  split at ht
  · rename_i heq
    cases ht
    exact heq ▸ hs
  · exact hm other t ht

/-- The files that nested loads may change. -/
def canonicalKeys : Set String := {key | Path.Canonical key}

/-- Whatever `load` answers, it changes files at canonical paths only, and its settings are layered. -/
def Growing (Offered : String → Declaration → Prop) (load : Memory → String → Memory × Outcome) : Prop :=
  ∀ m path, Grows Offered canonicalKeys m (load m path).1 ∧
    (m.Layered Offered → ∀ s, (load m path).2 = .loaded s → ∃ key, s.Layered Offered key)

section

variable {load : Memory → String → Memory × Outcome}

theorem Growing.search (h : Growing Offered load) (m : Memory) (candidates : List String) :
    Grows Offered canonicalKeys m (m.search load candidates).1 ∧
      (m.Layered Offered → ∀ s, (m.search load candidates).2 = .found s →
        ∃ key, s.Layered Offered key) := by
  induction candidates generalizing m with
  | nil => exact ⟨.refl m, by simp [Memory.search]⟩
  | cons candidate rest ih =>
      cases hentry : m.known? (Path.normalize candidate) with
      | some e =>
          cases e with
          | pending => exact ⟨by simpa only [Memory.search, hentry] using .refl m, by simp [Memory.search, hentry]⟩
          | settled t =>
              simp only [Memory.search, hentry]
              refine ⟨.refl m, fun hm s hs => ?_⟩
              cases hs
              exact ⟨_, hm _ t hentry⟩
      | none =>
          obtain ⟨hgrows, hloaded⟩ := h m (Path.normalize candidate)
          simp only [Memory.search, hentry]
          generalize load m (Path.normalize candidate) = result at hgrows hloaded
          obtain ⟨m', outcome⟩ := result
          cases outcome with
          | loaded t =>
              refine ⟨hgrows, fun hm s hs => ?_⟩
              cases hs
              exact hloaded hm t rfl
          | failed fault =>
              obtain ⟨hrest, hfound⟩ := ih m'
              exact ⟨hgrows.trans hrest, fun hm => hfound (hgrows.layered hm)⟩
          | unfinished => exact ⟨hgrows, by simp⟩

theorem Growing.base (h : Growing Offered load) (source : Source) (m : Memory) (key : String)
    (d : Declaration) :
    Grows Offered canonicalKeys m (m.base load source key d).1 ∧
      (m.Layered Offered → ∀ s, (m.base load source key d).2 = .found s →
        ∃ key, s.Layered Offered key) := by
  unfold Memory.base
  split
  · exact ⟨.refl m, by simp⟩
  · exact h.search m _

theorem Growing.resolve (h : Growing Offered load) (source : Source) (m : Memory) (hd : Offered key d) :
    Grows Offered (insert key canonicalKeys) m (m.resolve load source key d).1 ∧
      (m.Layered Offered → ∀ s, (m.resolve load source key d).2 = .loaded s → s.Layered Offered key) := by
  have hkey : key ∈ insert key canonicalKeys := Set.mem_insert _ _
  have hmark : Grows Offered (insert key canonicalKeys) m (m.set key .pending) := grows_pending hkey m
  obtain ⟨hbase, hfound⟩ := h.base source (m.set key .pending) key d
  have hrun := hmark.trans (hbase.mono (Set.subset_insert key canonicalKeys))
  unfold Memory.resolve
  generalize (m.set key .pending).base load source key d = result at hrun hfound
  obtain ⟨m', found⟩ := result
  cases found with
  | found t =>
      have hlayered (hm : m.Layered Offered) : (Settings.inherit key d (some t)).Layered Offered key := by
        obtain ⟨k, hk⟩ := hfound (hmark.layered hm) t rfl
        exact hk.over hd
      refine ⟨⟨fun hm => ?_, fun other hother => ?_⟩, fun hm s hs => ?_⟩
      · exact (hrun.layered hm).set (hlayered hm)
      · exact (hrun.outside other hother).symm ▸
          known?_set_of_ne m' (ne_of_mem_of_not_mem hkey hother).symm _
      · exact Outcome.loaded.inj hs ▸ hlayered hm
  | nothing =>
      have hlayered : (Settings.inherit key d none).Layered Offered key := Settings.layered_alone hd
      refine ⟨⟨fun hm => ?_, fun other hother => ?_⟩, fun hm s hs => ?_⟩
      · exact (hrun.layered hm).set hlayered
      · exact (hrun.outside other hother).symm ▸
          known?_set_of_ne m' (ne_of_mem_of_not_mem hkey hother).symm _
      · exact Outcome.loaded.inj hs ▸ hlayered
  | unfinished => exact ⟨hrun, by simp⟩

end

theorem growing_load {source : Source} (hoffered : ∀ key d, source.Offers key d → Offered key d) (depth : Nat) :
    Growing Offered (load source depth) := by
  induction depth with
  | zero => exact fun m path => ⟨.refl m, by simp [load]⟩
  | succ depth ih =>
      intro m path
      rw [load]
      cases hget : m.get? (Path.normalize path) with
      | some t =>
          refine ⟨.refl m, fun hm s hs => ?_⟩
          cases hs
          exact ⟨_, hm _ t ((m.get?_eq_some_iff _ t).mp hget)⟩
      | none =>
          cases hread : source.read (Path.normalize path) with
          | error fault => exact ⟨.refl m, by simp⟩
          | ok text =>
              simp only [parseWith]
              cases hparse : Declaration.parse text with
              | error fault => exact ⟨.refl m, by simp⟩
              | ok d =>
                  have hoffers := Source.Offers.read (Path.plain_normalize path) hread hparse
                  obtain ⟨hgrows, hloaded⟩ := ih.resolve source m (hoffered _ d hoffers)
                  have hkeys : insert (Path.normalize (Path.normalize path)) canonicalKeys ⊆ canonicalKeys :=
                    Set.insert_subset hoffers.canonical subset_rfl
                  exact ⟨hgrows.mono hkeys, fun hm s hs => ⟨_, hloaded hm s hs⟩⟩

end

/-! ## What requests offer -/

namespace Request

/-- Where a request reads from. -/
def source : Request → Source
  | .load source _ _ => source
  | .parse source _ _ _ => source

/-- What a request may settle: the text that it brings along, and those that it reads. -/
inductive Offers : Request → String → Declaration → Prop where
  | read {r key d} (h : r.source.Offers key d) : Offers r key d
  | brought {source depth path text d} (hparse : Declaration.parse text = .ok d) :
      Offers (.parse source depth path text) (Path.normalize path) d

/-- The path under which a request settles the text that it brings along. -/
def place? : Request → Option String
  | .load _ _ _ => none
  | .parse _ _ path _ => some (Path.normalize path)

theorem Offers.canonical_or {r : Request} {key : String} {d : Declaration} (h : r.Offers key d) :
    Path.Canonical key ∨ r.place? = some key := by
  cases h with
  | read h => exact .inl h.canonical
  | brought _ => exact .inr rfl

theorem Offers.plain {r : Request} {key : String} {d : Declaration} (h : r.Offers key d) :
    Path.Plain key := by
  cases h with
  | read h => exact h.canonical.plain
  | brought _ => exact Path.plain_normalize _

/-- The files that a request may change. -/
def touched (r : Request) : Set String := {key | Path.Canonical key ∨ r.place? = some key}

end Request

variable {Offered : String → Declaration → Prop} {m m' : Memory}

/-- One request: what is settled by it is made from what it offers and what was settled before. -/
theorem grows_answer {r : Request} {outcome : Outcome}
    (hoffered : ∀ key d, r.Offers key d → Offered key d) (hanswer : r.answer m = (m', outcome)) :
    Grows Offered r.touched m m' ∧
      (m.Layered Offered → ∀ s, outcome = .loaded s → ∃ key, s.Layered Offered key) := by
  have hsource : ∀ key d, r.source.Offers key d → Offered key d := fun key d h => hoffered key d (.read h)
  obtain ⟨rfl, rfl⟩ : (r.answer m).1 = m' ∧ (r.answer m).2 = outcome := by simp [hanswer]
  cases r with
  | load source depth path =>
      obtain ⟨hgrows, hloaded⟩ := growing_load hsource depth m path
      exact ⟨hgrows.mono fun key hkey => .inl hkey, hloaded⟩
  | parse source depth path text =>
      simp only [Request.answer, parse, parseWith]
      cases hparse : Declaration.parse text with
      | error fault => exact ⟨.refl m, by simp⟩
      | ok d =>
          obtain ⟨hgrows, hloaded⟩ :=
            (growing_load hsource depth).resolve source m (hoffered _ d (.brought hparse))
          have htouched : insert (Path.normalize path) canonicalKeys ⊆
              (Request.parse source depth path text).touched :=
            Set.insert_subset (.inr rfl) fun key hkey => .inl hkey
          exact ⟨hgrows.mono htouched, fun hm s hs => ⟨_, hloaded hm s hs⟩⟩

/-- What some requests offer. -/
def Offering (requests : List (Request × Outcome)) (key : String) (d : Declaration) : Prop :=
  ∃ a ∈ requests, a.1.Offers key d

theorem Session.layered {answers : List (Request × Outcome)} (h : Session m answers m')
    (hm : m.Layered Offered) (hoffered : ∀ key d, Offering answers key d → Offered key d) :
    m'.Layered Offered := by
  induction h with
  | nil _ => exact hm
  | cons hanswer _ _ ih =>
      refine ih ((grows_answer (fun key d hd => ?_) hanswer).1.layered hm) fun key d hd => ?_
      · exact hoffered key d ⟨_, List.mem_cons_self, hd⟩
      · obtain ⟨a, ha, hd⟩ := hd
        exact hoffered key d ⟨a, List.mem_cons_of_mem _ ha, hd⟩

/-- After a session and one more request everything settled, and what the request is answered with, comes
from what has been offered. -/
theorem Session.layered_answer {earlier : List (Request × Outcome)} (h : Session empty earlier m)
    {r : Request} {outcome : Outcome} (hanswer : r.answer m = (m', outcome)) :
    m'.Layered (Offering ((r, outcome) :: earlier)) ∧
      ∀ s, outcome = .loaded s → ∃ key, s.Layered (Offering ((r, outcome) :: earlier)) key := by
  have hm : m.Layered (Offering ((r, outcome) :: earlier)) := by
    refine h.layered (layered_empty _) fun key d hd => ?_
    obtain ⟨a, ha, hd⟩ := hd
    exact ⟨a, List.mem_cons_of_mem _ ha, hd⟩
  have hoffered : ∀ key d, r.Offers key d → Offering ((r, outcome) :: earlier) key d :=
    fun key d hd => ⟨_, List.mem_cons_self, hd⟩
  obtain ⟨hgrows, hloaded⟩ := grows_answer hoffered hanswer
  exact ⟨hgrows.layered hm, hloaded hm⟩

end Memory

end ConfigChain

import ConfigChain.Proofs.Loading.Succession

/-! # Requests in turn

One memory answers many requests, each with files and a resolver of its own. Between requests nothing is
pending, and what has been settled stays as it is until a text is parsed in its place. -/

namespace ConfigChain

namespace Memory

variable {m m' : Memory} {key : String}

/-! ## Entries -/

/-- No file is known twice. -/
def Distinct (m : Memory) : Prop := (m.entries.map Prod.fst).Nodup

theorem distinct_empty : empty.Distinct := List.nodup_nil

theorem Distinct.set (h : m.Distinct) (key : String) (e : Entry) : (m.set key e).Distinct := by
  refine List.nodup_cons.mpr ⟨?_, h.sublist (List.filter_sublist.map Prod.fst)⟩
  intro hmem
  obtain ⟨known, hknown, hkey⟩ := List.mem_map.mp hmem
  have hne := (List.mem_filter.mp hknown).2
  simp [hkey] at hne

theorem Distinct.known?_eq_some_iff (h : m.Distinct) (key : String) (e : Entry) :
    m.known? key = some e ↔ (key, e) ∈ m.entries := by
  obtain ⟨entries⟩ := m
  change entries.lookup key = some e ↔ (key, e) ∈ entries
  induction entries with
  | nil => simp
  | cons known rest ih =>
      obtain ⟨name, e'⟩ := known
      obtain ⟨hnew, hrest⟩ := List.nodup_cons.mp h
      by_cases hkey : key = name
      · subst hkey
        have hnot : (key, e) ∉ rest := fun hmem => hnew (List.mem_map.mpr ⟨_, hmem, rfl⟩)
        simp [hnot, eq_comm]
      · simp [List.lookup_cons, beq_eq_false_iff_ne.mpr hkey, hkey, ih hrest]

/-- The files that are settled. -/
def settledKeys (m : Memory) : List String :=
  m.entries.filterMap fun known => match known.2 with
    | .settled _ => some known.1
    | .pending => none

theorem length_settledKeys (m : Memory) : m.settledKeys.length = m.size := by
  unfold settledKeys size
  induction m.entries with
  | nil => rfl
  | cons known rest ih =>
      obtain ⟨name, e⟩ := known
      cases e <;> simp [ih]

theorem mem_settledKeys_iff (m : Memory) (key : String) :
    key ∈ m.settledKeys ↔ ∃ s, (key, .settled s) ∈ m.entries := by
  simp only [settledKeys, List.mem_filterMap, Prod.exists]
  constructor
  · rintro ⟨name, e, hmem, heq⟩
    cases e with
    | pending => cases heq
    | settled s => exact ⟨s, Option.some.inj heq ▸ hmem⟩
  · rintro ⟨s, hmem⟩
    exact ⟨key, .settled s, hmem, rfl⟩

theorem Distinct.nodup_settledKeys (h : m.Distinct) : m.settledKeys.Nodup := by
  obtain ⟨entries⟩ := m
  induction entries with
  | nil => exact List.nodup_nil
  | cons known rest ih =>
      obtain ⟨name, e⟩ := known
      obtain ⟨hnew, hrest⟩ := List.nodup_cons.mp h
      cases e with
      | pending => exact ih hrest
      | settled s =>
          refine List.nodup_cons.mpr ⟨fun hmem => hnew ?_, ih hrest⟩
          obtain ⟨t, ht⟩ := (mem_settledKeys_iff ⟨rest⟩ name).mp hmem
          exact List.mem_map.mpr ⟨_, ht, rfl⟩

/-- Where every settled file is still settled, there are no fewer of them. -/
theorem Distinct.size_le (h : m.Distinct) (h' : m'.Distinct)
    (hkept : ∀ key s, m.known? key = some (.settled s) → ∃ t, m'.known? key = some (.settled t)) :
    m.size ≤ m'.size := by
  rw [← length_settledKeys, ← length_settledKeys]
  refine (List.subperm_of_subset h.nodup_settledKeys fun key hkey => ?_).length_le
  obtain ⟨s, hs⟩ := (m.mem_settledKeys_iff key).mp hkey
  obtain ⟨t, ht⟩ := hkept key s ((h.known?_eq_some_iff key _).mpr hs)
  exact (m'.mem_settledKeys_iff key).mpr ⟨t, (h'.known?_eq_some_iff key _).mp ht⟩

/-! ## What a run keeps -/

/-- What `m` knows to be settled, `m'` knows as well, and nothing new is pending in `m'`. -/
structure Keeps (m m' : Memory) : Prop where
  settled : ∀ key s, m.known? key = some (.settled s) → m'.known? key = some (.settled s)
  pending : ∀ key, m'.known? key = some .pending → m.known? key = some .pending
  distinct : m.Distinct → m'.Distinct

theorem Keeps.refl (m : Memory) : Keeps m m :=
  ⟨fun _ _ h => h, fun _ h => h, fun h => h⟩

theorem Keeps.trans {m'' : Memory} (h : Keeps m m') (h' : Keeps m' m'') : Keeps m m'' :=
  ⟨fun key s hs => h'.settled key s (h.settled key s hs),
    fun key hp => h.pending key (h'.pending key hp), fun hd => h'.distinct (h.distinct hd)⟩

/-- The file at `key` has been settled as `s`, and of all other files `m'` knows what `Keeps` says. -/
structure Settled (m : Memory) (key : String) (s : Settings) (m' : Memory) : Prop where
  known?_eq : m'.known? key = some (.settled s)
  settled : ∀ other t, other ≠ key → m.known? other = some (.settled t) →
    m'.known? other = some (.settled t)
  pending : ∀ other, m'.known? other = some .pending → m.known? other = some .pending
  distinct : m.Distinct → m'.Distinct

/-- A file of which no settings were known. -/
theorem Settled.keeps {s : Settings} (h : Settled m key s m')
    (hnew : ∀ t, m.known? key ≠ some (.settled t)) : Keeps m m' :=
  ⟨fun other t ht => h.settled other t (fun heq => hnew t (heq ▸ ht)) ht, h.pending, h.distinct⟩

/-- The mark that is set first is gone when the settings are known. -/
theorem Keeps.settle (h : Keeps (m.set key .pending) m') (s : Settings) :
    Settled m key s (m'.set key (.settled s)) := by
  refine ⟨known?_set_self _ _ _, ?_, ?_, fun hd => (h.distinct (hd.set key .pending)).set key _⟩
  · intro other t hne ht
    rw [known?_set_of_ne _ hne]
    exact h.settled other t ((known?_set_of_ne m hne .pending).trans ht)
  · intro other hp
    by_cases hne : other = key
    · rw [hne, known?_set_self] at hp
      cases hp
    · rw [known?_set_of_ne _ hne] at hp
      rw [← known?_set_of_ne m hne .pending]
      exact h.pending other hp

/-! ## Finished runs -/

/-- Whatever `load` finishes, it keeps what was settled. -/
def Keeping (load : Memory → String → Memory × Outcome) : Prop :=
  ∀ m path, (load m path).2 ≠ .unfinished → Keeps m (load m path).1

section

variable {load : Memory → String → Memory × Outcome}

theorem Keeping.search (h : Keeping load) (m : Memory) (candidates : List String)
    (hfinished : (m.search load candidates).2 ≠ .unfinished) :
    Keeps m (m.search load candidates).1 := by
  induction candidates generalizing m with
  | nil => exact .refl m
  | cons candidate rest ih =>
      cases hentry : m.known? (Path.normalize candidate) with
      | some e => cases e <;> simpa only [Memory.search, hentry] using Keeps.refl m
      | none =>
          have hload := h m (Path.normalize candidate)
          simp only [Memory.search, hentry] at hfinished ⊢
          generalize load m (Path.normalize candidate) = result at hfinished hload ⊢
          obtain ⟨m', outcome⟩ := result
          cases outcome with
          | loaded s => exact hload (by simp)
          | failed fault => exact (hload (by simp)).trans (ih m' hfinished)
          | unfinished => exact absurd rfl hfinished

theorem Keeping.resolve (h : Keeping load) (source : Source) (m : Memory) (key : String)
    (d : Declaration) (hfinished : (m.resolve load source key d).2 ≠ .unfinished) :
    ∃ s, (m.resolve load source key d).2 = .loaded s ∧
      Settled m key s (m.resolve load source key d).1 := by
  have hbase : ((m.set key .pending).base load source key d).2 ≠ .unfinished →
      Keeps (m.set key .pending) ((m.set key .pending).base load source key d).1 := by
    intro hfound
    unfold base at hfound ⊢
    split
    · exact .refl _
    · rename_i href
      rw [if_neg href] at hfound
      exact h.search _ _ hfound
  unfold Memory.resolve at hfinished ⊢
  generalize (m.set key .pending).base load source key d = result at hfinished hbase ⊢
  obtain ⟨m', found⟩ := result
  cases found with
  | found s => exact ⟨_, rfl, (hbase (by simp)).settle _⟩
  | nothing => exact ⟨_, rfl, (hbase (by simp)).settle _⟩
  | unfinished => exact absurd rfl hfinished

theorem Keeping.parseWith (h : Keeping load) (source : Source) (m : Memory) (path : String)
    (text : Bytes) (hfinished : (m.parseWith load source path text).2 ≠ .unfinished) :
    (∃ fault, m.parseWith load source path text = (m, .failed fault)) ∨
      ∃ s, (m.parseWith load source path text).2 = .loaded s ∧
        Settled m (Path.normalize path) s (m.parseWith load source path text).1 := by
  unfold Memory.parseWith at hfinished ⊢
  cases hparse : Declaration.parse text with
  | error fault => exact .inl ⟨_, rfl⟩
  | ok d =>
      rw [hparse] at hfinished
      exact .inr (h.resolve source m (Path.normalize path) d hfinished)

end

theorem unsettled_of_get? {path : String} (h : m.get? path = none) (s : Settings) :
    m.known? (Path.normalize path) ≠ some (.settled s) := by
  intro hs
  rw [(m.get?_eq_some_iff path s).mpr hs] at h
  cases h

/-- A load answers from the memory, fails and leaves the memory as it was, or settles a file of which no
settings were known. -/
theorem Keeping.load_succ {source : Source} {depth : Nat} (h : Keeping (load source depth))
    (m : Memory) (path : String) (hfinished : (load source (depth + 1) m path).2 ≠ .unfinished) :
    (∃ s, load source (depth + 1) m path = (m, .loaded s) ∧
        m.known? (Path.normalize (Path.normalize path)) = some (.settled s)) ∨
      (∃ fault, load source (depth + 1) m path = (m, .failed fault)) ∨
      ∃ s, (load source (depth + 1) m path).2 = .loaded s ∧
        (∀ t, m.known? (Path.normalize (Path.normalize path)) ≠ some (.settled t)) ∧
        Settled m (Path.normalize (Path.normalize path)) s
          (load source (depth + 1) m path).1 := by
  cases hget : m.get? (Path.normalize path) with
  | some s => exact .inl ⟨s, load_of_get? hget source depth, (m.get?_eq_some_iff _ s).mp hget⟩
  | none =>
      rw [load] at hfinished ⊢
      simp only [hget] at hfinished ⊢
      cases hread : source.read (Path.normalize path) with
      | error fault => exact .inr (.inl ⟨_, rfl⟩)
      | ok text =>
          rw [hread] at hfinished
          rcases h.parseWith source m _ text hfinished with ⟨fault, hfailed⟩ | ⟨s, hloaded, hsettled⟩
          · exact .inr (.inl ⟨fault, hfailed⟩)
          · exact .inr (.inr ⟨s, hloaded, unsettled_of_get? hget, hsettled⟩)

theorem keeping_load (source : Source) (depth : Nat) : Keeping (load source depth) := by
  induction depth with
  | zero => exact fun m path hfinished => absurd rfl hfinished
  | succ depth ih =>
      intro m path hfinished
      rcases ih.load_succ m path hfinished with ⟨s, hrun, -⟩ | ⟨fault, hrun⟩ | ⟨s, -, hnew, hsettled⟩
      · exact hrun ▸ .refl m
      · exact hrun ▸ .refl m
      · exact hsettled.keeps hnew

/-! ## Requests -/

/-- A file to be loaded, or a text to be settled as the file at a path; with what it is answered from. -/
inductive Request where
  | load (source : Source) (depth : Nat) (path : String)
  | parse (source : Source) (depth : Nat) (path : String) (text : Bytes)

namespace Request

/-- The answer to a request, and the memory after it. -/
def answer : Request → Memory → Memory × Outcome
  | .load source depth path, m => Memory.load source depth m path
  | .parse source depth path text, m => Memory.parse source depth m path text

/-- The file that is settled anew, whatever is known of it: only parsing does this, and only when it
succeeds. -/
def renews : Request → Outcome → Option String
  | .parse _ _ path _, .loaded _ => some (Path.normalize path)
  | _, _ => none

end Request

/-- What `m'` knows after a request, answered from `m`, has come to `outcome`. -/
structure Answered (m : Memory) (r : Request) (outcome : Outcome) (m' : Memory) : Prop where
  settled : ∀ key s, m.known? key = some (.settled s) →
    m'.known? key = some (.settled s) ∨
      r.renews outcome = some key ∧ ∃ t, m'.known? key = some (.settled t)
  pending : ∀ key, m'.known? key = some .pending → m.known? key = some .pending
  distinct : m.Distinct → m'.Distinct
  failed : ∀ fault, outcome = .failed fault → m' = m
  loaded : ∀ source depth path s, r = .load source depth path → outcome = .loaded s →
    m'.known? (Path.normalize (Path.normalize path)) = some (.settled s)

theorem Keeps.answered (h : Keeps m m') (r : Request) {outcome : Outcome}
    (hfailed : ∀ fault, outcome = .failed fault → m' = m)
    (hloaded : ∀ source depth path s, r = .load source depth path → outcome = .loaded s →
      m'.known? (Path.normalize (Path.normalize path)) = some (.settled s)) :
    Answered m r outcome m' :=
  ⟨fun key s hs => .inl (h.settled key s hs), h.pending, h.distinct, hfailed, hloaded⟩

theorem answered_load {source : Source} {depth : Nat} {path : String} {outcome : Outcome}
    (hrun : load source depth m path = (m', outcome)) (hfinished : outcome ≠ .unfinished) :
    Answered m (.load source depth path) outcome m' := by
  cases depth with
  | zero => exact absurd (congrArg Prod.snd hrun).symm hfinished
  | succ depth =>
      have hcases := (keeping_load source depth).load_succ m path (by rwa [hrun])
      rw [hrun] at hcases
      rcases hcases with ⟨s, heq, hentry⟩ | ⟨fault, heq⟩ | ⟨s, rfl, hnew, hsettled⟩
      · obtain ⟨rfl, rfl⟩ := Prod.mk.inj heq
        refine (Keeps.refl m').answered _ (by simp) ?_
        rintro _ _ _ t ⟨⟩ ⟨⟩
        exact hentry
      · obtain ⟨rfl, rfl⟩ := Prod.mk.inj heq
        exact (Keeps.refl m').answered _ (fun _ _ => rfl) (by simp)
      · refine (hsettled.keeps hnew).answered _ (by simp) ?_
        rintro _ _ _ t ⟨⟩ ⟨⟩
        exact hsettled.known?_eq

theorem answered_parse {source : Source} {depth : Nat} {path : String} {text : Bytes}
    {outcome : Outcome} (hrun : parse source depth m path text = (m', outcome))
    (hfinished : outcome ≠ .unfinished) :
    Answered m (.parse source depth path text) outcome m' := by
  have hcases := (keeping_load source depth).parseWith source m path text
    (by rwa [← parse, hrun])
  rw [← parse, hrun] at hcases
  rcases hcases with ⟨fault, heq⟩ | ⟨s, rfl, hsettled⟩
  · obtain ⟨rfl, rfl⟩ := Prod.mk.inj heq
    exact (Keeps.refl m').answered _ (fun _ _ => rfl) (by simp)
  · refine ⟨fun key t ht => ?_, hsettled.pending, hsettled.distinct, by simp, by simp⟩
    by_cases hkey : key = Path.normalize path
    · exact .inr ⟨by rw [hkey, Request.renews], s, hkey ▸ hsettled.known?_eq⟩
    · exact .inl (hsettled.settled key t hkey ht)

theorem answered {r : Request} {outcome : Outcome} (hanswer : r.answer m = (m', outcome))
    (hfinished : outcome ≠ .unfinished) : Answered m r outcome m' := by
  cases r with
  | load source depth path => exact answered_load hanswer hfinished
  | parse source depth path text => exact answered_parse hanswer hfinished

/-! ## Sessions -/

/-- From `m`, some requests are answered in turn, and `m'` is left. -/
inductive Session : Memory → List (Request × Outcome) → Memory → Prop where
  | nil (m : Memory) : Session m [] m
  | cons {m m' last : Memory} {r : Request} {outcome : Outcome} {rest : List (Request × Outcome)}
      (hanswer : r.answer m = (m', outcome)) (hfinished : outcome ≠ .unfinished)
      (hrest : Session m' rest last) : Session m ((r, outcome) :: rest) last

theorem Session.not_pending {answers : List (Request × Outcome)} (h : Session m answers m')
    (hm : ∀ key, m.known? key ≠ some .pending) (key : String) : m'.known? key ≠ some .pending := by
  induction h with
  | nil _ => exact hm key
  | cons hanswer hfinished _ ih =>
      exact ih fun k hk => hm k ((answered hanswer hfinished).pending k hk)

theorem Session.distinct {answers : List (Request × Outcome)} (h : Session m answers m')
    (hm : m.Distinct) : m'.Distinct := by
  induction h with
  | nil _ => exact hm
  | cons hanswer hfinished _ ih => exact ih ((answered hanswer hfinished).distinct hm)

/-- Settings stay as long as the file is not settled anew. -/
theorem Session.settled {answers : List (Request × Outcome)} (h : Session m answers m') {s : Settings}
    (hs : m.known? key = some (.settled s)) (hkey : ∀ a ∈ answers, a.1.renews a.2 ≠ some key) :
    m'.known? key = some (.settled s) := by
  induction h with
  | nil _ => exact hs
  | cons hanswer hfinished _ ih =>
      obtain ⟨hfirst, hrest⟩ := List.forall_mem_cons.mp hkey
      rcases (answered hanswer hfinished).settled key s hs with hs' | ⟨hrenews, -⟩
      · exact ih hs' hrest
      · exact absurd hrenews hfirst

/-- After every request of a session nothing is pending, a request that fails leaves the memory as it was,
and only a text that is parsed changes what is known of a settled file: that of its own path. So the memory
does not shrink, and a file that has been loaded is answered with the same settings, wherever it would be
read from, until it is settled anew. -/
theorem session_stable {earlier : List (Request × Outcome)} (hsession : Session empty earlier m)
    {r : Request} {outcome : Outcome} (hanswer : r.answer m = (m', outcome))
    (hfinished : outcome ≠ .unfinished) :
    (∀ key, m'.known? key ≠ some .pending) ∧
      (∀ fault, outcome = .failed fault → m' = m) ∧
      (∀ key s, m.known? key = some (.settled s) →
        m'.known? key = some (.settled s) ∨ r.renews outcome = some key) ∧
      m.size ≤ m'.size ∧
      ∀ source depth path s, r = .load source depth path → outcome = .loaded s →
        ∀ later last, Session m' later last →
          (∀ a ∈ later, a.1.renews a.2 ≠ some (Path.normalize (Path.normalize path))) →
          ∀ source depth again,
            Path.normalize (Path.normalize again) = Path.normalize (Path.normalize path) →
            load source (depth + 1) last again = (last, .loaded s) := by
  have h := answered hanswer hfinished
  have hdistinct : m.Distinct := hsession.distinct distinct_empty
  refine ⟨?_, h.failed, fun key s hs => (h.settled key s hs).imp_right And.left, ?_, ?_⟩
  · exact fun key hkey => hsession.not_pending (by simp) key (h.pending key hkey)
  · refine hdistinct.size_le (h.distinct hdistinct) fun key s hs => ?_
    rcases h.settled key s hs with hs' | ⟨-, ht⟩
    · exact ⟨s, hs'⟩
    · exact ht
  · intro source depth path s hr houtcome later last hlater hkey source' depth' again hagain
    have hentry := hlater.settled (h.loaded source depth path s hr houtcome) hkey
    have hget : last.get? (Path.normalize again) = some s := by
      rw [last.get?_eq_some_iff, hagain, hentry]
    exact load_of_get? hget source' depth'

/-- A file over a text that was parsed first. Then the files are gone, and the text is parsed anew. -/
theorem session_stable_files_gone :
    let source := Source.linked [("a.json", "b")] Resolver.sibling
    let gone := Source.linked [] Resolver.sibling
    let text : Bytes := [Json.openObject, Json.closeObject]
    let b := Settings.inherit "b.json" {} none
    let a := Settings.inherit "a.json" { reference := some "b" } (some b)
    let m : Memory := ⟨[("b.json", .settled b)]⟩
    let m' : Memory := ⟨[("a.json", .settled a), ("b.json", .settled b)]⟩
    let last : Memory := ⟨[("b.json", .settled b), ("a.json", .settled a)]⟩
    let earlier : List (Request × Outcome) := [(.parse source 1 "b.json" text, .loaded b)]
    let later : List (Request × Outcome) :=
      [(.load gone 1 "missing.json", .failed (.unreadable "./missing.json" .notFound)),
        (.parse gone 1 "x/../b.json" text, .loaded b)]
    Session empty earlier m ∧ Request.answer (.load source 2 "a.json") m = (m', .loaded a) ∧
      Outcome.loaded a ≠ .unfinished ∧ Session m' later last ∧
      (∀ answer ∈ later, answer.1.renews answer.2 ≠ some "a.json") ∧
      (∀ key, m'.known? key ≠ some .pending) ∧ m.size ≤ m'.size ∧
      load gone 1 last "./a.json" = (last, .loaded a) := by
  intro source gone text b a m m' last earlier later
  have hearlier : Session empty earlier m :=
    .cons (by decide +kernel) (by simp) (.nil m)
  have hanswer : Request.answer (.load source 2 "a.json") m = (m', .loaded a) := by decide +kernel
  have hmissing : Request.answer (.load gone 1 "missing.json") m' =
      (m', .failed (.unreadable "./missing.json" .notFound)) := by decide +kernel
  have hrenewed : Request.answer (.parse gone 1 "x/../b.json" text) m' = (last, .loaded b) := by
    decide +kernel
  have hlater : Session m' later last :=
    .cons hmissing (by simp) (.cons hrenewed (by simp) (.nil last))
  have hkept : ∀ answer ∈ later, answer.1.renews answer.2 ≠ some "a.json" := by decide +kernel
  obtain ⟨hpending, -, -, hsize, hagain⟩ := session_stable hearlier hanswer (by simp)
  refine ⟨hearlier, hanswer, by simp, hlater, hkept, hpending, hsize, ?_⟩
  exact hagain _ _ _ _ rfl rfl later last hlater hkept gone 0 "./a.json" (by decide)

end Memory

end ConfigChain

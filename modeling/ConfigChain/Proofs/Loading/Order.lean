import ConfigChain.Proofs.Loading.Chain

/-! # Loading in any order

Where no file extends itself through others, what a memory knows of a file is what loading that file alone
would give. Then it does not matter what was loaded before. -/

namespace ConfigChain

open Relation (ReflTransGen TransGen)

namespace Source

/-- No file extends itself, directly or through others. -/
def Acyclic (source : Source) : Prop := ∀ key, ¬ TransGen source.Leads key key

/-- The settings that the chain from a file on comes to. -/
def Folds (source : Source) (key : String) (s : Settings) : Prop :=
  ∃ keys, source.Chain key keys ∧ Settings.chained none (source.files keys) = some s

variable {source : Source}

theorem Folds.unique {key : String} {s t : Settings} (h : source.Folds key s) (h' : source.Folds key t) :
    s = t := by
  obtain ⟨keys, hchain, hs⟩ := h
  obtain ⟨other, hchain', ht⟩ := h'
  obtain rfl := hchain.unique hchain'
  exact Option.some.inj (hs.symm.trans ht)

theorem Folds.isOk {key : String} {s : Settings} (h : source.Folds key s) :
    (source.declared key).isOk = true := by
  obtain ⟨keys, hchain, hs⟩ := h
  obtain ⟨rest, rfl⟩ := List.head?_eq_some_iff.mp hchain.head
  cases hd : source.declared key with
  | ok d => rfl
  | error fault =>
      have hrest : rest = [] := by
        cases rest with
        | nil => rfl
        | cons next rest =>
            have hnext := (List.isChain_cons_cons.mp hchain.leads).1
            simp [Leads, successor?, hd] at hnext
      simp [hrest, files, hd, Except.toOption, Settings.chained] at hs

/-! ## Chains without a circle -/

theorem Chain.not_leads_last (hacyclic : source.Acyclic) {first : String} {keys : List String}
    (h : source.Chain first keys) {key : String} (hkey : key ∈ keys.getLast?) (next : String) :
    ¬ source.Leads key next := by
  intro hnext
  obtain ⟨front, back, rfl⟩ := List.append_of_mem (h.last key hkey next hnext)
  have hreach := reaches_of_isChain (h.leads.suffix (List.suffix_append front _))
  have hmem : key ∈ next :: back := by
    rw [List.getLast?_append_of_ne_nil _ (List.cons_ne_nil _ _)] at hkey
    exact List.mem_of_getLast? hkey
  exact hacyclic key (TransGen.head' hnext (hreach key hmem))

theorem Chain.suffix (hacyclic : source.Acyclic) {first : String} {keys : List String}
    (h : source.Chain first keys) {key : String} {rest : List String} (hsuffix : key :: rest <:+ keys) :
    source.Chain key (key :: rest) := by
  obtain ⟨front, rfl⟩ := hsuffix
  refine ⟨rfl, h.leads.suffix (List.suffix_append _ _),
    h.nodup.sublist (List.sublist_append_right _ _), ?_⟩
  intro last hlast next hnext
  rw [← List.getLast?_append_of_ne_nil front (List.cons_ne_nil _ _)] at hlast
  exact absurd hnext (h.not_leads_last hacyclic hlast next)

end Source

namespace Memory

variable {source : Source}

/-- From a memory that knows the settings of some files, a chain is opened up to the first of them. -/
theorem exists_nests_of_chain (hacyclic : source.Acyclic) {m : Memory} {key : String}
    {rest : List String}
    (h : source.Chain key (key :: rest)) (hpending : ∀ k ∈ rest, m.known? k ≠ some .pending)
    (hsettled : ∀ k t, m.known? k = some (.settled t) → source.Folds k t) (hnew : m.known? key = none) :
    ∃ front back, rest = front ++ back ∧
      Nests source m (key :: front) (Settings.chained none (source.files back)) ∧
      ∀ next ∈ back.head?, m.known? next ≠ none := by
  induction rest generalizing m key with
  | nil =>
      refine ⟨[], [], rfl, .alone hnew fun next hnext => ?_, by simp⟩
      exact absurd hnext (h.not_leads_last hacyclic (by simp) next)
  | cons next rest ih =>
      have hnext := (List.isChain_cons_cons.mp h.leads).1
      have hnodup := (List.nodup_cons.mp h.nodup).1
      have htail := h.suffix hacyclic (List.suffix_cons key (next :: rest))
      cases hentry : m.known? next with
      | some e =>
          cases e with
          | pending => exact absurd hentry (hpending next List.mem_cons_self)
          | settled t =>
              obtain ⟨keys, hchain, ht⟩ := hsettled next t hentry
              obtain rfl := hchain.unique htail
              refine ⟨[], next :: rest, rfl, ?_, by simp [hentry]⟩
              rw [ht]
              exact .settled hnew hnext hentry
      | none =>
          -- The mark of `key` is not met again: the files of a chain are distinct.
          have hother {k : String} (hk : k ∈ next :: rest) (e : Entry) :
              known? (m.set key e) k = m.known? k := by
            have hne : k ≠ key := fun heq => hnodup (heq ▸ hk)
            exact m.known?_set_of_ne hne e
          have hpending' : ∀ k ∈ rest, known? (m.set key .pending) k ≠ some .pending := by
            intro k hk
            rw [hother (List.mem_cons_of_mem next hk)]
            exact hpending k (List.mem_cons_of_mem next hk)
          have hsettled' : ∀ k t, known? (m.set key .pending) k = some (.settled t) →
              source.Folds k t := by
            intro k t ht
            rw [known?_set] at ht
            split at ht
            · cases ht
            · exact hsettled k t ht
          obtain ⟨front, back, rfl, hnests, hback⟩ :=
            ih htail hpending' hsettled' ((hother List.mem_cons_self _).trans hentry)
          refine ⟨next :: front, back, rfl, .inside hnew hnext hnests, ?_⟩
          intro k hk
          have hmem : k ∈ next :: (front ++ back) :=
            List.mem_cons_of_mem _ (List.mem_append_right _ (List.mem_of_mem_head? hk))
          rw [← hother hmem .pending]
          exact hback k hk

/-! ## What one memory knows -/

/-- A memory that knows the files that can be reached from `roots`, each with the settings of its chain. -/
structure Snapshot (source : Source) (roots : Set String) (m : Memory) : Prop where
  known : ∀ key, m.known? key ≠ none ↔ ∃ root ∈ roots, ReflTransGen source.Leads root key
  settled : ∀ key e, m.known? key = some e → ∃ s, e = .settled s ∧ source.Folds key s

theorem snapshot_empty (source : Source) : Snapshot source ∅ empty := by
  refine ⟨by simp, ?_⟩
  intro key e h
  cases h

/-- The roots decide the whole memory. -/
theorem Snapshot.known?_eq {roots : Set String} {m m' : Memory} (h : Snapshot source roots m)
    (h' : Snapshot source roots m') (key : String) : m.known? key = m'.known? key := by
  have hknown := (h.known key).trans (h'.known key).symm
  cases hentry : m.known? key with
  | none =>
      cases hentry' : m'.known? key with
      | none => rfl
      | some e => simp [hentry, hentry'] at hknown
  | some e =>
      cases hentry' : m'.known? key with
      | none => simp [hentry, hentry'] at hknown
      | some e' =>
          obtain ⟨s, rfl, hs⟩ := h.settled key e hentry
          obtain ⟨t, rfl, ht⟩ := h'.settled key e' hentry'
          rw [hs.unique ht]

theorem Snapshot.knowsLoadable {roots : Set String} {m : Memory} (h : Snapshot source roots m) :
    m.KnowsLoadable source := by
  intro key e hentry
  obtain ⟨s, -, hs⟩ := h.settled key e hentry
  exact hs.isOk

/-- A root that is known already. -/
theorem Snapshot.insert_known {roots : Set String} {m : Memory} (h : Snapshot source roots m)
    {key : String} (hkey : m.known? key ≠ none) : Snapshot source (insert key roots) m := by
  refine ⟨fun k => (h.known k).trans ?_, h.settled⟩
  obtain ⟨root, hroot, hreach⟩ := (h.known key).mp hkey
  constructor
  · rintro ⟨other, hother, hk⟩
    exact ⟨other, Set.mem_insert_of_mem _ hother, hk⟩
  · rintro ⟨other, rfl | hother, hk⟩
    · exact ⟨root, hroot, hreach.trans hk⟩
    · exact ⟨other, hother, hk⟩

/-- A root whose chain is opened up to the first file that is known. -/
theorem Snapshot.insert_new (hacyclic : source.Acyclic) {roots : Set String} {m m' : Memory}
    (h : Snapshot source roots m) {key : String} {front back : List String} {s : Option Settings}
    (hchain : source.Chain key (front ++ back)) (hback : ∀ next ∈ back.head?, m.known? next ≠ none)
    (hsettles : Settles source m front (Settings.chained none (source.files back)) m' s) :
    Snapshot source (insert key roots) m' := by
  -- A file of the front is settled with what is left of the chain from there on.
  have hfront : ∀ k ∈ front, ∃ t, m'.known? k = some (.settled t) ∧ source.Folds k t := by
    intro k hk
    obtain ⟨before, after, rfl⟩ := List.append_of_mem hk
    obtain ⟨t, ht, hentry⟩ := hsettles.inside k after (List.suffix_append before _)
    refine ⟨t, hentry, k :: (after ++ back), hchain.suffix hacyclic ⟨before, by simp⟩, ?_⟩
    rw [← List.cons_append, Source.files_append, Settings.chained_append, ht]
  refine ⟨?_, ?_⟩
  · intro k
    by_cases hk : k ∈ front
    · obtain ⟨t, hentry, -⟩ := hfront k hk
      have hreach := (hchain.mem_iff_reaches k).mp (List.mem_append_left back hk)
      exact iff_of_true (by simp [hentry]) ⟨key, Set.mem_insert _ _, hreach⟩
    · rw [hsettles.outside k hk, h.known k]
      constructor
      · rintro ⟨root, hroot, hreach⟩
        exact ⟨root, Set.mem_insert_of_mem _ hroot, hreach⟩
      · rintro ⟨root, rfl | hroot, hreach⟩
        -- What the chain holds beyond the front could be reached before.
        · have hmem := (List.mem_append.mp ((hchain.mem_iff_reaches k).mpr hreach)).resolve_left hk
          cases back with
          | nil => cases hmem
          | cons next back =>
              obtain ⟨other, hother, hnext⟩ := (h.known next).mp (hback next rfl)
              have hrest := hchain.leads.suffix (List.suffix_append front (next :: back))
              exact ⟨other, hother, hnext.trans (Source.reaches_of_isChain hrest k hmem)⟩
        · exact ⟨root, hroot, hreach⟩
  · intro k e hentry
    by_cases hk : k ∈ front
    · obtain ⟨t, ht, hfolds⟩ := hfront k hk
      exact ⟨t, Option.some.inj (hentry.symm.trans ht), hfolds⟩
    · exact h.settled k e ((hsettles.outside k hk).symm.trans hentry)

theorem Snapshot.exists_load (hplain : source.PlainCandidates) (hacyclic : source.Acyclic)
    {roots : Set String} {m : Memory} (h : Snapshot source roots m) {key : String} {keys : List String}
    (hchain : source.Chain key keys) (hcanonical : Path.Canonical key)
    (hkey : (source.declared key).isOk = true) (hnew : m.known? key = none) :
    ∃ m' s, source.Folds key s ∧ Snapshot source (insert key roots) m' ∧
      ∀ path depth, Path.normalize path = key → keys.length < depth →
        Memory.load source depth m path = (m', .loaded s) := by
  have hpending : ∀ k, m.known? k ≠ some .pending := by
    intro k hk
    obtain ⟨t, ht, -⟩ := h.settled k _ hk
    cases ht
  have hsettled : ∀ k t, m.known? k = some (.settled t) → source.Folds k t := by
    intro k t hk
    obtain ⟨t', ht, hfolds⟩ := h.settled k _ hk
    cases ht
    exact hfolds
  obtain ⟨rest, rfl⟩ := List.head?_eq_some_iff.mp hchain.head
  obtain ⟨front, back, rfl, hnests, hback⟩ :=
    exists_nests_of_chain hacyclic hchain (fun k _ => hpending k) hsettled hnew
  obtain ⟨m', s, hsettles, hload⟩ := exists_load_of_nests hplain hnests h.knowsLoadable hcanonical hkey
  refine ⟨m', s, ⟨_, hchain, ?_⟩, h.insert_new hacyclic hchain hback hsettles, ?_⟩
  · rw [← List.cons_append, Source.files_append, Settings.chained_append, hsettles.chained_eq]
  · intro path depth hpath hdepth
    refine hload path depth hpath (lt_of_le_of_lt ?_ hdepth)
    simp

/-! ## Loads in turn -/

/-- Loads some files one after the other, on one memory. -/
def loadAll (source : Source) (depth : Nat) (m : Memory) : List String → Memory × List Outcome
  | [] => (m, [])
  | path :: rest =>
    let (m, outcome) := load source depth m path
    let (m, outcomes) := loadAll source depth m rest
    (m, outcome :: outcomes)

/-- The files at some paths that can be loaded. -/
def loadable (source : Source) (paths : List String) : Set String :=
  {key | (source.declared key).isOk = true ∧ ∃ path ∈ paths, Path.normalize path = key}

theorem loadable_cons (path : String) (paths : List String) :
    loadable source (path :: paths) = loadable source [path] ∪ loadable source paths := by
  ext key
  simp only [loadable, List.mem_cons, List.not_mem_nil, or_false, exists_eq_or_imp, exists_eq_left,
    Set.mem_ofPred_eq, Set.mem_union]
  tauto

theorem loadable_of_isOk {path : String} (h : (source.declared (Path.normalize path)).isOk = true) :
    loadable source [path] = {Path.normalize path} := by
  ext key
  simp only [loadable, List.mem_singleton, exists_eq_left, Set.mem_ofPred_eq, Set.mem_singleton_iff]
  constructor
  · rintro ⟨-, rfl⟩
    rfl
  · rintro rfl
    exact ⟨h, rfl⟩

theorem loadable_of_error {path : String} {fault : LoadFault}
    (h : source.declared (Path.normalize path) = .error fault) : loadable source [path] = ∅ := by
  ext key
  simp only [loadable, List.mem_singleton, exists_eq_left, Set.mem_ofPred_eq, Set.mem_empty_iff_false,
    iff_false]
  rintro ⟨hok, rfl⟩
  simp [h, Except.isOk, Except.toBool] at hok

/-- One load among others: the answer is that of an empty memory. -/
theorem Snapshot.load (hfin : source.readable.Finite) (hplain : source.PlainCandidates)
    (hacyclic : source.Acyclic) {roots : Set String} {m : Memory} (h : Snapshot source roots m)
    {path : String} (hpath : Path.Plain path) {depth : Nat} (hdepth : source.readable.ncard < depth) :
    ∃ m' outcome, Memory.load source depth m path = (m', outcome) ∧
      (Memory.load source depth empty path).2 = outcome ∧ outcome ≠ .unfinished ∧
      Snapshot source (roots ∪ loadable source [path]) m' := by
  have hcanonical : Path.Canonical (Path.normalize path) := Path.canonical_normalize hpath
  obtain ⟨depth, rfl⟩ : ∃ n, depth = n + 1 := ⟨depth - 1, by omega⟩
  cases hd : source.declared (Path.normalize path) with
  | error fault =>
      have hget : m.get? (Path.normalize path) = none := by
        cases hentry : m.known? (Path.normalize path) with
        | none => rw [m.get?_normalize hpath, get?, hentry]
        | some e => simpa [hd, Except.isOk, Except.toBool] using h.knowsLoadable _ e hentry
      refine ⟨m, .failed fault, load_of_error hget hd depth, ?_, by simp, ?_⟩
      · rw [load_of_error rfl hd depth]
      · rwa [loadable_of_error hd, Set.union_empty]
  | ok d =>
      have hkey : (source.declared (Path.normalize path)).isOk = true := Source.isOk_of_eq hd
      obtain ⟨keys, hchain⟩ :=
        Source.exists_chain hfin hplain (Source.mem_readable_of_isOk hcanonical hkey)
      have hlength := hchain.length_le hfin hplain hcanonical hkey
      obtain ⟨fresh, s, hfolds, -, hrun⟩ :=
        (snapshot_empty source).exists_load hplain hacyclic hchain hcanonical hkey (known?_empty _)
      rw [loadable_of_isOk hkey, Set.union_singleton, hrun path _ rfl (hlength.trans_lt hdepth)]
      cases hentry : m.known? (Path.normalize path) with
      | some e =>
          obtain ⟨t, rfl, ht⟩ := h.settled _ e hentry
          obtain rfl := ht.unique hfolds
          have hget : m.get? (Path.normalize path) = some t := by
            rw [m.get?_normalize hpath, get?_eq_some_iff, hentry]
          exact ⟨m, .loaded t, load_of_get? hget source depth, rfl, by simp,
            h.insert_known (by simp [hentry])⟩
      | none =>
          obtain ⟨m', t, ht, hsnapshot, hload⟩ :=
            h.exists_load hplain hacyclic hchain hcanonical hkey hentry
          obtain rfl := ht.unique hfolds
          exact ⟨m', .loaded t, hload path _ rfl (hlength.trans_lt hdepth), rfl, by simp, hsnapshot⟩

theorem Snapshot.loadAll (hfin : source.readable.Finite) (hplain : source.PlainCandidates)
    (hacyclic : source.Acyclic) {depth : Nat} (hdepth : source.readable.ncard < depth)
    {paths : List String} (hpaths : ∀ path ∈ paths, Path.Plain path) {roots : Set String} {m : Memory}
    (h : Snapshot source roots m) :
    (Memory.loadAll source depth m paths).2 =
        paths.map (fun path => (Memory.load source depth empty path).2) ∧
      (∀ outcome ∈ (Memory.loadAll source depth m paths).2, outcome ≠ .unfinished) ∧
      Snapshot source (roots ∪ loadable source paths) (Memory.loadAll source depth m paths).1 := by
  induction paths generalizing roots m with
  | nil =>
      have hnone : loadable source [] = ∅ := by simp [loadable]
      exact ⟨rfl, by simp [Memory.loadAll], by rwa [hnone, Set.union_empty]⟩
  | cons path rest ih =>
      obtain ⟨hpath, hrest⟩ := List.forall_mem_cons.mp hpaths
      obtain ⟨m', outcome, hload, hfresh, hfinished, hnext⟩ :=
        h.load hfin hplain hacyclic hpath hdepth
      obtain ⟨houtcomes, hall, hlast⟩ := ih hrest hnext
      simp only [Memory.loadAll, hload]
      refine ⟨?_, List.forall_mem_cons.mpr ⟨hfinished, hall⟩, ?_⟩
      · rw [List.map_cons, hfresh, houtcomes]
      · rwa [loadable_cons, ← Set.union_assoc]

/-- Where no file extends itself, every one of some loads in turn answers as it would on an empty memory,
and the order of the loads does not change what is known in the end. -/
theorem loadAll_acyclic (hfin : source.readable.Finite) (hplain : source.PlainCandidates)
    (hacyclic : source.Acyclic) {depth : Nat} (hdepth : source.readable.ncard < depth)
    {paths : List String} (hpaths : ∀ path ∈ paths, Path.Plain path) :
    (Memory.loadAll source depth empty paths).2 =
        paths.map (fun path => (Memory.load source depth empty path).2) ∧
      (∀ outcome ∈ (Memory.loadAll source depth empty paths).2, outcome ≠ .unfinished) ∧
      ∀ other, paths.Perm other →
        (Memory.loadAll source depth empty other).2 =
            other.map (fun path => (Memory.load source depth empty path).2) ∧
          ∀ key, known? (Memory.loadAll source depth empty other).1 key =
            known? (Memory.loadAll source depth empty paths).1 key := by
  obtain ⟨houtcomes, hall, hsnapshot⟩ :=
    (snapshot_empty source).loadAll hfin hplain hacyclic hdepth hpaths
  refine ⟨houtcomes, hall, ?_⟩
  intro other hperm
  obtain ⟨houtcomes', -, hother⟩ := (snapshot_empty source).loadAll hfin hplain hacyclic hdepth
    fun path hpath => hpaths path (hperm.mem_iff.mpr hpath)
  have hroots : loadable source other = loadable source paths := by
    simp only [loadable, hperm.mem_iff]
  rw [hroots] at hother
  exact ⟨houtcomes', hother.known?_eq hsnapshot⟩

/-- Two files over one, and one that is missing. -/
theorem loadAll_acyclic_shared_base :
    let source := Source.linked [("a.json", "base"), ("b.json", "./base.json"), ("base.json", "")]
      Resolver.sibling
    let paths := ["a.json", "missing.json", "./b.json", "x/../base.json"]
    source.readable.Finite ∧ source.PlainCandidates ∧ source.Acyclic ∧
      ∃ depth, source.readable.ncard < depth ∧ (∀ path ∈ paths, Path.Plain path) ∧
        (loadAll source depth empty paths).2 = paths.map (fun path => (load source depth empty path).2) ∧
        ∀ key, known? (loadAll source depth empty paths.reverse).1 key =
          known? (loadAll source depth empty paths).1 key := by
  intro source paths
  have hfin : source.readable.Finite := Source.finite_readable_linked _ _
  have hplain : source.PlainCandidates := Resolver.plain_sibling
  have hleads {key next : String} (h : source.Leads key next) :
      next = "base.json" ∧ key ≠ "base.json" := by
    have ha : source.Leads "a.json" "base.json" := by decide +kernel
    have hb : source.Leads "b.json" "base.json" := by decide +kernel
    have hbase : source.successor? "base.json" = none := by decide +kernel
    have hkey := Source.mem_of_leads_linked h
    simp only [List.map_cons, List.map_nil, List.mem_cons, List.not_mem_nil, or_false] at hkey
    rcases hkey with rfl | rfl | rfl
    · exact ⟨Source.leads_unique h ha, by decide⟩
    · exact ⟨Source.leads_unique h hb, by decide⟩
    · exact absurd (hbase.symm.trans h) (by simp)
  have hacyclic : source.Acyclic := by
    intro key hkey
    obtain ⟨next, hfirst, -⟩ := TransGen.head'_iff.mp hkey
    obtain ⟨last, -, hlast⟩ := TransGen.tail'_iff.mp hkey
    exact (hleads hfirst).2 (hleads hlast).1
  have hpaths : ∀ path ∈ paths, Path.Plain path := by decide
  obtain ⟨houtcomes, -, horder⟩ := loadAll_acyclic hfin hplain hacyclic (Nat.lt_succ_self _) hpaths
  exact ⟨hfin, hplain, hacyclic, _, Nat.lt_succ_self _, hpaths, houtcomes,
    (horder _ (List.reverse_perm paths).symm).2⟩

end Memory

end ConfigChain

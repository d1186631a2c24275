import ConfigChain.Proofs.Loading.Step
import ConfigChain.Proofs.Path.Joining
import ConfigChain.Proofs.Settings.Chained
import Mathlib.Data.List.Chain
import Mathlib.Data.Set.Card

/-! # The files that extend one another

Without a memory, the file that a file extends is the first candidate that can be loaded. A chain is
followed until it ends or would repeat a file, which it must if only finitely many files can be read. -/

namespace ConfigChain

namespace Source

/-- No candidate holds a backslash. -/
def PlainCandidates (source : Source) : Prop :=
  ∀ dir reference, ∀ candidate ∈ source.resolver dir reference, Path.Plain candidate

/-- The first candidate for what a file extends that can be loaded, in its canonical form. -/
def successor? (source : Source) (key : String) : Option String :=
  match source.declared key with
  | .error _ => none
  | .ok d =>
    if d.referenceText = "" then none
    else ((source.resolver (Path.directory key) d.referenceText).map Path.normalize).find? fun candidate =>
      (source.declared candidate).isOk

/-- One file extends another. -/
def Leads (source : Source) (key next : String) : Prop := source.successor? key = some next

instance (source : Source) (key next : String) : Decidable (source.Leads key next) :=
  inferInstanceAs (Decidable (source.successor? key = some next))

/-- What the files at some keys declare. -/
def files (source : Source) (keys : List String) : List (String × Declaration) :=
  keys.filterMap fun key => (source.declared key).toOption.map fun d => (key, d)

/-- The files from `first` on, each followed by the one that it extends, up to the last one that is not
among them already. -/
structure Chain (source : Source) (first : String) (keys : List String) : Prop where
  head : keys.head? = some first
  leads : keys.IsChain source.Leads
  nodup : keys.Nodup
  last : ∀ key ∈ keys.getLast?, ∀ next, source.Leads key next → next ∈ keys

/-- The same chain, followed with the files seen so far in hand, the latest one first. -/
inductive Unfolds (source : Source) : List String → List String → Prop where
  | last {seen key} (hnew : key ∉ seen) (hlast : ∀ next, source.Leads key next → next ∈ key :: seen) :
      Unfolds source seen [key]
  | step {seen key next rest} (hnew : key ∉ seen) (hnext : source.Leads key next)
      (hrest : Unfolds source (key :: seen) (next :: rest)) :
      Unfolds source seen (key :: next :: rest)

variable {source : Source}

/-! ## Successors -/

theorem isOk_left_of_leads {key next : String} (h : source.Leads key next) :
    (source.declared key).isOk = true := by
  unfold Leads successor? at h
  split at h
  · cases h
  · rename_i d hd
    exact isOk_of_eq hd

theorem isOk_of_leads {key next : String} (h : source.Leads key next) :
    (source.declared next).isOk = true := by
  unfold Leads successor? at h
  split at h
  · cases h
  · split at h
    · cases h
    · simpa using List.find?_some h

theorem canonical_of_leads (hplain : source.PlainCandidates) {key next : String}
    (h : source.Leads key next) : Path.Canonical next := by
  unfold Leads successor? at h
  split at h
  · cases h
  · split at h
    · cases h
    · obtain ⟨candidate, hmem, rfl⟩ := List.mem_map.mp (List.mem_of_find?_eq_some h)
      exact Path.canonical_normalize (hplain _ _ candidate hmem)

theorem isOk_of_reaches {key other : String} (h : Relation.ReflTransGen source.Leads key other)
    (hkey : (source.declared key).isOk = true) : (source.declared other).isOk = true := by
  cases h with
  | refl => exact hkey
  | tail _ hlast => exact isOk_of_leads hlast

theorem canonical_of_reaches (hplain : source.PlainCandidates) {key other : String}
    (h : Relation.ReflTransGen source.Leads key other) (hkey : Path.Canonical key) :
    Path.Canonical other := by
  cases h with
  | refl => exact hkey
  | tail _ hlast => exact canonical_of_leads hplain hlast

theorem leads_unique {key next other : String} (h : source.Leads key next)
    (h' : source.Leads key other) : next = other :=
  Option.some.inj (h.symm.trans h')

theorem mem_readable_of_leads (hplain : source.PlainCandidates) {key next : String}
    (h : source.Leads key next) : next ∈ source.readable :=
  mem_readable_of_isOk (canonical_of_leads hplain h) (isOk_of_leads h)

/-! ## Chains unfold -/

theorem Unfolds.ne_nil {seen keys : List String} (h : source.Unfolds seen keys) : keys ≠ [] := by
  cases h <;> simp

theorem Unfolds.not_mem_seen {seen keys : List String} (h : source.Unfolds seen keys) :
    ∀ key ∈ keys, key ∉ seen := by
  induction h with
  | last hnew _ => simpa using hnew
  | step hnew _ _ ih =>
      intro key hkey
      rcases List.mem_cons.mp hkey with rfl | hkey
      · exact hnew
      · exact fun hseen => ih key hkey (List.mem_cons_of_mem _ hseen)

theorem Unfolds.nodup {seen keys : List String} (h : source.Unfolds seen keys) : keys.Nodup := by
  induction h with
  | last _ _ => simp
  | step _ _ hrest ih =>
      exact List.nodup_cons.mpr ⟨fun hmem => hrest.not_mem_seen _ hmem List.mem_cons_self, ih⟩

theorem Unfolds.isChain {seen keys : List String} (h : source.Unfolds seen keys) :
    keys.IsChain source.Leads := by
  induction h with
  | last _ _ => simp
  | step _ hnext _ ih => exact List.isChain_cons_cons.mpr ⟨hnext, ih⟩

theorem Unfolds.mem_of_last_leads {seen keys : List String} (h : source.Unfolds seen keys) :
    ∀ key ∈ keys.getLast?, ∀ next, source.Leads key next → next ∈ keys ∨ next ∈ seen := by
  induction h with
  | last _ hlast =>
      intro key hkey next hnext
      cases hkey
      rcases List.mem_cons.mp (hlast next hnext) with rfl | hseen
      · exact .inl List.mem_cons_self
      · exact .inr hseen
  | step _ _ _ ih =>
      intro key hkey next hnext
      rw [List.getLast?_cons_cons] at hkey
      rcases ih key hkey next hnext with hmem | hmem
      · exact .inl (List.mem_cons_of_mem _ hmem)
      · rcases List.mem_cons.mp hmem with rfl | hmem
        · exact .inl List.mem_cons_self
        · exact .inr hmem

theorem unfolds_of_isChain {seen keys : List String} (hne : keys ≠ [])
    (hleads : keys.IsChain source.Leads) (hnodup : keys.Nodup) (hseen : ∀ key ∈ keys, key ∉ seen)
    (hlast : ∀ key ∈ keys.getLast?, ∀ next, source.Leads key next → next ∈ keys ∨ next ∈ seen) :
    source.Unfolds seen keys := by
  induction keys generalizing seen with
  | nil => exact absurd rfl hne
  | cons key keys ih =>
      have hkey := hseen key List.mem_cons_self
      cases keys with
      | nil => exact .last hkey (by simpa using hlast key (by simp))
      | cons next rest =>
          obtain ⟨hnext, hrest⟩ := List.isChain_cons_cons.mp hleads
          obtain ⟨hnew, hnodup⟩ := List.nodup_cons.mp hnodup
          refine .step hkey hnext (ih (by simp) hrest hnodup ?_ ?_)
          · intro k hk hmem
            rcases List.mem_cons.mp hmem with rfl | hmem
            · exact hnew hk
            · exact hseen k (List.mem_cons_of_mem _ hk) hmem
          · intro k hk other hother
            rw [← List.getLast?_cons_cons (a := key)] at hk
            have hmem := hlast k hk other hother
            simp only [List.mem_cons] at hmem ⊢
            tauto

theorem chain_iff_unfolds {first : String} {keys : List String} :
    source.Chain first keys ↔ keys.head? = some first ∧ source.Unfolds [] keys := by
  constructor
  · intro h
    refine ⟨h.head, unfolds_of_isChain ?_ h.leads h.nodup (by simp) (by simpa using h.last)⟩
    rintro rfl
    simpa using h.head
  · rintro ⟨hhead, h⟩
    exact ⟨hhead, h.isChain, h.nodup, by simpa using h.mem_of_last_leads⟩

/-! ## What a chain holds -/

theorem Unfolds.unique {seen : List String} {key : String} {rest other : List String}
    (h : source.Unfolds seen (key :: rest)) (h' : source.Unfolds seen (key :: other)) :
    rest = other := by
  induction rest generalizing seen key other with
  | nil =>
      cases h with
      | last _ hlast =>
          cases h' with
          | last _ _ => rfl
          | step _ hnext hrest => exact absurd (hlast _ hnext) (hrest.not_mem_seen _ List.mem_cons_self)
  | cons next rest ih =>
      cases h with
      | step _ hnext hrest =>
          cases h' with
          | last _ hlast => exact absurd (hlast _ hnext) (hrest.not_mem_seen _ List.mem_cons_self)
          | step _ hnext' hrest' =>
              obtain rfl := leads_unique hnext hnext'
              rw [ih hrest hrest']

theorem Chain.unique {first : String} {keys other : List String} (h : source.Chain first keys)
    (h' : source.Chain first other) : keys = other := by
  obtain ⟨rest, rfl⟩ := List.head?_eq_some_iff.mp h.head
  obtain ⟨rest', rfl⟩ := List.head?_eq_some_iff.mp h'.head
  rw [(chain_iff_unfolds.mp h).2.unique (chain_iff_unfolds.mp h').2]

theorem Chain.mem_of_leads {first : String} {keys : List String} (h : source.Chain first keys)
    {key next : String} (hkey : key ∈ keys) (hnext : source.Leads key next) : next ∈ keys := by
  obtain ⟨front, back, rfl⟩ := List.append_of_mem hkey
  cases back with
  | nil => exact h.last key (by simp) next hnext
  | cons other back =>
      have hother := (List.isChain_append_cons_cons.mp h.leads).2.1
      rw [leads_unique hnext hother]
      simp

theorem reaches_of_isChain {key : String} {rest : List String}
    (h : (key :: rest).IsChain source.Leads) :
    ∀ k ∈ key :: rest, Relation.ReflTransGen source.Leads key k := by
  induction rest generalizing key with
  | nil =>
      intro k hk
      rw [List.mem_singleton.mp hk]
  | cons next rest ih =>
      obtain ⟨hnext, hrest⟩ := List.isChain_cons_cons.mp h
      exact List.forall_mem_cons.mpr ⟨.refl, fun k hk => .head hnext (ih hrest k hk)⟩

/-- A chain holds what can be reached from its first file. -/
theorem Chain.mem_iff_reaches {first : String} {keys : List String} (h : source.Chain first keys)
    (key : String) : key ∈ keys ↔ Relation.ReflTransGen source.Leads first key := by
  obtain ⟨rest, rfl⟩ := List.head?_eq_some_iff.mp h.head
  constructor
  · exact reaches_of_isChain h.leads key
  · intro hreach
    induction hreach with
    | refl => exact List.mem_cons_self
    | tail _ hnext ih => exact h.mem_of_leads ih hnext

/-! ## Chains end -/

theorem length_le_ncard {α : Type} {S : Set α} (hfin : S.Finite) {l : List α} (hl : l.Nodup)
    (h : ∀ a ∈ l, a ∈ S) : l.length ≤ S.ncard := by
  classical
  rw [← List.toFinset_card_of_nodup hl, ← Set.ncard_coe_finset]
  exact Set.ncard_le_ncard (fun a ha => h a (by simpa using ha)) hfin

/-- To open a readable file leaves fewer of them that are not open. -/
theorem ncard_unopened_lt (hfin : source.readable.Finite) {key : String} {marks : List String}
    (hreadable : key ∈ source.readable) (hnew : key ∉ marks) :
    (source.readable \ {j | j ∈ key :: marks}).ncard < (source.readable \ {j | j ∈ marks}).ncard := by
  refine Set.ncard_lt_ncard ?_ hfin.sdiff
  refine (Set.ssubset_iff_of_subset ?_).mpr ⟨key, ⟨hreadable, hnew⟩, fun hmem => ?_⟩
  · exact Set.sdiff_subset_sdiff_right fun j hj => List.mem_cons_of_mem key hj
  · exact hmem.2 List.mem_cons_self

/-- The measure is the number of readable files that have not been seen. -/
theorem exists_unfolds (hfin : source.readable.Finite) (hplain : source.PlainCandidates)
    {seen : List String} (hseen : seen.Nodup)
    (hreadable : ∀ key ∈ seen, key ∈ source.readable) {key : String} (hkey : key ∈ source.readable)
    (hnew : key ∉ seen) : ∃ rest, source.Unfolds seen (key :: rest) := by
  induction hn : source.readable.ncard - seen.length generalizing seen key with
  | zero =>
      have hlength := length_le_ncard hfin (List.nodup_cons.mpr ⟨hnew, hseen⟩)
        (List.forall_mem_cons.mpr ⟨hkey, hreadable⟩)
      rw [List.length_cons] at hlength
      omega
  | succ n ih =>
      by_cases hlast : ∀ next, source.Leads key next → next ∈ key :: seen
      · exact ⟨[], .last hnew hlast⟩
      · simp only [not_forall] at hlast
        obtain ⟨next, hnext, hfresh⟩ := hlast
        obtain ⟨rest, hrest⟩ := ih (List.nodup_cons.mpr ⟨hnew, hseen⟩)
          (List.forall_mem_cons.mpr ⟨hkey, hreadable⟩) (mem_readable_of_leads hplain hnext) hfresh
          (by rw [List.length_cons]; omega)
        exact ⟨next :: rest, .step hnew hnext hrest⟩

theorem exists_chain (hfin : source.readable.Finite) (hplain : source.PlainCandidates) {key : String}
    (hkey : key ∈ source.readable) : ∃ keys, source.Chain key keys := by
  obtain ⟨rest, hrest⟩ := exists_unfolds hfin hplain List.nodup_nil (by simp) hkey (by simp)
  exact ⟨key :: rest, chain_iff_unfolds.mpr ⟨rfl, hrest⟩⟩

theorem Chain.length_le (hfin : source.readable.Finite) (hplain : source.PlainCandidates) {key : String}
    {keys : List String} (h : source.Chain key keys) (hcanonical : Path.Canonical key)
    (hkey : (source.declared key).isOk = true) : keys.length ≤ source.readable.ncard := by
  refine length_le_ncard hfin h.nodup fun k hk => ?_
  have hreach := (h.mem_iff_reaches k).mp hk
  exact mem_readable_of_isOk (canonical_of_reaches hplain hreach hcanonical)
    (isOk_of_reaches hreach hkey)

/-! ## What the files of a chain declare -/

theorem files_cons {key : String} {d : Declaration} (h : source.declared key = .ok d)
    (keys : List String) :
    source.files (key :: keys) = (key, d) :: source.files keys := by
  simp [files, h, Except.toOption]

theorem files_append (front back : List String) :
    source.files (front ++ back) = source.files front ++ source.files back :=
  List.filterMap_append

theorem map_fst_files {keys : List String} (h : ∀ key ∈ keys, (source.declared key).isOk = true) :
    (source.files keys).map Prod.fst = keys := by
  induction keys with
  | nil => rfl
  | cons key keys ih =>
      obtain ⟨hkey, hkeys⟩ := List.forall_mem_cons.mp h
      obtain ⟨d, hd⟩ := (isOk_iff _).mp hkey
      rw [files_cons hd, List.map_cons, ih hkeys]

/-! ## Files that only refer to others -/

/-- Some files, each with the text that refers to the file it extends. -/
def linked (links : List (String × String)) (resolver : Resolver) : Source where
  root := "."
  read path :=
    match links.lookup path with
    | some reference => .ok (Utf8.encode ("\x7b\"extends\":\"" ++ reference ++ "\"\x7d").toList)
    | none => .error .notFound
  resolver := resolver

theorem mem_of_read_linked {links : List (String × String)} {resolver : Resolver} {path : String}
    {text : Bytes} (h : (linked links resolver).read path = .ok text) : path ∈ links.map Prod.fst := by
  cases hlookup : links.lookup path with
  | none => simp [linked, hlookup] at h
  | some reference =>
      obtain ⟨front, back, rfl, -⟩ := List.lookup_eq_some_iff.mp hlookup
      simp

theorem finite_readable_linked (links : List (String × String)) (resolver : Resolver) :
    (linked links resolver).readable.Finite := by
  refine (links.map Prod.fst).finite_toSet.subset ?_
  rintro path ⟨-, text, htext⟩
  exact mem_of_read_linked htext

theorem mem_of_leads_linked {links : List (String × String)} {resolver : Resolver} {key next : String}
    (h : (linked links resolver).Leads key next) : key ∈ links.map Prod.fst := by
  obtain ⟨text, htext⟩ := exists_read_of_isOk (isOk_left_of_leads h)
  exact mem_of_read_linked htext

end Source

namespace Resolver

/-! ## Candidates of the resolvers -/

theorem plain_sibling (dir reference : String) :
    ∀ candidate ∈ sibling dir reference, Path.Plain candidate := by
  intro candidate hmem
  rcases List.mem_cons.mp hmem with rfl | hmem
  · exact Path.plain_join dir reference
  · split at hmem
    · cases hmem
    · obtain rfl := List.mem_singleton.mp hmem
      exact Path.plain_join dir (reference ++ ending)

theorem plain_candidates (p : Packages) {root : String} (hroot : Path.Plain root) (reference : String) :
    ∀ candidate ∈ p.candidates root reference, Path.Plain candidate := by
  intro candidate hmem
  unfold Packages.candidates at hmem
  split at hmem
  · obtain rfl := List.mem_singleton.mp hmem
    exact hroot
  · simp only [List.mem_append, Option.mem_toList, Option.map_eq_some_iff, List.mem_cons,
      List.not_mem_nil, or_false] at hmem
    rcases hmem with ⟨named, -, rfl⟩ | rfl | rfl
    · exact Path.plain_join root named
    · exact Path.plain_join root FileNames.config
    · exact hroot.append (by decide)

theorem plain_package (p : Packages) (dir reference : String) :
    ∀ candidate ∈ package p dir reference, Path.Plain candidate := by
  intro candidate hmem
  unfold package at hmem
  split at hmem
  · cases hmem
  · split at hmem
    · exact plain_sibling dir reference candidate hmem
    · obtain ⟨level, -, hmem⟩ := List.mem_flatMap.mp hmem
      split at hmem
      · exact plain_candidates p (Path.plain_join _ _) reference candidate hmem
      · cases hmem

end Resolver

end ConfigChain

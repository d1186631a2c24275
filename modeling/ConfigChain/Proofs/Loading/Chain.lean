import ConfigChain.Proofs.Loading.Nesting

/-! # Loading from an empty memory

A file is loaded with its whole chain, also where the chain runs into a circle: the file that would come
again is left out. -/

namespace ConfigChain

namespace Memory

variable {source : Source}

theorem nests_of_unfolds {seen keys : List String} (h : source.Unfolds seen keys) {m : Memory}
    (hm : ∀ key, m.known? key = if key ∈ seen then some .pending else none) :
    Nests source m keys none := by
  induction h generalizing m with
  | @last seen key hnew hlast =>
      refine .alone (by rw [hm, if_neg hnew]) fun next hnext => ?_
      rcases List.mem_cons.mp (hlast next hnext) with rfl | hseen
      · exact .inl rfl
      · exact .inr (by rw [hm, if_pos hseen])
  | @step seen key next rest hnew hnext _ ih =>
      refine .inside (by rw [hm, if_neg hnew]) hnext (ih fun k => ?_)
      rw [known?_set, hm]
      by_cases hk : k = key <;> simp [hk]

theorem exists_load_empty (hplain : source.PlainCandidates) {key : String} {keys : List String}
    (h : source.Chain key keys) (hcanonical : Path.Canonical key)
    (hkey : (source.declared key).isOk = true) :
    ∃ m s, Settles source empty keys none m (some s) ∧
      ∀ path depth, Path.normalize path = key → keys.length < depth →
        load source depth empty path = (m, .loaded s) := by
  obtain ⟨rest, rfl⟩ : ∃ rest, keys = key :: rest := List.head?_eq_some_iff.mp h.head
  have hnests : Nests source empty (key :: rest) none :=
    nests_of_unfolds (Source.chain_iff_unfolds.mp h).2 (by simp)
  exact exists_load_of_nests hplain hnests (knowsLoadable_empty source) hcanonical hkey

/-- Loading a file from an empty memory settles the files of its chain and no others, each as the fold of
what the chain declares from there on. -/
theorem load_empty_chain (hfin : source.readable.Finite) (hplain : source.PlainCandidates)
    {path : String} (hpath : Path.Plain path)
    (hload : (source.declared (Path.normalize path)).isOk = true) :
    (∃ keys, source.Chain (Path.normalize path) keys) ∧
      ∀ keys, source.Chain (Path.normalize path) keys →
        ∃ m s, (source.files keys).map Prod.fst = keys ∧
          Settings.chained none (source.files keys) = some s ∧
          (∀ depth, source.readable.ncard < depth → load source depth empty path = (m, .loaded s)) ∧
          (∀ key, key ∉ keys → m.known? key = none) ∧
          ∀ front key back, keys = front ++ key :: back →
            ∃ t, Settings.chained none (source.files (key :: back)) = some t ∧
              m.known? key = some (.settled t) := by
  have hcanonical : Path.Canonical (Path.normalize path) := Path.canonical_normalize hpath
  refine ⟨Source.exists_chain hfin hplain (Source.mem_readable_of_isOk hcanonical hload), ?_⟩
  intro keys hchain
  obtain ⟨m, s, hsettles, hrun⟩ := exists_load_empty hplain hchain hcanonical hload
  have hlength := hchain.length_le hfin hplain hcanonical hload
  refine ⟨m, s, ?_, hsettles.chained_eq, ?_, ?_, ?_⟩
  · exact Source.map_fst_files fun key hkey =>
      Source.isOk_of_reaches ((hchain.mem_iff_reaches key).mp hkey) hload
  · exact fun depth hdepth => hrun path depth rfl (hlength.trans_lt hdepth)
  · exact fun key hkey => (hsettles.outside key hkey).trans (known?_empty key)
  · rintro front key back rfl
    exact hsettles.inside key back (List.suffix_append front (key :: back))

/-- A file outside a circle of two. -/
theorem load_empty_chain_circle :
    let source := Source.linked [("a.json", "./b"), ("b.json", "c.json"), ("c.json", "b")] Resolver.sibling
    source.readable.Finite ∧ source.PlainCandidates ∧ Path.Plain "./x/../a.json" ∧
      (source.declared (Path.normalize "./x/../a.json")).isOk = true ∧
      source.Chain (Path.normalize "./x/../a.json") ["a.json", "b.json", "c.json"] ∧
      ∃ m s, (∀ depth, source.readable.ncard < depth →
          load source depth empty "./x/../a.json" = (m, .loaded s)) ∧
        (∃ t, Settings.chained none (source.files ["b.json", "c.json"]) = some t ∧
          m.known? "b.json" = some (.settled t)) := by
  intro source
  have hfin : source.readable.Finite := Source.finite_readable_linked _ _
  have hplain : source.PlainCandidates := Resolver.plain_sibling
  have hpath : Path.Plain "./x/../a.json" := by decide
  have hfirst : Path.normalize "./x/../a.json" = "a.json" := by decide
  have hload : (source.declared (Path.normalize "./x/../a.json")).isOk = true := by decide +kernel
  have hchain : source.Chain (Path.normalize "./x/../a.json") ["a.json", "b.json", "c.json"] := by
    have hlast : source.Leads "c.json" "b.json" := by decide +kernel
    refine ⟨by rw [hfirst]; rfl, ?_, by decide, ?_⟩
    · have ha : source.Leads "a.json" "b.json" := by decide +kernel
      have hb : source.Leads "b.json" "c.json" := by decide +kernel
      simp [ha, hb]
    · intro key hkey next hnext
      cases hkey
      simp [Source.leads_unique hnext hlast]
  obtain ⟨-, h⟩ := load_empty_chain hfin hplain hpath hload
  obtain ⟨m, s, -, -, hrun, -, hinside⟩ := h _ hchain
  exact ⟨hfin, hplain, hpath, hload, hchain, m, s, hrun, hinside ["a.json"] "b.json" ["c.json"] rfl⟩

end Memory

end ConfigChain

import ConfigChain.Proofs.Loading.Opening
import ConfigChain.Proofs.Loading.Succession
import ConfigChain.Workspace

/-! # Circles that are not seen

A file that is being resolved is marked under its canonical path, and a candidate is compared with the
marks as `normalize` answers it. Where `normalize` has to be applied twice, the candidate goes past the
mark of its own file, which is then opened again. The recursion ends unless it comes into a circle of such
detours. -/

namespace ConfigChain

/-- Neither resolver of a workspace proposes a path with a backslash. -/
theorem Workspace.plainCandidates (w : Workspace) (strategy : Strategy) :
    (w.source (w.resolver strategy)).PlainCandidates := by
  cases strategy with
  | identity => exact Resolver.plain_sibling
  | package => exact Resolver.plain_package w.packages

namespace Memory

open Relation (ReflTransGen TransGen)

variable {source : Source} {m base : Memory} {key : String} {d : Declaration}

/-- Settling one file makes the loading open another. -/
def Follows (source : Source) (m : Memory) (key next : String) : Prop :=
  ∃ d candidate, source.declared key = .ok d ∧ m.Opens source key d candidate ∧
    Path.normalize candidate = next

/-- One file makes the loading open another, under a name that is not canonical. -/
def Detours (source : Source) (m : Memory) (key next : String) : Prop :=
  ∃ d candidate, source.declared key = .ok d ∧ m.Opens source key d candidate ∧
    Path.normalize candidate = next ∧ candidate ≠ next

/-- From a file one comes into a circle of detours. -/
def Circles (source : Source) (m : Memory) (key : String) : Prop :=
  ∃ k, ReflTransGen (Follows source m) key k ∧ TransGen (Detours source m) k k

/-- The file at `key`, which declares `d`, makes the loading open a file from where one comes into a circle
of detours. -/
def Entangled (source : Source) (m : Memory) (key : String) (d : Declaration) : Prop :=
  ∃ candidate, (m.set key .pending).Opens source key d candidate ∧
    Circles source (m.set key .pending) (Path.normalize candidate)

/-! ## Ways into a circle -/

theorem Detours.follows {next : String} (h : Detours source m key next) :
    Follows source m key next := by
  obtain ⟨d, candidate, hd, hopens, hnext, -⟩ := h
  exact ⟨d, candidate, hd, hopens, hnext⟩

theorem Follows.unique {next other : String} (h : Follows source m key next)
    (h' : Follows source m key other) : next = other := by
  obtain ⟨d, candidate, hd, hopens, rfl⟩ := h
  obtain ⟨d', candidate', hd', hopens', rfl⟩ := h'
  obtain rfl : d = d' := Except.ok.inj (hd.symm.trans hd')
  rw [hopens.unique hopens']

theorem reaches_back {k : String} (hcircle : TransGen (Follows source m) key key)
    (h : ReflTransGen (Follows source m) key k) : ReflTransGen (Follows source m) k key := by
  induction h with
  | refl => exact .refl
  | tail _ hlast ih =>
      rcases ih.cases_head with rfl | ⟨next, hfirst, hback⟩
      · obtain ⟨next, hfirst, hback⟩ := TransGen.head'_iff.mp hcircle
        exact hlast.unique hfirst ▸ hback
      · exact hlast.unique hfirst ▸ hback

/-- Whatever follows a file of a circle of detours is on it as well. -/
theorem circle_of_reaches {k : String} (hcircle : TransGen (Detours source m) key key)
    (h : ReflTransGen (Follows source m) key k) : TransGen (Detours source m) k k := by
  induction h with
  | refl => exact hcircle
  | tail _ hlast ih =>
      obtain ⟨next, hfirst, hback⟩ := TransGen.head'_iff.mp ih
      obtain rfl := hlast.unique hfirst.follows
      exact .tail' hback hfirst

/-- A file that comes into a circle of detours opens the next one, whatever is marked on the way to it. -/
theorem exists_opens_of_circles {marks : List String} (hd : source.declared key = .ok d)
    (hcanonical : ∀ k ∈ key :: marks, Path.Canonical k)
    (hmarks : ∀ k ∈ key :: marks, ReflTransGen (Follows source base) k key)
    (h : Circles source base key) :
    ∃ candidate, base.Opens source key d candidate ∧ candidate ∉ key :: marks ∧
      Follows source base key (Path.normalize candidate) ∧
      Circles source base (Path.normalize candidate) := by
  obtain ⟨k, hreach, hcircle⟩ := h
  by_cases hself : TransGen (Detours source base) key key
  -- On the circle the next step is a detour, and marks are canonical.
  · obtain ⟨next, hdetour, hback⟩ := TransGen.head'_iff.mp hself
    obtain ⟨d', candidate, hd', hopens, rfl, hne⟩ := id hdetour
    obtain rfl := Except.ok.inj (hd.symm.trans hd')
    refine ⟨candidate, hopens, ?_, hdetour.follows, _, .refl, .tail' hback hdetour⟩
    intro hmem
    exact hne (hcanonical candidate hmem).symm
  · rcases hreach.cases_head with rfl | ⟨next, hfollows, hrest⟩
    · exact absurd hcircle hself
    · obtain ⟨d', candidate, hd', hopens, rfl⟩ := id hfollows
      obtain rfl := Except.ok.inj (hd.symm.trans hd')
      refine ⟨candidate, hopens, ?_, hfollows, k, hrest, hcircle⟩
      intro hmem
      -- A step back to a marked file would close a circle before the circle of detours.
      have hnormalize : Path.normalize candidate = candidate := hcanonical candidate hmem
      have hround : TransGen (Follows source base) key key :=
        .head' hfollows (hnormalize.symm ▸ hmarks candidate hmem)
      exact hself (circle_of_reaches hcircle (reaches_back hround hreach))

/-- From a file that comes into a circle of detours no depth is enough. -/
theorem resolve_unfinished_of_circles {marks : List String} (hm : Marked source base marks m)
    (hd : source.declared key = .ok d) (hcanonical : Path.Canonical key)
    (hunsettled : base.get? key = none)
    (hmarks : ∀ k ∈ marks, ReflTransGen (Follows source base) k key) (h : Circles source base key)
    (depth : Nat) : (m.resolve (load source depth) source key d).2 = .unfinished := by
  induction depth generalizing m marks key d with
  | zero =>
      have hm' := hm.cons hcanonical (Source.isOk_of_eq hd) hunsettled
      obtain ⟨candidate, hopens, hnew, -, -⟩ := exists_opens_of_circles hd hm'.canonical
        (List.forall_mem_cons.mpr ⟨.refl, hmarks⟩) h
      exact resolve_zero_of_opens (hm'.opens_iff.mpr ⟨hopens, hnew⟩)
  | succ depth ih =>
      have hm' := hm.cons hcanonical (Source.isOk_of_eq hd) hunsettled
      have hmarks' := List.forall_mem_cons.mpr ⟨.refl, hmarks⟩
      obtain ⟨candidate, hopens, hnew, hfollows, hnext⟩ :=
        exists_opens_of_circles hd hm'.canonical hmarks' h
      obtain ⟨d', hd'⟩ := hopens.exists_declared
      refine (resolve_unfinished_iff source depth m key d).mpr
        ⟨candidate, d', hm'.opens_iff.mpr ⟨hopens, hnew⟩, hd', ?_⟩
      exact ih hm' hd' hopens.canonical hopens.get?_normalize
        (fun k hk => (hmarks' k hk).tail hfollows) hnext

/-! ## Recursions without a circle -/

/-- The readable files from where one does not come into a circle of detours. -/
abbrev Clear (source : Source) (base : Memory) : Type :=
  {key // key ∈ source.readable ∧ ¬ Circles source base key}

theorem wellFounded_detours (hfin : source.readable.Finite) (base : Memory) :
    WellFounded fun next key : Clear source base => Detours source base key next := by
  have : Finite (Clear source base) := (hfin.subset fun key hkey => hkey.1).to_subtype
  have hlift {next key : Clear source base}
      (h : TransGen (fun next key : Clear source base => Detours source base key next) next key) :
      TransGen (Detours source base) key next := by
    induction h with
    | single hstep => exact .single hstep
    | tail _ hstep ih => exact .head hstep ih
  have hirrefl : Std.Irrefl
      (TransGen fun next key : Clear source base => Detours source base key next) :=
    ⟨fun key hkey => key.2.2 ⟨key, .refl, hlift hkey⟩⟩
  have htrans : WellFounded (TransGen fun next key : Clear source base => Detours source base key next) :=
    Finite.wellFounded_of_trans_of_irrefl _
  exact Subrelation.wf (fun hstep => .single hstep) htrans

/-- Where the file that a file opens is settled at some depth, the file itself is at one more. -/
theorem exists_finished_of_opens
    (h : ∀ candidate d', (m.set key .pending).Opens source key d candidate →
      source.declared (Path.normalize candidate) = .ok d' →
      ∃ depth, ((m.set key .pending).resolve (load source depth) source
        (Path.normalize candidate) d').2 ≠ .unfinished) :
    ∃ depth, (m.resolve (load source depth) source key d).2 ≠ .unfinished := by
  by_cases hnext : ∃ candidate, (m.set key .pending).Opens source key d candidate
  · obtain ⟨candidate, hopens⟩ := hnext
    obtain ⟨d', hd'⟩ := hopens.exists_declared
    obtain ⟨depth, hfinished⟩ := h candidate d' hopens hd'
    refine ⟨depth + 1, fun hunfinished => hfinished ?_⟩
    obtain ⟨other, d'', hother, hd'', hrest⟩ :=
      (resolve_unfinished_iff source depth m key d).mp hunfinished
    obtain rfl := hopens.unique hother
    obtain rfl := Except.ok.inj (hd'.symm.trans hd'')
    exact hrest
  · refine ⟨1, fun hunfinished => hnext ?_⟩
    obtain ⟨candidate, -, hopens, -⟩ := (resolve_unfinished_iff source 0 m key d).mp hunfinished
    exact ⟨candidate, hopens⟩

/-- The measure is the number of readable files that are not open. Where it stays the same, a file is
opened again by a detour. -/
theorem exists_resolve_finished (hfin : source.readable.Finite) {n : Nat} {marks : List String}
    (hm : Marked source base marks m) (k : Clear source base) (hd : source.declared k = .ok d)
    (hunsettled : base.get? k = none) (hn : (source.readable \ {j | j ∈ k.1 :: marks}).ncard = n) :
    ∃ depth, (m.resolve (load source depth) source k d).2 ≠ .unfinished := by
  induction n using Nat.strong_induction_on generalizing m marks k d with
  | h n ihn =>
      induction k using (wellFounded_detours hfin base).induction generalizing m marks d with
      | h k ihk =>
          obtain ⟨⟨hcanonical, -⟩, hclear⟩ := k.2
          have hm' := hm.cons hcanonical (Source.isOk_of_eq hd) hunsettled
          refine exists_finished_of_opens fun candidate d' hopens' hd' => ?_
          obtain ⟨hopens, hnew⟩ := hm'.opens_iff.mp hopens'
          have hfollows : Follows source base k (Path.normalize candidate) :=
            ⟨d, candidate, hd, hopens, rfl⟩
          have hreadable : Path.normalize candidate ∈ source.readable :=
            Source.mem_readable_of_isOk hopens.canonical (Source.isOk_of_eq hd')
          have hnext : ¬ Circles source base (Path.normalize candidate) := fun ⟨j, hreach, hcircle⟩ =>
            hclear ⟨j, .head hfollows hreach, hcircle⟩
          by_cases hseen : Path.normalize candidate ∈ k.1 :: marks
          · have hsame : source.readable \ {j | j ∈ Path.normalize candidate :: k.1 :: marks} =
                source.readable \ {j | j ∈ k.1 :: marks} := by
              ext j
              simp only [Set.mem_sdiff, Set.mem_ofPred_eq, List.mem_cons (b := Path.normalize candidate)]
              grind
            have hdetour : Detours source base k (Path.normalize candidate) :=
              ⟨d, candidate, hd, hopens, rfl, fun heq => hnew (heq ▸ hseen)⟩
            exact ihk ⟨_, hreadable, hnext⟩ hdetour hm' hd' hopens.get?_normalize (hsame ▸ hn)
          · exact ihn _ (hn ▸ Source.ncard_unopened_lt hfin hreadable hseen) hm' ⟨_, hreadable, hnext⟩ hd'
              hopens.get?_normalize rfl

/-! ## The recursion ends -/

theorem ends_resolve_iff_not_entangled (hfin : source.readable.Finite) (m : Memory) (key : String)
    (d : Declaration) :
    Ends (fun depth => m.resolve (load source depth) source key d) ↔ ¬ Entangled source m key d := by
  rw [ends_resolve_iff]
  have hm := Marked.nil source (m.set key .pending)
  constructor
  · rintro ⟨depth, hfinished⟩ ⟨candidate, hopens, hcircles⟩
    obtain ⟨d', hd'⟩ := hopens.exists_declared
    have hunfinished := resolve_unfinished_of_circles hm hd' hopens.canonical hopens.get?_normalize
      (by simp) hcircles depth
    have hmore := (resolve_unfinished_iff source depth m key d).mpr
      ⟨candidate, d', hopens, hd', hunfinished⟩
    rw [(refines_load_succ source depth).resolve source m key d hfinished] at hmore
    exact hfinished hmore
  · intro h
    refine exists_finished_of_opens fun candidate d' hopens hd' => ?_
    have hreadable : Path.normalize candidate ∈ source.readable :=
      Source.mem_readable_of_isOk hopens.canonical (Source.isOk_of_eq hd')
    have hclear : ¬ Circles source (m.set key .pending) (Path.normalize candidate) :=
      fun hcircles => h ⟨candidate, hopens, hcircles⟩
    exact exists_resolve_finished hfin hm ⟨_, hreadable, hclear⟩ hd' hopens.get?_normalize rfl

theorem ends_load_iff_not_entangled (hfin : source.readable.Finite) (m : Memory) (path : String) :
    Ends (fun depth => load source depth m path) ↔
      ∀ d, m.get? (Path.normalize path) = none → source.declared (Path.normalize path) = .ok d →
        ¬ Entangled source m (Path.normalize (Path.normalize path)) d := by
  rw [ends_load_iff]
  cases hget : m.get? (Path.normalize path) with
  | some s => exact iff_of_true ⟨1, by simp [load_of_get? hget]⟩ (by simp)
  | none =>
      cases hd : source.declared (Path.normalize path) with
      | error fault => exact iff_of_true ⟨1, by simp [load_of_error hget hd]⟩ (by simp)
      | ok d =>
          have hresolve := ends_resolve_iff_not_entangled hfin m (Path.normalize (Path.normalize path)) d
          rw [ends_resolve_iff] at hresolve
          simp only [forall_const, Except.ok.injEq, forall_eq', ← hresolve]
          constructor
          · rintro ⟨depth, hfinished⟩
            cases depth with
            | zero => exact absurd rfl hfinished
            | succ depth => exact ⟨depth, load_of_ok hget hd depth ▸ hfinished⟩
          · rintro ⟨depth, hfinished⟩
            exact ⟨depth + 1, (load_of_ok hget hd depth).symm ▸ hfinished⟩

theorem ends_parse_iff_not_entangled (hfin : source.readable.Finite) (m : Memory) (path : String)
    (text : Bytes) :
    Ends (fun depth => parse source depth m path text) ↔
      ∀ d, Declaration.parse text = .ok d → ¬ Entangled source m (Path.normalize path) d := by
  unfold parse parseWith
  cases hparse : Declaration.parse text with
  | error fault => exact iff_of_true ⟨0, _, by simp, fun _ _ => rfl⟩ (by simp)
  | ok d =>
      simp only [Except.ok.injEq, forall_eq']
      exact ends_resolve_iff_not_entangled hfin m (Path.normalize path) d

/-- Without backslashes there are no detours. -/
theorem not_entangled_of_plainCandidates (hplain : source.PlainCandidates) (m : Memory) (key : String)
    (d : Declaration) : ¬ Entangled source m key d := by
  rintro ⟨candidate, -, k, -, hcircle⟩
  obtain ⟨next, ⟨d', other, -, hopens, rfl, hne⟩, -⟩ := TransGen.head'_iff.mp hcircle
  obtain ⟨written, hmem, rfl⟩ := exists_written_of_next? hopens.next
  exact hne (Path.canonical_normalize (hplain _ _ written hmem)).symm

/-- The recursion ends for both resolvers of a workspace. -/
theorem ends_workspace (w : Workspace) (strategy : Workspace.Strategy)
    (hfin : (w.source (w.resolver strategy)).readable.Finite) (m : Memory) (path : String)
    (text : Bytes) :
    Ends (fun depth => load (w.source (w.resolver strategy)) depth m path) ∧
      Ends (fun depth => parse (w.source (w.resolver strategy)) depth m path text) := by
  have hplain := w.plainCandidates strategy
  refine ⟨(ends_load_iff_not_entangled hfin m path).mpr ?_,
    (ends_parse_iff_not_entangled hfin m path text).mpr ?_⟩
  · exact fun d _ _ => not_entangled_of_plainCandidates hplain m _ d
  · exact fun d _ => not_entangled_of_plainCandidates hplain m _ d

/-- The recursion of a load and of a parse ends unless the file is entangled. -/
theorem ends_iff_not_entangled (hfin : source.readable.Finite) (m : Memory) (path : String)
    (text : Bytes) :
    (Ends (fun depth => load source depth m path) ↔
      ∀ d, m.get? (Path.normalize path) = none → source.declared (Path.normalize path) = .ok d →
        ¬ Entangled source m (Path.normalize (Path.normalize path)) d) ∧
    (Ends (fun depth => parse source depth m path text) ↔
      ∀ d, Declaration.parse text = .ok d → ¬ Entangled source m (Path.normalize path) d) :=
  ⟨ends_load_iff_not_entangled hfin m path, ends_parse_iff_not_entangled hfin m path text⟩

/-- A file that extends itself under its own name. -/
theorem ends_of_self_reference :
    let source := Source.linked [("b.json", "./b")] Resolver.sibling
    source.readable.Finite ∧ Ends (fun depth => load source depth empty "b.json") := by
  intro source
  have hfin : source.readable.Finite := Source.finite_readable_linked _ _
  have hplain : source.PlainCandidates := Resolver.plain_sibling
  refine ⟨hfin, (ends_iff_not_entangled hfin empty "b.json" []).1.mpr fun d _ _ => ?_⟩
  exact not_entangled_of_plainCandidates hplain empty _ d

/-- A file that extends itself by a detour: `x\..\b.json` is normalized to `x/../b.json` first. -/
theorem not_ends_of_detour :
    let source := Source.linked [("b.json", "x")] fun _ _ => ["x\\..\\b.json"]
    source.readable.Finite ∧ (∀ key, empty.known? key ≠ some .pending) ∧
      ¬ Ends (fun depth => load source depth empty "b.json") := by
  intro source
  have hfin : source.readable.Finite := Source.finite_readable_linked _ _
  refine ⟨hfin, by simp, ?_⟩
  have hkey : Path.normalize "b.json" = "b.json" := by decide
  have hcandidate : Path.normalize "x/../b.json" = "b.json" := by decide
  have hd : source.declared "b.json" = .ok { reference := some "x" } := by decide +kernel
  have hopens : (empty.set "b.json" .pending).Opens source "b.json" { reference := some "x" }
      "x/../b.json" := ⟨by decide +kernel, by decide, by decide⟩
  rw [ends_load_iff_not_entangled hfin]
  intro hends
  refine hends { reference := some "x" } (by decide) (by rw [hkey, hd]) ?_
  rw [hkey, hkey]
  refine ⟨"x/../b.json", hopens, "b.json", ?_, .single ⟨_, _, hd, hopens, hcandidate, by decide⟩⟩
  rw [hcandidate]

end Memory

end ConfigChain

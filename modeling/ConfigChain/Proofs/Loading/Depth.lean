import ConfigChain.Proofs.Loading.Step

/-! # Depth

The depth bounds how many files are open one inside the other, and nothing else: a result that is finished
stays the same at every greater depth. A recursion that ends is one that some depth is enough for. -/

namespace ConfigChain

namespace Memory

variable {source : Source}

/-- Every finished answer of `load` is an answer of `load'`. -/
def Refines (load load' : Memory → String → Memory × Outcome) : Prop :=
  ∀ m path, (load m path).2 ≠ .unfinished → load' m path = load m path

/-- Some depth is enough for a run, and more depth does not change what it answers. -/
def Ends (run : Nat → Memory × Outcome) : Prop :=
  ∃ depth result, result.2 ≠ .unfinished ∧ ∀ more, depth ≤ more → run more = result

/-! ## Finished results -/

theorem Refines.search {load load' : Memory → String → Memory × Outcome} (h : Refines load load')
    (m : Memory) (candidates : List String) (hfinished : (m.search load candidates).2 ≠ .unfinished) :
    m.search load' candidates = m.search load candidates := by
  induction candidates generalizing m with
  | nil => rfl
  | cons candidate rest ih =>
      cases hentry : m.known? (Path.normalize candidate) with
      | some e => cases e <;> simp only [Memory.search, hentry]
      | none =>
          have hload := h m (Path.normalize candidate)
          simp only [Memory.search, hentry] at hfinished ⊢
          generalize load m (Path.normalize candidate) = result at hfinished hload ⊢
          obtain ⟨m', outcome⟩ := result
          cases outcome with
          | loaded s => rw [hload (by simp)]
          | failed fault =>
              rw [hload (by simp)]
              exact ih m' hfinished
          | unfinished => exact absurd rfl hfinished

theorem Refines.resolve {load load' : Memory → String → Memory × Outcome} (h : Refines load load')
    (source : Source) (m : Memory) (key : String) (d : Declaration)
    (hfinished : (m.resolve load source key d).2 ≠ .unfinished) :
    m.resolve load' source key d = m.resolve load source key d := by
  unfold Memory.resolve base at *
  by_cases href : d.referenceText = ""
  · simp only [href, if_true]
  · simp only [href, if_false] at hfinished ⊢
    have hsearch := h.search (m.set key .pending) (source.resolver (Path.directory key) d.referenceText)
    rw [hsearch]
    intro hunfinished
    generalize (m.set key .pending).search load _ = result at hfinished hunfinished
    obtain ⟨m', found⟩ := result
    cases hunfinished
    exact hfinished rfl

theorem Refines.parseWith {load load' : Memory → String → Memory × Outcome} (h : Refines load load')
    (source : Source) (m : Memory) (path : String) (text : Bytes)
    (hfinished : (m.parseWith load source path text).2 ≠ .unfinished) :
    m.parseWith load' source path text = m.parseWith load source path text := by
  unfold Memory.parseWith at *
  cases hparse : Declaration.parse text with
  | error fault => rfl
  | ok d =>
      simp only [hparse] at hfinished ⊢
      exact h.resolve source m _ d hfinished

theorem refines_load_succ (source : Source) (depth : Nat) :
    Refines (load source depth) (load source (depth + 1)) := by
  induction depth with
  | zero => exact fun m path hfinished => absurd rfl hfinished
  | succ depth ih =>
      intro m path hfinished
      rw [load] at hfinished
      rw [load, load]
      cases hget : m.get? (Path.normalize path) with
      | some s => rfl
      | none =>
          simp only [hget] at hfinished ⊢
          cases hread : source.read (Path.normalize path) with
          | error fault => rfl
          | ok text =>
              simp only [hread] at hfinished ⊢
              exact ih.parseWith source m _ text hfinished

theorem refines_load (source : Source) {depth more : Nat} (h : depth ≤ more) :
    Refines (load source depth) (load source more) := by
  induction h with
  | refl => exact fun m path _ => rfl
  | step _ ih =>
      intro m path hfinished
      have hmore := ih m path hfinished
      rw [refines_load_succ source _ m path (hmore ▸ hfinished), hmore]

/-! ## Recursions that end -/

theorem ends_of_refines {run : Nat → Memory × Outcome}
    (h : ∀ depth more, depth ≤ more → (run depth).2 ≠ .unfinished → run more = run depth) :
    Ends run ↔ ∃ depth, (run depth).2 ≠ .unfinished := by
  constructor
  · rintro ⟨depth, result, hfinished, hrun⟩
    exact ⟨depth, by rwa [hrun depth le_rfl]⟩
  · rintro ⟨depth, hfinished⟩
    exact ⟨depth, run depth, hfinished, fun more hmore => h depth more hmore hfinished⟩

theorem ends_resolve_iff (source : Source) (m : Memory) (key : String) (d : Declaration) :
    Ends (fun depth => m.resolve (load source depth) source key d) ↔
      ∃ depth, (m.resolve (load source depth) source key d).2 ≠ .unfinished :=
  ends_of_refines fun _ _ h => (refines_load source h).resolve source m key d

theorem ends_load_iff (source : Source) (m : Memory) (path : String) :
    Ends (fun depth => load source depth m path) ↔ ∃ depth, (load source depth m path).2 ≠ .unfinished :=
  ends_of_refines fun _ _ h => refines_load source h m path

end Memory

end ConfigChain

import ConfigChain.Proofs.Loading.Nesting

/-! # The texts that a load comes to

Loading, with a log of the paths whose text was read and given to the parser. The log does not change what
is loaded. A file brings its own text, then those of the candidates that are passed over because they are
malformed, and then the texts of the file that it extends. -/

namespace ConfigChain

namespace Source

/-- The candidates for what the file at `key` extends that hold a text and are passed over all the same:
those before the first that can be loaded. -/
def passedOver (source : Source) (candidates : List String) : List String :=
  ((candidates.map Path.normalize).takeWhile fun candidate => !(source.declared candidate).isOk).filter
    fun candidate => (source.read candidate).isOk

/-- The texts that settling the file at `key` comes to, without those of the file that it extends. -/
def texts (source : Source) (key : String) : List String :=
  key :: match source.declared key with
    | .error _ => []
    | .ok d =>
      if d.referenceText = "" then []
      else source.passedOver (source.resolver (Path.directory key) d.referenceText)

end Source

namespace Memory

/-- A result, and the paths of the texts that were parsed for it, in their order. -/
abbrev Logged (α : Type) : Type := α × List String

/-- `search`, with the log. -/
def searchLogged (load : Memory → String → Logged (Memory × Outcome)) (m : Memory) :
    List String → Logged (Memory × Search)
  | [] => ((m, .nothing), [])
  | candidate :: rest =>
    match m.known? (Path.normalize candidate) with
    | some (.settled s) => ((m, .found s), [])
    | some .pending => ((m, .nothing), [])
    | none =>
      match load m (Path.normalize candidate) with
      | ((m, .loaded s), log) => ((m, .found s), log)
      | ((m, .failed _), log) =>
        ((searchLogged load m rest).1, log ++ (searchLogged load m rest).2)
      | ((m, .unfinished), log) => ((m, .unfinished), log)

/-- `base`, with the log. -/
def baseLogged (load : Memory → String → Logged (Memory × Outcome)) (source : Source) (m : Memory)
    (key : String) (d : Declaration) : Logged (Memory × Search) :=
  if d.referenceText = "" then ((m, .nothing), [])
  else m.searchLogged load (source.resolver (Path.directory key) d.referenceText)

/-- `resolve`, with the log. -/
def resolveLogged (load : Memory → String → Logged (Memory × Outcome)) (source : Source) (m : Memory)
    (key : String) (d : Declaration) : Logged (Memory × Outcome) :=
  let settle (m : Memory) (base : Option Settings) : Memory × Outcome :=
    let s := Settings.inherit key d base
    (m.set key (.settled s), .loaded s)
  match (m.set key .pending).baseLogged load source key d with
  | ((m, .found s), log) => (settle m (some s), log)
  | ((m, .nothing), log) => (settle m none, log)
  | ((m, .unfinished), log) => ((m, .unfinished), log)

/-- `parseWith`, with the log. -/
def parseWithLogged (load : Memory → String → Logged (Memory × Outcome)) (source : Source) (m : Memory)
    (path : String) (text : Bytes) : Logged (Memory × Outcome) :=
  let key := Path.normalize path
  match Declaration.parse text with
  | .error fault => ((m, .failed (.malformed (Path.beneath source.root key) fault)), [])
  | .ok d => m.resolveLogged load source key d

/-- `load`, with the log: a text is noted before it is parsed. -/
def loadLogged (source : Source) : Nat → Memory → String → Logged (Memory × Outcome)
  | 0, m, _ => ((m, .unfinished), [])
  | depth + 1, m, path =>
    let key := Path.normalize path
    match m.get? key with
    | some s => ((m, .loaded s), [])
    | none =>
      match source.read key with
      | .error fault => ((m, .failed (.unreadable (Path.beneath source.root key) fault)), [])
      | .ok text =>
        ((m.parseWithLogged (loadLogged source depth) source key text).1,
          key :: (m.parseWithLogged (loadLogged source depth) source key text).2)

variable {source : Source} {m : Memory} {key : String} {d : Declaration}

/-! ## The log changes nothing -/

/-- The first part of every answer of `load'` is the answer of `load`. -/
def Logs (load' : Memory → String → Logged (Memory × Outcome))
    (load : Memory → String → Memory × Outcome) : Prop :=
  ∀ m path, (load' m path).1 = load m path

section

variable {load' : Memory → String → Logged (Memory × Outcome)}
variable {load : Memory → String → Memory × Outcome}

theorem Logs.search (h : Logs load' load) (m : Memory) (candidates : List String) :
    (m.searchLogged load' candidates).1 = m.search load candidates := by
  induction candidates generalizing m with
  | nil => rfl
  | cons candidate rest ih =>
      cases hentry : m.known? (Path.normalize candidate) with
      | some e => cases e <;> simp only [searchLogged, Memory.search, hentry]
      | none =>
          have hload := h m (Path.normalize candidate)
          simp only [searchLogged, Memory.search, hentry]
          generalize load' m (Path.normalize candidate) = logged at hload ⊢
          obtain ⟨⟨m', outcome⟩, log⟩ := logged
          rw [← hload]
          cases outcome with
          | loaded s => rfl
          | failed fault => exact ih m'
          | unfinished => rfl

theorem Logs.resolve (h : Logs load' load) (source : Source) (m : Memory) (key : String)
    (d : Declaration) : (m.resolveLogged load' source key d).1 = m.resolve load source key d := by
  have hbase : ((m.set key .pending).baseLogged load' source key d).1 =
      (m.set key .pending).base load source key d := by
    unfold baseLogged base
    split
    · rfl
    · exact h.search _ _
  unfold resolveLogged Memory.resolve
  generalize (m.set key .pending).baseLogged load' source key d = logged at hbase ⊢
  obtain ⟨⟨m', found⟩, log⟩ := logged
  rw [← hbase]
  cases found <;> rfl

theorem Logs.parseWith (h : Logs load' load) (source : Source) (m : Memory) (path : String)
    (text : Bytes) : (m.parseWithLogged load' source path text).1 = m.parseWith load source path text := by
  unfold parseWithLogged Memory.parseWith
  cases Declaration.parse text with
  | error fault => rfl
  | ok d => exact h.resolve source m _ d

end

theorem logs_load (source : Source) (depth : Nat) :
    Logs (loadLogged source depth) (load source depth) := by
  induction depth with
  | zero => exact fun _ _ => rfl
  | succ depth ih =>
      intro m path
      rw [loadLogged, load]
      cases m.get? (Path.normalize path) with
      | some s => rfl
      | none =>
          cases source.read (Path.normalize path) with
          | error fault => rfl
          | ok text => exact ih.parseWith source m _ text

/-! ## The log of a file -/

theorem loadLogged_of_read_error {fault : FileFault} (hget : m.get? (Path.normalize key) = none)
    (hread : source.read (Path.normalize key) = .error fault) (depth : Nat) :
    (loadLogged source (depth + 1) m key).2 = [] := by
  simp only [loadLogged, hget, hread]

theorem loadLogged_of_malformed {text : Bytes} {fault : Json.Fault}
    (hget : m.get? (Path.normalize key) = none) (hread : source.read (Path.normalize key) = .ok text)
    (hparse : Declaration.parse text = .error fault) (depth : Nat) :
    (loadLogged source (depth + 1) m key).2 = [Path.normalize key] := by
  simp only [loadLogged, hget, hread, parseWithLogged, hparse]

theorem loadLogged_of_ok (hget : m.get? (Path.normalize key) = none)
    (hd : source.declared (Path.normalize key) = .ok d) (depth : Nat) :
    (loadLogged source (depth + 1) m key).2 = Path.normalize key ::
      ((m.set (Path.normalize (Path.normalize key)) .pending).baseLogged (loadLogged source depth) source
        (Path.normalize (Path.normalize key)) d).2 := by
  unfold Source.declared at hd
  split at hd
  · cases hd
  · rename_i text hread
    split at hd
    · cases hd
    · rename_i hparse
      cases hd
      simp only [loadLogged, hget, hread, parseWithLogged, hparse, resolveLogged]
      generalize baseLogged _ _ _ _ _ = logged
      obtain ⟨⟨m', found⟩, log⟩ := logged
      cases found <;> rfl

/-- Without depth no text is read. -/
theorem baseLogged_zero (source : Source) (m : Memory) (key : String) (d : Declaration) :
    (m.baseLogged (loadLogged source 0) source key d).2 = [] := by
  unfold baseLogged
  split
  · rfl
  · cases source.resolver (Path.directory key) d.referenceText with
    | nil => rfl
    | cons candidate rest =>
        cases hentry : m.known? (Path.normalize candidate) with
        | some e => cases e <;> simp only [searchLogged, hentry]
        | none => simp only [searchLogged, hentry, loadLogged]

/-! ## The log of a search -/

theorem get?_of_canonical (hcanonical : Path.Canonical key) (hnew : m.known? key = none) :
    m.get? (Path.normalize key) = none := by
  have hnormalize : Path.normalize key = key := hcanonical
  simp [get?, hnormalize, hnew]

theorem passedOver_cons_of_isOk {candidate : String} (rest : List String)
    (h : (source.declared (Path.normalize candidate)).isOk = true) :
    source.passedOver (candidate :: rest) = [] := by
  simp [Source.passedOver, h]

/-- A candidate that cannot be loaded is passed over with its text, if there is one. -/
theorem passedOver_cons_of_error {candidate : String} (rest : List String) {fault : LoadFault}
    (hcanonical : Path.Canonical (Path.normalize candidate))
    (hnew : m.known? (Path.normalize candidate) = none)
    (h : source.declared (Path.normalize candidate) = .error fault) (depth : Nat) :
    source.passedOver (candidate :: rest) =
      (loadLogged source (depth + 1) m (Path.normalize candidate)).2 ++ source.passedOver rest := by
  have hget := get?_of_canonical hcanonical hnew
  have hnormalize : Path.normalize (Path.normalize candidate) = Path.normalize candidate := hcanonical
  have hnotOk : (source.declared (Path.normalize candidate)).isOk = false := by
    simp [h, Except.isOk, Except.toBool]
  simp only [Source.passedOver, List.map_cons, List.takeWhile_cons, hnotOk, Bool.not_false, if_true,
    List.filter_cons]
  cases hread : source.read (Path.normalize candidate) with
  | error readFault =>
      rw [loadLogged_of_read_error hget (hnormalize.symm ▸ hread) depth]
      rfl
  | ok text =>
      cases hparse : Declaration.parse text with
      | ok d => simp [Source.declared, hread, hparse] at h
      | error parseFault =>
          rw [loadLogged_of_malformed hget (hnormalize.symm ▸ hread) hparse depth, hnormalize]
          rfl

/-- A search comes to the texts of the candidates that are passed over, and to those of the candidate that
ends it unless something is known of that one. -/
theorem searchLogged_eq (hm : m.KnowsLoadable source) {candidates : List String}
    (hplain : ∀ candidate ∈ candidates, Path.Plain candidate) (depth : Nat) :
    (m.searchLogged (loadLogged source (depth + 1)) candidates).2 =
      source.passedOver candidates ++
        match (candidates.map Path.normalize).find? fun candidate => (source.declared candidate).isOk with
        | none => []
        | some candidate =>
          if (m.known? candidate).isSome then []
          else (loadLogged source (depth + 1) m candidate).2 := by
  induction candidates with
  | nil => rfl
  | cons candidate rest ih =>
      obtain ⟨hcandidate, hrest⟩ := List.forall_mem_cons.mp hplain
      have hcanonical := Path.canonical_normalize hcandidate
      cases hd : source.declared (Path.normalize candidate) with
      | ok d =>
          have hok := Source.isOk_of_eq hd
          simp only [passedOver_cons_of_isOk rest hok, List.map_cons, List.find?_cons, hok, List.nil_append]
          cases hentry : m.known? (Path.normalize candidate) with
          | some e => cases e <;> simp [searchLogged, hentry]
          | none =>
              have hdecides : m.decides source (Path.normalize candidate) = true := by
                rw [decides_eq hm hcanonical, hok]
              have hfailed := load_ne_failed (Path.plain_normalize candidate) hentry hdecides depth
              rw [← logs_load source (depth + 1) m] at hfailed
              simp only [searchLogged, hentry]
              generalize loadLogged source (depth + 1) m (Path.normalize candidate) = logged at hfailed ⊢
              obtain ⟨⟨m', outcome⟩, log⟩ := logged
              cases outcome with
              | loaded s => simp
              | failed fault => exact absurd rfl (hfailed fault)
              | unfinished => simp
      | error fault =>
          have hnew : m.known? (Path.normalize candidate) = none := by
            cases hentry : m.known? (Path.normalize candidate) with
            | none => rfl
            | some e => simpa [hd, Except.isOk, Except.toBool] using hm _ e hentry
          have hnormalize : Path.normalize (Path.normalize candidate) = Path.normalize candidate :=
            hcanonical
          have hload := logs_load source (depth + 1) m (Path.normalize candidate)
          rw [load_of_error (get?_of_canonical hcanonical hnew) (hnormalize.symm ▸ hd) depth] at hload
          have hnotOk : (source.declared (Path.normalize candidate)).isOk = false := by
            simp [hd, Except.isOk, Except.toBool]
          simp only [List.map_cons, List.find?_cons, hnotOk]
          rw [passedOver_cons_of_error rest hcanonical hnew hd depth, List.append_assoc, ← ih hrest]
          simp only [searchLogged, hnew]
          generalize loadLogged source (depth + 1) m (Path.normalize candidate) = logged at hload ⊢
          obtain ⟨result, log⟩ := logged
          cases hload
          rfl

/-- The texts of a file of which nothing is known, and of those that are opened inside it. -/
theorem loadLogged_of_new (hplain : source.PlainCandidates) (hm : m.KnowsLoadable source)
    (hcanonical : Path.Canonical key) (hnew : m.known? key = none)
    (hd : source.declared key = .ok d) (depth : Nat) :
    (loadLogged source (depth + 2) m key).2 = source.texts key ++
      match source.successor? key with
      | none => []
      | some next =>
        if (known? (m.set key .pending) next).isSome then []
        else (loadLogged source (depth + 1) (m.set key .pending) next).2 := by
  have hnormalize : Path.normalize key = key := hcanonical
  have hmarked := hm.set (Source.isOk_of_eq hd) .pending
  rw [loadLogged_of_ok (get?_of_canonical hcanonical hnew) (hnormalize.symm ▸ hd), hnormalize, hnormalize]
  simp only [baseLogged, Source.texts, Source.successor?, hd]
  split
  · rfl
  · rw [searchLogged_eq hmarked (hplain _ _), List.cons_append]

end Memory

end ConfigChain

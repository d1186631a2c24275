import ConfigChain.Proofs.Loading.Lookup
import ConfigChain.Proofs.Path.Seams

/-! # The path that settings name

Settings hold the two parts of the path that they were made for, and name what the parts are joined to. Nothing is lost
by that: the parts tell paths without backslashes apart just as their canonical forms do. -/

namespace ConfigChain

namespace Memory

open ConfigChain.Path (Plain Canonical SplitsInto directory fileName join normalize)

variable {m m' : Memory} {s : Settings} {r : Request} {p : String} {earlier : List (Request × Outcome)}

/-- The path that a request is about. -/
def Request.path : Request → String
  | .load _ _ path => path
  | .parse _ _ path _ => path

/-- What a request is answered with stands in the memory under its path. -/
theorem known?_of_answer (hp : Plain r.path) (hanswer : r.answer m = (m', .loaded s)) :
    m'.known? (normalize r.path) = some (.settled s) := by
  cases r with
  | load source depth path =>
      have hentry := (answered_load hanswer (by simp)).loaded source depth path s rfl rfl
      have hcanonical : normalize (normalize path) = normalize path := Path.canonical_normalize hp
      rwa [hcanonical] at hentry
  | parse source depth path text => exact (m'.get?_eq_some_iff path s).mp (get?_parse hanswer)

theorem configPath_of_layered_normalize (hp : Plain p) {answers : List (Request × Outcome)}
    (h : s.Layered (Offering answers) (normalize p)) : s.configPath = normalize p :=
  (configPath_of_layered h).trans (Path.canonical_normalize hp)

/-- A path is split into its directory, which is canonical, and the last segment of its canonical form, and joined of
the two. Settings that are made for the path name it so: those of a declaration laid over whatever it extends, those
that a session holds for it, and those that a request for it is answered with. -/
theorem configPath_of_split (hp : Plain p) :
    join (directory p) (fileName p) = normalize p ∧ Canonical (directory p) ∧ '/' ∉ (fileName p).toList ∧
      SplitsInto p (directory p) (fileName p) ∧
      (∀ q, normalize q = normalize p → directory q = directory p ∧ fileName q = fileName p) ∧
      (∀ q, Plain q → directory q = directory p → fileName q = fileName p → normalize q = normalize p) ∧
      (∀ d base, (Settings.inherit p d base).configPath = normalize p) ∧
      ∀ earlier m, Session empty earlier m →
        (∀ t, m.known? (normalize p) = some (.settled t) → t.configPath = normalize p) ∧
          ∀ (r : Request) m' s, r.path = p → r.answer m = (m', .loaded s) → s.configPath = normalize p := by
  refine ⟨Path.join_directory_fileName hp, Path.canonical_directory hp, Path.slash_not_mem_fileName hp,
    Path.splitsInto hp, fun q => Path.split_congr, ?_, Settings.configPath_inherit hp, ?_⟩
  · intro q hq hdirectory hname
    rw [← Path.join_directory_fileName hq, ← Path.join_directory_fileName hp, hdirectory, hname]
  · intro earlier m hsession
    refine ⟨?_, ?_⟩
    · intro t ht
      have hlayered := hsession.layered (layered_empty (Offering earlier)) fun _ _ => id
      exact configPath_of_layered_normalize hp (hlayered _ t ht)
    · rintro r m' s rfl hanswer
      have hlayered := (hsession.layered_answer hanswer).1
      exact configPath_of_layered_normalize hp (hlayered _ s (known?_of_answer hp hanswer))

/-- A file beside the workspace, by a detour, that another file has brought along. -/
theorem configPath_of_split_beside :
    let source := Source.linked [("tsconfig.json", "../lib/b"), ("../lib/b.json", "")] Resolver.sibling
    let b := Settings.inherit "../lib/b.json" { reference := some "" } none
    let a := Settings.inherit "tsconfig.json" { reference := some "../lib/b" } (some b)
    let m : Memory := ⟨[("tsconfig.json", .settled a), ("../lib/b.json", .settled b)]⟩
    let earlier : List (Request × Outcome) := [(.load source 2 "tsconfig.json", .loaded a)]
    let p := "x/../../lib//b.json"
    Plain p ∧ directory p = "../lib" ∧ fileName p = "b.json" ∧ join "../lib" "b.json" = normalize p ∧
      SplitsInto p "../lib" "b.json" ∧ Session empty earlier m ∧
      Request.answer (.load source 1 p) m = (m, .loaded b) ∧ b.configPath = "../lib/b.json" := by
  intro source b a m earlier p
  have hplain : Plain p := by decide
  have hdirectory : directory p = "../lib" := by decide
  have hname : fileName p = "b.json" := by decide
  have hnormalize : normalize p = "../lib/b.json" := by decide
  have hsession : Session empty earlier m := .cons (by decide +kernel) (by simp) (.nil m)
  have hanswer : Request.answer (.load source 1 p) m = (m, .loaded b) := by decide +kernel
  obtain ⟨hjoin, -, -, hsplits, -, -, -, hrequests⟩ := configPath_of_split hplain
  rw [hdirectory, hname] at hjoin hsplits
  have hpath := (hrequests earlier m hsession).2 (.load source 1 p) m b rfl hanswer
  exact ⟨hplain, hdirectory, hname, hjoin, hsplits, hsession, hanswer, hpath.trans hnormalize⟩

end Memory

end ConfigChain

import ConfigChain.Proofs.Loading.Origin
import ConfigChain.Workspace

/-! # Finding what was settled

A load settles its file under the path normalized twice, a parse under the path normalized once, and a lookup
normalizes once. The three meet where one round is enough. Where it is not, because a backslash hides a
detour, a file is not found under the path that it was loaded from, or a text not under the path that its
settings name. -/

namespace ConfigChain

namespace Memory

variable {m m' : Memory} {key path : String} {s t : Settings}

/-! ## Entries and the paths that settings name -/

theorem configPath_of_layered {answers : List (Request × Outcome)}
    (h : s.Layered (Offering answers) key) : s.configPath = Path.normalize key := by
  obtain ⟨d, base, ⟨a, -, hd⟩, rfl⟩ := h.offered
  exact Settings.configPath_inherit hd.plain d base

theorem canonical_or_brought {answers : List (Request × Outcome)}
    (h : s.Layered (Offering answers) key) :
    Path.Canonical key ∨ ∃ a ∈ answers, a.1.place? = some key := by
  obtain ⟨d, base, ⟨a, ha, hd⟩, -⟩ := h.offered
  exact hd.canonical_or.imp_right fun hplace => ⟨a, ha, hplace⟩

/-- Settings name the key that they stand under if it is canonical, and only then. -/
theorem eq_configPath_iff (h : s.configPath = Path.normalize key) :
    key = s.configPath ↔ Path.Canonical key := by
  rw [h]
  exact eq_comm

theorem get?_configPath (h : s.configPath = Path.normalize key) (hcanonical : Path.Canonical key)
    (hs : m.known? key = some (.settled s)) : m.get? s.configPath = some s := by
  have hnormalize : Path.normalize key = key := hcanonical
  rw [get?_eq_some_iff, h, hnormalize, hnormalize, hs]

/-! ## The path of a request -/

/-- A path that has to be normalized twice is looked up where no load writes. -/
theorem get?_load_iff {source : Source} {depth : Nat}
    (hload : load source depth m path = (m', .loaded s)) :
    m'.get? path = some s ↔ Path.Canonical (Path.normalize path) ∨ m.get? path = some s := by
  have hanswered := answered_load hload (by simp)
  have hentry := hanswered.loaded source depth path s rfl rfl
  by_cases hcanonical : Path.Canonical (Path.normalize path)
  · have hnormalize : Path.normalize (Path.normalize path) = Path.normalize path := hcanonical
    rw [hnormalize] at hentry
    simp only [hcanonical, true_or, iff_true]
    exact (m'.get?_eq_some_iff path s).mpr hentry
  · have hanswer : (Request.load source depth path).answer m = (m', .loaded s) := hload
    have hgrows : Grows (fun _ _ => True) (Request.load source depth path).touched m m' :=
      (grows_answer (fun _ _ _ => trivial) hanswer).1
    have hsame := hgrows.outside (Path.normalize path) (by simpa [Request.touched, Request.place?])
    rw [get?_eq_some_iff, get?_eq_some_iff, hsame]
    simp [hcanonical]

theorem get?_parse {source : Source} {depth : Nat} {text : Bytes}
    (hparse : parse source depth m path text = (m', .loaded s)) : m'.get? path = some s := by
  have hcases := (keeping_load source depth).parseWith source m path text (by rw [← parse, hparse]; simp)
  rw [← parse, hparse] at hcases
  rcases hcases with ⟨fault, heq⟩ | ⟨s', heq, hsettled⟩
  · cases (Prod.mk.inj heq).2
  · cases heq
    exact (m'.get?_eq_some_iff path s).mpr hsettled.known?_eq

/-- After a request of a session has been answered with settings, the memory answers the same ones for the
path of the request: always if a text was parsed, and for a load unless the path has to be normalized twice
and was not known by itself. Every settled entry names its canonical key, which is the key itself unless a
text was brought along under a path that has to be normalized twice. -/
theorem lookup_of_session {earlier : List (Request × Outcome)} (hsession : Session empty earlier m)
    {r : Request} (hanswer : r.answer m = (m', .loaded s)) :
    (∀ source depth path, r = .load source depth path →
      m'.get? (Path.normalize path) = some s ∧
        (m'.get? path = some s ↔ Path.Canonical (Path.normalize path) ∨ m.get? path = some s)) ∧
      (∀ source depth path text, r = .parse source depth path text → m'.get? path = some s) ∧
      ∀ key t, m'.known? key = some (.settled t) →
        t.configPath = Path.normalize key ∧
          (key = t.configPath ↔ Path.Canonical key) ∧
          (Path.Canonical key → m'.get? t.configPath = some t) ∧
          (Path.Canonical key ∨ ∃ a ∈ (r, .loaded s) :: earlier, a.1.place? = some key) := by
  refine ⟨?_, ?_, fun key t ht => ?_⟩
  · rintro source depth path rfl
    have hentry := (answered_load hanswer (by simp)).loaded source depth path s rfl rfl
    exact ⟨(m'.get?_eq_some_iff _ s).mpr hentry, get?_load_iff hanswer⟩
  · rintro source depth path text rfl
    exact get?_parse hanswer
  · have hlayered := (hsession.layered_answer hanswer).1 key t ht
    have hpath := configPath_of_layered hlayered
    exact ⟨hpath, eq_configPath_iff hpath, fun hkey => get?_configPath hpath hkey ht,
      canonical_or_brought hlayered⟩

/-- A text is parsed under a path that has to be normalized twice; then a file is loaded that extends the
file of that name. -/
theorem lookup_of_session_brought :
    let source := Source.linked [("a.json", "b"), ("b.json", "")] Resolver.sibling
    let text : Bytes := [Json.openObject, Json.closeObject]
    let own := Settings.inherit "x/../b.json" {} none
    let b := Settings.inherit "b.json" { reference := some "" } none
    let a := Settings.inherit "a.json" { reference := some "b" } (some b)
    let m : Memory := ⟨[("x/../b.json", .settled own)]⟩
    let m' : Memory :=
      ⟨[("a.json", .settled a), ("b.json", .settled b), ("x/../b.json", .settled own)]⟩
    let earlier : List (Request × Outcome) := [(.parse source 1 "x\\..\\b.json" text, .loaded own)]
    Session empty earlier m ∧ Request.answer (.load source 3 "./y/../a.json") m = (m', .loaded a) ∧
      m'.get? "./y/../a.json" = some a ∧ m'.get? b.configPath = some b ∧
      own.configPath = "b.json" ∧ ¬ "x/../b.json" = own.configPath := by
  intro source text own b a m m' earlier
  have hsession : Session empty earlier m := .cons (by decide +kernel) (by simp) (.nil m)
  have hanswer : Request.answer (.load source 3 "./y/../a.json") m = (m', .loaded a) := by
    decide +kernel
  obtain ⟨hload, -, hentries⟩ := lookup_of_session hsession hanswer
  obtain ⟨-, hfound⟩ := hload source 3 "./y/../a.json" rfl
  obtain ⟨-, -, hb, -⟩ := hentries "b.json" b (by decide)
  obtain ⟨hown, hkey, -, -⟩ := hentries "x/../b.json" own (by decide)
  exact ⟨hsession, hanswer, hfound.mpr (.inl (by decide)), hb (by decide), by rw [hown]; decide,
    fun heq => absurd (hkey.mp heq) (by decide)⟩

/-- A file is loaded from a path that has to be normalized twice, and is not found under it; a text is parsed
under such a path, and not found under the path that its settings name. -/
theorem lookup_lost_detour :
    let text : Bytes := [Json.openObject, Json.closeObject]
    let w : Workspace := ⟨⟨.directory [("ws", .directory [("x", .directory []),
      ("b.json", .file text)])], [], []⟩, "/ws"⟩
    let source := w.source (w.resolver .identity)
    (∃ m s, Request.answer (.load source 2 "x\\..\\b.json") empty = (m, .loaded s) ∧
      m.get? "x\\..\\b.json" = none) ∧
      ∃ m s, Request.answer (.parse source 1 "x\\..\\b.json" text) empty = (m, .loaded s) ∧
        m.known? "x/../b.json" = some (.settled s) ∧ s.configPath = "b.json" ∧
        m.get? s.configPath = none := by
  intro text w source
  refine ⟨⟨⟨[("b.json", .settled (Settings.inherit "b.json" {} none))]⟩,
    Settings.inherit "b.json" {} none, ?_⟩,
    ⟨⟨[("x/../b.json", .settled (Settings.inherit "x/../b.json" {} none))]⟩,
    Settings.inherit "x/../b.json" {} none, ?_⟩⟩ <;> decide +kernel

end Memory

end ConfigChain

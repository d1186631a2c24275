import ConfigChain.Proofs.Loading.Circles
import ConfigChain.Proofs.Loading.Log
import ConfigChain.Proofs.Settings.Aliases
import Mathlib.Data.List.TakeWhile

/-! # Texts that are parsed once

The files that a load comes to are distinct as keys of the memory. They are distinct as files only if no two
of the keys lead to one location: a key that climbs out of the workspace may come back into it by name, and
an absolute one may lead there directly. -/

namespace ConfigChain

open Relation (ReflTransGen)

namespace Path

/-- Below one directory, paths that stay inside it lead to different places. -/
theorem injOn_join {root : String} (hroot : Plain root) {keys : Set String}
    (hcanonical : ∀ key ∈ keys, Canonical key) (hin : ∀ key ∈ keys, Inward key) :
    Set.InjOn (join root) keys := by
  have hplace : ∀ key ∈ keys,
      (place root.toList).follow (place key.toList) =
        { place root.toList with names := (place key.toList).names ++ (place root.toList).names } := by
    intro key hkey
    have hrooted : (place key.toList).rooted = false := by
      rw [← isAbsolute_eq_rooted]
      exact (hin key hkey).1
    have hnames : ∀ name ∈ (place key.toList).names.reverse, IsName name :=
      fun name hname => (regular_place _).names name (List.mem_reverse.mp hname)
    rw [Place.follow_unrooted _ hrooted, Place.route, (hin key hkey).climbs_eq_zero (hcanonical key hkey),
      List.replicate_zero, List.nil_append, foldl_move_names hnames, List.reverse_reverse]
  intro key hkey other hother heq
  have hfollow := congrArg (fun path : String => place path.toList) heq
  simp only [place_join hroot (hcanonical key hkey).plain, place_join hroot (hcanonical other hother).plain,
    hplace key hkey, hplace other hother, Place.mk.injEq, List.append_cancel_right_eq, true_and] at hfollow
  refine (hcanonical key hkey).eq_of_place_eq (hcanonical other hother) ?_
  have hclimbs := (hin key hkey).climbs_eq_zero (hcanonical key hkey)
  have hclimbs' := (hin other hother).climbs_eq_zero (hcanonical other hother)
  have hrooted := (isAbsolute_eq_rooted key).symm.trans (hin key hkey).1
  have hrooted' := (isAbsolute_eq_rooted other).symm.trans (hin other hother).1
  generalize place key.toList = p at *
  generalize place other.toList = q at *
  obtain ⟨rooted, climbs, names⟩ := p
  obtain ⟨rooted', climbs', names'⟩ := q
  simp only at hfollow hclimbs hclimbs' hrooted hrooted'
  rw [hfollow, hclimbs, hclimbs', hrooted, hrooted']

end Path

namespace Source

/-! ## The trail of a file -/

/-- The first `n` files from `key` on, each followed by the one that it extends, up to the last one that is
not among them or the `seen` ones already. -/
def trail (source : Source) : Nat → List String → String → List String
  | 0, _, _ => []
  | n + 1, seen, key =>
    key :: match source.successor? key with
      | none => []
      | some next => if next ∈ key :: seen then [] else source.trail n (key :: seen) next

variable {source : Source} {seen : List String} {key next : String}

theorem trail_succ_of_fresh (hnext : source.Leads key next) (hfresh : next ∉ key :: seen) (n : Nat) :
    source.trail (n + 1) seen key = key :: source.trail n (key :: seen) next := by
  have hsucc : source.successor? key = some next := hnext
  simp only [trail, hsucc, if_neg hfresh]

theorem trail_succ_of_last (hlast : ∀ next, source.Leads key next → next ∈ key :: seen) (n : Nat) :
    source.trail (n + 1) seen key = [key] := by
  cases hsucc : source.successor? key with
  | none => simp only [trail, hsucc]
  | some next => simp only [trail, hsucc, if_pos (hlast next hsucc)]

theorem last_or_fresh (source : Source) (seen : List String) (key : String) :
    (∀ next, source.Leads key next → next ∈ key :: seen) ∨
      ∃ next, source.Leads key next ∧ next ∉ key :: seen := by
  by_cases hlast : ∀ next, source.Leads key next → next ∈ key :: seen
  · exact .inl hlast
  · simp only [not_forall] at hlast
    obtain ⟨next, hnext, hfresh⟩ := hlast
    exact .inr ⟨next, hnext, hfresh⟩

theorem trail_one (source : Source) (seen : List String) (key : String) :
    source.trail 1 seen key = [key] := by
  rcases source.last_or_fresh seen key with hlast | ⟨next, hnext, hfresh⟩
  · exact trail_succ_of_last hlast 0
  · exact trail_succ_of_fresh hnext hfresh 0

theorem not_mem_seen_of_mem_trail {n : Nat} (hnew : key ∉ seen) :
    ∀ k ∈ source.trail n seen key, k ∉ seen := by
  induction n generalizing seen key with
  | zero => simp [trail]
  | succ n ih =>
      rcases source.last_or_fresh seen key with hlast | ⟨next, hnext, hfresh⟩
      · rw [trail_succ_of_last hlast]
        simpa using hnew
      · rw [trail_succ_of_fresh hnext hfresh]
        refine List.forall_mem_cons.mpr ⟨hnew, fun k hk hmem => ?_⟩
        exact ih hfresh k hk (List.mem_cons_of_mem key hmem)

theorem nodup_trail (source : Source) (n : Nat) (seen : List String) (key : String) :
    (source.trail n seen key).Nodup := by
  induction n generalizing seen key with
  | zero => simp [trail]
  | succ n ih =>
      rcases source.last_or_fresh seen key with hlast | ⟨next, hnext, hfresh⟩
      · simp [trail_succ_of_last hlast]
      · rw [trail_succ_of_fresh hnext hfresh]
        refine List.nodup_cons.mpr ⟨fun hmem => ?_, ih (key :: seen) next⟩
        exact not_mem_seen_of_mem_trail hfresh key hmem List.mem_cons_self

theorem reaches_of_mem_trail {n : Nat} : ∀ k ∈ source.trail n seen key, ReflTransGen source.Leads key k := by
  induction n generalizing seen key with
  | zero => simp [trail]
  | succ n ih =>
      rcases source.last_or_fresh seen key with hlast | ⟨next, hnext, hfresh⟩
      · simp [trail_succ_of_last hlast, ReflTransGen.refl]
      · rw [trail_succ_of_fresh hnext hfresh]
        exact List.forall_mem_cons.mpr ⟨.refl, fun k hk => .head hnext (ih k hk)⟩

theorem take_trail (source : Source) (n : Nat) (seen : List String) (key : String) :
    (source.trail (n + 1) seen key).take n = source.trail n seen key := by
  induction n generalizing seen key with
  | zero => rfl
  | succ n ih =>
      rcases source.last_or_fresh seen key with hlast | ⟨next, hnext, hfresh⟩
      · rw [trail_succ_of_last hlast, trail_succ_of_last hlast, List.take_succ_cons, List.take_nil]
      · rw [trail_succ_of_fresh hnext hfresh, trail_succ_of_fresh hnext hfresh, List.take_succ_cons, ih]

theorem trail_subset_of_le {n k : Nat} (h : n ≤ k) : source.trail n seen key ⊆ source.trail k seen key := by
  induction h with
  | refl => exact List.Subset.refl _
  | @step k _ ih =>
      rw [← take_trail source k] at ih
      exact fun key hkey => List.take_subset k _ (ih hkey)

/-- What a file of a trail extends is on the trail, one step further. -/
theorem mem_trail_of_leads {n : Nat} {k k' : String} (hk : k ∈ source.trail n seen key)
    (hnext : source.Leads k k') : k' ∈ source.trail (n + 1) seen key ∨ k' ∈ seen := by
  induction n generalizing seen key with
  | zero => simp [trail] at hk
  | succ n ih =>
      rcases source.last_or_fresh seen key with hlast | ⟨next, hfirst, hfresh⟩
      · rw [trail_succ_of_last hlast, List.mem_singleton] at hk
        subst hk
        rw [trail_succ_of_last hlast]
        simpa using hlast k' hnext
      · rw [trail_succ_of_fresh hfirst hfresh] at hk
        rw [trail_succ_of_fresh hfirst hfresh]
        rcases List.mem_cons.mp hk with rfl | hk
        · obtain rfl := leads_unique hnext hfirst
          exact .inl (List.mem_cons_of_mem k List.mem_cons_self)
        · rcases ih hk with hmem | hmem
          · exact .inl (List.mem_cons_of_mem key hmem)
          · rcases List.mem_cons.mp hmem with rfl | hmem
            · exact .inl List.mem_cons_self
            · exact .inr hmem

theorem exists_mem_trail_of_reaches {k : String} (h : ReflTransGen source.Leads key k) :
    ∃ n, k ∈ source.trail n [] key := by
  induction h with
  | refl => exact ⟨1, by simp [trail_one]⟩
  | tail _ hnext ih =>
      obtain ⟨n, hn⟩ := ih
      exact ⟨n + 1, (mem_trail_of_leads hn hnext).resolve_right List.not_mem_nil⟩

/-! ## Texts of different files -/

/-- The texts that the files `reached` come to are all at different locations. -/
structure Apart (source : Source) (location : String → String) (reached : Set String) : Prop where
  within : ∀ key ∈ reached, ((source.texts key).map location).Nodup
  between : ∀ key ∈ reached, ∀ other ∈ reached, key ≠ other →
    ((source.texts key).map location).Disjoint ((source.texts other).map location)

theorem texts_of_not_isOk (hkey : ¬ (source.declared key).isOk = true) : source.texts key = [key] := by
  unfold texts
  split
  · rfl
  · rename_i d hd
    exact absurd (isOk_of_eq hd) hkey

theorem sublist_flatMap_texts (source : Source) (keys : List String) :
    keys.Sublist (keys.flatMap source.texts) := by
  induction keys with
  | nil => exact .slnil
  | cons key keys ih =>
      rw [List.flatMap_cons, texts, List.cons_append]
      exact (ih.trans (List.sublist_append_right _ _)).cons_cons key

/-- Of the texts that a file comes to only its own can be parsed. -/
theorem filter_texts (hkey : (source.declared key).isOk = true) :
    ((source.texts key).filter fun k => (source.declared k).isOk) = [key] := by
  have hnone (candidates : List String) :
      ((source.passedOver candidates).filter fun k => (source.declared k).isOk) = [] := by
    refine List.filter_eq_nil_iff.mpr fun k hk => ?_
    simpa using List.mem_takeWhile_imp (List.mem_of_mem_filter hk)
  simp only [texts, List.filter_cons, hkey, if_true]
  split
  · rfl
  · split
    · rfl
    · rw [hnone]

theorem filter_flatMap_texts {keys : List String} (h : ∀ key ∈ keys, (source.declared key).isOk = true) :
    ((keys.flatMap source.texts).filter fun k => (source.declared k).isOk) = keys := by
  induction keys with
  | nil => rfl
  | cons key keys ih =>
      obtain ⟨hkey, hkeys⟩ := List.forall_mem_cons.mp h
      rw [List.flatMap_cons, List.filter_append, filter_texts hkey, ih hkeys]
      rfl

/-! ## Trails and what is reached -/

theorem exists_mem_trail {k other : String} (hk : ReflTransGen source.Leads key k)
    (hother : ReflTransGen source.Leads key other) :
    ∃ n, k ∈ source.trail n [] key ∧ other ∈ source.trail n [] key := by
  obtain ⟨n, hn⟩ := exists_mem_trail_of_reaches hk
  obtain ⟨n', hn'⟩ := exists_mem_trail_of_reaches hother
  exact ⟨max n n', trail_subset_of_le (le_max_left n n') hn, trail_subset_of_le (le_max_right n n') hn'⟩

theorem apart_iff (source : Source) (location : String → String) (first : String) :
    source.Apart location {key | ReflTransGen source.Leads first key} ↔
      ∀ n, (((source.trail n [] first).flatMap source.texts).map location).Nodup := by
  simp only [List.map_flatMap, List.nodup_flatMap]
  constructor
  · intro h n
    refine ⟨fun key hkey => h.within key (reaches_of_mem_trail key hkey), ?_⟩
    refine (source.nodup_trail n [] first).pairwise_of_forall_ne fun key hkey other hother hne => ?_
    exact h.between key (reaches_of_mem_trail key hkey) other (reaches_of_mem_trail other hother) hne
  · intro h
    refine ⟨fun key hkey => ?_, fun key hkey other hother hne => ?_⟩
    · obtain ⟨n, hn, -⟩ := exists_mem_trail hkey hkey
      exact (h n).1 key hn
    · obtain ⟨n, hn, hn'⟩ := exists_mem_trail hkey hother
      have hsymm : Std.Symm (Function.onFun List.Disjoint fun k => (source.texts k).map location) :=
        ⟨fun _ _ hdisjoint => hdisjoint.symm⟩
      exact (h n).2.forall hn hn' hne

theorem injOn_iff (source : Source) (location : String → String) (first : String) :
    Set.InjOn location {key | ReflTransGen source.Leads first key} ↔
      ∀ n, ((source.trail n [] first).map location).Nodup := by
  constructor
  · intro h n
    refine (source.nodup_trail n [] first).map_on fun key hkey other hother heq => ?_
    exact h (reaches_of_mem_trail key hkey) (reaches_of_mem_trail other hother) heq
  · intro h key hkey other hother heq
    obtain ⟨n, hn, hn'⟩ := exists_mem_trail hkey hother
    exact List.inj_on_of_nodup_map (h n) hn hn' heq

/-- From a file that cannot be loaded nothing else is reached. -/
theorem reached_of_not_isOk (hkey : ¬ (source.declared key).isOk = true) :
    {k | ReflTransGen source.Leads key k} = {key} := by
  ext k
  refine ⟨fun hreach => ?_, fun heq => Set.mem_singleton_iff.mp heq ▸ .refl⟩
  rcases hreach.cases_head with heq | ⟨next, hnext, -⟩
  · exact heq.symm
  · exact absurd (isOk_left_of_leads hnext) hkey

end Source

namespace Memory

variable {source : Source} {m : Memory} {key path : String}

/-! ## The log is the trail -/

theorem loadLogged_normalize (hpath : Path.Plain path) (depth : Nat) :
    loadLogged source depth m (Path.normalize path) = loadLogged source depth m path := by
  have hnormalize : Path.normalize (Path.normalize path) = Path.normalize path :=
    Path.canonical_normalize hpath
  cases depth with
  | zero => rfl
  | succ depth => simp only [loadLogged, hnormalize]

/-- With depth for `n + 1` files the texts of `n` files are read, and the next file itself. -/
theorem loadLogged_eq_trail (hplain : source.PlainCandidates) {seen : List String}
    (hm : ∀ k, m.known? k = if k ∈ seen then some .pending else none) (hknown : m.KnowsLoadable source)
    (hcanonical : Path.Canonical key) (hkey : (source.declared key).isOk = true) (hnew : key ∉ seen)
    (n : Nat) :
    (loadLogged source (n + 1) m key).2 =
      (source.trail n seen key).flatMap source.texts ++ (source.trail (n + 1) seen key).drop n := by
  obtain ⟨d, hd⟩ := (Source.isOk_iff _).mp hkey
  have hnormalize : Path.normalize key = key := hcanonical
  have hentry : m.known? key = none := by rw [hm, if_neg hnew]
  induction n generalizing m seen key d with
  | zero =>
      rw [loadLogged_of_ok (get?_of_canonical hcanonical hentry) (hnormalize.symm ▸ hd), baseLogged_zero,
        hnormalize, Source.trail_one]
      rfl
  | succ n ih =>
      have hmarked : ∀ k, known? (m.set key .pending) k =
          if k ∈ key :: seen then some .pending else none := by
        intro k
        rw [known?_set, hm]
        by_cases hk : k = key <;> simp [hk]
      rw [loadLogged_of_new hplain hknown hcanonical hentry hd]
      rcases source.last_or_fresh seen key with hlast | ⟨next, hnext, hfresh⟩
      · rw [Source.trail_succ_of_last hlast, Source.trail_succ_of_last hlast, List.flatMap_singleton,
          List.drop_succ_cons, List.drop_nil]
        cases hsucc : source.successor? key with
        | none => rfl
        | some next =>
            have hseen : (known? (m.set key .pending) next).isSome = true := by
              rw [hmarked, if_pos (hlast next hsucc)]
              rfl
            simp [hseen]
      · have hsucc : source.successor? key = some next := hnext
        have hnone : known? (m.set key .pending) next = none := by rw [hmarked, if_neg hfresh]
        obtain ⟨d', hd'⟩ := (Source.isOk_iff _).mp (Source.isOk_of_leads hnext)
        have hinner := ih hmarked (hknown.set hkey .pending) (Source.canonical_of_leads hplain hnext)
          (Source.isOk_of_leads hnext) hfresh d' hd' (Source.canonical_of_leads hplain hnext) hnone
        simp only [hsucc, hnone, Option.isSome_none, Bool.false_eq_true, if_false]
        rw [hinner, Source.trail_succ_of_fresh hnext hfresh, Source.trail_succ_of_fresh hnext hfresh,
          List.flatMap_cons, List.drop_succ_cons, List.append_assoc]

/-- On an empty memory, for a file that can be loaded. -/
theorem loadLogged_empty (hplain : source.PlainCandidates) (hpath : Path.Plain path)
    (hload : (source.declared (Path.normalize path)).isOk = true) (n : Nat) :
    (loadLogged source (n + 1) empty path).2 =
      (source.trail n [] (Path.normalize path)).flatMap source.texts ++
        (source.trail (n + 1) [] (Path.normalize path)).drop n := by
  rw [← loadLogged_normalize hpath]
  exact loadLogged_eq_trail hplain (by simp) (knowsLoadable_empty source)
    (Path.canonical_normalize hpath) hload List.not_mem_nil n

/-- For a file that cannot be loaded there is its own text at most. -/
theorem loadLogged_of_not_isOk (hpath : Path.Plain path)
    (hload : ¬ (source.declared (Path.normalize path)).isOk = true) (depth : Nat) :
    (loadLogged source depth empty path).2.Sublist [Path.normalize path] := by
  rw [← loadLogged_normalize hpath]
  cases depth with
  | zero => exact List.nil_sublist _
  | succ depth =>
      cases hd : source.declared (Path.normalize path) with
      | ok d => exact absurd (Source.isOk_of_eq hd) hload
      | error fault =>
          have hpassed := passedOver_cons_of_error [] (Path.canonical_normalize hpath)
            (known?_empty _) hd depth
          rw [show source.passedOver [] = [] from rfl, List.append_nil] at hpassed
          rw [← hpassed]
          simp only [Source.passedOver, List.map_cons, List.map_nil]
          exact List.filter_sublist.trans (List.takeWhile_sublist _)

/-- The texts of a load that can be parsed are those of its trail. -/
theorem filter_loadLogged_empty (hplain : source.PlainCandidates) (hpath : Path.Plain path)
    (hload : (source.declared (Path.normalize path)).isOk = true) (n : Nat) :
    ((loadLogged source (n + 1) empty path).2.filter fun key => (source.declared key).isOk) =
      source.trail (n + 1) [] (Path.normalize path) := by
  have hok {n : Nat} : ∀ key ∈ source.trail n [] (Path.normalize path), (source.declared key).isOk = true :=
    fun key hkey => Source.isOk_of_reaches (Source.reaches_of_mem_trail key hkey) hload
  have hdrop : ∀ key ∈ (source.trail (n + 1) [] (Path.normalize path)).drop n,
      (source.declared key).isOk = true :=
    fun key hkey => hok key (List.mem_of_mem_drop hkey)
  rw [loadLogged_empty hplain hpath hload, List.filter_append, Source.filter_flatMap_texts hok,
    List.filter_eq_self.mpr hdrop, ← Source.take_trail, List.take_append_drop]

/-! ## Each text once -/

/-- All texts of a load are at different locations exactly when those of the files that it can reach are. -/
theorem nodup_log_iff (hplain : source.PlainCandidates) (hpath : Path.Plain path)
    (location : String → String) :
    (∀ depth, ((loadLogged source depth empty path).2.map location).Nodup) ↔
      source.Apart location {key | ReflTransGen source.Leads (Path.normalize path) key} := by
  by_cases hload : (source.declared (Path.normalize path)).isOk = true
  · rw [Source.apart_iff]
    constructor
    · intro h n
      have hlog := h (n + 1)
      rw [loadLogged_empty hplain hpath hload, List.map_append] at hlog
      exact (List.nodup_append.mp hlog).1
    · intro h depth
      cases depth with
      | zero => exact List.nodup_nil
      | succ n =>
          -- Of the last file only its own text has been read.
          have hlast := source.sublist_flatMap_texts
            ((source.trail (n + 1) [] (Path.normalize path)).drop n)
          have hlog := hlast.append_left ((source.trail n [] (Path.normalize path)).flatMap source.texts)
          rw [← loadLogged_empty hplain hpath hload, ← List.flatMap_append, ← source.take_trail n,
            List.take_append_drop] at hlog
          exact (h (n + 1)).sublist (hlog.map location)
  · rw [Source.reached_of_not_isOk hload]
    refine iff_of_true (fun depth => ?_) ⟨?_, ?_⟩
    · exact (List.nodup_singleton _).sublist ((loadLogged_of_not_isOk hpath hload depth).map location)
    · rintro key rfl
      rw [Source.texts_of_not_isOk hload]
      exact List.nodup_singleton _
    · rintro key rfl other rfl hne
      exact absurd rfl hne

/-- Those that can be parsed are exactly when the files that it can reach are. -/
theorem nodup_parsed_iff (hplain : source.PlainCandidates) (hpath : Path.Plain path)
    (location : String → String) :
    (∀ depth, (((loadLogged source depth empty path).2.filter fun key =>
        (source.declared key).isOk).map location).Nodup) ↔
      Set.InjOn location {key | ReflTransGen source.Leads (Path.normalize path) key} := by
  by_cases hload : (source.declared (Path.normalize path)).isOk = true
  · rw [Source.injOn_iff]
    constructor
    · intro h n
      have hparsed := h (n + 1)
      rw [filter_loadLogged_empty hplain hpath hload] at hparsed
      rw [← source.take_trail n]
      exact hparsed.sublist ((List.take_sublist n _).map location)
    · intro h depth
      cases depth with
      | zero => exact List.nodup_nil
      | succ n =>
          rw [filter_loadLogged_empty hplain hpath hload]
          exact h (n + 1)
  · rw [Source.reached_of_not_isOk hload]
    refine iff_of_true (fun depth => ?_) (Set.injOn_singleton _ _)
    have hsublist := loadLogged_of_not_isOk hpath hload depth
    exact (List.nodup_singleton _).sublist ((List.filter_sublist.trans hsublist).map location)

end Memory

namespace Workspace

open Memory (loadLogged empty)

/-- Where the text of a key stands. -/
def location (w : Workspace) (key : String) : String := Path.join w.root key

/-- The log of a load changes nothing. Its texts are at different locations exactly when those of the files
that are reached are; those of its texts that can be parsed are exactly when no two of the keys that are
reached lead to one location, as is the case when none of them leaves the workspace. -/
theorem parses_once_iff (w : Workspace) (strategy : Strategy) {path : String} (hpath : Path.Plain path) :
    let source := w.source (w.resolver strategy)
    let log (depth : Nat) : List String := (loadLogged source depth empty path).2
    let reached : Set String := {key | ReflTransGen source.Leads (Path.normalize path) key}
    (∀ depth, (loadLogged source depth empty path).1 = Memory.load source depth empty path) ∧
      ((∀ depth, ((log depth).map w.location).Nodup) ↔ source.Apart w.location reached) ∧
      ((∀ depth, (((log depth).filter fun key => (source.declared key).isOk).map w.location).Nodup) ↔
        Set.InjOn w.location reached) ∧
      (Path.Plain w.root → (∀ key ∈ reached, Path.Inward key) → Set.InjOn w.location reached) := by
  intro source log reached
  have hplain : source.PlainCandidates := w.plainCandidates strategy
  refine ⟨fun depth => Memory.logs_load source depth empty path,
    Memory.nodup_log_iff hplain hpath w.location, Memory.nodup_parsed_iff hplain hpath w.location,
    fun hroot hin => Path.injOn_join hroot (fun key hkey => ?_) hin⟩
  exact Source.canonical_of_reaches hplain hkey (Path.canonical_normalize hpath)

/-- Two files of the workspace that extend each other. -/
theorem parses_once_circle :
    let text (reference : String) : Tree :=
      .file (Utf8.encode ("\x7b\"extends\":\"" ++ reference ++ "\"\x7d").toList)
    let w : Workspace := ⟨⟨.directory [("ws", .directory [("a.json", text "lib/base"),
      ("lib", .directory [("base.json", text "../a.json")])])], [], []⟩, "/ws"⟩
    let source := w.source (w.resolver .identity)
    Path.Plain "./a.json" ∧ Path.Plain w.root ∧
      (∀ key, ReflTransGen source.Leads (Path.normalize "./a.json") key → Path.Inward key) ∧
      ∀ depth, (((loadLogged source depth empty "./a.json").2.filter fun key =>
        (source.declared key).isOk).map w.location).Nodup := by
  intro text w source
  have hpath : Path.Plain "./a.json" := by decide
  have hroot : Path.Plain w.root := by decide
  have ha : source.Leads "a.json" "lib/base.json" := by decide +kernel
  have hbase : source.Leads "lib/base.json" "a.json" := by decide +kernel
  have hin : ∀ key, ReflTransGen source.Leads (Path.normalize "./a.json") key → Path.Inward key := by
    intro key hkey
    have hkeys : key = "a.json" ∨ key = "lib/base.json" := by
      induction hkey with
      | refl => exact .inl (by decide)
      | tail _ hnext ih =>
          rcases ih with rfl | rfl
          · exact .inr (Source.leads_unique hnext ha)
          · exact .inl (Source.leads_unique hnext hbase)
    rcases hkeys with rfl | rfl <;> decide
  obtain ⟨-, -, hparsed, hinside⟩ := parses_once_iff w .identity hpath
  exact ⟨hpath, hroot, hin, hparsed.mpr (hinside hroot hin)⟩

/-- A file that extends itself by way of the directory above is parsed twice. -/
theorem parses_twice_reentry :
    let w : Workspace := ⟨⟨.directory [("ws", .directory [("tsconfig.json",
      .file (Utf8.encode "\x7b\"extends\":\"../ws/tsconfig.json\"\x7d".toList))])], [], []⟩, "/ws"⟩
    let source := w.source (w.resolver .identity)
    ∃ depth s, (Memory.load source depth empty "tsconfig.json").2 = .loaded s ∧
      (loadLogged source depth empty "tsconfig.json").1 =
        Memory.load source depth empty "tsconfig.json" ∧
      (loadLogged source depth empty "tsconfig.json").2 = ["tsconfig.json", "../ws/tsconfig.json"] ∧
      ¬ ((loadLogged source depth empty "tsconfig.json").2.map w.location).Nodup := by
  intro w source
  refine ⟨4, Settings.inherit "tsconfig.json" { reference := some "../ws/tsconfig.json" }
    (some (Settings.inherit "../ws/tsconfig.json" { reference := some "../ws/tsconfig.json" } none)), ?_⟩
  decide +kernel

end Workspace

end ConfigChain

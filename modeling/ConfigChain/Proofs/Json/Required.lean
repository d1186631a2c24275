import ConfigChain.Proofs.Json.Grammatical
import ConfigChain.Proofs.Json.Relaxed

/-! # What is read of a value

A reader that is put before the tokens of a value takes these tokens, if it succeeds, and what it succeeds on meets its
requirement. A list is read item by item and an object member by member, and values of any kind can be passed over. -/

namespace ConfigChain.Json

/-! ## The first token of a value -/

section

variable {t : Token} {ts : List Token} {s : Bytes} {m : Mark}

theorem Spells.uncons (h : Spells (t :: ts) s) :
    ∃ u, skipBlanks s = t.bytes ++ u ∧ t.Ends u ∧ Spells ts u := by
  rcases h.skipBlanks_eq with ⟨hnil, -⟩ | ⟨token, rest, u, heq, hskip, hends, hrest⟩
  · cases hnil
  · cases heq
    exact ⟨u, hskip, hends, hrest⟩

theorem Spells.uncons_mark (h : Spells (.mark m :: ts) s) : ∃ u, skipBlanks s = m.byte :: u ∧ Spells ts u := by
  obtain ⟨u, hskip, -, hu⟩ := h.uncons
  exact ⟨u, hskip, hu⟩

end

namespace Written

/-- The tokens of a list behind its opening bracket. -/
def listTokens : List Written → List Token
  | [] => [.mark .closeList]
  | item :: items => item.tokens ++ itemTokens items

/-- The tokens of an object behind its opening brace. -/
def objectTokens : List (Body × Written) → List Token
  | [] => [.mark .closeObject]
  | (key, value) :: members => .atom (.text key) :: .mark .colon :: (value.tokens ++ memberTokens members)

theorem tokens_list (items : List Written) (trailing : Bool) :
    (list items trailing).tokens = .mark .openList :: listTokens items := by
  cases items with
  | nil => rfl
  | cons item items => exact tokens_list_cons item items trailing

theorem tokens_object (members : List (Body × Written)) (trailing : Bool) :
    (object members trailing).tokens = .mark .openObject :: objectTokens members := by
  cases members with
  | nil => rfl
  | cons member members => exact tokens_object_cons member.1 member.2 members trailing

/-- A value begins with an opening mark or is an atom. -/
theorem exists_tokens_eq (w : Written) :
    ∃ t ts, w.tokens = t :: ts ∧ t ≠ .mark .closeList ∧ t ≠ .mark .closeObject := by
  cases w with
  | atom a => exact ⟨_, _, rfl, nofun, nofun⟩
  | list items trailing => exact ⟨_, _, tokens_list items trailing, nofun, nofun⟩
  | object members trailing => exact ⟨_, _, tokens_object members trailing, nofun, nofun⟩

variable {w : Written} {ts : List Token}

theorem eq_atom {a : Atom} (h : w.tokens = .atom a :: ts) : w = .atom a ∧ ts = [] := by
  cases w with
  | atom b =>
      cases h
      exact ⟨rfl, rfl⟩
  | list items trailing => cases (tokens_list items trailing).symm.trans h
  | object members trailing => cases (tokens_object members trailing).symm.trans h

theorem eq_list (h : w.tokens = .mark .openList :: ts) :
    ∃ items trailing, w = .list items trailing ∧ ts = listTokens items := by
  cases w with
  | atom a => cases h
  | list items trailing =>
      cases (tokens_list items trailing).symm.trans h
      exact ⟨items, trailing, rfl, rfl⟩
  | object members trailing => cases (tokens_object members trailing).symm.trans h

theorem eq_object (h : w.tokens = .mark .openObject :: ts) :
    ∃ members trailing, w = .object members trailing ∧ ts = objectTokens members := by
  cases w with
  | atom a => cases h
  | list items trailing => cases (tokens_list items trailing).symm.trans h
  | object members trailing =>
      cases (tokens_object members trailing).symm.trans h
      exact ⟨members, trailing, rfl, rfl⟩

/-- A value that begins with the byte of an opening bracket is a list. -/
theorem eq_list_of_bytes {t : Token} {tail : Bytes} (hw : w.tokens = t :: ts) (ht : t.bytes = openList :: tail) :
    ∃ items trailing, w = .list items trailing ∧ ts = listTokens items ∧ tail = [] := by
  obtain ⟨rfl, rfl⟩ := Token.eq_mark (m := .openList) ht
  obtain ⟨items, trailing, hlist, hts⟩ := eq_list hw
  exact ⟨items, trailing, hlist, hts, rfl⟩

/-- A value that begins with the byte of an opening brace is an object. -/
theorem eq_object_of_bytes {t : Token} {tail : Bytes} (hw : w.tokens = t :: ts) (ht : t.bytes = openObject :: tail) :
    ∃ members trailing, w = .object members trailing ∧ ts = objectTokens members ∧ tail = [] := by
  obtain ⟨rfl, rfl⟩ := Token.eq_mark (m := .openObject) ht
  obtain ⟨members, trailing, hobject, hts⟩ := eq_object hw
  exact ⟨members, trailing, hobject, hts, rfl⟩

/-- Where a value begins, no list or object ends. -/
theorem not_close_of_spells {u : List Token} {s r : Bytes} (h : Spells (w.tokens ++ u) s) :
    skipBlanks s ≠ closeList :: r ∧ skipBlanks s ≠ closeObject :: r := by
  obtain ⟨t, ts, hw, hlist, hobject⟩ := w.exists_tokens_eq
  rw [hw] at h
  obtain ⟨u, hskip, -, -⟩ := h.uncons
  obtain ⟨b, tail, hbytes, -, hmark⟩ := t.exists_bytes_eq
  rw [hskip, hbytes, List.cons_append]
  constructor
  · intro heq
    exact hlist (hmark .closeList (List.cons.inj heq).1)
  · intro heq
    exact hobject (hmark .closeObject (List.cons.inj heq).1)

end Written

theorem Token.eq_bool {t : Token} {b : UInt8} {tail : Bytes} (h : t.bytes = b :: tail)
    (hb : b = letterT ∨ b = letterF) : ∃ v, t = .atom (.bool v) := by
  match t with
  | .mark m => rcases hb with rfl | rfl <;> cases m <;> cases h
  | .atom .null => rcases hb with rfl | rfl <;> cases h
  | .atom (.bool v) => exact ⟨v, rfl⟩
  | .atom (.number n) => rcases hb with rfl | rfl <;> exact absurd h (n.bytes_ne (by decide) tail)
  | .atom (.text body) => rcases hb with rfl | rfl <;> cases h

theorem Token.eq_atom_null {t : Token} {tail : Bytes} (h : t.bytes = letterN :: tail) : t = .atom .null := by
  match t with
  | .mark m => cases m <;> cases h
  | .atom .null => rfl
  | .atom (.bool b) => cases b <;> cases h
  | .atom (.number n) => exact absurd h (n.bytes_ne (by decide) tail)
  | .atom (.text body) => cases h

/-! ## What a reader requires -/

section

variable {α β κ σ : Type} {w : Written} {p : Prop}

/-- From a text that begins with the value `w` the reader takes just this value, and only if `p` holds. -/
def Requires (read : Bytes → Reading α) (w : Written) (p : Prop) : Prop :=
  ∀ ts s a r, Spells (w.tokens ++ ts) s → read s = .ok (a, r) → p ∧ Spells ts r

/-- In some text that begins with the value `w` the reader makes `a` of it. -/
def Made (read : Bytes → Reading α) (w : Written) (a : α) : Prop :=
  ∃ ts s r, Spells (w.tokens ++ ts) s ∧ read s = .ok (a, r)

theorem Requires.of_made {read : Bytes → Reading α} {a : α} (h : Requires read w p) (hmade : Made read w a) : p := by
  obtain ⟨ts, s, r, hs, hread⟩ := hmade
  exact (h ts s a r hs hread).1

/-- What is made of a whole text is made of the value that it consists of. -/
theorem made_of_whole {reader : Reader α} {s : Bytes} {a : α} (hs : Spells w.tokens s)
    (h : reader.whole s = .ok a) : Made reader.read w a := by
  obtain ⟨r, hread, -⟩ := Reader.whole_eq_ok_iff.mp h
  exact ⟨[], s, r, by rwa [List.append_nil], hread⟩

theorem Requires.imp {read : Bytes → Reading α} {q : Prop} (h : Requires read w p) (himp : p → q) :
    Requires read w q := by
  intro ts s a r hs hread
  exact (h ts s a r hs hread).imp_left himp

theorem Requires.map {reader : Reader α} (h : Requires reader.read w p) (f : α → β) :
    Requires (reader.map f).read w p := by
  intro ts s b r hs hread
  obtain ⟨a, ha, -⟩ := Reading.map_eq_ok hread
  exact h ts s a r hs ha

/-- The first token of a value that is expected is looked at, and all of them are read. -/
theorem readExpecting_eq_ok {expected : String} {opens : UInt8 → Bool} {body : UInt8 → Bytes → Reading α}
    {ts : List Token} {s r : Bytes} {a : α} (hs : Spells (w.tokens ++ ts) s)
    (hread : readExpecting expected opens body s = .ok (a, r)) :
    ∃ t rest b tail u, w.tokens = t :: rest ∧ t.bytes = b :: tail ∧ opens b = true ∧ t.Ends u ∧
      Spells (rest ++ ts) u ∧ body b (tail ++ u) = .ok (a, r) := by
  obtain ⟨t, rest, hw, -⟩ := w.exists_tokens_eq
  obtain ⟨b, tail, hbytes, -⟩ := t.exists_bytes_eq
  rw [hw, List.cons_append] at hs
  obtain ⟨u, hskip, hends, hu⟩ := hs.uncons
  rw [hbytes, List.cons_append] at hskip
  simp only [readExpecting, hskip] at hread
  split at hread
  · rename_i hopens
    exact ⟨t, rest, b, tail, u, hw, hbytes, hopens, hends, hu, hread⟩
  · cases hread

theorem requires_readExpecting {expected : String} {opens : UInt8 → Bool} {body : UInt8 → Bytes → Reading α}
    (h : ∀ t rest b tail, w.tokens = t :: rest → t.bytes = b :: tail → opens b = true →
      ∀ ts u a r, t.Ends u → Spells (rest ++ ts) u → body b (tail ++ u) = .ok (a, r) → p ∧ Spells ts r) :
    Requires (readExpecting expected opens body) w p := by
  intro ts s a r hs hread
  obtain ⟨t, rest, b, tail, u, hw, hbytes, hopens, hends, hu, hbody⟩ := readExpecting_eq_ok hs hread
  exact h t rest b tail hw hbytes hopens ts u a r hends hu hbody

/-! ## Lists and objects -/

variable {ts : List Token} {s r : Bytes}

theorem requires_elementsFrom {item : Reader α} {P : Written → Prop} (closed : Cause) {first : Written}
    {items : List Written} (h : ∀ i ∈ first :: items, Requires item.read i (P i)) {as : List α}
    (hs : Spells (first.tokens ++ (Written.itemTokens items ++ ts)) s)
    (hread : elementsFrom item closed s = .ok (as, r)) : (∀ i ∈ first :: items, P i) ∧ Spells ts r := by
  induction items generalizing first s as with
  | nil =>
      obtain ⟨a, t, hitem, hrest⟩ := elementsFrom_eq_ok hread
      obtain ⟨hfirst, ht⟩ := h first List.mem_cons_self _ s a t hs hitem
      obtain ⟨u, hskip, hu⟩ := Spells.uncons_mark (m := .closeList) ht
      rcases hrest with ⟨hclose, -⟩ | ⟨v, c, x, bs, hcomma, -⟩
      · cases hskip.symm.trans hclose
        exact ⟨List.forall_mem_singleton.mpr hfirst, hu⟩
      · cases hskip.symm.trans hcomma
  | cons next items ih =>
      obtain ⟨a, t, hitem, hrest⟩ := elementsFrom_eq_ok hread
      obtain ⟨hfirst, ht⟩ := h first List.mem_cons_self _ s a t hs hitem
      rw [Written.itemTokens_cons, List.cons_append, List.append_assoc] at ht
      obtain ⟨u, hskip, hu⟩ := ht.uncons_mark
      rcases hrest with ⟨hclose, -⟩ | ⟨v, c, x, bs, hcomma, hnext, -, hmore, -⟩
      · cases hskip.symm.trans hclose
      · cases hskip.symm.trans hcomma
        obtain ⟨hitems, hr⟩ := ih (fun i hi => h i (List.mem_cons_of_mem first hi)) (hnext ▸ hu.skipped) hmore
        exact ⟨List.forall_mem_cons.mpr ⟨hfirst, hitems⟩, hr⟩

/-- Every item of a list is read. -/
theorem requires_elements {item : Reader α} {P : Written → Prop} (closed : Cause) {items : List Written}
    (h : ∀ i ∈ items, Requires item.read i (P i)) {as : List α} (hs : Spells (Written.listTokens items ++ ts) s)
    (hread : elements item closed s = .ok (as, r)) : (∀ i ∈ items, P i) ∧ Spells ts r := by
  unfold elements at hread
  cases items with
  | nil =>
      obtain ⟨u, hskip, hu⟩ := Spells.uncons_mark (m := .closeList) hs
      simp only [hskip] at hread
      cases hread
      exact ⟨nofun, hu⟩
  | cons first items =>
      rw [Written.listTokens, List.append_assoc] at hs
      split at hread
      · cases hread
      · rename_i b t hskip
        split at hread
        · rename_i hb
          rw [hb] at hskip
          exact absurd hskip (Written.not_close_of_spells hs).1
        · exact requires_elementsFrom closed h (hskip ▸ hs.skipped) hread

/-- What stands behind the key `key`, in whatever state, is read only if it is `w` and `p` holds. -/
def Members.Requires (m : Members κ σ) (key : Body) (w : Written) (p : Prop) : Prop :=
  ∀ state k reader u r, m.key.read (key.quoted ++ u) = .ok (k, r) → m.value state k = .ok reader →
    Json.Requires reader.read w p

/-- A key is read as this name. -/
def Members.Names (m : Members κ σ) (key : Body) (k : κ) : Prop := ∃ u r, m.key.read (key.quoted ++ u) = .ok (k, r)

/-- Members that are read one after another, each in the state that those before it have led to. What a reader has to do
with a value and the next state is `R`. -/
inductive Members.Runs (m : Members κ σ) (R : (Bytes → Reading σ) → Written → σ → Prop) :
    σ → List (Body × Written) → σ → Prop where
  | nil (state : σ) : Runs m R state [] state
  | cons {state next last : σ} {key : Body} {w : Written} {members : List (Body × Written)} {k : κ} {reader : Reader σ}
      (hkey : m.Names key k) (hvalue : m.value state k = .ok reader) (hread : R reader.read w next)
      (hrest : Runs m R next members last) : Runs m R state ((key, w) :: members) last

variable {m : Members κ σ} {key : Body} {P : Body × Written → Prop} {members : List (Body × Written)} {state a : σ}

theorem Members.Runs.forall_mem (hruns : m.Runs Made state members a)
    (h : ∀ member ∈ members, m.Requires member.1 member.2 (P member)) : ∀ member ∈ members, P member := by
  induction hruns with
  | nil _ => exact nofun
  | cons hkey hvalue hread _ ih =>
      obtain ⟨u, r, hkey⟩ := hkey
      obtain ⟨hfirst, hmore⟩ := List.forall_mem_cons.mp h
      exact List.forall_mem_cons.mpr ⟨(hfirst _ _ _ u r hkey hvalue).of_made hread, ih hmore⟩

theorem made_member (htakes : ∀ body, Takes m.key.read (.atom (.text body))) (h : m.Requires key w p)
    (hs : Spells (.atom (.text key) :: .mark .colon :: (w.tokens ++ ts)) s) (hread : member m state s = .ok (a, r)) :
    ∃ k reader, m.Names key k ∧ m.value state k = .ok reader ∧ Made reader.read w a ∧ Spells ts r := by
  obtain ⟨t, k, reader, rest, after, rfl, hkey, hvalue, hcolon, hreader⟩ := member_eq_ok hread
  obtain ⟨u, hskip, hends, hu⟩ := hs.uncons
  rw [skipBlanks_of_isPassed (by decide)] at hskip
  rw [hskip] at hkey
  obtain ⟨rfl, -⟩ := htakes key u k rest hends hkey
  obtain ⟨v, hmark, hv⟩ := hu.uncons_mark
  cases hmark.symm.trans hcolon
  have hr := (h state k reader _ _ hkey hvalue ts _ a r hv hreader).2
  exact ⟨k, reader, ⟨_, _, hkey⟩, hvalue, ⟨ts, _, r, hv, hreader⟩, hr⟩

theorem runs_membersFrom (htakes : ∀ body, Takes m.key.read (.atom (.text body))) {first : Body × Written}
    (h : ∀ member ∈ first :: members, m.Requires member.1 member.2 (P member))
    (hs : Spells (.atom (.text first.1) :: .mark .colon :: (first.2.tokens ++ (Written.memberTokens members ++ ts))) s)
    (hread : membersFrom m state s = .ok (a, r)) :
    m.Runs Made state (first :: members) a ∧ Spells ts r := by
  induction members generalizing first s state with
  | nil =>
      obtain ⟨next, t, hmember, hrest⟩ := membersFrom_eq_ok hread
      obtain ⟨k, reader, hkey, hvalue, hmade, ht⟩ := made_member htakes (h first List.mem_cons_self) hs hmember
      obtain ⟨u, hskip, hu⟩ := Spells.uncons_mark (m := .closeObject) ht
      rcases hrest with ⟨hclose, rfl⟩ | ⟨v, c, x, hcomma, -⟩
      · cases hskip.symm.trans hclose
        exact ⟨.cons hkey hvalue hmade (.nil _), hu⟩
      · cases hskip.symm.trans hcomma
  | cons second members ih =>
      obtain ⟨next, t, hmember, hrest⟩ := membersFrom_eq_ok hread
      obtain ⟨k, reader, hkey, hvalue, hmade, ht⟩ := made_member htakes (h first List.mem_cons_self) hs hmember
      rw [Written.memberTokens_cons] at ht
      simp only [List.cons_append, List.append_assoc] at ht
      obtain ⟨u, hskip, hu⟩ := ht.uncons_mark
      rcases hrest with ⟨hclose, -⟩ | ⟨v, c, x, hcomma, hnext, -, hmore⟩
      · cases hskip.symm.trans hclose
      · cases hskip.symm.trans hcomma
        obtain ⟨hruns, hr⟩ := ih (fun member hmem => h member (List.mem_cons_of_mem first hmem))
          (hnext ▸ hu.skipped) hmore
        exact ⟨.cons hkey hvalue hmade hruns, hr⟩

/-- Every member of an object is read. -/
theorem runs_members (htakes : ∀ body, Takes m.key.read (.atom (.text body)))
    (h : ∀ member ∈ members, m.Requires member.1 member.2 (P member))
    (hs : Spells (Written.objectTokens members ++ ts) s) (hread : Json.members m state s = .ok (a, r)) :
    m.Runs Made state members a ∧ Spells ts r := by
  unfold Json.members at hread
  cases members with
  | nil =>
      obtain ⟨u, hskip, hu⟩ := Spells.uncons_mark (m := .closeObject) hs
      simp only [hskip] at hread
      cases hread
      exact ⟨.nil _, hu⟩
  | cons first members =>
      simp only [Written.objectTokens, List.cons_append, List.append_assoc] at hs
      obtain ⟨u, hskip, -, -⟩ := hs.uncons
      simp only [hskip, Token.bytes, Atom.bytes, Body.quoted, List.cons_append] at hread
      rw [if_neg (by decide)] at hread
      refine runs_membersFrom htakes h ?_ hread
      have hskipped := hs.skipped
      rwa [hskip] at hskipped

theorem requires_members (htakes : ∀ body, Takes m.key.read (.atom (.text body)))
    (h : ∀ member ∈ members, m.Requires member.1 member.2 (P member))
    (hs : Spells (Written.objectTokens members ++ ts) s) (hread : Json.members m state s = .ok (a, r)) :
    (∀ member ∈ members, P member) ∧ Spells ts r := by
  obtain ⟨hruns, hr⟩ := runs_members htakes h hs hread
  exact ⟨hruns.forall_mem h, hr⟩

/-! ## Values that are passed over -/

variable {g : Grammar κ α}

theorem requires_shallow (h : g.Lexical) {item? : Unit → Option (Reader α)}
    (hitem : ∀ item, item? () = some item → ∀ w, Requires item.read w True) (w : Written) :
    Requires (g.shallow item?).read w True := by
  intro ts s a r hs hread
  refine ⟨trivial, ?_⟩
  simp only [Grammar.shallow, Grammar.readShallow] at hread
  cases w with
  | atom atom =>
      obtain ⟨u, hskip, hends, hu⟩ := Spells.uncons (t := .atom atom) hs
      obtain ⟨b, tail, hbytes, hb⟩ := atom.exists_bytes_eq
      have hlist : b ≠ openList := byte_ne_of_opensAtom hb .openList
      have hobject : b ≠ openObject := byte_ne_of_opensAtom hb .openObject
      have hbytes' : Token.bytes (.atom atom) = b :: tail := hbytes
      rw [hbytes', List.cons_append] at hskip
      simp only [hskip, hlist, hobject, or_self, if_false] at hread
      obtain ⟨rfl, -⟩ := h.scalar hbytes' hends hends hread
      exact hu
  | list items trailing =>
      rw [Written.tokens_list, List.cons_append] at hs
      obtain ⟨u, hskip, hu⟩ := hs.uncons_mark
      simp only [hskip, Mark.byte, true_or, if_true, Grammar.nested] at hread
      cases hsome : item? () with
      | none => simp [hsome] at hread
      | some item =>
          simp only [hsome] at hread
          obtain ⟨as, helements, -⟩ := Reading.map_eq_ok hread
          exact (requires_elements g.listClosed (fun i _ => hitem item hsome i) hu helements).2
  | object members trailing =>
      rw [Written.tokens_object, List.cons_append] at hs
      obtain ⟨u, hskip, hu⟩ := hs.uncons_mark
      simp only [hskip, Mark.byte, or_true, if_true, Grammar.nested] at hread
      cases hsome : item? () with
      | none => simp [hsome] at hread
      | some item =>
          simp only [hsome] at hread
          rw [if_neg (by decide)] at hread
          obtain ⟨state, hmembers, -⟩ := Reading.map_eq_ok hread
          have hmember : ∀ member ∈ members, (g.collecting item).Requires member.1 member.2 True := by
            intro member _ state k reader u r _ hvalue
            cases hvalue
            exact (hitem item hsome member.2).map _
          exact (requires_members h.key hmember hu hmembers).2

theorem requires_value (h : g.Lexical) (depth : Nat) (w : Written) : Requires (g.value depth).read w True := by
  induction depth generalizing w with
  | zero =>
      refine requires_shallow h (fun item hitem => ?_) w
      cases hitem
  | succ depth ih =>
      refine requires_shallow h (fun item hitem => ?_) w
      cases hitem
      exact ih

theorem requires_skip (w : Written) : Requires skip.read w True := by
  intro ts s a r hs hread
  exact requires_value lexical_skipped s.length w ts s a r hs hread

end

end ConfigChain.Json

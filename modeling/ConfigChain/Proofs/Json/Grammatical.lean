import ConfigChain.Proofs.Json.Expected
import ConfigChain.Proofs.Json.Literals

/-! # Readers read values

What a reader takes from the front of a text are the tokens of one value of strict JSON, and blanks. This goes for the
readers of values of any shape and for those of expected values alike, since every list and every object is read by the
same two loops. -/

namespace ConfigChain.Json

/-! ## Tokens at the front of a text -/

/-- A text that begins with some words, blanks between them, and what follows it. -/
inductive Begins {τ : Type} (bytes : τ → Bytes) : Bytes → List τ → Bytes → Prop where
  | refl (s : Bytes) : Begins bytes s [] s
  | blank {b : UInt8} {s r : Bytes} {ts : List τ} (hb : isBlank b = true) (h : Begins bytes s ts r) :
      Begins bytes (b :: s) ts r
  | word (t : τ) {s r : Bytes} {ts : List τ} (h : Begins bytes s ts r) : Begins bytes (bytes t ++ s) (t :: ts) r

section

variable {τ : Type} {bytes : τ → Bytes} {s r u : Bytes} {ts us : List τ}

theorem Begins.trans (h : Begins bytes s ts r) (h' : Begins bytes r us u) : Begins bytes s (ts ++ us) u := by
  induction h with
  | refl _ => exact h'
  | blank hb _ ih => exact .blank hb (ih h')
  | word t _ ih => exact .word t (ih h')

theorem Begins.of_skipBlanks (h : Begins bytes (skipBlanks s) ts r) : Begins bytes s ts r := by
  induction s with
  | nil => exact h
  | cons b s ih =>
      cases hb : isBlank b with
      | true =>
          rw [skipBlanks, List.dropWhile_cons_of_pos hb] at h
          exact .blank hb (ih h)
      | false => rwa [skipBlanks, List.dropWhile_cons_of_neg (by simp [hb])] at h

end

section

variable {s r u : Bytes} {ts : List Token}

theorem Begins.mark {m : Mark} (h : Begins Token.bytes r ts u) (hskip : skipBlanks s = m.byte :: r) :
    Begins Token.bytes s (.mark m :: ts) u :=
  .of_skipBlanks (hskip ▸ .word (Token.mark m) h)

theorem Begins.atom {a : Atom} (h : Begins Token.bytes r ts u) (hs : s = a.bytes ++ r) :
    Begins Token.bytes s (.atom a :: ts) u :=
  hs ▸ .word (Token.atom a) h

end

/-! ## The tokens of a value -/

namespace Written

/-- The tokens of a list after its first item. -/
def itemTokens (items : List Written) : List Token := (moreItems false items).filterMap Lexeme.token?

/-- The tokens of an object after its first member. -/
def memberTokens (members : List (Body × Written)) : List Token :=
  (moreMembers false members).filterMap Lexeme.token?

theorem filterMap_ending (trailing : Bool) (close : Mark) :
    (ending trailing close).filterMap Lexeme.token? = [.mark close] := by
  cases trailing <;> rfl

/-- A trailing comma is no token. -/
theorem filterMap_moreItems (trailing : Bool) (items : List Written) :
    (moreItems trailing items).filterMap Lexeme.token? = itemTokens items := by
  induction items with
  | nil => rw [itemTokens, moreItems, moreItems, filterMap_ending, filterMap_ending]
  | cons item items ih =>
      rw [itemTokens] at ih ⊢
      simp only [moreItems, List.filterMap_cons, List.filterMap_append, ih]

theorem filterMap_moreMembers (trailing : Bool) (members : List (Body × Written)) :
    (moreMembers trailing members).filterMap Lexeme.token? = memberTokens members := by
  induction members with
  | nil => rw [memberTokens, moreMembers, moreMembers, filterMap_ending, filterMap_ending]
  | cons member members ih =>
      rw [memberTokens] at ih ⊢
      simp only [moreMembers, List.filterMap_cons, List.filterMap_append, ih]

@[simp] theorem itemTokens_cons (item : Written) (items : List Written) :
    itemTokens (item :: items) = .mark .comma :: (item.tokens ++ itemTokens items) := by
  simp [itemTokens, moreItems, tokens, Lexeme.token?]

@[simp] theorem memberTokens_cons (key : Body) (value : Written) (members : List (Body × Written)) :
    memberTokens ((key, value) :: members) =
      .mark .comma :: .atom (.text key) :: .mark .colon :: (value.tokens ++ memberTokens members) := by
  simp [memberTokens, moreMembers, tokens, Lexeme.token?]

@[simp] theorem tokens_list_cons (item : Written) (items : List Written) (trailing : Bool) :
    (list (item :: items) trailing).tokens = .mark .openList :: (item.tokens ++ itemTokens items) := by
  simp [tokens, lexemes, Lexeme.token?, filterMap_moreItems]

@[simp] theorem tokens_object_cons (key : Body) (value : Written) (members : List (Body × Written))
    (trailing : Bool) :
    (object ((key, value) :: members) trailing).tokens =
      .mark .openObject :: .atom (.text key) :: .mark .colon :: (value.tokens ++ memberTokens members) := by
  simp [tokens, lexemes, Lexeme.token?, filterMap_moreMembers]

end Written

/-! ## Lists and objects -/

section

variable {α κ σ : Type}

/-- Whatever `read` reads, what it takes are tokens as in `P`. -/
def Reads (P : List Token → Prop) (read : Bytes → Reading α) : Prop :=
  ∀ s a r, read s = .ok (a, r) → ∃ ts, P ts ∧ Begins Token.bytes s ts r

/-- The tokens of a value. -/
def AreValue (ts : List Token) : Prop := ∃ w : Written, ts = w.tokens

/-- The tokens of a value that begins with a mark, behind that mark. -/
def AreBehind (m : Mark) (ts : List Token) : Prop := ∃ w : Written, .mark m :: ts = w.tokens

/-- The tokens of a list from one of its items on. -/
def AreItems (ts : List Token) : Prop :=
  ∃ (item : Written) (items : List Written), ts = item.tokens ++ Written.itemTokens items

/-- The tokens of a member. -/
def AreMember (ts : List Token) : Prop :=
  ∃ (key : Body) (value : Written), ts = .atom (.text key) :: .mark .colon :: value.tokens

/-- The tokens of an object from one of its members on. -/
def AreMembers (ts : List Token) : Prop :=
  ∃ (key : Body) (value : Written) (members : List (Body × Written)),
    ts = .atom (.text key) :: .mark .colon :: (value.tokens ++ Written.memberTokens members)

/-- A reader that reads values only. -/
def Grammatical (reader : Reader α) : Prop := Reads AreValue reader.read

theorem Reads.map {β : Type} {P : List Token → Prop} {read : Bytes → Reading α} (h : Reads P read) (f : α → β) :
    Reads P fun s => (read s).map f := by
  intro s b r hread
  obtain ⟨a, ha, -⟩ := Reading.map_eq_ok hread
  exact h s a r ha

theorem Grammatical.map {β : Type} {reader : Reader α} (h : Grammatical reader) (f : α → β) :
    Grammatical (reader.map f) :=
  Reads.map h f

theorem reads_elementsFrom {item : Reader α} (h : Grammatical item) (closed : Cause) :
    Reads AreItems (elementsFrom item closed) := by
  intro s as r hread
  fun_induction elementsFrom item closed s generalizing as with
  | case1 => cases hread
  | case2 => cases hread
  | case3 s a t hitem u hskip =>
      -- The list ends behind this item.
      cases hread
      obtain ⟨_, ⟨item, rfl⟩, hfirst⟩ := h s a t hitem
      exact ⟨_, ⟨item, [], rfl⟩, hfirst.trans (.mark (m := .closeList) (.refl r) hskip)⟩
  | case4 => cases hread
  | case5 => cases hread
  | case6 s a t hitem u c v hnext hc hskip hclose ih =>
      -- A comma follows, and behind it the items that the loop goes on with.
      obtain ⟨_, hmore, -⟩ := Reading.map_eq_ok hread
      obtain ⟨_, ⟨item, rfl⟩, hfirst⟩ := h s a t hitem
      obtain ⟨_, ⟨next, items, rfl⟩, hlater⟩ := ih _ hmore
      have hrest : Begins Token.bytes t (Written.itemTokens (next :: items)) r := by
        rw [Written.itemTokens_cons]
        exact .mark (m := .comma) (.of_skipBlanks (hnext ▸ hlater)) hskip
      exact ⟨_, ⟨item, next :: items, rfl⟩, hfirst.trans hrest⟩
  | case7 => cases hread

theorem reads_elements {item : Reader α} (h : Grammatical item) (closed : Cause) :
    Reads (AreBehind .openList) (elements item closed) := by
  intro s as r hread
  unfold elements at hread
  split at hread
  · cases hread
  · rename_i b t hskip
    split at hread
    · rename_i hb
      subst hb
      cases hread
      exact ⟨_, ⟨.list [] false, rfl⟩, .mark (m := .closeList) (.refl r) hskip⟩
    · obtain ⟨_, ⟨item, items, rfl⟩, hitems⟩ := reads_elementsFrom h closed _ _ _ hread
      exact ⟨_, ⟨.list (item :: items) false, (Written.tokens_list_cons item items false).symm⟩,
        .of_skipBlanks (hskip ▸ hitems)⟩

/-- The keys are strings, and what follows each of them is a value. -/
structure Members.Grammatical (m : Members κ σ) : Prop where
  key : ∀ {s : Bytes} {k : κ} {r : Bytes}, m.key.read s = .ok (k, r) → ∃ body : Body, s = body.quoted ++ r
  value : ∀ {state : σ} {k : κ} {reader : Reader σ}, m.value state k = .ok reader → Json.Grammatical reader

variable {m : Members κ σ}

theorem Members.Grammatical.member (h : m.Grammatical) (state : σ) : Reads AreMember (member m state) := by
  intro s a r hread
  obtain ⟨t, k, reader, rest, after, -, hkey, hvalue, hcolon, hreader⟩ := member_eq_ok hread
  obtain ⟨body, hbody⟩ := h.key hkey
  obtain ⟨_, ⟨value, rfl⟩, hvalue⟩ := h.value hvalue _ _ _ hreader
  exact ⟨_, ⟨body, value, rfl⟩, .atom (.mark (m := .colon) hvalue hcolon) hbody⟩

theorem Members.Grammatical.membersFrom (h : m.Grammatical) (state : σ) :
    Reads AreMembers (membersFrom m state) := by
  intro s a r hread
  fun_induction Json.membersFrom m state s with
  | case1 => cases hread
  | case2 => cases hread
  | case3 state s next t hmember u hskip =>
      cases hread
      obtain ⟨_, ⟨key, value, rfl⟩, hfirst⟩ := h.member state s _ t hmember
      exact ⟨_, ⟨key, value, [], rfl⟩, hfirst.trans (.mark (m := .closeObject) (.refl r) hskip)⟩
  | case4 => cases hread
  | case5 => cases hread
  | case6 state s next t hmember u c v hnext hc hskip hclose ih =>
      obtain ⟨_, ⟨key, value, rfl⟩, hfirst⟩ := h.member state s next t hmember
      obtain ⟨_, ⟨key', value', members, rfl⟩, hlater⟩ := ih hread
      have hrest : Begins Token.bytes t (Written.memberTokens ((key', value') :: members)) r := by
        rw [Written.memberTokens_cons]
        exact .mark (m := .comma) (.of_skipBlanks (hnext ▸ hlater)) hskip
      exact ⟨_, ⟨key, value, (key', value') :: members, rfl⟩, hfirst.trans hrest⟩
  | case7 => cases hread

theorem Members.Grammatical.members (h : m.Grammatical) (state : σ) :
    Reads (AreBehind .openObject) (members m state) := by
  intro s a r hread
  unfold Json.members at hread
  split at hread
  · cases hread
  · rename_i b t hskip
    split at hread
    · rename_i hb
      subst hb
      cases hread
      exact ⟨_, ⟨.object [] false, rfl⟩, .mark (m := .closeObject) (.refl r) hskip⟩
    · obtain ⟨_, ⟨key, value, members, rfl⟩, hmembers⟩ := h.membersFrom state _ _ _ hread
      exact ⟨_, ⟨.object ((key, value) :: members) false, (Written.tokens_object_cons key value members false).symm⟩,
        .of_skipBlanks (hskip ▸ hmembers)⟩

/-! ## Values of any shape -/

variable {g : Grammar κ α}

/-- The strings and numbers of a grammar are those of JSON. -/
structure Grammar.Grammatical (g : Grammar κ α) : Prop where
  key : ∀ {s : Bytes} {k : κ} {r : Bytes}, g.key.read s = .ok (k, r) → ∃ body : Body, s = body.quoted ++ r
  text : ∀ {s : Bytes} {a : α} {r : Bytes}, g.text.read s = .ok (a, r) → ∃ body : Body, s = body.quoted ++ r
  number : ∀ {s : Bytes} {a : α} {r : Bytes}, g.number.read s = .ok (a, r) → ∃ n : NumberText, s = n.bytes ++ r

theorem Grammar.Grammatical.scalar (h : g.Grammatical) {b : UInt8} {t r : Bytes} {a : α}
    (hread : g.scalar b t = .ok (a, r)) : ∃ atom : Atom, b :: t = atom.bytes ++ r := by
  unfold Grammar.scalar at hread
  split at hread
  · rename_i hb
    exact ⟨.null, by rw [hb, wordThen_eq_ok hread]; rfl⟩
  split at hread
  · rename_i hb
    exact ⟨.bool true, by rw [hb, wordThen_eq_ok hread]; rfl⟩
  split at hread
  · rename_i hb
    exact ⟨.bool false, by rw [hb, wordThen_eq_ok hread]; rfl⟩
  split at hread
  · obtain ⟨body, hbody⟩ := h.text hread
    exact ⟨.text body, hbody⟩
  split at hread
  · obtain ⟨n, hn⟩ := h.number hread
    exact ⟨.number n, hn⟩
  · cases hread

theorem Grammar.Grammatical.collecting (h : g.Grammatical) {item : Reader α} (hitem : Json.Grammatical item) :
    (g.collecting item).Grammatical := by
  refine ⟨h.key, fun hreader => ?_⟩
  cases hreader
  exact hitem.map _

theorem Grammar.Grammatical.nested (h : g.Grammatical) {item? : Unit → Option (Reader α)}
    (hitem : ∀ item, item? () = some item → Json.Grammatical item) {m : Mark}
    (hm : m = .openList ∨ m = .openObject) : Reads (AreBehind m) (g.nested item? m.byte) := by
  intro s a r hread
  unfold Grammar.nested at hread
  split at hread
  · cases hread
  · rename_i item hsome
    rcases hm with rfl | rfl
    · exact (reads_elements (hitem item hsome) _).map _ s a r hread
    · exact ((h.collecting (hitem item hsome)).members []).map _ s a r hread

theorem Grammar.Grammatical.shallow (h : g.Grammatical) {item? : Unit → Option (Reader α)}
    (hitem : ∀ item, item? () = some item → Json.Grammatical item) : Json.Grammatical (g.shallow item?) := by
  intro s a r hread
  simp only [Grammar.shallow, Grammar.readShallow] at hread
  split at hread
  · cases hread
  · rename_i b t hskip
    split at hread
    · rename_i hopen
      obtain ⟨m, rfl, hm⟩ : ∃ m : Mark, b = m.byte ∧ (m = .openList ∨ m = .openObject) := by
        rcases hopen with rfl | rfl
        · exact ⟨.openList, rfl, .inl rfl⟩
        · exact ⟨.openObject, rfl, .inr rfl⟩
      obtain ⟨ts, ⟨w, hw⟩, hrest⟩ := h.nested hitem hm t a r hread
      exact ⟨_, ⟨w, hw⟩, .mark hrest hskip⟩
    · obtain ⟨atom, hatom⟩ := h.scalar hread
      exact ⟨_, ⟨.atom atom, rfl⟩, .of_skipBlanks (.atom (.refl r) (hskip.trans hatom))⟩

theorem grammatical_value (h : g.Grammatical) (depth : Nat) : Grammatical (g.value depth) := by
  induction depth with
  | zero => exact h.shallow nofun
  | succ depth ih =>
      refine h.shallow fun item hitem => ?_
      cases hitem
      exact ih

theorem grammatical_strict : strict.Grammatical where
  key := string_eq_ok
  text hread := by
    obtain ⟨_, ha, -⟩ := Reading.map_eq_ok hread
    exact string_eq_ok ha
  number hread := by
    obtain ⟨_, ha, -⟩ := Reading.map_eq_ok hread
    exact number_eq_ok ha

theorem grammatical_skipped : skipped.Grammatical where
  key := skippedString_eq_ok
  text := skippedString_eq_ok
  number := skippedNumber_eq_ok

theorem grammatical_skip : Grammatical skip :=
  fun s => grammatical_value grammatical_skipped s.length s

/-! ## Expected values -/

theorem reads_readExpecting {expected : String} {opens : UInt8 → Bool} {body : UInt8 → Bytes → Reading α}
    (h : ∀ b t a r, opens b = true → body b t = .ok (a, r) → ∃ ts, AreValue ts ∧ Begins Token.bytes (b :: t) ts r) :
    Reads AreValue (readExpecting expected opens body) := by
  intro s a r hread
  unfold readExpecting at hread
  split at hread
  · cases hread
  · rename_i b t hskip
    split at hread
    · rename_i hopens
      obtain ⟨ts, hvalue, hbegins⟩ := h b t a r hopens hread
      exact ⟨ts, hvalue, .of_skipBlanks (hskip ▸ hbegins)⟩
    · cases hread

theorem begins_of_atom {s r : Bytes} {a : Atom} (h : s = a.bytes ++ r) :
    ∃ ts, AreValue ts ∧ Begins Token.bytes s ts r :=
  ⟨_, ⟨.atom a, rfl⟩, .atom (.refl r) h⟩

theorem begins_of_mark {m : Mark} {read : Bytes → Reading α} (h : Reads (AreBehind m) read) {t r : Bytes} {a : α}
    (hread : read t = .ok (a, r)) : ∃ ts, AreValue ts ∧ Begins Token.bytes (m.byte :: t) ts r := by
  obtain ⟨ts, ⟨w, hw⟩, hbegins⟩ := h t a r hread
  exact ⟨_, ⟨w, hw⟩, .word (Token.mark m) hbegins⟩

theorem grammatical_aText : Grammatical aText := by
  refine reads_readExpecting fun _ _ _ _ _ hread => ?_
  obtain ⟨body, hbody⟩ := string_eq_ok hread
  exact begins_of_atom (a := .text body) hbody

theorem grammatical_aBool : Grammatical aBool := by
  refine reads_readExpecting fun b t a r hopens hread => ?_
  split at hread
  · rename_i hb
    exact begins_of_atom (a := .bool true) (by rw [hb, wordThen_eq_ok hread]; rfl)
  · rename_i hb
    have hfalse : b = letterF := by simpa [hb] using hopens
    exact begins_of_atom (a := .bool false) (by rw [hfalse, wordThen_eq_ok hread]; rfl)

theorem grammatical_orNull {reader : Reader α} (h : Grammatical reader) : Grammatical (orNull reader) := by
  intro s a r hread
  simp only [orNull, readOrNull] at hread
  split at hread
  · exact h.map some s a r hread
  · rename_i b t hskip
    split at hread
    · rename_i hb
      obtain ⟨ts, hvalue, hbegins⟩ :=
        begins_of_atom (s := b :: t) (r := r) (a := .null) (by rw [hb, wordThen_eq_ok hread]; rfl)
      exact ⟨ts, hvalue, .of_skipBlanks (hskip ▸ hbegins)⟩
    · exact h.map some s a r hread

theorem grammatical_textList : Grammatical textList := by
  refine reads_readExpecting fun b t a r hopens hread => ?_
  obtain rfl : b = Mark.openList.byte := beq_iff_eq.mp hopens
  exact begins_of_mark (reads_elements grammatical_aText _) hread

theorem grammatical_anObject {value : σ → String → Reader σ} (h : ∀ s k, Grammatical (value s k)) (start : σ) :
    Grammatical (anObject value start) := by
  refine reads_readExpecting fun b t a r hopens hread => ?_
  obtain rfl : b = Mark.openObject.byte := beq_iff_eq.mp hopens
  refine begins_of_mark (Members.Grammatical.members ⟨string_eq_ok, fun hreader => ?_⟩ start) hread
  cases hreader
  exact h _ _

namespace Record

/-- The tokens of a list behind `count` items. -/
def AreItemsBehind (count : Nat) (ts : List Token) : Prop :=
  if count = 0 then AreBehind .openList ts else ∃ items, ts = Written.itemTokens items

theorem areItemsBehind_close (count : Nat) : AreItemsBehind count [.mark .closeList] := by
  unfold AreItemsBehind
  split
  · exact ⟨.list [] false, rfl⟩
  · exact ⟨[], rfl⟩

theorem reads_listEnd (count : Nat) (state : σ) : Reads (AreItemsBehind count) (listEnd state) := by
  intro s a r hread
  unfold listEnd at hread
  split at hread
  · cases hread
  · rename_i b t hskip
    split at hread
    · rename_i hb
      subst hb
      cases hread
      exact ⟨_, areItemsBehind_close count, .mark (m := .closeList) (.refl r) hskip⟩
    · split at hread
      · split at hread <;> cases hread
      · cases hread

/-- The next item comes first, or behind a comma. -/
theorem begins_of_nextItem {count : Nat} {s t r : Bytes} {item : Written} {items : List Written}
    (h : nextItem count s = .ok (.inl t)) (ht : Begins Token.bytes t (item.tokens ++ Written.itemTokens items) r) :
    ∃ ts, AreItemsBehind count ts ∧ Begins Token.bytes s ts r := by
  unfold nextItem at h
  split at h
  · cases h
  · rename_i b u hskip
    split at h
    · cases h
    · split at h
      · rename_i hcount
        cases h
        refine ⟨_, ?_, .of_skipBlanks (hskip ▸ ht)⟩
        rw [AreItemsBehind, if_pos hcount]
        exact ⟨.list (item :: items) false, (Written.tokens_list_cons item items false).symm⟩
      · rename_i hcount
        split at h
        · rename_i hb
          subst hb
          split at h
          · cases h
          · rename_i c v hnext
            split at h
            · cases h
            · cases h
              refine ⟨_, ?_, .mark (m := .comma) (.of_skipBlanks (hnext ▸ ht)) hskip⟩
              rw [AreItemsBehind, if_neg hcount]
              exact ⟨item :: items, (Written.itemTokens_cons item items).symm⟩
        · cases h

theorem reads_listFrom (title : String) {fields : List (Field σ)}
    (h : ∀ field ∈ fields, ∀ state, Grammatical (field.reader state)) (count : Nat) (state : σ) :
    Reads (AreItemsBehind count) (listFrom title count fields state) := by
  induction fields generalizing count state with
  | nil => exact reads_listEnd count state
  | cons field fields ih =>
      obtain ⟨hfield, hfields⟩ := List.forall_mem_cons.mp h
      intro s a r hread
      unfold listFrom at hread
      split at hread
      · cases hread
      · cases hread
      · rename_i t hnext
        split at hread
        · cases hread
        · rename_i next u hfirst
          obtain ⟨_, ⟨item, rfl⟩, hitem⟩ := hfield state t next u hfirst
          obtain ⟨_, ⟨items, rfl⟩, hitems⟩ := ih hfields (count + 1) next u a r hread
          exact begins_of_nextItem hnext (hitem.trans hitems)

theorem grammatical_reading {record : Record σ}
    (h : ∀ field ∈ record.fields, ∀ state, Grammatical (field.reader state)) : record.reading.Grammatical := by
  refine ⟨string_eq_ok, fun {state name reader} hreader => ?_⟩
  simp only [reading] at hreader
  split at hreader
  · cases hreader
    exact grammatical_skip.map _
  · rename_i field hfound
    split at hreader
    · cases hreader
    · cases hreader
      exact (h field (List.mem_of_find?_eq_some hfound) state.2).map _

/-- A record whose fields are values. -/
theorem grammatical_reader {record : Record σ}
    (h : ∀ field ∈ record.fields, ∀ state, Grammatical (field.reader state)) : Grammatical record.reader := by
  refine reads_readExpecting fun b t a r hopens hread => ?_
  rcases Bool.or_eq_true_iff.mp hopens with hb | hb
  · obtain rfl : b = Mark.openList.byte := beq_iff_eq.mp hb
    exact begins_of_mark (reads_listFrom record.listTitle h 0 record.start) hread
  · obtain rfl : b = Mark.openObject.byte := beq_iff_eq.mp hb
    exact begins_of_mark (((grammatical_reading h).members ([], record.start)).map Prod.snd) hread

end Record

end

/-! ## Declarations -/

theorem grammatical_aliasRows : Grammatical aliasRows :=
  grammatical_anObject (fun _ _ => grammatical_textList.map _) []

theorem grammatical_optionsRecord : Grammatical optionsRecord.reader := by
  refine Record.grammatical_reader ?_
  have htext := grammatical_orNull grammatical_aText
  have hbool := grammatical_orNull grammatical_aBool
  have hrows := grammatical_orNull grammatical_aliasRows
  simp only [optionsRecord, List.forall_mem_cons]
  exact ⟨fun _ => htext.map _, fun _ => htext.map _, fun _ => htext.map _, fun _ => htext.map _,
    fun _ => hrows.map _, fun _ => hbool.map _, fun _ => hbool.map _, fun _ => hbool.map _,
    fun _ => hbool.map _, List.forall_mem_nil _⟩

theorem grammatical_declaration : Grammatical declarationRecord.reader := by
  refine Record.grammatical_reader ?_
  have htext := grammatical_orNull grammatical_aText
  have hoptions := grammatical_orNull grammatical_optionsRecord
  simp only [declarationRecord, List.forall_mem_cons]
  exact ⟨fun _ => htext.map _, fun _ => hoptions.map _, List.forall_mem_nil _⟩

/-! ## Whole texts -/

theorem Begins.of_blanks {s r : Bytes} {ts : List Token} (h : Begins Token.bytes s ts r) (hr : skipBlanks r = []) :
    Begins Token.bytes s ts [] := by
  have hblanks : Begins Token.bytes r [] [] := by
    refine .of_skipBlanks ?_
    rw [hr]
    exact .refl []
  simpa using h.trans hblanks

/-- A text that is read as a whole is one value. -/
theorem Grammatical.whole {α : Type} {reader : Reader α} (h : Grammatical reader) {s : Bytes} {a : α}
    (hread : reader.whole s = .ok a) : ∃ w : Written, Begins Token.bytes s w.tokens [] := by
  obtain ⟨r, hok, hskip⟩ := Reader.whole_eq_ok_iff.mp hread
  obtain ⟨_, ⟨w, rfl⟩, hbegins⟩ := h s a r hok
  exact ⟨w, hbegins.of_blanks hskip⟩

end ConfigChain.Json

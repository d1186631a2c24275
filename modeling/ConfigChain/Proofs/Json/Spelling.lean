import ConfigChain.Proofs.Json.Lexing

/-! # Readers do not see blanks

Two texts that spell the same tokens, with different blanks between them, are read to the same result. What
a reader makes of the one is carried over to the other, token by token; both then leave texts that spell the
same tokens again. -/

namespace ConfigChain.Json

/-- A text of some tokens, with nothing but blanks between them. -/
inductive Spells : List Token → Bytes → Prop where
  | nil : Spells [] []
  | blank {ts : List Token} {b : UInt8} {s : Bytes} (hb : isBlank b = true) (h : Spells ts s) :
      Spells ts (b :: s)
  | token {ts : List Token} {s : Bytes} (t : Token) (hends : t.Ends s) (h : Spells ts s) :
      Spells (t :: ts) (t.bytes ++ s)

/-- What `read` makes of a text of at most `n` tokens, `read'` makes of every text of the same tokens. -/
def Carries {α : Type} (n : Nat) (read read' : Bytes → Reading α) : Prop :=
  ∀ ts s s' a r, ts.length ≤ n → Spells ts s → Spells ts s' → read s = .ok (a, r) →
    ∃ left r', read' s' = .ok (a, r') ∧ left.length < ts.length ∧ Spells left r ∧ Spells left r'

/-- A reader that does not see blanks. -/
def Blind {α : Type} (reader : Reader α) : Prop := ∀ n, Carries n reader.read reader.read

/-! ## Spelled tokens -/

section

variable {ts : List Token} {s s' r r' t : Bytes} {b : UInt8} {m : Mark}

theorem isBlank_of_isPassed (h : isPassed b = false) : isBlank b = false := by
  simp only [isPassed, Bool.or_eq_false_iff] at h
  exact h.1

theorem skipBlanks_of_isPassed (h : isPassed b = false) (s : Bytes) : skipBlanks (b :: s) = b :: s := by
  simp [skipBlanks, isBlank_of_isPassed h]

theorem skipBlanks_bytes (token : Token) (s : Bytes) : skipBlanks (token.bytes ++ s) = token.bytes ++ s := by
  obtain ⟨b, rest, hbytes, hb, -⟩ := token.exists_bytes_eq
  rw [hbytes, List.cons_append, skipBlanks_of_isPassed hb]

/-- Past the blanks stands the first token. -/
theorem Spells.skipBlanks_eq (h : Spells ts s) :
    ts = [] ∧ skipBlanks s = [] ∨
      ∃ token rest r, ts = token :: rest ∧ skipBlanks s = token.bytes ++ r ∧ token.Ends r ∧
        Spells rest r := by
  induction h with
  | nil => exact .inl ⟨rfl, rfl⟩
  | blank hb _ ih => rwa [skipBlanks, List.dropWhile_cons_of_pos hb]
  | @token rest r token hends h => exact .inr ⟨token, rest, r, rfl, skipBlanks_bytes token r, hends, h⟩

theorem Spells.skipped (h : Spells ts s) : Spells ts (skipBlanks s) := by
  rcases h.skipBlanks_eq with ⟨rfl, hskip⟩ | ⟨token, rest, r, rfl, hskip, hends, hrest⟩
  · rw [hskip]
    exact .nil
  · rw [hskip]
    exact .token token hends hrest

theorem Spells.length_le (h : Spells ts s) : ts.length ≤ s.length := by
  induction h with
  | nil => exact le_rfl
  | blank _ _ ih => exact Nat.le_succ_of_le ih
  | token token _ _ ih =>
      obtain ⟨b, rest, hbytes, -⟩ := token.exists_bytes_eq
      rw [hbytes, List.length_append, List.length_cons, List.length_cons]
      omega

/-- The first tokens of two texts of the same tokens. -/
theorem Spells.first (h : Spells ts s) (h' : Spells ts s') (hskip : skipBlanks s = b :: t) :
    ∃ token rest tail u u', ts = token :: rest ∧ token.bytes = b :: tail ∧ t = tail ++ u ∧
      skipBlanks s' = b :: (tail ++ u') ∧ token.Ends u ∧ token.Ends u' ∧ Spells rest u ∧ Spells rest u' := by
  rcases h.skipBlanks_eq with ⟨-, hnil⟩ | ⟨token, rest, u, rfl, hs, hends, hrest⟩
  · simp [hnil] at hskip
  · rcases h'.skipBlanks_eq with ⟨hnil, -⟩ | ⟨token', rest', u', heq, hs', hends', hrest'⟩
    · cases hnil
    · cases heq
      obtain ⟨b', tail, hbytes, -⟩ := token.exists_bytes_eq
      rw [hs, hbytes, List.cons_append] at hskip
      cases hskip
      exact ⟨token, rest, tail, u, u', rfl, hbytes, rfl, by rw [hs', hbytes]; rfl, hends, hends', hrest,
        hrest'⟩

/-- The same for a mark. -/
theorem Spells.first_mark (h : Spells ts s) (h' : Spells ts s') (hskip : skipBlanks s = m.byte :: t) :
    ∃ rest t', ts = .mark m :: rest ∧ skipBlanks s' = m.byte :: t' ∧ Spells rest t ∧ Spells rest t' := by
  obtain ⟨token, rest, tail, u, u', rfl, hbytes, rfl, hskip', -, -, hu, hu'⟩ := h.first h' hskip
  obtain ⟨rfl, rfl⟩ := Token.eq_mark hbytes
  exact ⟨rest, u', rfl, hskip', hu, hu'⟩

end

/-! ## Lists -/

section

variable {α : Type} {n : Nat}

theorem Carries.map {β : Type} {reader reader' : Reader α} (h : Carries n reader.read reader'.read)
    (f : α → β) : Carries n (reader.map f).read (reader'.map f).read := by
  intro ts s s' b r hn hs hs' hread
  obtain ⟨a, ha, rfl⟩ := Reading.map_eq_ok hread
  obtain ⟨left, r', hread', hleft⟩ := h ts s s' a r hn hs hs' ha
  exact ⟨left, r', by simp [Reader.map, hread', Reading.map], hleft⟩

theorem elementsFrom_eq_ok {item : Reader α} {closed : Cause} {s rest : Bytes} {as : List α}
    (h : elementsFrom item closed s = .ok (as, rest)) :
    ∃ a r, item.read s = .ok (a, r) ∧
      (skipBlanks r = closeList :: rest ∧ as = [a] ∨
        ∃ t c u bs, skipBlanks r = comma :: t ∧ skipBlanks t = c :: u ∧ c ≠ closeList ∧
          elementsFrom item closed (c :: u) = .ok (bs, rest) ∧ as = a :: bs) := by
  rw [elementsFrom] at h
  split at h
  · cases h
  · rename_i a r hread
    refine ⟨a, r, hread, ?_⟩
    split at h
    · cases h
    · rename_i b t hr
      split at h
      · rename_i hb
        cases h
        exact .inl ⟨hb ▸ hr, rfl⟩
      · split at h
        · rename_i hb
          split at h
          · cases h
          · rename_i c u ht
            split at h
            · cases h
            · rename_i hc
              obtain ⟨bs, hbs, rfl⟩ := Reading.map_eq_ok h
              exact .inr ⟨t, c, u, bs, hb ▸ hr, ht, hc, hbs, rfl⟩
        · cases h

theorem elementsFrom_of_close {item : Reader α} (closed : Cause) {s r t : Bytes} {a : α}
    (hread : item.read s = .ok (a, r)) (hr : skipBlanks r = closeList :: t) :
    elementsFrom item closed s = .ok ([a], t) := by
  rw [elementsFrom]
  grind

theorem elementsFrom_of_comma {item : Reader α} (closed : Cause) {s r t u : Bytes} {c : UInt8} {a : α}
    (hread : item.read s = .ok (a, r)) (hr : skipBlanks r = comma :: t) (ht : skipBlanks t = c :: u)
    (hc : c ≠ closeList) :
    elementsFrom item closed s = (elementsFrom item closed (c :: u)).map (a :: ·) := by
  rw [elementsFrom]
  grind

theorem Carries.elementsFrom {item item' : Reader α} (h : Carries n item.read item'.read)
    (closed closed' : Cause) : Carries n (elementsFrom item closed) (elementsFrom item' closed') := by
  intro ts
  induction hk : ts.length using Nat.strong_induction_on generalizing ts with
  | h k ih =>
      subst hk
      intro s s' as last hn hs hs' hread
      obtain ⟨a, r, ha, hrest⟩ := elementsFrom_eq_ok hread
      obtain ⟨left, r', ha', hlength, hr, hr'⟩ := h ts s s' a r hn hs hs' ha
      rcases hrest with ⟨hclose, rfl⟩ | ⟨t, c, u, bs, hcomma, ht, hc, hbs, rfl⟩
      · obtain ⟨rest, t', rfl, hclose', hlast, hlast'⟩ := hr.first_mark (m := .closeList) hr' hclose
        rw [List.length_cons] at hlength
        exact ⟨rest, t', elementsFrom_of_close closed' ha' hclose', by omega, hlast, hlast'⟩
      · obtain ⟨rest, t', rfl, hcomma', hrest, hrest'⟩ := hr.first_mark (m := .comma) hr' hcomma
        obtain ⟨_, _, tail, _, u', -, -, -, ht', -⟩ := hrest.first hrest' ht
        rw [List.length_cons] at hlength
        obtain ⟨left', last', hbs', hlength', hlast⟩ := ih rest.length (by omega) rest rfl (c :: u) _ bs last
          (by omega) (ht ▸ hrest.skipped) hrest'.skipped hbs
        rw [ht'] at hbs'
        refine ⟨left', last', ?_, by omega, hlast⟩
        rw [elementsFrom_of_comma closed' ha' hcomma' ht' hc, hbs']
        rfl

theorem Carries.elements {item item' : Reader α} (h : Carries n item.read item'.read)
    (closed closed' : Cause) : Carries n (elements item closed) (elements item' closed') := by
  intro ts s s' as last hn hs hs' hread
  unfold Json.elements at hread ⊢
  cases hskip : skipBlanks s with
  | nil => simp [hskip] at hread
  | cons b t =>
      obtain ⟨_, _, tail, _, u', -, -, -, hskip', -⟩ := hs.first hs' hskip
      simp only [hskip] at hread
      simp only [hskip']
      split at hread
      · rename_i hb
        subst hb
        cases hread
        obtain ⟨rest, t', rfl, hclose, hlast, hlast'⟩ := hs.first_mark (m := .closeList) hs' hskip
        obtain ⟨-, rfl⟩ := List.cons.inj (hskip'.symm.trans hclose)
        exact ⟨rest, _, rfl, by simp, hlast, hlast'⟩
      · rename_i hb
        obtain ⟨left, last', hread', hleft⟩ := h.elementsFrom closed closed' ts (b :: t) _ as last hn
          (hskip ▸ hs.skipped) hs'.skipped hread
        rw [hskip'] at hread'
        exact ⟨left, last', by rw [if_neg hb, hread'], hleft⟩

end

/-! ## Objects -/

section

variable {κ σ : Type} {n : Nat} {m m' : Members κ σ}

/-- The same keys are read, and the same values after each of them. -/
structure Members.Carries (n : Nat) (m m' : Members κ σ) : Prop where
  key_eq : m'.key = m.key
  takes : ∀ body, Takes m.key.read (.atom (.text body))
  value : ∀ state k reader, m.value state k = .ok reader →
    ∃ reader', m'.value state k = .ok reader' ∧ Json.Carries n reader.read reader'.read

theorem member_eq_ok {state a : σ} {s r : Bytes} (h : member m state s = .ok (a, r)) :
    ∃ t k reader rest after, s = quote :: t ∧ m.key.read s = .ok (k, rest) ∧
      m.value state k = .ok reader ∧ skipBlanks rest = colon :: after ∧ reader.read after = .ok (a, r) := by
  unfold member at h
  split at h
  · rename_i hhead
    obtain ⟨t, rfl⟩ := List.head?_eq_some_iff.mp hhead
    split at h
    · cases h
    · rename_i k rest hkey
      split at h
      · cases h
      · rename_i reader hvalue
        unfold afterKey at h
        split at h
        · cases h
        · rename_i b after hskip
          split at h
          · rename_i hb
            exact ⟨t, k, reader, rest, after, rfl, hkey, hvalue, hb ▸ hskip, h⟩
          · cases h
  · cases h

theorem member_of_ok {state : σ} {t rest after : Bytes} {k : κ} {reader : Reader σ}
    (hkey : m.key.read (quote :: t) = .ok (k, rest)) (hvalue : m.value state k = .ok reader)
    (hskip : skipBlanks rest = colon :: after) : member m state (quote :: t) = reader.read after := by
  simp [member, hkey, hvalue, afterKey, hskip]

/-- A member that begins where the blanks end. -/
theorem Members.Carries.member (h : m.Carries n m') {ts : List Token} {s s' r : Bytes} {state a : σ}
    (hn : ts.length ≤ n) (hs : Spells ts s) (hs' : Spells ts s')
    (hread : member m state (skipBlanks s) = .ok (a, r)) :
    ∃ left r', member m' state (skipBlanks s') = .ok (a, r') ∧ left.length < ts.length ∧
      Spells left r ∧ Spells left r' := by
  obtain ⟨t, k, reader, rest, after, hquote, hkey, hvalue, hcolon, hreader⟩ := member_eq_ok hread
  obtain ⟨token, ts, tail, u, u', rfl, hbytes, rfl, hskip', hends, hends', hu, hu'⟩ := hs.first hs' hquote
  obtain ⟨body, rfl⟩ := Token.eq_text hbytes
  have hkeyToken : m.key.read (Token.bytes (.atom (.text body)) ++ u) = .ok (k, rest) := by
    rw [hbytes, List.cons_append, ← hquote, hkey]
  obtain ⟨rfl, hall⟩ := h.takes body u k rest hends hkeyToken
  obtain ⟨reader', hvalue', hcarries⟩ := h.value state k reader hvalue
  obtain ⟨ts, after', rfl, hcolon', hafter, hafter'⟩ := hu.first_mark (m := .colon) hu' hcolon
  have hkey' : m'.key.read (quote :: (tail ++ u')) = .ok (k, u') := by
    rw [h.key_eq, ← List.cons_append, ← hbytes]
    exact hall u' hends'
  simp only [List.length_cons] at hn
  obtain ⟨left, r', hreader', hlength, hleft⟩ :=
    hcarries ts after after' a r (by omega) hafter hafter' hreader
  refine ⟨left, r', ?_, by simp only [List.length_cons]; omega, hleft⟩
  rw [hskip', member_of_ok hkey' hvalue' hcolon', hreader']

theorem membersFrom_eq_ok {state a : σ} {s rest : Bytes} (h : membersFrom m state s = .ok (a, rest)) :
    ∃ next r, Json.member m state s = .ok (next, r) ∧
      (skipBlanks r = closeObject :: rest ∧ a = next ∨
        ∃ t c u, skipBlanks r = comma :: t ∧ skipBlanks t = c :: u ∧ c ≠ closeObject ∧
          membersFrom m next (c :: u) = .ok (a, rest)) := by
  rw [membersFrom] at h
  split at h
  · cases h
  · rename_i next r hread
    refine ⟨next, r, hread, ?_⟩
    split at h
    · cases h
    · rename_i b t hr
      split at h
      · rename_i hb
        cases h
        exact .inl ⟨hb ▸ hr, rfl⟩
      · split at h
        · rename_i hb
          split at h
          · cases h
          · rename_i c u ht
            split at h
            · cases h
            · rename_i hc
              exact .inr ⟨t, c, u, hb ▸ hr, ht, hc, h⟩
        · cases h

theorem membersFrom_of_close {state next : σ} {s r t : Bytes}
    (hread : Json.member m state s = .ok (next, r)) (hr : skipBlanks r = closeObject :: t) :
    membersFrom m state s = .ok (next, t) := by
  rw [membersFrom]
  grind

theorem membersFrom_of_comma {state next : σ} {s r t u : Bytes} {c : UInt8}
    (hread : Json.member m state s = .ok (next, r)) (hr : skipBlanks r = comma :: t)
    (ht : skipBlanks t = c :: u) (hc : c ≠ closeObject) :
    membersFrom m state s = membersFrom m next (c :: u) := by
  rw [membersFrom]
  grind

theorem Members.Carries.membersFrom (h : m.Carries n m') {ts : List Token} {s s' r : Bytes} {state a : σ}
    (hn : ts.length ≤ n) (hs : Spells ts s) (hs' : Spells ts s')
    (hread : membersFrom m state (skipBlanks s) = .ok (a, r)) :
    ∃ left r', membersFrom m' state (skipBlanks s') = .ok (a, r') ∧ left.length < ts.length ∧
      Spells left r ∧ Spells left r' := by
  induction hk : ts.length using Nat.strong_induction_on generalizing ts s s' state with
  | h k ih =>
      subst hk
      obtain ⟨next, r₁, hmember, hrest⟩ := membersFrom_eq_ok hread
      obtain ⟨left, r₁', hmember', hlength, hr, hr'⟩ := h.member hn hs hs' hmember
      rcases hrest with ⟨hclose, rfl⟩ | ⟨t, c, u, hcomma, ht, hc, hmore⟩
      · obtain ⟨rest, t', rfl, hclose', hlast, hlast'⟩ := hr.first_mark (m := .closeObject) hr' hclose
        rw [List.length_cons] at hlength
        exact ⟨rest, t', membersFrom_of_close hmember' hclose', by omega, hlast, hlast'⟩
      · obtain ⟨rest, t', rfl, hcomma', hrest, hrest'⟩ := hr.first_mark (m := .comma) hr' hcomma
        obtain ⟨_, _, tail, _, u', -, -, -, ht', -⟩ := hrest.first hrest' ht
        rw [List.length_cons] at hlength
        obtain ⟨left', last', hmore', hlength', hlast⟩ :=
          ih rest.length (by omega) (by omega) hrest hrest' (ht ▸ hmore) rfl
        refine ⟨left', last', ?_, by omega, hlast⟩
        rw [membersFrom_of_comma hmember' hcomma' ht' hc, ← ht', hmore']

theorem Members.Carries.members (h : m.Carries n m') (state : σ) :
    Json.Carries n (members m state) (members m' state) := by
  intro ts s s' a last hn hs hs' hread
  unfold Json.members at hread ⊢
  cases hskip : skipBlanks s with
  | nil => simp [hskip] at hread
  | cons b t =>
      obtain ⟨_, _, tail, _, u', -, -, -, hskip', -⟩ := hs.first hs' hskip
      simp only [hskip] at hread
      simp only [hskip']
      split at hread
      · rename_i hb
        subst hb
        cases hread
        obtain ⟨rest, t', rfl, hclose, hlast, hlast'⟩ := hs.first_mark (m := .closeObject) hs' hskip
        obtain ⟨-, rfl⟩ := List.cons.inj (hskip'.symm.trans hclose)
        exact ⟨rest, _, rfl, by simp, hlast, hlast'⟩
      · rename_i hb
        obtain ⟨left, last', hread', hleft⟩ := h.membersFrom hn hs hs' (hskip ▸ hread)
        rw [hskip'] at hread'
        exact ⟨left, last', by rw [if_neg hb, hread'], hleft⟩

end

/-! ## Values -/

section

variable {κ α : Type} {g : Grammar κ α}

/-- The strings and numbers of a grammar are read up to their ends. -/
structure Grammar.Lexical (g : Grammar κ α) : Prop where
  key : ∀ body, Takes g.key.read (.atom (.text body))
  text : ∀ body, Takes g.text.read (.atom (.text body))
  number : ∀ n, Takes g.number.read (.atom (.number n))

theorem scalar_of_mark (m : Mark) (t : Bytes) : ∃ stop, g.scalar m.byte t = .error stop := by
  cases m <;> exact ⟨_, rfl⟩

theorem scalar_of_number {b : UInt8} (hb : b = minus ∨ isDigit b = true) (t : Bytes) :
    g.scalar b t = g.number.read (b :: t) := by
  have hne {c : UInt8} (hminus : c ≠ minus) (hdigit : isDigit c = false) : b ≠ c := by
    rintro rfl
    simp [hminus, hdigit] at hb
  rw [Grammar.scalar, if_neg (hne (by decide) (by decide)), if_neg (hne (by decide) (by decide)),
    if_neg (hne (by decide) (by decide)), if_neg (hne (by decide) (by decide)), if_pos hb]

theorem Grammar.Lexical.scalar (h : g.Lexical) {token : Token} {b : UInt8} {tail u u' r : Bytes} {a : α}
    (hbytes : token.bytes = b :: tail) (hends : token.Ends u) (hends' : token.Ends u')
    (hread : g.scalar b (tail ++ u) = .ok (a, r)) : r = u ∧ g.scalar b (tail ++ u') = .ok (a, u') := by
  match token with
  | .mark m =>
      cases hbytes
      obtain ⟨stop, hstop⟩ := scalar_of_mark (g := g) m ([] ++ u)
      rw [hstop] at hread
      cases hread
  | .atom .null =>
      cases hbytes
      have hword (s : Bytes) : g.scalar letterN (restOfNull ++ s) = .ok (g.null, s) :=
        wordThen_append restOfNull g.null s
      rw [hword] at hread
      cases hread
      exact ⟨rfl, hword u'⟩
  | .atom (.bool true) =>
      cases hbytes
      have hword (s : Bytes) : g.scalar letterT (restOfTrue ++ s) = .ok (g.bool true, s) :=
        wordThen_append restOfTrue (g.bool true) s
      rw [hword] at hread
      cases hread
      exact ⟨rfl, hword u'⟩
  | .atom (.bool false) =>
      cases hbytes
      have hword (s : Bytes) : g.scalar letterF (restOfFalse ++ s) = .ok (g.bool false, s) :=
        wordThen_append restOfFalse (g.bool false) s
      rw [hword] at hread
      cases hread
      exact ⟨rfl, hword u'⟩
  | .atom (.text body) =>
      cases hbytes
      obtain ⟨rfl, hall⟩ := h.text body u a r hends hread
      exact ⟨rfl, hall u' hends'⟩
  | .atom (.number n) =>
      obtain ⟨b', tail', hbytes', hb⟩ := n.exists_bytes_eq
      obtain ⟨rfl, rfl⟩ := List.cons.inj (hbytes.symm.trans hbytes')
      have hnumber (s : Bytes) :
          g.scalar b (tail ++ s) = g.number.read (Token.bytes (.atom (.number n)) ++ s) := by
        rw [hbytes, List.cons_append]
        exact scalar_of_number hb (tail ++ s)
      rw [hnumber] at hread ⊢
      obtain ⟨rfl, hall⟩ := h.number n u a r hends hread
      exact ⟨rfl, hall u' hends'⟩

theorem carries_collecting (h : g.Lexical) {n : Nat} {item item' : Reader α}
    (hitem : Carries n item.read item'.read) : (g.collecting item).Carries n (g.collecting item') := by
  refine ⟨rfl, h.key, fun state k reader hreader => ?_⟩
  cases hreader
  exact ⟨_, rfl, hitem.map _⟩

/-- A list or object whose items are carried over; its opening mark is a token of its own. -/
theorem Carries.nested (h : g.Lexical) {n : Nat} {item? item?' : Unit → Option (Reader α)}
    (hitem : ∀ item, item? () = some item → ∃ item', item?' () = some item' ∧ Carries n item.read item'.read)
    (b : UInt8) : Carries n (g.nested item? b) (g.nested item?' b) := by
  intro ts s s' a r hn hs hs' hread
  unfold Grammar.nested at hread ⊢
  cases hsome : item? () with
  | none => simp [hsome] at hread
  | some item =>
      obtain ⟨item', hsome', hcarries⟩ := hitem item hsome
      simp only [hsome, hsome'] at hread ⊢
      split at hread
      · rename_i hb
        obtain ⟨items, hitems, rfl⟩ := Reading.map_eq_ok hread
        obtain ⟨left, r', hitems', hleft⟩ :=
          hcarries.elements g.listClosed g.listClosed ts s s' items r hn hs hs' hitems
        exact ⟨left, r', by rw [if_pos hb, hitems']; rfl, hleft⟩
      · rename_i hb
        obtain ⟨ms, hms, rfl⟩ := Reading.map_eq_ok hread
        obtain ⟨left, r', hms', hleft⟩ :=
          (carries_collecting h hcarries).members [] ts s s' ms r hn hs hs' hms
        exact ⟨left, r', by rw [if_neg hb, hms']; rfl, hleft⟩

theorem Carries.shallow (h : g.Lexical) {n : Nat} {item? item?' : Unit → Option (Reader α)}
    (hitem : ∀ item k, item? () = some item → n = k + 1 →
      ∃ item', item?' () = some item' ∧ Carries k item.read item'.read) :
    Carries n (g.shallow item?).read (g.shallow item?').read := by
  intro ts s s' a r hn hs hs' hread
  simp only [Grammar.shallow, Grammar.readShallow] at hread ⊢
  cases hskip : skipBlanks s with
  | nil => simp [hskip] at hread
  | cons b t =>
      obtain ⟨token, rest, tail, u, u', rfl, hbytes, rfl, hskip', hends, hends', hu, hu'⟩ :=
        hs.first hs' hskip
      simp only [hskip, hskip'] at hread ⊢
      by_cases hopen : b = openList ∨ b = openObject
      · rw [if_pos hopen] at hread ⊢
        obtain ⟨m, rfl⟩ : ∃ m : Mark, b = m.byte := by
          rcases hopen with rfl | rfl
          · exact ⟨.openList, rfl⟩
          · exact ⟨.openObject, rfl⟩
        obtain ⟨rfl, rfl⟩ := Token.eq_mark hbytes
        rw [List.length_cons] at hn
        obtain ⟨k, rfl⟩ : ∃ k, n = k + 1 := ⟨n - 1, by omega⟩
        obtain ⟨left, r', hread', hlength, hleft⟩ :=
          Carries.nested h (fun item hsome => hitem item k hsome rfl) m.byte rest u u' a r (by omega) hu hu'
            hread
        exact ⟨left, r', hread', by rw [List.length_cons]; omega, hleft⟩
      · rw [if_neg hopen] at hread ⊢
        obtain ⟨rfl, hread'⟩ := h.scalar hbytes hends hends' hread
        exact ⟨rest, u', hread', by simp, hu, hu'⟩

/-- A depth that is enough for one text is enough for the other, and so is one for each token. -/
theorem carries_value (h : g.Lexical) {n depth depth' : Nat} (hdepth : min depth n ≤ depth') :
    Carries n (g.value depth).read (g.value depth').read := by
  induction depth generalizing n depth' with
  | zero =>
      cases depth' with
      | zero => exact Carries.shallow h nofun
      | succ depth' => exact Carries.shallow h nofun
  | succ depth ih =>
      cases depth' with
      | zero =>
          refine Carries.shallow h fun item k _ hk => ?_
          omega
      | succ depth' =>
          refine Carries.shallow h fun item k hitem hk => ?_
          cases hitem
          exact ⟨_, rfl, ih (by omega)⟩

theorem blind_value (h : g.Lexical) (depth : Nat) : Blind (g.value depth) :=
  fun _ => carries_value h (Nat.min_le_left _ _)

theorem lexical_strict : strict.Lexical where
  key := takes_string
  text body := (takes_string body).map _
  number n := (takes_number n).map _

theorem lexical_skipped : skipped.Lexical where
  key := takes_skippedString
  text := takes_skippedString
  number := takes_skippedNumber

theorem blind_skip : Blind skip := by
  intro n ts s s' a r hn hs hs' hread
  have hdepth : min s.length ts.length ≤ s'.length := (Nat.min_le_right _ _).trans hs'.length_le
  exact carries_value lexical_skipped hdepth ts s s' a r le_rfl hs hs' hread

end

/-! ## Whole texts -/

/-- A text is read as a whole if nothing but blanks is left of it. -/
theorem Reader.whole_eq_ok_iff {α : Type} {reader : Reader α} {s : Bytes} {a : α} :
    reader.whole s = .ok a ↔ ∃ r, reader.read s = .ok (a, r) ∧ skipBlanks r = [] := by
  unfold Reader.whole
  cases reader.read s with
  | error stop => simp [finish]
  | ok found =>
      obtain ⟨b, r⟩ := found
      cases hskip : skipBlanks r with
      | nil => simp [finish, hskip]
      | cons c t => simp [finish, hskip]

theorem Spells.skipBlanks_eq_nil {ts : List Token} {s s' : Bytes} (h : Spells ts s) (h' : Spells ts s')
    (hskip : skipBlanks s = []) : skipBlanks s' = [] := by
  cases hskip' : skipBlanks s' with
  | nil => rfl
  | cons b t =>
      obtain ⟨_, _, _, _, _, -, -, -, hfirst, -⟩ := h'.first h hskip'
      rw [hskip] at hfirst
      cases hfirst

theorem Blind.whole_of_ok {α : Type} {reader : Reader α} (h : Blind reader) {ts : List Token} {s s' : Bytes}
    (hs : Spells ts s) (hs' : Spells ts s') {a : α} (hread : reader.whole s = .ok a) :
    reader.whole s' = .ok a := by
  obtain ⟨r, hok, hskip⟩ := Reader.whole_eq_ok_iff.mp hread
  obtain ⟨left, r', hok', -, hr, hr'⟩ := h ts.length ts s s' a r le_rfl hs hs' hok
  exact Reader.whole_eq_ok_iff.mpr ⟨r', hok', hr.skipBlanks_eq_nil hr' hskip⟩

/-- Texts of the same tokens are read to the same result, or neither can be read. -/
theorem Blind.whole_eq {α : Type} {reader : Reader α} (h : Blind reader) {ts : List Token} {s s' : Bytes}
    (hs : Spells ts s) (hs' : Spells ts s') : (reader.whole s).toOption = (reader.whole s').toOption := by
  cases hread : reader.whole s with
  | ok a => rw [h.whole_of_ok hs hs' hread]
  | error fault =>
      cases hread' : reader.whole s' with
      | ok a => simp [h.whole_of_ok hs' hs hread'] at hread
      | error fault' => rfl

end ConfigChain.Json

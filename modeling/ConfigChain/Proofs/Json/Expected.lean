import ConfigChain.Declaration.Format
import ConfigChain.Proofs.Json.Spelling

/-! # Readers of expected values do not see blanks

This goes for texts and truth values, for what may be `null` instead, for lists and objects of such values,
and for records, in both of their forms. -/

namespace ConfigChain.Json

/-! ## Tokens by their first byte -/

theorem Token.eq_null {t : Token} {tail : Bytes} (h : t.bytes = letterN :: tail) : tail = restOfNull := by
  match t with
  | .mark m => cases m <;> cases h
  | .atom .null =>
      cases h
      rfl
  | .atom (.bool b) => cases b <;> cases h
  | .atom (.number n) => exact absurd h (n.bytes_ne (by decide) tail)
  | .atom (.text body) => cases h

theorem Token.eq_true {t : Token} {tail : Bytes} (h : t.bytes = letterT :: tail) : tail = restOfTrue := by
  match t with
  | .mark m => cases m <;> cases h
  | .atom .null => cases h
  | .atom (.bool true) =>
      cases h
      rfl
  | .atom (.bool false) => cases h
  | .atom (.number n) => exact absurd h (n.bytes_ne (by decide) tail)
  | .atom (.text body) => cases h

theorem Token.eq_false {t : Token} {tail : Bytes} (h : t.bytes = letterF :: tail) : tail = restOfFalse := by
  match t with
  | .mark m => cases m <;> cases h
  | .atom .null => cases h
  | .atom (.bool true) => cases h
  | .atom (.bool false) =>
      cases h
      rfl
  | .atom (.number n) => exact absurd h (n.bytes_ne (by decide) tail)
  | .atom (.text body) => cases h

section

variable {α σ : Type}

/-- A body that does not see blanks, on what follows the first byte of a token. -/
def BlindFrom (b : UInt8) (body : Bytes → Reading α) : Prop :=
  ∀ token tail rest u u' a r, Token.bytes token = b :: tail → token.Ends u → token.Ends u' →
    Spells rest u → Spells rest u' → body (tail ++ u) = .ok (a, r) →
      ∃ left r', body (tail ++ u') = .ok (a, r') ∧ left.length ≤ rest.length ∧ Spells left r ∧ Spells left r'

theorem blindFrom_mark {m : Mark} {body : Bytes → Reading α} (h : ∀ n, Carries n body body) :
    BlindFrom m.byte body := by
  intro token tail rest u u' a r hbytes _ _ hu hu' hread
  obtain ⟨-, rfl⟩ := Token.eq_mark hbytes
  obtain ⟨left, r', hread', hlength, hleft⟩ := h rest.length rest u u' a r le_rfl hu hu' hread
  exact ⟨left, r', hread', hlength.le, hleft⟩

theorem blindFrom_word {b : UInt8} {w : Bytes} (a : α)
    (h : ∀ {t : Token} {tail : Bytes}, t.bytes = b :: tail → tail = w) : BlindFrom b (wordThen w a) := by
  intro token tail rest u u' a' r hbytes _ _ hu hu' hread
  obtain rfl := h hbytes
  rw [wordThen_append] at hread
  cases hread
  exact ⟨rest, u', wordThen_append _ _ _, le_rfl, hu, hu'⟩

theorem BlindFrom.map {β : Type} {b : UInt8} {body : Bytes → Reading α} (h : BlindFrom b body)
    (f : α → β) : BlindFrom b fun t => (body t).map f := by
  intro token tail rest u u' c r hbytes hends hends' hu hu' hread
  obtain ⟨a, ha, rfl⟩ := Reading.map_eq_ok hread
  obtain ⟨left, r', hread', hleft⟩ := h token tail rest u u' a r hbytes hends hends' hu hu' ha
  exact ⟨left, r', congrArg (Reading.map f) hread', hleft⟩

theorem carries_readExpecting {expected : String} {opens : UInt8 → Bool} {body : UInt8 → Bytes → Reading α}
    (h : ∀ b, opens b = true → BlindFrom b (body b)) (n : Nat) :
    Carries n (readExpecting expected opens body) (readExpecting expected opens body) := by
  intro ts s s' a r hn hs hs' hread
  unfold readExpecting at hread ⊢
  cases hskip : skipBlanks s with
  | nil => simp [hskip] at hread
  | cons b t =>
      obtain ⟨token, rest, tail, u, u', rfl, hbytes, rfl, hskip', hends, hends', hu, hu'⟩ :=
        hs.first hs' hskip
      simp only [hskip, hskip'] at hread ⊢
      cases hopens : opens b with
      | false => simp [hopens] at hread
      | true =>
          rw [hopens, if_pos rfl] at hread
          obtain ⟨left, r', hread', hlength, hleft⟩ :=
            h b hopens token tail rest u u' a r hbytes hends hends' hu hu' hread
          exact ⟨left, r', by rw [if_pos rfl, hread'], Nat.lt_succ_of_le hlength, hleft⟩

theorem Blind.map {β : Type} {reader : Reader α} (h : Blind reader) (f : α → β) : Blind (reader.map f) :=
  fun n => (h n).map f

/-! ## Scalars -/

theorem blind_aText : Blind aText := by
  refine carries_readExpecting fun b hb => ?_
  obtain rfl : b = quote := by simpa using hb
  intro token tail rest u u' a r hbytes hends hends' hu hu' hread
  obtain ⟨body, rfl⟩ := Token.eq_text hbytes
  have hquoted (s : Bytes) : quote :: (tail ++ s) = Token.bytes (.atom (.text body)) ++ s := by
    rw [hbytes, List.cons_append]
  simp only [hquoted] at hread ⊢
  obtain ⟨rfl, hall⟩ := takes_string body u a r hends hread
  exact ⟨rest, u', hall u' hends', le_rfl, hu, hu'⟩

theorem blind_aBool : Blind aBool := by
  refine carries_readExpecting fun b hb => ?_
  rcases Bool.or_eq_true_iff.mp hb with hb | hb
  · obtain rfl : b = letterT := by simpa using hb
    exact blindFrom_word true Token.eq_true
  · obtain rfl : b = letterF := by simpa using hb
    exact blindFrom_word false Token.eq_false

theorem blind_orNull {reader : Reader α} (h : Blind reader) : Blind (orNull reader) := by
  intro n ts s s' a r hn hs hs' hread
  have hmap := h.map some
  simp only [orNull, readOrNull] at hread ⊢
  cases hskip : skipBlanks s with
  | nil =>
      rw [hs.skipBlanks_eq_nil hs' hskip]
      rw [hskip] at hread
      exact hmap n ts s s' a r hn hs hs' hread
  | cons b t =>
      obtain ⟨token, rest, tail, u, u', rfl, hbytes, rfl, hskip', hends, hends', hu, hu'⟩ :=
        hs.first hs' hskip
      simp only [hskip, hskip'] at hread ⊢
      by_cases hb : b = letterN
      · subst hb
        rw [if_pos rfl] at hread ⊢
        obtain ⟨left, r', hread', hlength, hleft⟩ :=
          blindFrom_word none Token.eq_null token tail rest u u' a r hbytes hends hends' hu hu' hread
        exact ⟨left, r', hread', Nat.lt_succ_of_le hlength, hleft⟩
      · rw [if_neg hb] at hread ⊢
        exact hmap n _ s s' a r hn hs hs' hread

/-! ## Lists and objects -/

theorem blind_textList : Blind textList := by
  refine carries_readExpecting fun b hb => ?_
  obtain rfl : b = Mark.openList.byte := beq_iff_eq.mp hb
  exact blindFrom_mark fun n => (blind_aText n).elements _ _

theorem blind_anObject {value : σ → String → Reader σ} (h : ∀ s k, Blind (value s k)) (start : σ) :
    Blind (anObject value start) := by
  refine carries_readExpecting fun b hb => ?_
  obtain rfl : b = Mark.openObject.byte := beq_iff_eq.mp hb
  refine blindFrom_mark fun n => Members.Carries.members ⟨rfl, takes_string, ?_⟩ start
  intro s k reader hreader
  cases hreader
  exact ⟨_, rfl, h s k n⟩

/-! ## Records -/

namespace Record

theorem carries_listEnd (state : σ) (n : Nat) : Carries n (listEnd state) (listEnd state) := by
  intro ts s s' a r _ hs hs' hread
  unfold listEnd at hread
  split at hread
  · cases hread
  · rename_i b t hskip
    split at hread
    · rename_i hb
      subst hb
      cases hread
      obtain ⟨rest, t', rfl, hclose, hlast, hlast'⟩ := hs.first_mark (m := .closeList) hs' hskip
      refine ⟨rest, t', ?_, by simp, hlast, hlast'⟩
      unfold listEnd
      rw [hclose]
      rfl
    · split at hread
      · split at hread <;> cases hread
      · cases hread

theorem nextItem_carries {count : Nat} {ts : List Token} {s s' r : Bytes} (hs : Spells ts s)
    (hs' : Spells ts s') (hread : nextItem count s = .ok (.inl r)) :
    ∃ left r', nextItem count s' = .ok (.inl r') ∧ left.length ≤ ts.length ∧ Spells left r ∧
      Spells left r' := by
  unfold nextItem at hread ⊢
  cases hskip : skipBlanks s with
  | nil => simp [hskip] at hread
  | cons b t =>
      obtain ⟨_, _, tail, _, u', -, -, -, hskip', -⟩ := hs.first hs' hskip
      simp only [hskip] at hread
      simp only [hskip']
      by_cases hclose : b = closeList
      · simp [hclose] at hread
      · rw [if_neg hclose] at hread ⊢
        by_cases hcount : count = 0
        · rw [if_pos hcount] at hread ⊢
          cases hread
          exact ⟨ts, _, rfl, le_rfl, hskip ▸ hs.skipped, hskip' ▸ hs'.skipped⟩
        · rw [if_neg hcount] at hread ⊢
          by_cases hcomma : b = comma
          · subst hcomma
            obtain ⟨rest, t', rfl, hmark, ht, ht'⟩ := hs.first_mark (m := .comma) hs' hskip
            obtain ⟨-, rfl⟩ := List.cons.inj (hskip'.symm.trans hmark)
            rw [if_pos rfl] at hread ⊢
            cases hnext : skipBlanks t with
            | nil => simp [hnext] at hread
            | cons c v =>
                obtain ⟨_, _, tail', _, v', -, -, -, hnext', -⟩ := ht.first ht' hnext
                simp only [hnext] at hread
                simp only [hnext']
                by_cases hc : c = closeList
                · simp [hc] at hread
                · rw [if_neg hc] at hread ⊢
                  cases hread
                  exact ⟨rest, _, rfl, by simp, hnext ▸ ht.skipped, hnext' ▸ ht'.skipped⟩
          · simp [hcomma] at hread

theorem carries_listFrom (title : String) {fields : List (Field σ)}
    (h : ∀ field ∈ fields, ∀ state, Blind (field.reader state)) (count : Nat) (state : σ) (n : Nat) :
    Carries n (listFrom title count fields state) (listFrom title count fields state) := by
  induction fields generalizing count state with
  | nil => exact carries_listEnd state n
  | cons field fields ih =>
      obtain ⟨hfield, hfields⟩ := List.forall_mem_cons.mp h
      intro ts s s' a r hn hs hs' hread
      unfold listFrom at hread
      split at hread
      · cases hread
      · cases hread
      · rename_i t hnext
        obtain ⟨left, t', hnext', hlength, ht, ht'⟩ := nextItem_carries hs hs' hnext
        split at hread
        · cases hread
        · rename_i next u hfirst
          obtain ⟨left', u', hfirst', hlength', hu, hu'⟩ :=
            hfield state left.length left t t' next u le_rfl ht ht' hfirst
          obtain ⟨last, r', hrest, hlength'', hlast⟩ :=
            ih hfields (count + 1) next left' u u' a r (by omega) hu hu' hread
          refine ⟨last, r', ?_, by omega, hlast⟩
          unfold listFrom
          simp only [hnext', hfirst', hrest]

theorem carries_reading {record : Record σ} (h : ∀ field ∈ record.fields, ∀ state, Blind (field.reader state))
    (n : Nat) : record.reading.Carries n record.reading := by
  refine ⟨rfl, takes_string, fun state name reader hreader => ⟨reader, hreader, ?_⟩⟩
  simp only [reading] at hreader
  split at hreader
  · cases hreader
    exact (blind_skip n).map _
  · rename_i field hfound
    split at hreader
    · cases hreader
    · cases hreader
      exact (h field (List.mem_of_find?_eq_some hfound) state.2 n).map _

/-- A record whose fields do not see blanks. -/
theorem blind_reader {record : Record σ} (h : ∀ field ∈ record.fields, ∀ state, Blind (field.reader state)) :
    Blind record.reader := by
  refine carries_readExpecting fun b hb => ?_
  rcases Bool.or_eq_true_iff.mp hb with hb | hb
  · obtain rfl : b = Mark.openList.byte := beq_iff_eq.mp hb
    exact blindFrom_mark (carries_listFrom record.listTitle h 0 record.start)
  · obtain rfl : b = Mark.openObject.byte := beq_iff_eq.mp hb
    exact (blindFrom_mark fun n => (carries_reading h n).members ([], record.start)).map Prod.snd

end Record

end

/-! ## Declarations -/

theorem blind_aliasRows : Blind aliasRows :=
  blind_anObject (fun _ _ => blind_textList.map _) []

theorem blind_optionsRecord : Blind optionsRecord.reader := by
  refine Record.blind_reader ?_
  have htext := blind_orNull blind_aText
  have hbool := blind_orNull blind_aBool
  have hrows := blind_orNull blind_aliasRows
  simp only [optionsRecord, List.forall_mem_cons]
  exact ⟨fun _ => htext.map _, fun _ => htext.map _, fun _ => htext.map _, fun _ => htext.map _,
    fun _ => hrows.map _, fun _ => hbool.map _, fun _ => hbool.map _, fun _ => hbool.map _,
    fun _ => hbool.map _, nofun⟩

theorem blind_declaration : Blind declarationRecord.reader := by
  refine Record.blind_reader ?_
  have htext := blind_orNull blind_aText
  have hoptions := blind_orNull blind_optionsRecord
  simp only [declarationRecord, List.forall_mem_cons]
  exact ⟨fun _ => htext.map _, fun _ => hoptions.map _, nofun⟩

end ConfigChain.Json

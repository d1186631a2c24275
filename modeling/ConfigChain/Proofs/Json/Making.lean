import ConfigChain.Proofs.Json.Fields

/-! # Values that are read without fault

Where every part of a value is what its reader wants, the value is read, however it is laid out, and what is made of it
is put together from what is made of the parts. -/

namespace ConfigChain.Json

section

variable {α β κ σ : Type} {w : Written} {a : α} {ts : List Token} {s : Bytes}

/-- From every text that begins with the value `w` the reader makes `a` of this value, and takes nothing more. -/
def Makes (read : Bytes → Reading α) (w : Written) (a : α) : Prop :=
  ∀ ts s, Spells (w.tokens ++ ts) s → ∃ r, read s = .ok (a, r) ∧ Spells ts r

/-- Nothing else is ever made of it. -/
theorem Makes.eq_of_made {read : Bytes → Reading α} {b : α} (h : Makes read w a) (hmade : Made read w b) : b = a := by
  obtain ⟨ts, s, r, hs, hread⟩ := hmade
  obtain ⟨r', hread', -⟩ := h ts s hs
  cases hread.symm.trans hread'
  rfl

theorem Makes.map {reader : Reader α} (h : Makes reader.read w a) (f : α → β) :
    Makes (reader.map f).read w (f a) := by
  intro ts s hs
  obtain ⟨r, hread, hr⟩ := h ts s hs
  exact ⟨r, by simp only [Reader.map, hread, Reading.map], hr⟩

/-- A text that is nothing but the value. -/
theorem Makes.whole {reader : Reader α} (h : Makes reader.read w a) (hs : Spells w.tokens s) :
    reader.whole s = .ok a := by
  obtain ⟨r, hread, hr⟩ := h [] s (by rwa [List.append_nil])
  exact Reader.whole_eq_ok_iff.mpr ⟨r, hread, Spells.nil.skipBlanks_eq_nil hr rfl⟩

/-! ## Expected values -/

theorem makes_readExpecting {expected : String} {opens : UInt8 → Bool} {body : UInt8 → Bytes → Reading α} {t : Token}
    {rest : List Token} {b : UInt8} {tail : Bytes} (hw : w.tokens = t :: rest) (hbytes : t.bytes = b :: tail)
    (hopens : opens b = true)
    (h : ∀ ts u, t.Ends u → Spells (rest ++ ts) u → ∃ r, body b (tail ++ u) = .ok (a, r) ∧ Spells ts r) :
    Makes (readExpecting expected opens body) w a := by
  intro ts s hs
  rw [hw, List.cons_append] at hs
  obtain ⟨u, hskip, hends, hu⟩ := hs.uncons
  obtain ⟨r, hbody, hr⟩ := h ts u hends hu
  refine ⟨r, ?_, hr⟩
  rw [hbytes, List.cons_append] at hskip
  simp only [readExpecting, hskip, hopens, if_true, hbody]

theorem Body.read_of_text? {body : Body} {t : String} (h : body.text? = some t) (u : Bytes) :
    string.read (body.quoted ++ u) = .ok (t, u) := by
  unfold Body.text? at h
  split at h
  · rename_i t' r hread
    cases h
    have hquoted : string.read (body.quoted ++ []) = .ok (t, r) := by rwa [List.append_nil]
    exact (takes_string body [] t r nofun hquoted).2 u nofun
  · cases h

theorem makes_aText {body : Body} {t : String} (h : body.text? = some t) : Makes aText.read (.atom (.text body)) t := by
  refine makes_readExpecting (t := .atom (.text body)) rfl rfl (by decide) fun ts u _ hu => ?_
  exact ⟨u, Body.read_of_text? h u, hu⟩

theorem makes_null {reader : Reader α} : Makes (orNull reader).read (.atom .null) none := by
  intro ts s hs
  obtain ⟨u, hskip, -, hu⟩ := Spells.uncons (t := .atom .null) hs
  refine ⟨u, ?_, hu⟩
  have hword : skipBlanks s = letterN :: (restOfNull ++ u) := hskip
  simp only [orNull, readOrNull, hword, if_true, wordThen_append]

theorem makes_orNull {reader : Reader α} (h : Makes reader.read w a) (hw : w ≠ .atom .null) :
    Makes (orNull reader).read w (some a) := by
  intro ts s hs
  obtain ⟨t, rest, htokens, -⟩ := w.exists_tokens_eq
  obtain ⟨b, tail, hbytes, -⟩ := t.exists_bytes_eq
  have hb : b ≠ letterN := by
    rintro rfl
    obtain rfl := Token.eq_atom_null hbytes
    exact hw (Written.eq_atom htokens).1
  obtain ⟨r, hread, hr⟩ := h ts s hs
  rw [htokens, List.cons_append] at hs
  obtain ⟨u, hskip, -, -⟩ := hs.uncons
  rw [hbytes, List.cons_append] at hskip
  exact ⟨r, by simp only [orNull, readOrNull, hskip, if_neg hb, hread, Reading.map], hr⟩

/-! ## Lists -/

/-- A value begins with a byte that closes nothing. -/
theorem exists_first_of_spells (hs : Spells (w.tokens ++ ts) s) :
    ∃ b t, skipBlanks s = b :: t ∧ b ≠ closeList ∧ b ≠ closeObject := by
  cases hskip : skipBlanks s with
  | nil =>
      obtain ⟨t, rest, htokens, -⟩ := w.exists_tokens_eq
      obtain ⟨b, tail, hbytes, -⟩ := t.exists_bytes_eq
      rw [htokens, List.cons_append] at hs
      obtain ⟨u, hfirst, -⟩ := hs.uncons
      simp [hskip, hbytes] at hfirst
  | cons b t =>
      obtain ⟨hlist, hobject⟩ := Written.not_close_of_spells (r := t) hs
      refine ⟨b, t, rfl, ?_, ?_⟩
      · rintro rfl
        exact hlist hskip
      · rintro rfl
        exact hobject hskip

theorem makes_elementsFrom {item : Reader α} (closed : Cause) {first : Written} {items : List Written} {as : List α}
    (hfirst : Makes item.read first a) (h : List.Forall₂ (Makes item.read) items as)
    (hs : Spells (first.tokens ++ (Written.itemTokens items ++ ts)) s) :
    ∃ r, elementsFrom item closed s = .ok (a :: as, r) ∧ Spells ts r := by
  induction h generalizing first a s with
  | nil =>
      obtain ⟨t, hread, ht⟩ := hfirst _ s hs
      obtain ⟨u, hskip, hu⟩ := Spells.uncons_mark (m := .closeList) ht
      exact ⟨u, elementsFrom_of_close closed hread hskip, hu⟩
  | cons hnext _ ih =>
      obtain ⟨t, hread, ht⟩ := hfirst _ s hs
      rw [Written.itemTokens_cons, List.cons_append, List.append_assoc] at ht
      obtain ⟨u, hskip, hu⟩ := ht.uncons_mark
      obtain ⟨b, v, hb, hclose, -⟩ := exists_first_of_spells hu
      obtain ⟨r, hmore, hr⟩ := ih hnext (hb ▸ hu.skipped)
      refine ⟨r, ?_, hr⟩
      rw [elementsFrom_of_comma closed hread hskip hb hclose, hmore]
      rfl

theorem makes_elements {item : Reader α} (closed : Cause) {items : List Written} {as : List α}
    (h : List.Forall₂ (Makes item.read) items as) (hs : Spells (Written.listTokens items ++ ts) s) :
    ∃ r, elements item closed s = .ok (as, r) ∧ Spells ts r := by
  unfold elements
  cases h with
  | nil =>
      obtain ⟨u, hskip, hu⟩ := Spells.uncons_mark (m := .closeList) hs
      exact ⟨u, by simp only [hskip, Mark.byte, if_true], hu⟩
  | cons hfirst hmore =>
      rw [Written.listTokens, List.append_assoc] at hs
      obtain ⟨b, t, hb, hclose, -⟩ := exists_first_of_spells hs
      obtain ⟨r, hread, hr⟩ := makes_elementsFrom closed hfirst hmore (hb ▸ hs.skipped)
      exact ⟨r, by simp only [hb, if_neg hclose, hread], hr⟩

/-- Strings between brackets spell the texts of a list. -/
theorem makes_textList {items : List Written} {texts : List String}
    (h : List.Forall₂ (fun item t => ∃ body : Body, item = .atom (.text body) ∧ body.text? = some t) items texts)
    (trailing : Bool) : Makes textList.read (.list items trailing) texts := by
  refine makes_readExpecting (t := .mark .openList) (Written.tokens_list items trailing) rfl rfl fun ts u _ hu => ?_
  refine makes_elements .trailingComma (h.imp fun item t hitem => ?_) hu
  obtain ⟨body, rfl, htext⟩ := hitem
  exact makes_aText htext

/-! ## Objects -/

variable {m : Members κ σ} {members : List (Body × Written)} {state last : σ}

theorem makes_member (htakes : ∀ body, Takes m.key.read (.atom (.text body))) {key : Body} {k : κ} {reader : Reader σ}
    (hkey : m.Names key k) (hvalue : m.value state k = .ok reader) (hread : Makes reader.read w last)
    (hs : Spells (.atom (.text key) :: .mark .colon :: (w.tokens ++ ts)) s) :
    ∃ r, member m state (skipBlanks s) = .ok (last, r) ∧ Spells ts r := by
  obtain ⟨u, hskip, hends, hu⟩ := hs.uncons
  obtain ⟨v, r', hnamed⟩ := hkey
  have hfound := (htakes key v k r' nofun hnamed).2 u hends
  obtain ⟨after, hcolon, hafter⟩ := hu.uncons_mark
  obtain ⟨r, hmade, hr⟩ := hread ts after hafter
  refine ⟨r, ?_, hr⟩
  rw [hskip]
  exact (member_of_ok hfound hvalue hcolon).trans hmade

theorem makes_membersFrom (htakes : ∀ body, Takes m.key.read (.atom (.text body))) {key : Body}
    (h : m.Runs Makes state ((key, w) :: members) last)
    (hs : Spells (.atom (.text key) :: .mark .colon :: (w.tokens ++ (Written.memberTokens members ++ ts))) s) :
    ∃ r, membersFrom m state (skipBlanks s) = .ok (last, r) ∧ Spells ts r := by
  induction members generalizing key w state s with
  | nil =>
      obtain _ | ⟨hkey, hvalue, hread, hrest⟩ := h
      cases hrest
      obtain ⟨t, hmember, ht⟩ := makes_member htakes hkey hvalue hread hs
      obtain ⟨u, hskip, hu⟩ := Spells.uncons_mark (m := .closeObject) ht
      exact ⟨u, membersFrom_of_close hmember hskip, hu⟩
  | cons second members ih =>
      obtain _ | ⟨hkey, hvalue, hread, hrest⟩ := h
      obtain ⟨t, hmember, ht⟩ := makes_member htakes hkey hvalue hread hs
      rw [Written.memberTokens_cons] at ht
      simp only [List.cons_append, List.append_assoc] at ht
      obtain ⟨u, hskip, hu⟩ := ht.uncons_mark
      obtain ⟨r, hmore, hr⟩ := ih hrest hu
      obtain ⟨v, hquote, -, -⟩ := hu.uncons
      refine ⟨r, ?_, hr⟩
      rw [hquote] at hmore
      exact (membersFrom_of_comma hmember hskip hquote (by decide)).trans hmore

/-- Where every member can be read in the state that it is met in, the object is read. -/
theorem makes_members (htakes : ∀ body, Takes m.key.read (.atom (.text body)))
    (h : m.Runs Makes state members last)
    (hs : Spells (Written.objectTokens members ++ ts) s) :
    ∃ r, Json.members m state s = .ok (last, r) ∧ Spells ts r := by
  unfold Json.members
  cases members with
  | nil =>
      cases h
      obtain ⟨u, hskip, hu⟩ := Spells.uncons_mark (m := .closeObject) hs
      exact ⟨u, by simp only [hskip, Mark.byte, if_true], hu⟩
  | cons first members =>
      simp only [Written.objectTokens, List.cons_append, List.append_assoc] at hs
      obtain ⟨r, hread, hr⟩ := makes_membersFrom htakes h hs
      obtain ⟨u, hquote, -, -⟩ := hs.uncons
      rw [hquote] at hread ⊢
      exact ⟨r, hread, hr⟩

theorem makes_anObject {value : σ → String → Reader σ} {start : σ}
    (h : (Members.mk string (fun s k => .ok (value s k)) .endInValue .trailingComma).Runs
      Makes start members last) (trailing : Bool) :
    Makes (anObject value start).read (.object members trailing) last := by
  refine makes_readExpecting (t := .mark .openObject) (Written.tokens_object members trailing) rfl rfl ?_
  intro ts u _ hu
  exact makes_members takes_string h hu

/-- A member that names a field which has not been read. -/
theorem Record.runs_cons {record : Record σ} {names : List String} {name : String} {key : Body} {field : Field σ}
    {start next : σ} {last : List String × σ} (htext : key.text? = some name) (hfield : record.field? name = some field)
    (hnew : name ∉ names) (hread : Makes (field.reader start).read w next)
    (hrest : record.reading.Runs Makes (name :: names, next) members last) :
    record.reading.Runs Makes (names, start) ((key, w) :: members) last := by
  refine .cons ⟨[], [], Body.read_of_text? htext []⟩ ?_ (hread.map fun s => (name :: names, s)) hrest
  simp only [reading_value, hfield, if_neg hnew]

/-- A record in which every member can be read. -/
theorem Record.makes_reader {record : Record σ} {last : List String × σ}
    (h : record.reading.Runs Makes ([], record.start) members last) (trailing : Bool) :
    Makes record.reader.read (.object members trailing) last.2 := by
  refine makes_readExpecting (t := .mark .openObject) (Written.tokens_object members trailing) rfl rfl ?_
  intro ts u _ hu
  obtain ⟨r, hread, hr⟩ := makes_members takes_string h hu
  refine ⟨r, ?_, hr⟩
  rw [if_neg (by decide), List.nil_append, hread]
  rfl

end

end ConfigChain.Json

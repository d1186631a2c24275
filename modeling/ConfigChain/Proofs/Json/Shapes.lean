import ConfigChain.Proofs.Json.Required

/-! # The shape of what is read

A reader of an expected value succeeds on the tokens of a value only if that value has the shape it expects, whatever
stands in the members that it passes over. Records expect an object, or a list with one value for each field. -/

namespace ConfigChain.Json

/-! ## Shapes -/

namespace Body

/-- The text that the inside of a string spells, if it spells one. -/
def text? (body : Body) : Option String :=
  match string.read body.quoted with
  | .ok (t, _) => some t
  | .error _ => none

theorem text?_of_read {body : Body} {u r : Bytes} {t : String} (h : string.read (body.quoted ++ u) = .ok (t, r)) :
    body.text? = some t := by
  obtain ⟨-, hall⟩ := takes_string body u t r nofun h
  have hread := hall [] nofun
  rw [List.append_nil] at hread
  have hquoted : string.read body.quoted = .ok (t, []) := hread
  rw [text?, hquoted]

end Body

namespace Written

def IsText (w : Written) : Prop := ∃ body, w = .atom (.text body)

def IsBool (w : Written) : Prop := ∃ b, w = .atom (.bool b)

/-- `null`, or a value of some shape. -/
def OrNull (P : Written → Prop) (w : Written) : Prop := w = .atom .null ∨ P w

def IsTextList (w : Written) : Prop := ∃ items trailing, w = .list items trailing ∧ ∀ item ∈ items, IsText item

/-- An object whose values all have some shape. -/
def IsMap (P : Written → Prop) (w : Written) : Prop :=
  ∃ members trailing, w = .object members trailing ∧ ∀ member ∈ members, P member.2

/-- The names of some fields, in order, and the shapes of their values. -/
abbrev Shapes := List (String × (Written → Prop))

/-- An object in which the value of every field has the shape of that field. Other members may be anything. -/
def IsObjectOf (fields : Shapes) (w : Written) : Prop :=
  ∃ members trailing, w = .object members trailing ∧
    ∀ member ∈ members, ∀ name P, member.1.text? = some name → fields.lookup name = some P → P member.2

/-- A list of one value for each field, in order. -/
def IsListOf (fields : Shapes) (w : Written) : Prop :=
  ∃ items trailing, w = .list items trailing ∧ List.Forall₂ (fun field item => field.2 item) fields items

/-- Both ways to write the fields. -/
def IsRecordOf (fields : Shapes) (w : Written) : Prop := IsObjectOf fields w ∨ IsListOf fields w

end Written

open Written (IsText IsBool OrNull IsTextList IsMap Shapes IsObjectOf IsListOf IsRecordOf)

/-! ## Expected values -/

section

variable {α σ : Type} {w : Written}

theorem requires_aText (w : Written) : Requires aText.read w (IsText w) := by
  refine requires_readExpecting fun t rest b tail hw hbytes hopens ts u a r hends hu hread => ?_
  obtain rfl : b = quote := by simpa using hopens
  obtain ⟨body, rfl⟩ := Token.eq_text hbytes
  obtain ⟨rfl, rfl⟩ := Written.eq_atom hw
  rw [← List.cons_append, ← hbytes] at hread
  obtain ⟨rfl, -⟩ := takes_string body u a r hends hread
  exact ⟨⟨body, rfl⟩, hu⟩

theorem requires_aBool (w : Written) : Requires aBool.read w (IsBool w) := by
  refine requires_readExpecting fun t rest b tail hw hbytes hopens ts u a r hends hu hread => ?_
  have hb : b = letterT ∨ b = letterF := by simpa using hopens
  obtain ⟨v, rfl⟩ := Token.eq_bool hbytes hb
  obtain ⟨rfl, rfl⟩ := Written.eq_atom hw
  refine ⟨⟨v, rfl⟩, ?_⟩
  cases v with
  | true =>
      cases hbytes
      rw [if_pos rfl, wordThen_append] at hread
      cases hread
      exact hu
  | false =>
      cases hbytes
      rw [if_neg (by decide), wordThen_append] at hread
      cases hread
      exact hu

theorem requires_orNull {reader : Reader α} {P : Written → Prop} (h : ∀ w, Requires reader.read w (P w))
    (w : Written) : Requires (orNull reader).read w (OrNull P w) := by
  intro ts s a r hs hread
  have hmap := ((h w).map some).imp (q := OrNull P w) .inr
  simp only [orNull, readOrNull] at hread
  split at hread
  · exact hmap ts s a r hs hread
  · rename_i b t hskip
    split at hread
    · rename_i hb
      obtain ⟨token, rest, hw, -⟩ := w.exists_tokens_eq
      rw [hw, List.cons_append] at hs
      obtain ⟨u, hskip', -, hu⟩ := hs.uncons
      obtain ⟨c, tail, hbytes, -⟩ := token.exists_bytes_eq
      rw [hskip', hbytes, hb, List.cons_append, List.cons.injEq] at hskip
      obtain ⟨rfl, rfl⟩ := hskip
      obtain rfl := Token.eq_atom_null hbytes
      obtain ⟨rfl, rfl⟩ := Written.eq_atom hw
      cases hbytes
      rw [wordThen_append] at hread
      cases hread
      exact ⟨.inl rfl, hu⟩
    · exact hmap ts s a r hs hread

theorem requires_textList (w : Written) : Requires textList.read w (IsTextList w) := by
  refine requires_readExpecting fun t rest b tail hw hbytes hopens ts u a r _ hu hread => ?_
  obtain rfl : b = openList := beq_iff_eq.mp hopens
  obtain ⟨items, trailing, rfl, rfl, rfl⟩ := Written.eq_list_of_bytes hw hbytes
  obtain ⟨htexts, hr⟩ := requires_elements _ (fun item _ => requires_aText item) hu hread
  exact ⟨⟨items, trailing, rfl, htexts⟩, hr⟩

theorem requires_anObject {value : σ → String → Reader σ} {P : Written → Prop}
    (h : ∀ state k w, Requires (value state k).read w (P w)) (start : σ) (w : Written) :
    Requires (anObject value start).read w (IsMap P w) := by
  refine requires_readExpecting fun t rest b tail hw hbytes hopens ts u a r _ hu hread => ?_
  obtain rfl : b = openObject := beq_iff_eq.mp hopens
  obtain ⟨members, trailing, rfl, rfl, rfl⟩ := Written.eq_object_of_bytes hw hbytes
  obtain ⟨hvalues, hr⟩ := requires_members (P := fun member => P member.2) takes_string
    (fun member _ state k reader _ _ _ hvalue => by
      cases hvalue
      exact h state k member.2) hu hread
  exact ⟨⟨members, trailing, rfl, hvalues⟩, hr⟩

/-! ## Records -/

/-- A field has this name and requires this shape. -/
structure Field.Demands (field : Field σ) (shape : String × (Written → Prop)) : Prop where
  name : field.name = shape.1
  reader : ∀ state w, Requires (field.reader state).read w (shape.2 w)

/-- A field whose value is put into what is known. -/
theorem Field.demands_map {reader : Reader α} {P : Written → Prop} (h : ∀ w, Requires reader.read w (P w))
    (name : String) (update : σ → α → σ) :
    Field.Demands ⟨name, fun state => reader.map (update state)⟩ (name, P) :=
  ⟨rfl, fun state w => (h w).map (update state)⟩

namespace Record

/-- The fields of a record have these names and require these shapes. -/
def Demands (record : Record σ) (shapes : Shapes) : Prop := List.Forall₂ Field.Demands record.fields shapes

theorem lookup_of_find? {fields : List (Field σ)} {shapes : Shapes} (h : List.Forall₂ Field.Demands fields shapes)
    (name : String) :
    match fields.find? fun field => field.name = name with
    | none => shapes.lookup name = none
    | some field => ∃ P, shapes.lookup name = some P ∧ ∀ state w, Requires (field.reader state).read w (P w) := by
  induction h with
  | nil => rfl
  | @cons field shape fields shapes hfield _ ih =>
      obtain ⟨other, P⟩ := shape
      by_cases heq : field.name = name
      · have hother : name = other := heq.symm.trans hfield.name
        rw [List.find?_cons_of_pos (by simpa using heq)]
        exact ⟨P, by simp [hother], hfield.reader⟩
      · have hother : (name == other) = false := beq_eq_false_iff_ne.mpr fun h => heq (hfield.name.trans h.symm)
        rw [List.find?_cons_of_neg (by simpa using heq)]
        simpa only [List.lookup_cons, hother] using ih

/-- What stands behind a key is of the shape of the field that the key names, if it names one. -/
theorem requires_reading {record : Record σ} {shapes : Shapes} (h : record.Demands shapes)
    (member : Body × Written) :
    record.reading.Requires member.1 member.2
      (∀ name P, member.1.text? = some name → shapes.lookup name = some P → P member.2) := by
  intro state k reader u r hkey hvalue
  have htext := Body.text?_of_read hkey
  have hfound := lookup_of_find? h k
  simp only [reading] at hvalue
  split at hvalue
  · rename_i hnone
    rw [hnone] at hfound
    cases hvalue
    refine ((requires_skip member.2).map _).imp fun _ name P hname hlookup => ?_
    obtain rfl : k = name := Option.some.inj (htext.symm.trans hname)
    cases hfound.symm.trans hlookup
  · rename_i field hsome
    rw [hsome] at hfound
    obtain ⟨Q, hQ, hrequires⟩ := hfound
    split at hvalue
    · cases hvalue
    · cases hvalue
      refine ((hrequires state.2 member.2).map _).imp fun hshape name P hname hlookup => ?_
      obtain rfl : k = name := Option.some.inj (htext.symm.trans hname)
      cases hQ.symm.trans hlookup
      exact hshape

/-- The tokens of a list behind `count` items, where `items` come next. -/
def tokensBehind (count : Nat) (items : List Written) : List Token :=
  if count = 0 then Written.listTokens items else Written.itemTokens items

theorem tokensBehind_nil (count : Nat) : tokensBehind count [] = [.mark .closeList] := by
  unfold tokensBehind
  split <;> rfl

theorem spells_of_nextItem {count : Nat} {items : List Written} {ts : List Token} {s t : Bytes}
    (hs : Spells (tokensBehind count items ++ ts) s) (h : nextItem count s = .ok (.inl t)) :
    ∃ item more, items = item :: more ∧ Spells (item.tokens ++ (Written.itemTokens more ++ ts)) t := by
  unfold nextItem at h
  cases items with
  | nil =>
      rw [tokensBehind_nil] at hs
      obtain ⟨u, hskip, -⟩ := Spells.uncons_mark (m := .closeList) hs
      simp only [hskip] at h
      cases h
  | cons item more =>
      refine ⟨item, more, rfl, ?_⟩
      unfold tokensBehind at hs
      split at hs
      · rename_i hcount
        rw [Written.listTokens, List.append_assoc] at hs
        split at h
        · cases h
        · rename_i b u hskip
          split at h
          · cases h
          · cases h
            exact hskip ▸ hs.skipped
      · rename_i hcount
        rw [Written.itemTokens_cons, List.cons_append, List.append_assoc] at hs
        obtain ⟨u, hskip, hu⟩ := hs.uncons_mark
        simp only [hskip, Mark.byte] at h
        rw [if_neg (by decide), if_neg hcount, if_true] at h
        split at h
        · cases h
        · rename_i c v hnext
          split at h
          · cases h
          · cases h
            exact hnext ▸ hu.skipped

theorem requires_listEnd {count : Nat} {items : List Written} {ts : List Token} {s r : Bytes} {state a : σ}
    (hs : Spells (tokensBehind count items ++ ts) s) (hread : listEnd state s = .ok (a, r)) :
    items = [] ∧ a = state ∧ Spells ts r := by
  unfold listEnd at hread
  split at hread
  · cases hread
  · rename_i b t hskip
    split at hread
    · rename_i hb
      cases hread
      rw [hb] at hskip
      cases items with
      | nil =>
          rw [tokensBehind_nil] at hs
          obtain ⟨u, hskip', hu⟩ := Spells.uncons_mark (m := .closeList) hs
          cases hskip'.symm.trans hskip
          exact ⟨rfl, rfl, hu⟩
      | cons item more =>
          unfold tokensBehind at hs
          split at hs
          · rw [Written.listTokens, List.append_assoc] at hs
            exact absurd hskip (Written.not_close_of_spells hs).1
          · rw [Written.itemTokens_cons, List.cons_append] at hs
            obtain ⟨u, hskip', -⟩ := hs.uncons_mark
            cases hskip'.symm.trans hskip
    · split at hread
      · split at hread <;> cases hread
      · cases hread

/-- Fields that are read one after another, each from its value and in the state that those before it have led to. -/
inductive Steps : σ → List (Field σ × Written) → σ → Prop where
  | nil (state : σ) : Steps state [] state
  | cons {state next last : σ} {field : Field σ} {w : Written} {parts : List (Field σ × Written)}
      (hread : Made (field.reader state).read w next) (hrest : Steps next parts last) :
      Steps state ((field, w) :: parts) last

/-- The list form holds one value for each field, by induction on the fields. -/
theorem steps_listFrom (title : String) {fields : List (Field σ)} {shapes : Shapes}
    (h : List.Forall₂ Field.Demands fields shapes) {count : Nat} {state a : σ} {items : List Written}
    {ts : List Token} {s r : Bytes} (hs : Spells (tokensBehind count items ++ ts) s)
    (hread : listFrom title count fields state s = .ok (a, r)) :
    Steps state (fields.zip items) a ∧ List.Forall₂ (fun shape item => shape.2 item) shapes items ∧ Spells ts r := by
  induction h generalizing count state items s with
  | nil =>
      obtain ⟨rfl, rfl, hr⟩ := requires_listEnd hs hread
      exact ⟨.nil a, .nil, hr⟩
  | cons hfield _ ih =>
      unfold listFrom at hread
      split at hread
      · cases hread
      · cases hread
      · rename_i t hnext
        obtain ⟨item, more, rfl, ht⟩ := spells_of_nextItem hs hnext
        split at hread
        · cases hread
        · rename_i next u hfirst
          obtain ⟨hshape, hu⟩ := hfield.reader state item _ t next u ht hfirst
          have hbehind : Spells (tokensBehind (count + 1) more ++ ts) u := by
            rwa [tokensBehind, if_neg (Nat.succ_ne_zero count)]
          obtain ⟨hsteps, hshapes, hr⟩ := ih hbehind hread
          exact ⟨.cons ⟨_, t, u, ht, hfirst⟩ hsteps, .cons hshape hshapes, hr⟩

/-- A record is read from a list, field by field, or from an object, member by member. -/
theorem reader_eq_ok {record : Record σ} {shapes : Shapes} (h : record.Demands shapes) {w : Written} {ts : List Token}
    {s r : Bytes} {a : σ} (hs : Spells (w.tokens ++ ts) s) (hread : record.reader.read s = .ok (a, r)) :
    Spells ts r ∧
      ((∃ items trailing, w = .list items trailing ∧ Steps record.start (record.fields.zip items) a ∧
          List.Forall₂ (fun shape item => shape.2 item) shapes items) ∨
        ∃ members trailing names, w = .object members trailing ∧
          record.reading.Runs Made ([], record.start) members (names, a)) := by
  obtain ⟨t, rest, b, tail, u, hw, hbytes, hopens, -, hu, hbody⟩ := readExpecting_eq_ok hs hread
  rcases Bool.or_eq_true_iff.mp hopens with hb | hb
  · obtain rfl : b = openList := beq_iff_eq.mp hb
    obtain ⟨items, trailing, rfl, rfl, rfl⟩ := Written.eq_list_of_bytes hw hbytes
    have hbehind : Spells (tokensBehind 0 items ++ ts) u := hu
    obtain ⟨hsteps, hshapes, hr⟩ := steps_listFrom record.listTitle h hbehind hbody
    exact ⟨hr, .inl ⟨items, trailing, rfl, hsteps, hshapes⟩⟩
  · obtain rfl : b = openObject := beq_iff_eq.mp hb
    obtain ⟨members, trailing, rfl, rfl, rfl⟩ := Written.eq_object_of_bytes hw hbytes
    obtain ⟨⟨names, last⟩, hmembers, rfl⟩ := Reading.map_eq_ok hbody
    obtain ⟨hruns, hr⟩ := runs_members takes_string (fun member _ => requires_reading h member) hu hmembers
    exact ⟨hr, .inr ⟨members, trailing, names, rfl, hruns⟩⟩

theorem requires_reader {record : Record σ} {shapes : Shapes} (h : record.Demands shapes) (w : Written) :
    Requires record.reader.read w (IsRecordOf shapes w) := by
  intro ts s a r hs hread
  obtain ⟨hr, ⟨items, trailing, hw, -, hshapes⟩ | ⟨members, trailing, _, hw, hruns⟩⟩ := reader_eq_ok h hs hread
  · exact ⟨.inr ⟨items, trailing, hw, hshapes⟩, hr⟩
  · exact ⟨.inl ⟨members, trailing, hw, hruns.forall_mem fun member _ => requires_reading h member⟩, hr⟩

end Record

end

end ConfigChain.Json

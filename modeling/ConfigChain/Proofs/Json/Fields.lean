import ConfigChain.Proofs.Json.Shapes

/-! # The fields of a record

A record is read part by part, and every field is read at most once. What is known of one field in the end is therefore
what its reader has made of the value that is written for it, whatever else is written. -/

namespace ConfigChain.Json

open Written (Shapes)

section

variable {α β σ : Type}

theorem Made.of_map {reader : Reader α} {f : α → β} {w : Written} {b : β} (h : Made (reader.map f).read w b) :
    ∃ a, f a = b ∧ Made reader.read w a := by
  obtain ⟨ts, s, r, hs, hread⟩ := h
  obtain ⟨a, ha, rfl⟩ := Reading.map_eq_ok hread
  exact ⟨a, rfl, ts, s, r, hs, ha⟩

theorem Made.of_orNull {reader : Reader α} {w : Written} {a : Option α} (h : Made (orNull reader).read w a)
    (hw : w ≠ .atom .null) : ∃ b, a = some b ∧ Made reader.read w b := by
  obtain ⟨ts, s, r, hs, hread⟩ := h
  simp only [orNull, readOrNull] at hread
  split at hread
  · obtain ⟨b, hb, rfl⟩ := Reading.map_eq_ok hread
    exact ⟨b, rfl, ts, s, r, hs, hb⟩
  · rename_i b t hskip
    split at hread
    · rename_i hb
      obtain ⟨token, rest, htokens, -⟩ := w.exists_tokens_eq
      obtain ⟨c, tail, hbytes, -⟩ := token.exists_bytes_eq
      rw [htokens, List.cons_append] at hs
      obtain ⟨u, hfirst, -⟩ := hs.uncons
      rw [hskip, hbytes, hb, List.cons_append] at hfirst
      obtain rfl := (List.cons.inj hfirst).1
      obtain rfl := Token.eq_atom_null hbytes
      exact absurd (Written.eq_atom htokens).1 hw
    · obtain ⟨b, hb, rfl⟩ := Reading.map_eq_ok hread
      exact ⟨b, rfl, ts, s, r, hs, hb⟩

/-! ## One field -/

namespace Field

/-- What is known as `get` is what `reader` makes of the value of this field. -/
def Sets (field : Field σ) (reader : Reader α) (get : σ → α) : Prop :=
  ∀ state w next, Made (field.reader state).read w next → Made reader.read w (get next)

/-- What is known as `get` is not touched by this field. -/
def Keeps (field : Field σ) (get : σ → α) : Prop :=
  ∀ state w next, Made (field.reader state).read w next → get next = get state

theorem sets_map {name : String} {reader : Reader α} {update : σ → α → σ} {get : σ → α}
    (h : ∀ state a, get (update state a) = a) : Sets ⟨name, fun state => reader.map (update state)⟩ reader get := by
  intro state w next hmade
  obtain ⟨a, rfl, ha⟩ := Made.of_map hmade
  rwa [h]

theorem keeps_map {name : String} {reader : Reader β} {update : σ → β → σ} {get : σ → α}
    (h : ∀ state b, get (update state b) = get state) : Keeps ⟨name, fun state => reader.map (update state)⟩ get := by
  intro state w next hmade
  obtain ⟨b, rfl, -⟩ := Made.of_map hmade
  exact h state b

end Field

namespace Record

/-! ## Parts -/

variable (record : Record σ)

/-- The field of a name. -/
def field? (name : String) : Option (Field σ) := record.fields.find? fun field => field.name = name

/-- A member of an object as a part of the record, if it names a field. -/
def part? (member : Body × Written) : Option (Field σ × Written) :=
  (member.1.text?.bind record.field?).map fun field => (field, member.2)

/-- The fields for which something is written, and what: behind their names in an object, and in their order in a
list. -/
def parts : Written → List (Field σ × Written)
  | .atom _ => []
  | .list items _ => record.fields.zip items
  | .object members _ => members.filterMap record.part?

/-- The value `v` is written for the field `name`. -/
def Holds (name : String) (v w : Written) : Prop := ∃ field, (field, v) ∈ record.parts w ∧ field.name = name

/-- The field `name` is read with `reader` into `get`, and no other field touches it. -/
structure Projects (name : String) (reader : Reader α) (get : σ → α) : Prop where
  sets : ∀ field ∈ record.fields, field.name = name → field.Sets reader get
  keeps : ∀ field ∈ record.fields, field.name ≠ name → field.Keeps get

variable {record}

theorem mem_fields_of_mem_parts {w : Written} {part : Field σ × Written} (h : part ∈ record.parts w) :
    part.1 ∈ record.fields := by
  cases w with
  | atom a => cases h
  | list items trailing => exact (List.of_mem_zip h).1
  | object members trailing =>
      obtain ⟨member, -, hpart⟩ := List.mem_filterMap.mp h
      obtain ⟨field, hfield, rfl⟩ := Option.map_eq_some_iff.mp hpart
      obtain ⟨name, -, hfind⟩ := Option.bind_eq_some_iff.mp hfield
      exact List.mem_of_find?_eq_some hfind

theorem name_of_field? {name : String} {field : Field σ} (h : record.field? name = some field) : field.name = name := by
  simpa using List.find?_some h

theorem reading_value (state : List String × σ) (name : String) :
    record.reading.value state name =
      match record.field? name with
      | none => .ok (skip.map fun _ => state)
      | some field =>
        if name ∈ state.1 then .error (.repeatedField name)
        else .ok ((field.reader state.2).map fun s => (name :: state.1, s)) :=
  rfl

theorem part?_of_text? {key : Body} {name : String} (h : key.text? = some name) (w : Written) :
    record.part? (key, w) = (record.field? name).map fun field => (field, w) := by
  rw [part?, h, Option.bind_some]

/-- For the fields of an object stands what is behind their names. -/
theorem holds_object_iff {name : String} (hname : (record.field? name).isSome = true) {v : Written}
    {members : List (Body × Written)} {trailing : Bool} :
    record.Holds name v (.object members trailing) ↔ ∃ key, (key, v) ∈ members ∧ key.text? = some name := by
  constructor
  · rintro ⟨field, hpart, rfl⟩
    obtain ⟨⟨key, w⟩, hmem, hpart⟩ := List.mem_filterMap.mp hpart
    obtain ⟨found, hfound, heq⟩ := Option.map_eq_some_iff.mp hpart
    cases heq
    obtain ⟨name, htext, hfield⟩ := Option.bind_eq_some_iff.mp hfound
    exact ⟨key, hmem, htext.trans (congrArg some (name_of_field? hfield).symm)⟩
  · rintro ⟨key, hmem, htext⟩
    obtain ⟨field, hfield⟩ := Option.isSome_iff_exists.mp hname
    refine ⟨field, List.mem_filterMap.mpr ⟨(key, v), hmem, ?_⟩, name_of_field? hfield⟩
    rw [part?_of_text? htext, hfield]
    rfl

/-! ## Part by part -/

theorem Steps.get_eq {parts : List (Field σ × Written)} {state last : σ} {get : σ → α} (h : Steps state parts last)
    (hkeeps : ∀ part ∈ parts, part.1.Keeps get) : get last = get state := by
  induction h with
  | nil => rfl
  | cons hread _ ih =>
      obtain ⟨hfirst, hmore⟩ := List.forall_mem_cons.mp hkeeps
      exact (ih hmore).trans (hfirst _ _ _ hread)

/-- The field of a name is read once, and is not touched before or after. -/
theorem Steps.made {parts : List (Field σ × Written)} {state last : σ} {name : String} {reader : Reader α}
    {get : σ → α} (h : Steps state parts last) (hnodup : (parts.map fun part => part.1.name).Nodup)
    (hsets : ∀ part ∈ parts, part.1.name = name → part.1.Sets reader get)
    (hkeeps : ∀ part ∈ parts, part.1.name ≠ name → part.1.Keeps get) {field : Field σ} {v : Written}
    (hpart : (field, v) ∈ parts) (hname : field.name = name) : Made reader.read v (get last) := by
  induction h with
  | nil => cases hpart
  | @cons state next last first w parts hread hrest ih =>
      rw [List.map_cons, List.nodup_cons] at hnodup
      obtain ⟨hfirst, hmoreSets⟩ := List.forall_mem_cons.mp hsets
      obtain ⟨-, hmoreKeeps⟩ := List.forall_mem_cons.mp hkeeps
      rcases List.mem_cons.mp hpart with heq | hmore
      · cases heq
        have hother : ∀ part ∈ parts, part.1.Keeps get := by
          intro part hmem
          refine hmoreKeeps part hmem fun hsame => hnodup.1 ?_
          exact List.mem_map.mpr ⟨part, hmem, hsame.trans hname.symm⟩
        rw [hrest.get_eq hother]
        exact hfirst hname _ _ _ hread
      · exact ih hnodup.2 hmoreSets hmoreKeeps hmore

/-- Members that are passed over leave what is known as it is, and no field is read twice. The names of the fields that
have been read before do not come again. -/
theorem steps_of_runs {state last : List String × σ} {members : List (Body × Written)}
    (h : record.reading.Runs Made state members last) :
    Steps state.2 (members.filterMap record.part?) last.2 ∧
      ((members.filterMap record.part?).map fun part => part.1.name).Nodup ∧
      ∀ part ∈ members.filterMap record.part?, part.1.name ∉ state.1 := by
  induction h with
  | nil state => exact ⟨.nil _, List.nodup_nil, nofun⟩
  | @cons state next last key w members k reader hkey hvalue hread _ ih =>
      obtain ⟨hsteps, hnodup, hnames⟩ := ih
      obtain ⟨u, r, hkey⟩ := hkey
      have hpart : record.part? (key, w) = _ := part?_of_text? (Body.text?_of_read hkey) w
      rw [reading_value] at hvalue
      cases hfield : record.field? k with
      | none =>
          simp only [hfield, Except.ok.injEq] at hvalue
          subst hvalue
          obtain ⟨-, rfl, -⟩ := Made.of_map hread
          rw [hfield] at hpart
          rw [List.filterMap_cons_none hpart]
          exact ⟨hsteps, hnodup, hnames⟩
      | some field =>
          have hname := name_of_field? hfield
          simp only [hfield] at hvalue
          split at hvalue
          · cases hvalue
          · rename_i hnew
            cases hvalue
            obtain ⟨known, rfl, hmade⟩ := Made.of_map hread
            rw [hfield] at hpart
            rw [List.filterMap_cons_some hpart]
            -- From here on `k` is among the names that have been read, so no later part has it.
            refine ⟨.cons hmade hsteps, List.nodup_cons.mpr ⟨fun hmem => ?_, hnodup⟩, ?_⟩
            · obtain ⟨part, hmem, hsame⟩ := List.mem_map.mp hmem
              exact hnames part hmem (by simp only [hsame, hname, List.mem_cons, true_or])
            · refine List.forall_mem_cons.mpr ⟨by rwa [hname], fun part hmem hold => ?_⟩
              exact hnames part hmem (List.mem_cons_of_mem k hold)

/-! ## A whole record -/

theorem steps_of_made {shapes : Shapes} (hdemands : record.Demands shapes)
    (hnodup : (record.fields.map Field.name).Nodup) {w : Written} {a : σ} (h : Made record.reader.read w a) :
    Steps record.start (record.parts w) a ∧ ((record.parts w).map fun part => part.1.name).Nodup := by
  obtain ⟨ts, s, r, hs, hread⟩ := h
  obtain ⟨-, ⟨items, trailing, rfl, hsteps, hshapes⟩ | ⟨members, trailing, _, rfl, hruns⟩⟩ :=
    reader_eq_ok hdemands hs hread
  · have hlength : record.fields.length = items.length :=
      (List.Forall₂.length_eq hdemands).trans hshapes.length_eq
    have hnames : ((record.fields.zip items).map fun part => part.1.name) =
        ((record.fields.zip items).map Prod.fst).map Field.name := List.map_map.symm
    refine ⟨hsteps, ?_⟩
    rw [parts, hnames, List.map_fst_zip hlength.le]
    exact hnodup
  · obtain ⟨hsteps, hnames, -⟩ := steps_of_runs hruns
    exact ⟨hsteps, hnames⟩

/-- What is known of a field is made of the value that is written for it, and is what it was if there is none. -/
theorem made_field {shapes : Shapes} (hdemands : record.Demands shapes)
    (hnodup : (record.fields.map Field.name).Nodup) {name : String} {reader : Reader α} {get : σ → α}
    (hprojects : record.Projects name reader get) {w : Written} {a : σ} (h : Made record.reader.read w a) :
    (∀ v, record.Holds name v w → Made reader.read v (get a)) ∧
      ((∀ v, ¬ record.Holds name v w) → get a = get record.start) := by
  obtain ⟨hsteps, hnames⟩ := steps_of_made hdemands hnodup h
  constructor
  · rintro v ⟨field, hpart, hname⟩
    exact hsteps.made hnames (fun part hmem => hprojects.sets part.1 (mem_fields_of_mem_parts hmem))
      (fun part hmem => hprojects.keeps part.1 (mem_fields_of_mem_parts hmem)) hpart hname
  · intro hnone
    refine hsteps.get_eq fun part hmem => hprojects.keeps part.1 (mem_fields_of_mem_parts hmem) fun hname => ?_
    exact hnone part.2 ⟨part.1, hmem, hname⟩

end Record

end

end ConfigChain.Json

import ConfigChain.Json.Value

/-!
Values of a fixed kind. A reader here knows what it wants and says so when it finds something else. A
`Record` is an object with known fields; unknown ones are passed over, and a list with exactly the values
of the fields, in their order, is taken as well.
-/

namespace ConfigChain.Json

variable {α σ : Type}

/-- What a message calls a scalar. -/
def Found.ofScalar : Value → Found
  | .null => .nothing
  | .bool b => .boolean b
  | .number n => .number n
  | .text s => .text s
  | .list _ => .list
  | .object _ => .object

/-- Why a value that begins like this is not the one expected. A scalar is read first, and may itself be
at fault; lists and objects are not looked into. -/
def refusal (expected : String) (b : UInt8) (t : Bytes) : Stop :=
  if b = openList then .here (.wrongKind .list expected) (b :: t)
  else if b = openObject then .here (.wrongKind .object expected) (b :: t)
  else match strict.scalar b t with
    | .error stop => stop
    | .ok (v, r) => .here (.wrongKind (.ofScalar v) expected) r

/-- Reads a value that begins with certain bytes. -/
def readExpecting (expected : String) (opens : UInt8 → Bool) (body : UInt8 → Bytes → Reading α)
    (s : Bytes) : Reading α :=
  match skipBlanks s with
  | [] => .error (.at .endInValue [])
  | b :: t => if opens b then body b t else .error (refusal expected b t)

theorem length_readExpecting_lt {expected : String} {opens : UInt8 → Bool}
    {body : UInt8 → Bytes → Reading α}
    (body_le : ∀ {b t a r}, body b t = .ok (a, r) → r.length ≤ t.length) {s r : Bytes} {a : α}
    (h : readExpecting expected opens body s = .ok (a, r)) : r.length < s.length := by
  have hs := length_skipBlanks_le s
  unfold readExpecting at h
  split at h
  · cases h
  · rename_i b t hb
    rw [hb] at hs
    simp only [List.length_cons] at hs
    split at h
    · have := body_le h
      omega
    · cases h

/-- A reader for values that begin with certain bytes. -/
def expecting (expected : String) (opens : UInt8 → Bool) (body : UInt8 → Bytes → Reading α)
    (body_le : ∀ {b t a r}, body b t = .ok (a, r) → r.length ≤ t.length) : Reader α where
  read := readExpecting expected opens body
  consumes := length_readExpecting_lt body_le

/-- A text. -/
def aText : Reader String :=
  expecting "a string" (· == quote) (fun b t => string.read (b :: t))
    fun h => Nat.le_of_lt_succ (string.consumes h)

/-- A truth value. -/
def aBool : Reader Bool :=
  expecting "a boolean" (fun b => b == letterT || b == letterF)
    (fun b t => if b = letterT then wordThen restOfTrue true t else wordThen restOfFalse false t)
    fun h => by
      split at h
      · exact length_wordThen_le h
      · exact length_wordThen_le h

/-- A list of texts. -/
def textList : Reader (List String) :=
  expecting "a sequence" (· == openList) (fun _ t => elements aText .trailingComma t)
    fun h => Nat.le_of_lt (length_elements_lt h)

/-- An object read as a fold over its members. -/
def anObject (value : σ → String → Reader σ) (start : σ) : Reader σ :=
  expecting "a map" (· == openObject)
    (fun _ t => members ⟨string, fun s k => .ok (value s k), .endInValue, .trailingComma⟩ start t)
    fun h => Nat.le_of_lt (length_members_lt h)

/-- Reads a value that may be `null` instead. -/
def readOrNull (reader : Reader α) (s : Bytes) : Reading (Option α) :=
  match skipBlanks s with
  | [] => Reading.map some (reader.read s)
  | b :: t => if b = letterN then wordThen restOfNull none t else Reading.map some (reader.read s)

theorem length_readOrNull_lt {reader : Reader α} {s r : Bytes} {a : Option α}
    (h : readOrNull reader s = .ok (a, r)) : r.length < s.length := by
  have hs := length_skipBlanks_le s
  unfold readOrNull at h
  split at h
  · obtain ⟨_, h, _⟩ := Reading.map_eq_ok h
    exact reader.consumes h
  · rename_i b t hb
    rw [hb] at hs
    simp only [List.length_cons] at hs
    split at h
    · have := length_wordThen_le h
      omega
    · obtain ⟨_, h, _⟩ := Reading.map_eq_ok h
      exact reader.consumes h

/-- A value that may be `null` instead. -/
def orNull (reader : Reader α) : Reader (Option α) where
  read := readOrNull reader
  consumes := length_readOrNull_lt

/-- A field of a record: its name, and how it is read into what is known so far. -/
structure Field (σ : Type) where
  name : String
  reader : σ → Reader σ

/-- A record: what messages call it, its fields in order, and what is known before any is read. -/
structure Record (σ : Type) where
  title : String
  fields : List (Field σ)
  start : σ

namespace Record

/-- The members of a record. The names of the fields that have been read are kept, last first: no field
may come twice. -/
def reading (record : Record σ) : Members String (List String × σ) where
  key := string
  value state name :=
    match record.fields.find? fun field => field.name = name with
    | none => .ok (skip.map fun _ => state)
    | some field =>
      if name ∈ state.1 then .error (.repeatedField name)
      else .ok ((field.reader state.2).map fun s => (name :: state.1, s))
  ended := .endInValue
  closed := .trailingComma

/-- What messages call the list form of a record. -/
def listTitle (record : Record σ) : String :=
  record.title ++ " with " ++ toString record.fields.length ++ " elements"

/-- The end of the list form, when all fields have been read. -/
def listEnd (state : σ) (s : Bytes) : Reading σ :=
  match skipBlanks s with
  | [] => .error (.at .endInList [])
  | b :: t =>
    if b = closeList then .ok (state, t)
    else if b = comma then
      if (skipBlanks t).head? = some closeList then .error (.at .trailingComma (skipBlanks t))
      else .error (.at .trailingCharacters (skipBlanks t))
    else .error (.at .trailingCharacters (b :: t))

theorem length_listEnd_lt {state a : σ} {s r : Bytes} (h : listEnd state s = .ok (a, r)) :
    r.length < s.length := by
  have hs := length_skipBlanks_le s
  unfold listEnd at h
  grind

/-- What is in front of the next item of a list, after `count` others: the item, or the end with what
follows it. -/
def nextItem (count : Nat) (s : Bytes) : Except Stop (Bytes ⊕ Bytes) :=
  match skipBlanks s with
  | [] => .error (.at .endInList [])
  | b :: t =>
    if b = closeList then .ok (.inr t)
    else if count = 0 then .ok (.inl (b :: t))
    else if b = comma then
      match skipBlanks t with
      | [] => .error (.at .endInValue [])
      | c :: u => if c = closeList then .error (.at .trailingComma (c :: u)) else .ok (.inl (c :: u))
    else .error (.at .expectedListEnd (b :: t))

theorem length_nextItem_le {n : Nat} {s r : Bytes} (h : nextItem n s = .ok (.inl r)) :
    r.length ≤ s.length := by
  have hs := length_skipBlanks_le s
  unfold nextItem at h
  split at h
  · cases h
  · rename_i b t hb
    have ht := length_skipBlanks_le t
    rw [hb] at hs
    simp only [List.length_cons] at hs
    grind

/-- The list form of a record, from the field after `count` others on. -/
def listFrom (title : String) (count : Nat) : List (Field σ) → σ → Bytes → Reading σ
  | [], state, s => listEnd state s
  | field :: fields, state, s =>
    match nextItem count s with
    | .error stop => .error stop
    | .ok (.inr t) => .error (.here (.wrongLength count title) t)
    | .ok (.inl r) =>
      match (field.reader state).read r with
      | .error stop => .error stop
      | .ok (state, r) => listFrom title (count + 1) fields state r

theorem length_listFrom_lt {title : String} {n : Nat} {fields : List (Field σ)} {state a : σ}
    {s r : Bytes} (h : listFrom title n fields state s = .ok (a, r)) : r.length < s.length := by
  induction fields generalizing n state s with
  | nil => exact length_listEnd_lt h
  | cons field fields ih =>
    unfold listFrom at h
    split at h
    · cases h
    · cases h
    · rename_i t ht
      have := length_nextItem_le ht
      split at h
      · cases h
      · rename_i hr
        have := (field.reader state).consumes hr
        have := ih h
        omega

/-- The reader of a record. -/
def reader (record : Record σ) : Reader σ :=
  expecting record.title (fun b => b == openList || b == openObject)
    (fun b t =>
      if b = openList then listFrom record.listTitle 0 record.fields record.start t
      else Reading.map Prod.snd (members record.reading ([], record.start) t))
    fun h => by
      split at h
      · exact Nat.le_of_lt (length_listFrom_lt h)
      · obtain ⟨_, hm, _⟩ := Reading.map_eq_ok h
        exact Nat.le_of_lt (length_members_lt hm)

end Record

end ConfigChain.Json

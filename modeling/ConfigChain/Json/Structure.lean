import ConfigChain.Json.Literal

/-!
Lists and objects, read with a reader for what they hold. The reader of an item may skip blanks first;
everything between the items, and which fault wins when something is missing, is settled here once for
every use. An object is read as a fold: each key and the state so far choose the reader of the next state.
-/

namespace ConfigChain.Json

variable {α κ σ : Type}

/-- The items of a list from one of them on, up to the closing bracket. `closed` is what is wrong with
a bracket right after a comma. -/
def elementsFrom (item : Reader α) (closed : Cause) (s : Bytes) : Reading (List α) :=
  match _hs : item.read s with
  | .error stop => .error stop
  | .ok (a, r) =>
    match _hr : skipBlanks r with
    | [] => .error (.at .endInList [])
    | b :: t =>
      if b = closeList then .ok ([a], t)
      else if b = comma then
        match _ht : skipBlanks t with
        | [] => .error (.at .endInValue [])
        | c :: u =>
          if c = closeList then .error (.at closed (c :: u))
          else (elementsFrom item closed (c :: u)).map (a :: ·)
      else .error (.at .expectedListEnd (b :: t))
termination_by s.length
decreasing_by
  have h1 := item.consumes _hs
  have h2 := length_skipBlanks_le r
  have h3 := length_skipBlanks_le t
  rw [_hr] at h2
  rw [_ht] at h3
  simp only [List.length_cons] at h2 h3 ⊢
  omega

theorem length_elementsFrom_lt {item : Reader α} {closed : Cause} {s r : Bytes} {as : List α}
    (h : elementsFrom item closed s = .ok (as, r)) : r.length < s.length := by
  fun_induction elementsFrom item closed s generalizing as with
  | case1 => cases h
  | case2 => cases h
  | case3 s a r' hs t hr =>
    have h1 := item.consumes hs
    have h2 := length_skipBlanks_le r'
    simp_all only [List.length_cons, Except.ok.injEq, Prod.mk.injEq]
    omega
  | case4 => cases h
  | case5 => cases h
  | case6 s a r' hs t hr hc c u ht hne ih =>
    obtain ⟨_, hb, _⟩ := Reading.map_eq_ok h
    have h1 := item.consumes hs
    have h2 := length_skipBlanks_le r'
    have h3 := length_skipBlanks_le t
    have := ih hb
    simp_all only [List.length_cons]
    omega
  | case7 => cases h

/-- The items of a list, read after its opening bracket. -/
def elements (item : Reader α) (closed : Cause) (s : Bytes) : Reading (List α) :=
  match skipBlanks s with
  | [] => .error (.at .endInList [])
  | b :: t => if b = closeList then .ok ([], t) else elementsFrom item closed (b :: t)

theorem length_elements_lt {item : Reader α} {closed : Cause} {s r : Bytes} {as : List α}
    (h : elements item closed s = .ok (as, r)) : r.length < s.length := by
  have hs := length_skipBlanks_le s
  unfold elements at h
  split at h
  · cases h
  · simp_all only [List.length_cons]
    split at h
    · simp only [Except.ok.injEq, Prod.mk.injEq] at h
      obtain ⟨_, rfl⟩ := h
      omega
    · have := length_elementsFrom_lt h
      simp only [List.length_cons] at this
      omega

/-- How the members of an object are read. `ended` and `closed` are what is wrong with the end of the
text and with a closing brace right after a comma. -/
structure Members (κ σ : Type) where
  key : Reader κ
  value : σ → κ → Except Cause (Reader σ)
  ended : Cause
  closed : Cause

/-- Past a closing brace, if there is one. -/
def pastBrace (s : Bytes) : Bytes := if s.head? = some closeObject then s.drop 1 else s

/-- The value after a key, read from the colon on. -/
def afterKey (reader : Reader σ) (r : Bytes) : Reading σ :=
  match skipBlanks r with
  | [] => .error (.at .endInObject [])
  | b :: t => if b = colon then reader.read t else .error (.at .expectedColon (b :: t))

theorem length_afterKey_lt {reader : Reader σ} {s r : Bytes} {a : σ}
    (h : afterKey reader s = .ok (a, r)) : r.length < s.length := by
  have hs := length_skipBlanks_le s
  unfold afterKey at h
  split at h
  · cases h
  · simp_all only [List.length_cons]
    split at h
    · have := reader.consumes h
      omega
    · cases h

/-- One member of an object. A key that may not stand here is reported behind the blanks after it, and
behind the closing brace when that comes next. -/
def member (m : Members κ σ) (state : σ) (s : Bytes) : Reading σ :=
  if s.head? = some quote then
    match m.key.read s with
    | .error stop => .error stop
    | .ok (k, r) =>
      match m.value state k with
      | .error cause => .error (.here cause (pastBrace (skipBlanks r)))
      | .ok reader => afterKey reader r
  else .error (.at .keyNotString s)

theorem length_member_lt {m : Members κ σ} {state a : σ} {s r : Bytes}
    (h : member m state s = .ok (a, r)) : r.length < s.length := by
  unfold member at h
  split at h
  · split at h
    · cases h
    · rename_i hk
      have := m.key.consumes hk
      split at h
      · cases h
      · have := length_afterKey_lt h
        omega
  · cases h

/-- The members of an object from one of them on, up to the closing brace. -/
def membersFrom (m : Members κ σ) (state : σ) (s : Bytes) : Reading σ :=
  match _hs : member m state s with
  | .error stop => .error stop
  | .ok (state, r) =>
    match _hr : skipBlanks r with
    | [] => .error (.at .endInObject [])
    | b :: t =>
      if b = closeObject then .ok (state, t)
      else if b = comma then
        match _ht : skipBlanks t with
        | [] => .error (.at m.ended [])
        | c :: u =>
          if c = closeObject then .error (.at m.closed (c :: u))
          else membersFrom m state (c :: u)
      else .error (.at .expectedObjectEnd (b :: t))
termination_by s.length
decreasing_by
  have h1 := length_member_lt _hs
  have h2 := length_skipBlanks_le r
  have h3 := length_skipBlanks_le t
  rw [_hr] at h2
  rw [_ht] at h3
  simp only [List.length_cons] at h2 h3 ⊢
  omega

theorem length_membersFrom_lt {m : Members κ σ} {state a : σ} {s r : Bytes}
    (h : membersFrom m state s = .ok (a, r)) : r.length < s.length := by
  fun_induction membersFrom m state s with
  | case1 => cases h
  | case2 => cases h
  | case3 state s state' r' hs t hr =>
    have h1 := length_member_lt hs
    have h2 := length_skipBlanks_le r'
    simp_all only [List.length_cons, Except.ok.injEq, Prod.mk.injEq]
    omega
  | case4 => cases h
  | case5 => cases h
  | case6 state s state' r' hs t c u ht _ hr _ ih =>
    have h1 := length_member_lt hs
    have h2 := length_skipBlanks_le r'
    have h3 := length_skipBlanks_le t
    have := ih h
    rw [hr] at h2
    rw [ht] at h3
    simp only [List.length_cons] at h2 h3 this
    omega
  | case7 => cases h

/-- The members of an object, read after its opening brace. -/
def members (m : Members κ σ) (state : σ) (s : Bytes) : Reading σ :=
  match skipBlanks s with
  | [] => .error (.at .endInObject [])
  | b :: t => if b = closeObject then .ok (state, t) else membersFrom m state (b :: t)

theorem length_members_lt {m : Members κ σ} {state a : σ} {s r : Bytes}
    (h : members m state s = .ok (a, r)) : r.length < s.length := by
  have hs := length_skipBlanks_le s
  unfold members at h
  split at h
  · cases h
  · simp_all only [List.length_cons]
    split at h
    · simp only [Except.ok.injEq, Prod.mk.injEq] at h
      obtain ⟨_, rfl⟩ := h
      omega
    · have := length_membersFrom_lt h
      simp only [List.length_cons] at this
      omega

end ConfigChain.Json

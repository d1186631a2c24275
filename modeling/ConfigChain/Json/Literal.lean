import ConfigChain.Json.Reader
import ConfigChain.Text.Utf8

/-!
Words and strings. A string is read in one of two ways: `stringBody` decodes its escapes and is strict
about them, `skipBody` only looks for its end.
-/

namespace ConfigChain.Json

/-- Takes the bytes of a word one by one. -/
def word : Bytes → Bytes → Except Stop Bytes
  | [], s => .ok s
  | _ :: _, [] => .error (.here .endInValue [])
  | w :: ws, b :: s => if b = w then word ws s else .error (.here .expectedWord s)

theorem length_word_le {w s r : Bytes} (h : word w s = .ok r) : r.length ≤ s.length := by
  induction w generalizing s with
  | nil => simp only [word, Except.ok.injEq] at h; simp [h]
  | cons c w ih =>
    cases s with
    | nil => simp [word] at h
    | cons b s =>
      simp only [word] at h
      split at h
      · exact Nat.le_succ_of_le (ih h)
      · cases h

/-- What comes after the first byte of each word. -/
def restOfNull : Bytes := [letterU, 0x6C, 0x6C]
def restOfTrue : Bytes := [letterR, letterU, letterE]
def restOfFalse : Bytes := [0x61, 0x6C, 0x73, letterE]

/-- Four hexadecimal digits. -/
def fourHex : Bytes → Reading Nat
  | a :: b :: c :: d :: r =>
    match hexValue? a, hexValue? b, hexValue? c, hexValue? d with
    | some a, some b, some c, some d => .ok (((a * 16 + b) * 16 + c) * 16 + d, r)
    | _, _, _, _ => .error (.here .invalidEscape r)
  | _ => .error (.here .endInString [])

theorem length_fourHex_lt {s r : Bytes} {n : Nat} (h : fourHex s = .ok (n, r)) :
    r.length < s.length := by
  unfold fourHex at h
  grind

/-- Code units that open a pair. -/
def opensPair (n : Nat) : Bool := 0xD800 ≤ n && n ≤ 0xDBFF

/-- Code units that close a pair. -/
def closesPair (n : Nat) : Bool := 0xDC00 ≤ n && n ≤ 0xDFFF

/-- The code point of a pair. -/
def pairValue (high low : Nat) : Nat := (high - 0xD800) * 1024 + (low - 0xDC00) + 0x10000

/-- The second half of a pair, escape marks included. -/
def pairEnd (high : Nat) : Bytes → Reading Bytes
  | [] => .error (.here .endInString [])
  | b :: s =>
    if b ≠ backslash then .error (.here .unfinishedPair s)
    else match s with
      | [] => .error (.here .endInString [])
      | u :: s =>
        if u ≠ letterU then .error (.here .unfinishedPair s)
        else match fourHex s with
          | .error stop => .error stop
          | .ok (low, r) =>
            if closesPair low then .ok (String.utf8EncodeChar (Char.ofNat (pairValue high low)), r)
            else .error (.here .loneSurrogate r)

theorem length_pairEnd_lt {n : Nat} {s r bytes : Bytes} (h : pairEnd n s = .ok (bytes, r)) :
    r.length < s.length := by
  match s with
  | [] => cases h
  | b :: [] => unfold pairEnd at h; grind
  | b :: u :: s => unfold pairEnd at h; grind [→ length_fourHex_lt]

/-- What an escape with code units stands for; both halves of a pair must be there. -/
def codeUnits (s : Bytes) : Reading Bytes :=
  match fourHex s with
  | .error stop => .error stop
  | .ok (n, r) =>
    if closesPair n then .error (.here .loneSurrogate r)
    else if opensPair n then pairEnd n r
    else .ok (String.utf8EncodeChar (Char.ofNat n), r)

theorem length_codeUnits_lt {s r bytes : Bytes} (h : codeUnits s = .ok (bytes, r)) :
    r.length < s.length := by
  unfold codeUnits at h
  grind [→ length_fourHex_lt, → length_pairEnd_lt]

/-- The control character that a letter stands for after a backslash. -/
def escapedByte? (b : UInt8) : Option UInt8 :=
  if b = quote ∨ b = backslash ∨ b = slash then some b
  else if b = letterB then some 0x08
  else if b = letterF then some 0x0C
  else if b = letterN then some 0x0A
  else if b = letterR then some 0x0D
  else if b = letterT then some 0x09
  else none

/-- What an escape stands for, read after its backslash. -/
def escape : Bytes → Reading Bytes
  | [] => .error (.here .endInString [])
  | b :: r =>
    match escapedByte? b with
    | some c => .ok ([c], r)
    | none => if b = letterU then codeUnits r else .error (.here .invalidEscape r)

theorem length_escape_lt {s r bytes : Bytes} (h : escape s = .ok (bytes, r)) :
    r.length < s.length := by
  unfold escape at h
  grind [→ length_codeUnits_lt]

/-- The bytes of a string, read after its opening quote. -/
def stringBody : Bytes → Reading Bytes
  | [] => .error (.here .endInString [])
  | b :: s =>
    if b = quote then .ok ([], s)
    else if b = backslash then
      match _h : escape s with
      | .error stop => .error stop
      | .ok (bytes, r) => (stringBody r).map (bytes ++ ·)
    else if b < 0x20 then .error (.here .controlCharacter s)
    else (stringBody s).map (b :: ·)
termination_by s => s.length
decreasing_by
  · have := length_escape_lt _h
    simp only [List.length_cons]
    omega
  · simp

theorem length_stringBody_lt {s r bytes : Bytes} (h : stringBody s = .ok (bytes, r)) :
    r.length < s.length := by
  fun_induction stringBody s generalizing bytes with
  | case1 => cases h
  | case2 => simp_all
  | case3 => cases h
  | case4 s inner r' he _ ih =>
    obtain ⟨_, hb, _⟩ := Reading.map_eq_ok h
    have := length_escape_lt he
    have := ih hb
    simp only [List.length_cons]
    omega
  | case5 => cases h
  | case6 b s _ _ _ ih =>
    obtain ⟨_, hb, _⟩ := Reading.map_eq_ok h
    have := ih hb
    simp only [List.length_cons]
    omega

/-- The text that the bytes of a string spell. -/
def spelled : Reading Bytes → Reading String
  | .error stop => .error stop
  | .ok (bytes, r) =>
    match Utf8.decode bytes with
    | (cs, []) => .ok (String.ofList cs, r)
    | (_, unread) => .error ⟨.notUtf8, r.length, unread.length⟩

theorem spelled_eq_ok {x : Reading Bytes} {t : String} {r : Bytes} (h : spelled x = .ok (t, r)) :
    ∃ bytes, x = .ok (bytes, r) := by
  unfold spelled at h
  grind

/-- Past the end of an escape, looked at as little as possible. -/
def skipEscape : Bytes → Except Stop Bytes
  | [] => .error (.here .endInString [])
  | b :: r =>
    if (escapedByte? b).isSome then .ok r
    else if b = letterU then
      match fourHex r with
      | .error stop => .error stop
      | .ok (_, r) => .ok r
    else .error (.here .invalidEscape r)

theorem length_skipEscape_lt {s r : Bytes} (h : skipEscape s = .ok r) : r.length < s.length := by
  unfold skipEscape at h
  grind [→ length_fourHex_lt]

/-- Past the end of a string, read after its opening quote. -/
def skipBody : Bytes → Except Stop Bytes
  | [] => .error (.here .endInString [])
  | b :: s =>
    if b = quote then .ok s
    else if b = backslash then
      match _h : skipEscape s with
      | .error stop => .error stop
      | .ok r => skipBody r
    else if b < 0x20 then .error (.here .controlCharacter (b :: s))
    else skipBody s
termination_by s => s.length
decreasing_by
  · have := length_skipEscape_lt _h
    simp only [List.length_cons]
    omega
  · simp

theorem length_skipBody_lt {s r : Bytes} (h : skipBody s = .ok r) : r.length < s.length := by
  fun_induction skipBody s with
  | case1 => cases h
  | case2 => simp_all
  | case3 => cases h
  | case4 s r' he _ ih =>
    have := length_skipEscape_lt he
    have := ih h
    simp only [List.length_cons]
    omega
  | case5 => cases h
  | case6 b s _ _ _ ih =>
    have := ih h
    simp only [List.length_cons]
    omega

/-- A reader that starts with an opening quote. -/
def afterQuote {α : Type} (body : Bytes → Reading α) : Bytes → Reading α
  | [] => .error (.at .endInValue [])
  | b :: s => if b = quote then body s else .error (.at .expectedValue (b :: s))

/-- A string with its quotes, decoded. -/
def string : Reader String where
  read := afterQuote fun s => spelled (stringBody s)
  consumes {s a r} h := by
    cases s with
    | nil => cases h
    | cons b s =>
      simp only [afterQuote] at h
      split at h
      · obtain ⟨bytes, hb⟩ := spelled_eq_ok h
        have := length_stringBody_lt hb
        simp only [List.length_cons]
        omega
      · cases h

/-- A string with its quotes, passed over. -/
def skippedString : Reader Unit where
  read := afterQuote fun s => match skipBody s with
    | .error stop => .error stop
    | .ok r => .ok ((), r)
  consumes {s a r} h := by
    cases s with
    | nil => cases h
    | cons b s =>
      simp only [afterQuote] at h
      split at h
      · cases hb : skipBody s with
        | error => simp [hb] at h
        | ok r' =>
          have := length_skipBody_lt hb
          simp only [hb, Except.ok.injEq, Prod.mk.injEq, true_and] at h
          subst h
          simp only [List.length_cons]
          omega
      · cases h

end ConfigChain.Json

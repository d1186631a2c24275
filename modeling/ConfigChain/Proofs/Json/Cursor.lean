import ConfigChain.Proofs.Json.Blanking

/-! # Blanking with indices

The same blanking as two loops that go through a text by its indices, with a third one that finds the end of a string.
Every access is checked: an index or a part of the text that is out of range gives no result, and neither does a loop
that has not ended when its fuel is used up. Main statement: there always is a result, and it is the strict form. -/

namespace ConfigChain.Json

namespace Cursor

/-- The part of a text between two indices, if they are in range and in order. -/
def slice? (s : Bytes) (start stop : Nat) : Option Bytes :=
  if start ≤ stop ∧ stop ≤ s.length then some ((s.drop start).take (stop - start)) else none

/-- From an index inside a string to the one behind the closing quote, or to the end of the text. -/
def closeText? (s : Bytes) : Nat → Nat → Option Nat
  | 0, _ => none
  | fuel + 1, i =>
    if i < s.length then do
      let b ← s[i]?
      if b = backslash then closeText? s fuel (i + 2)
      else if b = quote then some (i + 1)
      else closeText? s fuel (i + 1)
    else some s.length

/-- The index behind the string that begins at an index. -/
def textEnd? (s : Bytes) (start : Nat) : Option Nat := closeText? s (s.length + 1) (start + 1)

/-- Blanks up to the end of a line, and the index of that end. -/
def blankLine? (s : Bytes) : Nat → Nat → Bytes → Option (Nat × Bytes)
  | 0, _, _ => none
  | fuel + 1, i, out =>
    if i < s.length then do
      let b ← s[i]?
      if b = newline then some (i, out) else blankLine? s fuel (i + 1) (out ++ [space])
    else some (i, out)

/-- Where some bytes begin in a text, counted from its front. -/
def find? (part s : Bytes) : Option Nat := s.tails.findIdx? (part.isPrefixOf ·)

/-- Comments become spaces, from an index on. -/
def blankComments? (s : Bytes) : Nat → Nat → Bytes → Option Bytes
  | 0, _, _ => none
  | fuel + 1, i, out =>
    if i < s.length then do
      let b ← s[i]?
      if b = quote then
        let stop ← textEnd? s i
        let text ← slice? s i stop
        blankComments? s fuel stop (out ++ text)
      else if b = slash ∧ s[i + 1]? = some slash then
        let (stop, out) ← blankLine? s (s.length + 1) i out
        blankComments? s fuel stop out
      else if b = slash ∧ s[i + 1]? = some star then
        let inner ← slice? s (i + 2) s.length
        match find? [star, slash] inner with
        | none => return out ++ (← slice? s i s.length)
        | some close =>
          let stop := i + 2 + close + 2
          let comment ← slice? s i stop
          blankComments? s fuel stop (out ++ comment.map blank)
      else blankComments? s fuel (i + 1) (out ++ [b])
    else some out

/-- Commas before a closing mark become spaces, from an index on. -/
def blankCommas? (s : Bytes) : Nat → Nat → Bytes → Option Bytes
  | 0, _, _ => none
  | fuel + 1, i, out =>
    if i < s.length then do
      let b ← s[i]?
      if b = quote then
        let stop ← textEnd? s i
        let text ← slice? s i stop
        blankCommas? s fuel stop (out ++ text)
      else if b = comma then
        let ahead ← slice? s (i + 1) s.length
        blankCommas? s fuel (i + 1) (out ++ [if beforeClose ahead then space else comma])
      else blankCommas? s fuel (i + 1) (out ++ [b])
    else some out

/-- The strict form of a relaxed text. -/
def plain? (s : Bytes) : Option Bytes := do
  let text := withoutMark s
  let uncommented ← blankComments? text (text.length + 1) 0 []
  blankCommas? uncommented (uncommented.length + 1) 0 []

/-! ## Accesses -/

section

variable {front part rest : Bytes}

theorem getElem?_front (front : Bytes) (b : UInt8) (rest : Bytes) :
    (front ++ b :: rest)[front.length]? = some b := by
  simp

theorem getElem?_front_succ (front : Bytes) (b : UInt8) (rest : Bytes) :
    (front ++ b :: rest)[front.length + 1]? = rest.head? := by
  rw [List.getElem?_append_right (by omega)]
  simp [List.head?_eq_getElem?]

theorem slice?_append (front part rest : Bytes) :
    slice? (front ++ (part ++ rest)) front.length (front.length + part.length) = some part := by
  rw [slice?, if_pos (by simp), List.drop_left, Nat.add_sub_cancel_left, List.take_left]

theorem slice?_end (front part : Bytes) :
    slice? (front ++ part) front.length (front ++ part).length = some part := by
  have h := slice?_append front part []
  rwa [List.append_nil, ← List.length_append] at h

theorem slice?_behind (front part rest : Bytes) :
    slice? (front ++ (part ++ rest)) (front.length + part.length) (front ++ (part ++ rest)).length = some rest := by
  rw [← List.append_assoc, ← List.length_append]
  exact slice?_end (front ++ part) rest

/-! ## The end of a string -/

theorem closeText?_cons (front : Bytes) (b : UInt8) (rest : Bytes) (fuel : Nat) :
    closeText? (front ++ b :: rest) (fuel + 1) front.length =
      if b = backslash then closeText? (front ++ b :: rest) fuel (front.length + 2)
      else if b = quote then some (front.length + 1)
      else closeText? (front ++ b :: rest) fuel (front.length + 1) := by
  rw [closeText?, if_pos (by simp), getElem?_front]
  rfl

theorem closeText?_body {body : Bytes} (h : IsBody body) (front rest : Bytes) {fuel : Nat}
    (hfuel : body.length < fuel) :
    closeText? (front ++ (body ++ quote :: rest)) fuel front.length = some (front.length + body.length + 1) := by
  induction h generalizing front fuel with
  | nil =>
      obtain ⟨fuel, rfl⟩ := Nat.exists_eq_add_one_of_ne_zero (Nat.ne_zero_of_lt hfuel)
      rw [List.nil_append, closeText?_cons, if_neg (by decide), if_pos rfl]
      rfl
  | @escaped b s _ ih =>
      obtain ⟨fuel, rfl⟩ := Nat.exists_eq_add_one_of_ne_zero (Nat.ne_zero_of_lt hfuel)
      simp only [List.length_cons] at hfuel
      have hrest := ih (front ++ [backslash, b]) (Nat.lt_of_succ_lt (Nat.lt_of_succ_lt_succ hfuel))
      simp only [List.append_assoc, List.cons_append, List.nil_append, List.length_append, List.length_cons,
        List.length_nil] at hrest
      rw [List.cons_append, closeText?_cons, if_pos rfl, List.cons_append, hrest]
      simp only [List.length_cons, Option.some.injEq]
      omega
  | @cons b s hquote hbackslash _ ih =>
      obtain ⟨fuel, rfl⟩ := Nat.exists_eq_add_one_of_ne_zero (Nat.ne_zero_of_lt hfuel)
      simp only [List.length_cons] at hfuel
      have hrest := ih (front ++ [b]) (Nat.lt_of_succ_lt_succ hfuel)
      simp only [List.append_assoc, List.cons_append, List.nil_append, List.length_append, List.length_cons,
        List.length_nil] at hrest
      rw [List.cons_append, closeText?_cons, if_neg hbackslash, if_neg hquote, hrest]
      simp only [List.length_cons, Option.some.injEq]
      omega

theorem closeText?_openBody {t : Bytes} (h : IsOpenBody t) (front : Bytes) {fuel : Nat} (hfuel : t.length < fuel) :
    closeText? (front ++ t) fuel front.length = some (front ++ t).length := by
  induction h generalizing front fuel with
  | nil =>
      obtain ⟨fuel, rfl⟩ := Nat.exists_eq_add_one_of_ne_zero (Nat.ne_zero_of_lt hfuel)
      rw [closeText?, if_neg (by simp)]
  | backslash =>
      obtain ⟨fuel, rfl⟩ := Nat.exists_eq_add_one_of_ne_zero (Nat.ne_zero_of_lt hfuel)
      obtain ⟨fuel, rfl⟩ := Nat.exists_eq_add_one_of_ne_zero (Nat.ne_zero_of_lt (Nat.lt_of_succ_lt_succ hfuel))
      rw [closeText?_cons, if_pos rfl, closeText?, if_neg (by simp)]
  | @escaped b s _ ih =>
      obtain ⟨fuel, rfl⟩ := Nat.exists_eq_add_one_of_ne_zero (Nat.ne_zero_of_lt hfuel)
      simp only [List.length_cons] at hfuel
      have hrest := ih (front ++ [backslash, b]) (Nat.lt_of_succ_lt (Nat.lt_of_succ_lt_succ hfuel))
      simp only [List.append_assoc, List.cons_append, List.nil_append] at hrest
      rw [closeText?_cons, if_pos rfl, ← hrest, List.length_append, List.length_cons, List.length_singleton]
  | @cons b s hquote hbackslash _ ih =>
      obtain ⟨fuel, rfl⟩ := Nat.exists_eq_add_one_of_ne_zero (Nat.ne_zero_of_lt hfuel)
      simp only [List.length_cons] at hfuel
      have hrest := ih (front ++ [b]) (Nat.lt_of_succ_lt_succ hfuel)
      simp only [List.append_assoc, List.cons_append, List.nil_append] at hrest
      rw [closeText?_cons, if_neg hbackslash, if_neg hquote, ← hrest, List.length_append, List.length_singleton]

theorem textEnd?_quoted (front : Bytes) (body : Body) (rest : Bytes) :
    textEnd? (front ++ (body.quoted ++ rest)) front.length = some (front.length + body.quoted.length) := by
  have hquoted : front ++ (body.quoted ++ rest) = (front ++ [quote]) ++ (body.bytes ++ quote :: rest) := by
    simp [Body.quoted]
  have hstart : front.length + 1 = (front ++ [quote]).length := by simp
  rw [textEnd?, hquoted, hstart, closeText?_body body.isBody _ _ (by simp; omega)]
  simp only [Body.quoted, List.length_append, List.length_cons, List.length_nil, Option.some.injEq]
  omega

theorem textEnd?_openBody {t : Bytes} (h : IsOpenBody t) (front : Bytes) :
    textEnd? (front ++ quote :: t) front.length = some (front ++ quote :: t).length := by
  have hstart : front.length + 1 = (front ++ [quote]).length := by simp
  rw [textEnd?, hstart, List.append_cons, closeText?_openBody h _ (by simp; omega)]

/-! ## Comments -/

theorem blankLine?_cons (front : Bytes) (b : UInt8) (rest : Bytes) (fuel : Nat) (out : Bytes) :
    blankLine? (front ++ b :: rest) (fuel + 1) front.length out =
      if b = newline then some (front.length, out)
      else blankLine? (front ++ b :: rest) fuel (front.length + 1) (out ++ [space]) := by
  rw [blankLine?, if_pos (by simp), getElem?_front]
  rfl

theorem blankLine?_eq {t : Bytes} (h : newline ∉ t) {s : Bytes} (hs : ∀ b ∈ s.head?, b = newline) (front : Bytes)
    {fuel : Nat} (hfuel : t.length < fuel) (out : Bytes) :
    blankLine? (front ++ (t ++ s)) fuel front.length out = some (front.length + t.length, out ++ t.map blank) := by
  induction t generalizing front fuel out with
  | nil =>
      obtain ⟨fuel, rfl⟩ := Nat.exists_eq_add_one_of_ne_zero (Nat.ne_zero_of_lt hfuel)
      cases s with
      | nil => simp [blankLine?]
      | cons b s =>
          rw [List.nil_append, blankLine?_cons, if_pos (hs b rfl), List.map_nil, List.append_nil]
          rfl
  | cons b t ih =>
      obtain ⟨fuel, rfl⟩ := Nat.exists_eq_add_one_of_ne_zero (Nat.ne_zero_of_lt hfuel)
      obtain ⟨hb, ht⟩ := List.ne_and_not_mem_of_not_mem_cons h
      have hrest := ih ht (front ++ [b]) (Nat.lt_of_succ_lt_succ hfuel) (out ++ [blank b])
      simp only [List.append_assoc, List.cons_append, List.nil_append, List.length_append, List.length_singleton]
        at hrest
      have hblank : blank b = space := if_neg hb.symm
      rw [List.cons_append, blankLine?_cons, if_neg hb.symm, ← hblank, hrest, List.length_cons, List.map_cons,
        Nat.add_assoc, Nat.add_comm 1]

theorem find?_cons (part : Bytes) (b : UInt8) (t : Bytes) :
    find? part (b :: t) = if part.isPrefixOf (b :: t) then some 0 else (find? part t).map (· + 1) := by
  rw [find?, List.tails_cons, List.findIdx?_cons]
  rfl

theorem isPrefixOf_closer_iff (b : UInt8) (t : Bytes) :
    [star, slash].isPrefixOf (b :: t) = true ↔ b = star ∧ t.head? = some slash := by
  rw [List.isPrefixOf_iff_prefix, prefix_closer_cons_iff]

theorem find?_append {body : Bytes} (h : ¬ [star, slash] <:+: body) (rest : Bytes) :
    find? [star, slash] (body ++ star :: slash :: rest) = some body.length := by
  induction body with
  | nil => rw [List.nil_append, find?_cons, if_pos ((isPrefixOf_closer_iff _ _).mpr ⟨rfl, rfl⟩), List.length_nil]
  | cons b body ih =>
      rw [infix_closer_cons_iff, not_or] at h
      have hprefix : ¬ [star, slash].isPrefixOf (b :: (body ++ star :: slash :: rest)) = true := by
        rw [isPrefixOf_closer_iff]
        exact fun hclose => h.1 ⟨hclose.1, head?_of_append_closer hclose.2⟩
      rw [List.cons_append, find?_cons, if_neg hprefix, ih h.2]
      rfl

theorem find?_eq_none {t : Bytes} (h : ¬ [star, slash] <:+: t) : find? [star, slash] t = none := by
  induction t with
  | nil => rfl
  | cons b t ih =>
      rw [infix_closer_cons_iff, not_or] at h
      rw [find?_cons, if_neg fun hprefix => h.1 ((isPrefixOf_closer_iff b t).mp hprefix), ih h.2]
      rfl

section Steps

variable (front rest : Bytes) (fuel : Nat) (out : Bytes)

theorem blankComments?_code {b : UInt8} (hquote : b ≠ quote)
    (hslash : b = slash → rest.head? ≠ some slash ∧ rest.head? ≠ some star) :
    blankComments? (front ++ b :: rest) (fuel + 1) front.length out =
      blankComments? (front ++ b :: rest) fuel (front.length + 1) (out ++ [b]) := by
  rw [blankComments?, if_pos (by simp), getElem?_front, getElem?_front_succ]
  simp only [Option.bind_eq_bind, Option.bind_some]
  rw [if_neg hquote, if_neg fun h => (hslash h.1).1 h.2, if_neg fun h => (hslash h.1).2 h.2]

theorem blankComments?_quote {stop : Nat} {text : Bytes}
    (hstop : textEnd? (front ++ quote :: rest) front.length = some stop)
    (htext : slice? (front ++ quote :: rest) front.length stop = some text) :
    blankComments? (front ++ quote :: rest) (fuel + 1) front.length out =
      blankComments? (front ++ quote :: rest) fuel stop (out ++ text) := by
  rw [blankComments?, if_pos (by simp), getElem?_front, hstop]
  simp only [Option.bind_eq_bind, Option.bind_some, if_true, htext]

theorem blankComments?_line {stop : Nat} {out' : Bytes}
    (hline : blankLine? (front ++ slash :: slash :: rest) ((front ++ slash :: slash :: rest).length + 1)
      front.length out = some (stop, out')) :
    blankComments? (front ++ slash :: slash :: rest) (fuel + 1) front.length out =
      blankComments? (front ++ slash :: slash :: rest) fuel stop out' := by
  rw [blankComments?, if_pos (by simp), getElem?_front, getElem?_front_succ, hline]
  rfl

theorem slice?_inner :
    slice? (front ++ slash :: star :: rest) (front.length + 2) (front ++ slash :: star :: rest).length = some rest :=
  slice?_behind front [slash, star] rest

theorem blankComments?_block {close : Nat} {comment : Bytes} (hclose : find? [star, slash] rest = some close)
    (hcomment : slice? (front ++ slash :: star :: rest) front.length (front.length + 2 + close + 2) = some comment) :
    blankComments? (front ++ slash :: star :: rest) (fuel + 1) front.length out =
      blankComments? (front ++ slash :: star :: rest) fuel (front.length + 2 + close + 2)
        (out ++ comment.map blank) := by
  rw [blankComments?, if_pos (by simp), getElem?_front, getElem?_front_succ, slice?_inner]
  simp only [Option.bind_eq_bind, Option.bind_some, hclose, hcomment]
  rfl

theorem blankComments?_openBlock (hclose : find? [star, slash] rest = none) :
    blankComments? (front ++ slash :: star :: rest) (fuel + 1) front.length out =
      some (out ++ slash :: star :: rest) := by
  rw [blankComments?, if_pos (by simp), getElem?_front, getElem?_front_succ, slice?_inner, slice?_end]
  simp only [Option.bind_eq_bind, Option.bind_some, hclose]
  rfl

theorem blankComments?_end (s : Bytes) : blankComments? s (fuel + 1) s.length out = some out :=
  if_neg (Nat.lt_irrefl _)

end Steps

/-- The loop goes over the stretches of a text one by one. -/
theorem blankComments?_eq {rest : Bytes} {kinds : List Kind} {ending : Ending} (h : Lexed rest kinds ending)
    (front : Bytes) {fuel : Nat} (hfuel : rest.length < fuel) (out : Bytes) :
    blankComments? (front ++ rest) fuel front.length out = some (out ++ blankComments (.plain .outside) rest) := by
  induction h generalizing front fuel out with
  | nil =>
      obtain ⟨fuel, rfl⟩ := Nat.exists_eq_add_one_of_ne_zero (Nat.ne_zero_of_lt hfuel)
      simp [blankComments?, blankComments]
  | @code b s _ _ hquote hslash _ ih =>
      obtain ⟨fuel, rfl⟩ := Nat.exists_eq_add_one_of_ne_zero (Nat.ne_zero_of_lt hfuel)
      have hrest := ih (front ++ [b]) (Nat.lt_of_succ_lt_succ hfuel) (out ++ [b])
      simp only [List.append_assoc, List.length_append, List.length_singleton, List.singleton_append] at hrest
      rw [blankComments?_code front s fuel out hquote hslash, hrest, blankComments_code hquote hslash]
  | @text body s _ _ _ ih =>
      obtain ⟨fuel, rfl⟩ := Nat.exists_eq_add_one_of_ne_zero (Nat.ne_zero_of_lt hfuel)
      have hrest := ih (front ++ body.quoted) (show s.length < fuel by simp [Body.quoted] at hfuel; omega)
        (out ++ body.quoted)
      simp only [List.append_assoc, List.length_append] at hrest
      rw [blankComments_quoted, ← hrest]
      exact blankComments?_quote front _ fuel out (textEnd?_quoted front body s) (slice?_append front body.quoted s)
  | @openText t h =>
      obtain ⟨fuel, rfl⟩ := Nat.exists_eq_add_of_lt hfuel
      rw [blankComments?_quote front _ _ out (textEnd?_openBody h front) (slice?_end front _), List.length_cons,
        Nat.add_right_comm, blankComments?_end, blankComments_quote, blankComments_openBody h]
  | @line c s _ _ hend _ ih =>
      obtain ⟨fuel, rfl⟩ := Nat.exists_eq_add_one_of_ne_zero (Nat.ne_zero_of_lt hfuel)
      have hrest := ih (front ++ c.written) (show s.length < fuel by simp [LineComment.written] at hfuel; omega)
        (out ++ c.written.map blank)
      simp only [List.append_assoc, List.length_append] at hrest
      rw [blankComments_lineComment c hend, ← hrest]
      refine blankComments?_line front (c.bytes ++ s) fuel out
        (blankLine?_eq c.newline_not_mem_written hend front ?_ out)
      simp only [List.length_append, LineComment.written, List.length_cons]
      omega
  | @block c s _ _ _ ih =>
      obtain ⟨fuel, rfl⟩ := Nat.exists_eq_add_one_of_ne_zero (Nat.ne_zero_of_lt hfuel)
      have hrest := ih (front ++ c.written) (show s.length < fuel by simp [BlockComment.written] at hfuel; omega)
        (out ++ c.written.map blank)
      simp only [List.append_assoc, List.length_append] at hrest
      have hwritten : c.written ++ s = slash :: star :: (c.bytes ++ star :: slash :: s) := by
        simp [BlockComment.written]
      have hlength : front.length + 2 + c.bytes.length + 2 = front.length + c.written.length := by
        simp [BlockComment.written]; omega
      have hslice := slice?_append front c.written s
      rw [← hlength] at hrest
      rw [← hlength, hwritten] at hslice
      rw [blankComments_blockComment, ← hrest, hwritten]
      exact blankComments?_block front _ fuel out (find?_append c.not_infix s) hslice
  | openBlock h =>
      obtain ⟨fuel, rfl⟩ := Nat.exists_eq_add_one_of_ne_zero (Nat.ne_zero_of_lt hfuel)
      rw [blankComments?_openBlock front _ fuel out (find?_eq_none h), blankComments_openBlock h]

/-! ## Commas -/

theorem blankCommas?_quote (front rest : Bytes) (fuel : Nat) (out : Bytes) {stop : Nat} {text : Bytes}
    (hstop : textEnd? (front ++ quote :: rest) front.length = some stop)
    (htext : slice? (front ++ quote :: rest) front.length stop = some text) :
    blankCommas? (front ++ quote :: rest) (fuel + 1) front.length out =
      blankCommas? (front ++ quote :: rest) fuel stop (out ++ text) := by
  rw [blankCommas?, if_pos (by simp), getElem?_front, hstop]
  simp only [Option.bind_eq_bind, Option.bind_some, if_true, htext]

theorem blankCommas?_code (front : Bytes) {b : UInt8} (rest : Bytes) (fuel : Nat) (out : Bytes) (hquote : b ≠ quote) :
    blankCommas? (front ++ b :: rest) (fuel + 1) front.length out =
      blankCommas? (front ++ b :: rest) fuel (front.length + 1)
        (out ++ [if b = comma ∧ beforeClose rest then space else b]) := by
  have hahead : slice? (front ++ b :: rest) (front.length + 1) (front ++ b :: rest).length = some rest :=
    slice?_behind front [b] rest
  rw [blankCommas?, if_pos (by simp), getElem?_front, hahead]
  simp only [Option.bind_eq_bind, Option.bind_some, if_neg hquote]
  by_cases hcomma : b = comma
  · simp [hcomma]
  · simp [hcomma]

theorem blankCommas?_eq (front rest : Bytes) {fuel : Nat} (hfuel : rest.length < fuel) (out : Bytes) :
    blankCommas? (front ++ rest) fuel front.length out = some (out ++ blankCommas .outside rest) := by
  induction fuel generalizing front rest out with
  | zero => exact absurd hfuel (Nat.not_lt_zero _)
  | succ fuel ih =>
      cases rest with
      | nil => simp [blankCommas?, blankCommas]
      | cons b t =>
          by_cases hquote : b = quote
          · subst hquote
            rcases exists_body_or_isOpenBody t with ⟨body, s, hbody, rfl⟩ | hopen
            · have hrest := ih (front ++ (Body.mk body hbody).quoted) s
                (by simp only [List.length_cons, List.length_append] at hfuel; omega)
                (out ++ (Body.mk body hbody).quoted)
              simp only [List.append_assoc, List.length_append] at hrest
              have hquoted : quote :: (body ++ quote :: s) = (Body.mk body hbody).quoted ++ s := by simp [Body.quoted]
              rw [blankCommas?_quote front _ fuel out (hquoted ▸ textEnd?_quoted front ⟨body, hbody⟩ s)
                (hquoted ▸ slice?_append front _ s), hquoted, hrest, blankCommas_quoted]
            · obtain ⟨fuel, rfl⟩ := Nat.exists_eq_add_of_lt (Nat.lt_of_succ_lt_succ hfuel)
              rw [blankCommas?_quote front _ _ out (textEnd?_openBody hopen front) (slice?_end front _),
                blankCommas_quote, blankCommas_openBody hopen]
              exact if_neg (Nat.lt_irrefl _)
          · have hrest := ih (front ++ [b]) t (Nat.lt_of_succ_lt_succ hfuel)
              (out ++ [if b = comma ∧ beforeClose t then space else b])
            simp only [List.append_assoc, List.length_append, List.length_singleton, List.singleton_append] at hrest
            rw [blankCommas?_code front t fuel out hquote, hrest, blankCommas_code hquote]

/-- Every access of the loops is in range, and what they give is the strict form. -/
theorem plain?_eq (s : Bytes) : plain? s = some (plain s) := by
  obtain ⟨kinds, ending, h⟩ := exists_lexed (withoutMark s)
  have hcomments := blankComments?_eq h [] (Nat.lt_succ_self _) []
  have hcommas := blankCommas?_eq [] (blankComments (.plain .outside) (withoutMark s)) (Nat.lt_succ_self _) []
  simp only [List.nil_append, List.length_nil] at hcomments hcommas
  simp only [plain?, hcomments, Option.bind_eq_bind, Option.bind_some, hcommas]
  rfl

end

end Cursor

/-- Every text falls apart in one way, and the strict form is the text without its mark in which just the bytes that are
to be taken out have become spaces; the loops with checked accesses find it, too. -/
theorem plain_blanks (s : Bytes) :
    ∃ kinds ending, Lexed (withoutMark s) kinds ending ∧
      (∀ kinds' ending', Lexed (withoutMark s) kinds' ending' → kinds' = kinds ∧ ending' = ending) ∧
      Blanks (withoutMark s) kinds ending (plain s) ∧ Cursor.plain? s = some (plain s) := by
  obtain ⟨kinds, ending, h⟩ := exists_lexed (withoutMark s)
  exact ⟨kinds, ending, h, fun _ _ h' => h'.unique h, h.blanks_cleaned, Cursor.plain?_eq s⟩

/-- A comma in a string stays although a bracket follows it; one that stands before a bracket behind a comment does not,
whatever the comment holds. -/
theorem plain_blanks_hidden_quote :
    let s := mark ++ Utf8.encode "[\"\\\",]\",//\"\n]".toList
    let kinds := [Kind.code] ++ List.replicate 6 .text ++ [.code] ++ List.replicate 3 .comment ++ [.code, .code]
    Lexed (withoutMark s) kinds .closed ∧ Blanks (withoutMark s) kinds .closed (plain s) ∧
      (plain s)[4]? = some comma ∧ (plain s)[7]? = some space ∧ Cursor.plain? s = some (plain s) := by
  intro s kinds
  have hlexed : Lexed (withoutMark s) kinds .closed := lexed_iff.mpr (by decide +kernel)
  obtain ⟨kinds', ending', -, hunique, hblanks, hcursor⟩ := plain_blanks s
  obtain ⟨rfl, rfl⟩ := hunique kinds .closed hlexed
  refine ⟨hlexed, hblanks, ?_, ?_, hcursor⟩
  · rw [hblanks.text 4 (by decide)]
    decide +kernel
  · rw [hblanks.erased (by decide) 7 (comma, .code) (by decide +kernel), if_pos (by decide +kernel)]

end ConfigChain.Json

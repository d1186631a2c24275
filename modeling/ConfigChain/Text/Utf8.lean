/-!
Reading bytes as UTF-8. `decode` reads as many whole characters as it can and hands back the bytes it
could not read, so a caller learns both whether a text is well formed and where it stops being so. `lossy`
reads everything, and puts a replacement where it cannot.
-/

namespace ConfigChain.Utf8

/-- A continuation byte carries six bits. -/
def isContinuation (b : UInt8) : Bool := 0x80 ≤ b && b ≤ 0xBF

/-- The six bits of a continuation byte. -/
def low (b : UInt8) : Nat := b.toNat - 0x80

/-- The first character and the bytes after it. Overlong forms, surrogates and values above
`U+10FFFF` are no characters. -/
def first? : List UInt8 → Option (Char × List UInt8)
  | [] => none
  | a :: s =>
    if a < 0x80 then some (Char.ofNat a.toNat, s)
    else if 0xC2 ≤ a ∧ a ≤ 0xDF then
      match s with
      | b :: s =>
        if isContinuation b then some (Char.ofNat ((a.toNat - 0xC0) * 64 + low b), s) else none
      | [] => none
    else if 0xE0 ≤ a ∧ a ≤ 0xEF then
      match s with
      | b :: c :: s =>
        let code := (a.toNat - 0xE0) * 4096 + low b * 64 + low c
        if isContinuation b ∧ isContinuation c ∧ 0x800 ≤ code ∧ ¬ (0xD800 ≤ code ∧ code ≤ 0xDFFF) then
          some (Char.ofNat code, s)
        else none
      | _ => none
    else if 0xF0 ≤ a ∧ a ≤ 0xF4 then
      match s with
      | b :: c :: d :: s =>
        let code := (a.toNat - 0xF0) * 262144 + low b * 4096 + low c * 64 + low d
        if isContinuation b ∧ isContinuation c ∧ isContinuation d ∧ 0x10000 ≤ code ∧ code ≤ 0x10FFFF then
          some (Char.ofNat code, s)
        else none
      | _ => none
    else none

theorem length_of_first? {s r : List UInt8} {c : Char} (h : first? s = some (c, r)) :
    r.length < s.length := by
  unfold first? at h
  grind

/-- The longest run of whole characters at the start, and the bytes after it. -/
def decode (s : List UInt8) : List Char × List UInt8 :=
  match _h : first? s with
  | none => ([], s)
  | some (c, r) =>
    let (cs, rest) := decode r
    (c :: cs, rest)
termination_by s.length
decreasing_by exact length_of_first? _h

/-- The text that bytes spell, if they spell one to the end. -/
def decode? (s : List UInt8) : Option String :=
  match decode s with
  | (cs, []) => some (String.ofList cs)
  | _ => none

/-- What stands for bytes that spell no character. -/
def replacement : Char := '\uFFFD'

/-- Whether a byte can come after the first one of a character of three or four bytes. -/
def mayFollow (a b : UInt8) : Bool :=
  isContinuation b && (a ≠ 0xE0 || 0xA0 ≤ b) && (a ≠ 0xED || b ≤ 0x9F) && (a ≠ 0xF0 || 0x90 ≤ b) &&
    (a ≠ 0xF4 || b ≤ 0x8F)

/-- The bytes after a broken character with the first byte `a`. It takes with it what could have been its
next bytes. -/
def afterBroken (a : UInt8) : List UInt8 → List UInt8
  | [] => []
  | b :: s =>
    if 0xE0 ≤ a ∧ a ≤ 0xF4 ∧ mayFollow a b then
      match s with
      | c :: t => if 0xF0 ≤ a ∧ isContinuation c then t else c :: t
      | [] => []
    else b :: s

theorem afterBroken_suffix (a : UInt8) (s : List UInt8) : afterBroken a s <:+ s := by
  unfold afterBroken
  split
  · exact List.suffix_rfl
  · rename_i b s
    split
    · split
      · rename_i c t
        split
        · exact (List.suffix_cons c t).trans (List.suffix_cons b _)
        · exact List.suffix_cons b _
      · exact List.nil_suffix
    · exact List.suffix_rfl

/-- The text of bytes of any kind, each broken character replaced. -/
def lossy : List UInt8 → List Char
  | [] => []
  | a :: s =>
    match _h : first? (a :: s) with
    | some (c, r) => c :: lossy r
    | none => replacement :: lossy (afterBroken a s)
termination_by s => s.length
decreasing_by
  · exact length_of_first? _h
  · exact Nat.lt_succ_of_le (afterBroken_suffix a s).length_le

/-- The bytes that spell a text. -/
def encode (cs : List Char) : List UInt8 := cs.flatMap String.utf8EncodeChar

/-- How many bytes a text takes. -/
def size : List Char → Nat
  | [] => 0
  | c :: cs => c.utf8Size + size cs

end ConfigChain.Utf8

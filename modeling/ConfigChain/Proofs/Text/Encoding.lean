import ConfigChain.Text.Utf8

/-! # Encoded text

What is encoded is decoded again: the bytes of a character are read back as this character, whatever stands behind
them. In bytes of any kind, each character of one byte that is read stands there as this byte. -/

namespace ConfigChain.Utf8

/-! ## Bytes -/

theorem toNat_ofNat_of_lt {n : Nat} (h : n < 256) : (UInt8.ofNat n).toNat = n := by
  rw [UInt8.toNat_ofNat']
  exact Nat.mod_eq_of_lt h

/-- The continuation byte that carries the last six of some bits. -/
def continuation (bits : Nat) : UInt8 := .ofNat (bits % 64 + 128)

theorem toNat_continuation (bits : Nat) : (continuation bits).toNat = bits % 64 + 128 :=
  toNat_ofNat_of_lt (by omega)

theorem isContinuation_continuation (bits : Nat) : isContinuation (continuation bits) = true := by
  simp only [isContinuation, Bool.and_eq_true, decide_eq_true_eq, UInt8.le_iff_toNat_le, toNat_continuation,
    UInt8.reduceToNat]
  omega

theorem low_continuation (bits : Nat) : low (continuation bits) = bits % 64 := by
  have hbyte := toNat_continuation bits
  unfold low
  omega

/-! ## Characters

A code point takes one to four bytes, and is put together again from their bits. -/

section

variable {v : Nat}

theorem first?_one (h : v ≤ 0x7F) (s : List UInt8) : first? (.ofNat v :: s) = some (Char.ofNat v, s) := by
  have hbyte : (UInt8.ofNat v).toNat = v := toNat_ofNat_of_lt (by omega)
  simp only [first?, UInt8.lt_iff_toNat_lt, hbyte, UInt8.reduceToNat]
  rw [if_pos (by omega)]

theorem first?_two (hmin : 0x7F < v) (hmax : v ≤ 0x7FF) (s : List UInt8) :
    first? (.ofNat (v / 64 % 32 + 192) :: continuation v :: s) = some (Char.ofNat v, s) := by
  have hbyte : (UInt8.ofNat (v / 64 % 32 + 192)).toNat = v / 64 % 32 + 192 := toNat_ofNat_of_lt (by omega)
  have hcode : (v / 64 % 32 + 192 - 192) * 64 + v % 64 = v := by omega
  simp only [first?, isContinuation_continuation, low_continuation, UInt8.lt_iff_toNat_lt, UInt8.le_iff_toNat_le,
    hbyte, UInt8.reduceToNat, hcode]
  rw [if_neg (by omega), if_pos (by omega), if_pos trivial]

theorem first?_three (hmin : 0x7FF < v) (hmax : v ≤ 0xFFFF) (hvalid : ¬ (0xD800 ≤ v ∧ v ≤ 0xDFFF))
    (s : List UInt8) :
    first? (.ofNat (v / 4096 % 16 + 224) :: continuation (v / 64) :: continuation v :: s) =
      some (Char.ofNat v, s) := by
  have hbyte : (UInt8.ofNat (v / 4096 % 16 + 224)).toNat = v / 4096 % 16 + 224 := toNat_ofNat_of_lt (by omega)
  have hcode : (v / 4096 % 16 + 224 - 224) * 4096 + v / 64 % 64 * 64 + v % 64 = v := by omega
  simp only [first?, isContinuation_continuation, low_continuation, UInt8.lt_iff_toNat_lt, UInt8.le_iff_toNat_le,
    hbyte, UInt8.reduceToNat, hcode]
  rw [if_neg (by omega), if_neg (by omega), if_pos (by omega), if_pos ⟨trivial, trivial, by omega, hvalid⟩]

theorem first?_four (hmin : 0xFFFF < v) (hmax : v ≤ 0x10FFFF) (s : List UInt8) :
    first? (.ofNat (v / 262144 % 8 + 240) :: continuation (v / 4096) :: continuation (v / 64) :: continuation v :: s) =
      some (Char.ofNat v, s) := by
  have hbyte : (UInt8.ofNat (v / 262144 % 8 + 240)).toNat = v / 262144 % 8 + 240 := toNat_ofNat_of_lt (by omega)
  have hcode : (v / 262144 % 8 + 240 - 240) * 262144 + v / 4096 % 64 * 4096 + v / 64 % 64 * 64 + v % 64 = v := by
    omega
  simp only [first?, isContinuation_continuation, low_continuation, UInt8.lt_iff_toNat_lt, UInt8.le_iff_toNat_le,
    hbyte, UInt8.reduceToNat, hcode]
  rw [if_neg (by omega), if_neg (by omega), if_neg (by omega), if_pos (by omega),
    if_pos ⟨trivial, trivial, trivial, by omega, hmax⟩]

end

theorem first?_utf8EncodeChar (c : Char) (s : List UInt8) : first? (String.utf8EncodeChar c ++ s) = some (c, s) := by
  have hchar : Char.ofNat c.val.toNat = c := Char.ofNat_toNat c
  have hvalid : c.val.toNat < 0xD800 ∨ 0xDFFF < c.val.toNat ∧ c.val.toNat < 0x110000 := c.valid
  unfold String.utf8EncodeChar
  conv => rhs; rw [← hchar]
  simp only
  split
  · rename_i hone
    exact first?_one hone s
  · rename_i hone
    split
    · rename_i htwo
      exact first?_two (by omega) htwo s
    · rename_i htwo
      split
      · rename_i hthree
        exact first?_three (by omega) hthree (by omega) s
      · exact first?_four (by omega) (by omega) s

/-! ## Texts -/

theorem decode_of_first? {s r : List UInt8} {c : Char} (h : first? s = some (c, r)) :
    decode s = (c :: (decode r).1, (decode r).2) := by
  rw [decode]
  split
  · rename_i hnone
    cases hnone.symm.trans h
  · rename_i hsome
    cases hsome.symm.trans h
    rfl

theorem decode_encode (cs : List Char) : decode (encode cs) = (cs, []) := by
  induction cs with
  | nil => simp [encode, decode, first?]
  | cons c cs ih =>
      have hfirst : first? (encode (c :: cs)) = some (c, encode cs) := first?_utf8EncodeChar c (encode cs)
      rw [decode_of_first? hfirst, ih]

/-! ## Characters of one byte -/

theorem low_lt {b : UInt8} (h : isContinuation b = true) : low b < 64 := by
  simp only [isContinuation, Bool.and_eq_true, decide_eq_true_eq, UInt8.le_iff_toNat_le, UInt8.reduceToNat] at h
  unfold low
  omega

theorem toNat_charOfNat {n : Nat} (h : n.isValidChar) : (Char.ofNat n).toNat = n := by
  rw [Char.ofNat, dif_pos h]
  rfl

/-- Only a character of one byte has a code point below 128. -/
theorem eq_cons_of_first? {s r : List UInt8} {c : Char} (h : first? s = some (c, r)) (hc : c.toNat < 0x80) :
    s = .ofNat c.toNat :: r := by
  have hlong {n : Nat} {t : List UInt8} (hmin : 0x80 ≤ n) (hvalid : n.isValidChar)
      (h : some (Char.ofNat n, t) = some (c, r)) : False := by
    obtain ⟨hchar, -⟩ := Prod.mk.inj (Option.some.inj h)
    rw [← hchar, toNat_charOfNat hvalid] at hc
    omega
  unfold first? at h
  split at h
  · cases h
  · rename_i a s
    split at h
    · rename_i hone
      have hvalid : a.toNat.isValidChar := .inl (Nat.lt_trans (UInt8.lt_iff_toNat_lt.mp hone) (by decide))
      obtain ⟨hchar, hrest⟩ := Prod.mk.inj (Option.some.inj h)
      rw [← hchar, toNat_charOfNat hvalid, UInt8.ofNat_toNat, hrest]
    -- What two or more bytes spell is not that small.
    · exfalso
      split at h
      · rename_i hlead
        simp only [UInt8.le_iff_toNat_le, UInt8.reduceToNat] at hlead
        split at h
        · split at h
          · rename_i hnext
            have hlow := low_lt hnext
            exact hlong (by omega) (.inl (by omega)) h
          · cases h
        · cases h
      · split at h
        · rename_i hlead
          simp only [UInt8.le_iff_toNat_le, UInt8.reduceToNat] at hlead
          split at h
          · dsimp only at h
            split at h
            · rename_i hnext
              obtain ⟨hb, hc, hmin, hvalid⟩ := hnext
              have hlow := low_lt hb
              have hlow' := low_lt hc
              exact hlong (by omega) (by unfold Nat.isValidChar; omega) h
            · cases h
          · cases h
        · split at h
          · split at h
            · dsimp only at h
              split at h
              · rename_i hnext
                obtain ⟨-, -, -, hmin, hmax⟩ := hnext
                exact hlong (by omega) (.inr (by omega)) h
              · cases h
            · cases h
          · cases h

/-! ## Bytes of any kind -/

theorem lossy_nil : lossy [] = [] := by rw [lossy]

theorem lossy_of_first? {s r : List UInt8} {c : Char} (h : first? s = some (c, r)) : lossy s = c :: lossy r := by
  cases s with
  | nil => cases h
  | cons a s =>
      rw [lossy]
      split
      · rename_i hsome
        cases hsome.symm.trans h
        rfl
      · rename_i hnone
        cases hnone.symm.trans h

theorem lossy_of_none {a : UInt8} {s : List UInt8} (h : first? (a :: s) = none) :
    lossy (a :: s) = replacement :: lossy (afterBroken a s) := by
  rw [lossy]
  split
  · rename_i hsome
    cases hsome.symm.trans h
  · rfl

theorem lossy_encode (cs : List Char) : lossy (encode cs) = cs := by
  induction cs with
  | nil => exact lossy_nil
  | cons c cs ih =>
      have hfirst : first? (encode (c :: cs)) = some (c, encode cs) := first?_utf8EncodeChar c (encode cs)
      rw [lossy_of_first? hfirst, ih]

theorem subset_of_first? {s r : List UInt8} {c : Char} (h : first? s = some (c, r)) : r ⊆ s := by
  intro b hb
  unfold first? at h
  grind

/-- What is read of bytes, character by character. -/
theorem lossy_induction {P : List UInt8 → Prop} (nil : P [])
    (char : ∀ s c r, first? s = some (c, r) → P r → P s)
    (broken : ∀ a s, first? (a :: s) = none → P (afterBroken a s) → P (a :: s)) (s : List UInt8) : P s := by
  fun_induction lossy s with
  | case1 => exact nil
  | case2 a s c r h ih => exact char _ c r h ih
  | case3 a s h ih => exact broken a s h ih

/-- No character of one byte is made up. -/
theorem mem_of_mem_lossy {c : Char} (hc : c.toNat < 0x80) {s : List UInt8} (h : c ∈ lossy s) :
    UInt8.ofNat c.toNat ∈ s := by
  induction s using lossy_induction with
  | nil =>
      rw [lossy_nil] at h
      cases h
  | char s d r hfirst ih =>
      rw [lossy_of_first? hfirst] at h
      rcases List.mem_cons.mp h with rfl | h
      · rw [eq_cons_of_first? hfirst hc]
        exact List.mem_cons_self
      · exact subset_of_first? hfirst (ih h)
  | broken a s hfirst ih =>
      rw [lossy_of_none hfirst] at h
      rcases List.mem_cons.mp h with rfl | h
      · exact absurd hc (by decide)
      · exact List.mem_cons_of_mem a ((afterBroken_suffix a s).subset (ih h))

/-- Bytes that are read as characters of one byte are these bytes. -/
theorem eq_map_of_lossy {s : List UInt8} (h : ∀ c ∈ lossy s, c.toNat < 0x80) :
    s = (lossy s).map fun c => UInt8.ofNat c.toNat := by
  induction s using lossy_induction with
  | nil => rw [lossy_nil, List.map_nil]
  | char s d r hfirst ih =>
      rw [lossy_of_first? hfirst] at h ⊢
      obtain ⟨hd, hr⟩ := List.forall_mem_cons.mp h
      rw [List.map_cons, ← ih hr]
      exact eq_cons_of_first? hfirst hd
  | broken a s hfirst ih =>
      rw [lossy_of_none hfirst] at h
      exact absurd (h replacement List.mem_cons_self) (by decide)

end ConfigChain.Utf8

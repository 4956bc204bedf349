import Lowering.Text.Utf8

/-!
# Encoded text is decoded as it was

The bytes of a character are read as the character, whatever follows them: the first byte tells
how many there are, and each of the others gives six bits. So `decode` undoes `encode`.
-/

namespace Lowering.Utf8

/-- The character is the one that its code point names. -/
theorem scalar?_toNat {c : Char} {least : Nat} (h : least ≤ c.toNat) :
    scalar? least c.toNat = some c := by
  have hvalid : c.toNat.isValidChar := c.valid
  rw [scalar?, dif_pos hvalid, if_pos h]
  rfl

/-- A byte keeps the bits that it is made from. -/
theorem toNat_byte {n bound lead : Nat} (hbound : 0 < bound) (h : bound + lead ≤ 256) :
    (UInt8.ofNat (n % bound + lead)).toNat = n % bound + lead := by
  have := Nat.mod_lt n hbound
  rw [UInt8.toNat_ofNat']
  omega

theorem continuation?_ofNat (n : Nat) :
    continuation? (UInt8.ofNat (n % 64 + 0x80)) = some (n % 64) := by
  have hbyte : (UInt8.ofNat (n % 64 + 0x80)).toNat = n % 64 + 0x80 :=
    toNat_byte (by decide) (by decide)
  rw [continuation?, if_pos, hbyte, Nat.add_sub_cancel]
  simp only [UInt8.le_iff_toNat_le, UInt8.lt_iff_toNat_lt, UInt8.reduceToNat, hbyte]
  omega

section Lead

variable {a : UInt8}

theorem not_single (h : 0x80 ≤ a.toNat) : ¬a < 0x80 := by
  simpa only [UInt8.lt_iff_toNat_lt, UInt8.reduceToNat, Nat.not_lt] using h

theorem pair?_eq_none (h : 0xE0 ≤ a.toNat) (s : List UInt8) : pair? a s = none := by
  cases s with
  | nil => rfl
  | cons b s =>
      rw [pair?, if_neg]
      simp only [UInt8.le_iff_toNat_le, UInt8.lt_iff_toNat_lt, UInt8.reduceToNat]
      omega

theorem triple?_eq_none (h : 0xF0 ≤ a.toNat) (s : List UInt8) : triple? a s = none := by
  match s with
  | [] | [_] => rfl
  | b :: c :: s =>
      rw [triple?, if_neg]
      simp only [UInt8.le_iff_toNat_le, UInt8.lt_iff_toNat_lt, UInt8.reduceToNat]
      omega

end Lead

section First

variable {c : Char}

theorem first_single (h : c.toNat ≤ 0x7f) (s : List UInt8) :
    first (UInt8.ofNat c.toNat) s = (c, 0) := by
  have hbyte : (UInt8.ofNat c.toNat).toNat = c.toNat := by
    rw [UInt8.toNat_ofNat']
    omega
  have hchar : Char.ofUInt8 (UInt8.ofNat c.toNat) = c := by
    apply Char.ext
    apply UInt32.toNat_inj.mp
    change (UInt8.ofNat c.toNat).toUInt32.toNat = c.toNat
    rw [UInt8.toNat_toUInt32, hbyte]
  rw [first, if_pos, hchar]
  simp only [UInt8.lt_iff_toNat_lt, UInt8.reduceToNat, hbyte]
  omega

theorem first_pair (hleast : 0x7f < c.toNat) (h : c.toNat ≤ 0x7ff) (s : List UInt8) :
    first (UInt8.ofNat (c.toNat / 64 % 32 + 0xC0)) (UInt8.ofNat (c.toNat % 64 + 0x80) :: s) =
      (c, 1) := by
  have hbyte : (UInt8.ofNat (c.toNat / 64 % 32 + 0xC0)).toNat = c.toNat / 64 % 32 + 0xC0 :=
    toNat_byte (by decide) (by decide)
  have hpoint : (c.toNat / 64 % 32 + 0xC0 - 0xC0) * 64 + c.toNat % 64 = c.toNat := by omega
  rw [first, if_neg (not_single (by omega)), pair?, if_pos]
  · simp only [continuation?_ofNat, hbyte, hpoint, Option.bind_eq_bind, Option.bind_some,
      scalar?_toNat hleast]
  · simp only [UInt8.le_iff_toNat_le, UInt8.lt_iff_toNat_lt, UInt8.reduceToNat, hbyte]
    omega

theorem first_triple (hleast : 0x7ff < c.toNat) (h : c.toNat ≤ 0xffff) (s : List UInt8) :
    first (UInt8.ofNat (c.toNat / 4096 % 16 + 0xE0))
      (UInt8.ofNat (c.toNat / 64 % 64 + 0x80) :: UInt8.ofNat (c.toNat % 64 + 0x80) :: s) =
      (c, 2) := by
  have hbyte : (UInt8.ofNat (c.toNat / 4096 % 16 + 0xE0)).toNat = c.toNat / 4096 % 16 + 0xE0 :=
    toNat_byte (by decide) (by decide)
  have hpoint : ((c.toNat / 4096 % 16 + 0xE0 - 0xE0) * 64 + c.toNat / 64 % 64) * 64 +
      c.toNat % 64 = c.toNat := by omega
  rw [first, if_neg (not_single (by omega)), pair?_eq_none (by omega), triple?, if_pos]
  · simp only [continuation?_ofNat, hbyte, hpoint, Option.bind_eq_bind, Option.bind_some,
      scalar?_toNat hleast]
  · simp only [UInt8.le_iff_toNat_le, UInt8.lt_iff_toNat_lt, UInt8.reduceToNat, hbyte]
    omega

theorem first_quadruple (hleast : 0xffff < c.toNat) (s : List UInt8) :
    first (UInt8.ofNat (c.toNat / 262144 % 8 + 0xF0))
      (UInt8.ofNat (c.toNat / 4096 % 64 + 0x80) :: UInt8.ofNat (c.toNat / 64 % 64 + 0x80) ::
        UInt8.ofNat (c.toNat % 64 + 0x80) :: s) =
      (c, 3) := by
  have hmax : c.toNat < 0x110000 := by
    rcases c.valid with h | h
    · exact Nat.lt_trans h (by decide)
    · exact h.2
  have hbyte : (UInt8.ofNat (c.toNat / 262144 % 8 + 0xF0)).toNat = c.toNat / 262144 % 8 + 0xF0 :=
    toNat_byte (by decide) (by decide)
  have hpoint : (((c.toNat / 262144 % 8 + 0xF0 - 0xF0) * 64 + c.toNat / 4096 % 64) * 64 +
      c.toNat / 64 % 64) * 64 + c.toNat % 64 = c.toNat := by omega
  rw [first, if_neg (not_single (by omega)), pair?_eq_none (by omega),
    triple?_eq_none (by omega), quadruple?, if_pos]
  · simp only [continuation?_ofNat, hbyte, hpoint, Option.bind_eq_bind, Option.bind_some,
      scalar?_toNat hleast]
  · simp only [UInt8.le_iff_toNat_le, UInt8.lt_iff_toNat_lt, UInt8.reduceToNat, hbyte]
    omega

end First

theorem decodeAfter_length (skipped s : List UInt8) :
    decodeAfter skipped.length (skipped ++ s) = decodeAfter 0 s := by
  induction skipped with
  | nil => rfl
  | cons a skipped ih => exact ih

theorem decodeAfter_of_first {c : Char} {a : UInt8} {bytes s : List UInt8}
    (h : first a (bytes ++ s) = (c, bytes.length)) :
    decodeAfter 0 (a :: bytes ++ s) = c :: decodeAfter 0 s := by
  rw [List.cons_append, decodeAfter, h, decodeAfter_length]

theorem decodeAfter_utf8EncodeChar (c : Char) (s : List UInt8) :
    decodeAfter 0 (String.utf8EncodeChar c ++ s) = c :: decodeAfter 0 s := by
  by_cases h₁ : c.toNat ≤ 0x7f
  · have hbytes : String.utf8EncodeChar c = _ := if_pos h₁
    rw [hbytes]
    exact decodeAfter_of_first (first_single h₁ s)
  by_cases h₂ : c.toNat ≤ 0x7ff
  · have hbytes : String.utf8EncodeChar c = _ := (if_neg h₁).trans (if_pos h₂)
    rw [hbytes]
    exact decodeAfter_of_first (first_pair (Nat.lt_of_not_le h₁) h₂ s)
  by_cases h₃ : c.toNat ≤ 0xffff
  · have hbytes : String.utf8EncodeChar c = _ := (if_neg h₁).trans ((if_neg h₂).trans (if_pos h₃))
    rw [hbytes]
    exact decodeAfter_of_first (first_triple (Nat.lt_of_not_le h₂) h₃ s)
  · have hbytes : String.utf8EncodeChar c = _ := (if_neg h₁).trans ((if_neg h₂).trans (if_neg h₃))
    rw [hbytes]
    exact decodeAfter_of_first (first_quadruple (Nat.lt_of_not_le h₃) s)

theorem decode_encode (s : List Char) : decode (encode s) = s := by
  induction s with
  | nil => rfl
  | cons c s ih =>
      rw [encode, List.flatMap_cons, decode, decodeAfter_utf8EncodeChar]
      exact congrArg (c :: ·) ih

end Lowering.Utf8

import Mathlib.Data.List.Induction
import Lowering.Proofs.Decoding

/-!
# Which lexemes name a word

A lexeme names a word just when it is the decimal digits of the word, or zero with a sign: without
a fraction and an exponent, the digits of a lexeme are those of the number that they name.
-/

namespace Lowering
namespace Json

theorem decimal_append (s : List Char) (c : Char) :
    decimal (s ++ [c]) = 10 * decimal s + (c.toNat - '0'.toNat) := by
  rw [decimal, List.foldl_append]
  rfl

/-- A digit is that of its value. -/
theorem digitChar_of_isDigit {c : Char} (h : c.isDigit = true) :
    c.toNat - '0'.toNat < 10 ∧ Nat.digitChar (c.toNat - '0'.toNat) = c := by
  have hchar : ∀ n < 10, Nat.digitChar n = Char.ofNat ('0'.toNat + n) := by decide
  simp only [Char.isDigit, Bool.and_eq_true, decide_eq_true_eq, ge_iff_le,
    UInt32.le_iff_toNat_le, Char.toNat_val] at h
  obtain ⟨hfirst, hlast⟩ : '0'.toNat ≤ c.toNat ∧ c.toNat ≤ 57 := h
  have hlt : c.toNat - '0'.toNat < 10 := by
    have hzero : '0'.toNat = 48 := rfl
    omega
  refine ⟨hlt, ?_⟩
  rw [hchar _ hlt, Nat.add_sub_cancel' hfirst, Char.ofNat_toNat]

theorem isWhole_iff {s : List Char} :
    IsWhole s ↔ s = ['0'] ∨ IsDigits s ∧ s.head? ≠ some '0' := by
  constructor
  · intro h
    cases h with
    | zero => exact .inl rfl
    | digits hs hzero => exact .inr ⟨hs, hzero⟩
  · rintro (rfl | ⟨hs, hzero⟩)
    · exact .zero
    · exact .digits hs hzero

/-- The digits before a point are those of the number that they name. -/
theorem IsWhole.toDigits_decimal {s : List Char} (h : IsWhole s) :
    Nat.toDigits 10 (decimal s) = s := by
  induction s using List.reverseRecOn with
  | nil => exact absurd rfl h.isDigits.1
  | append_singleton s c ih =>
      obtain ⟨hlt, hdigit⟩ := digitChar_of_isDigit (h.isDigits.2 c (by simp))
      rw [decimal_append]
      cases s with
      | nil =>
          rw [decimal, List.foldl_nil, Nat.mul_zero, Nat.zero_add, Nat.toDigits_of_lt_base hlt,
            hdigit, List.nil_append]
      | cons d s =>
          -- The number is not zero, since its first digit is not.
          obtain ⟨hdigits, hhead⟩ : IsDigits (d :: s ++ [c]) ∧ d ≠ '0' := by
            simpa [isWhole_iff] using h
          have hwhole : IsWhole (d :: s) := by
            refine .digits ⟨by simp, fun x hx => hdigits.2 x ?_⟩ (by simpa using hhead)
            exact List.mem_append_left _ hx
          have hpos : 0 < decimal (d :: s) := by
            rw [Nat.pos_iff_ne_zero]
            intro hzero
            have hs := ih hwhole
            rw [hzero] at hs
            exact hhead (List.cons.inj hs).1.symm
          rw [Nat.toDigits_of_base_le (by decide) (by omega), Nat.mul_add_div (by decide),
            Nat.div_eq_of_lt hlt, Nat.add_zero, ih hwhole, Nat.mul_add_mod, Nat.mod_eq_of_lt hlt,
            hdigit]

theorem IsFraction.eq_nil {s : List Char} (h : IsFraction s) (hs : ∀ c ∈ s, c.isDigit = true) :
    s = [] := by
  cases h with
  | none => rfl
  | some _ => exact absurd (hs '.' (by simp)) (by decide)

theorem IsExponent.eq_nil {s : List Char} (h : IsExponent s) (hs : ∀ c ∈ s, c.isDigit = true) :
    s = [] := by
  cases h with
  | none => rfl
  | some he _ _ =>
      simp only [List.mem_cons, List.not_mem_nil, or_false] at he
      rcases he with rfl | rfl
      · exact absurd (hs 'e' (by simp)) (by decide)
      · exact absurd (hs 'E' (by simp)) (by decide)

/-- A lexeme that is only digits after its sign has neither a fraction nor an exponent. -/
theorem IsNumber.isWhole {sign digits : List Char} (h : IsNumber (sign ++ digits))
    (hsign : sign ∈ [[], ['-']]) (hdigits : ∀ c ∈ digits, c.isDigit = true) : IsWhole digits := by
  have hread := readSign_append hsign fun c hc => hdigits c (List.mem_of_mem_head? hc)
  generalize sign ++ digits = lexeme at h hread
  cases h with
  | parts hsign' hwhole hfraction hexponent =>
      rename_i sign' whole fraction exponent
      have hhead : ∀ c ∈ (whole ++ (fraction ++ exponent)).head?, c.isDigit = true := by
        obtain ⟨d, t, rfl, hd⟩ := hwhole.isDigits.exists_cons
        simpa using hd
      rw [List.append_assoc, List.append_assoc, readSign_append hsign' hhead,
        Prod.mk.injEq] at hread
      obtain ⟨-, rfl⟩ := hread
      obtain rfl := hfraction.eq_nil fun c hc => hdigits c (by simp [hc])
      obtain rfl := hexponent.eq_nil fun c hc => hdigits c (by simp [hc])
      simpa using hwhole

theorem isWord_of_integer? {lexeme : List Char} {n : Int64} (h : IsNumber lexeme)
    (hn : integer? lexeme = some n) : (number lexeme).IsWord n := by
  rw [integer?.eq_def] at hn
  split at hn
  · rename_i digits
    split at hn
    · rename_i hdigits
      obtain ⟨hall, hle⟩ := hdigits
      have hsigned : IsNumber (['-'] ++ digits) := h
      have hwhole := hsigned.isWhole (by simp) (by simpa using hall)
      obtain rfl := Option.some.inj hn
      by_cases hzero : decimal digits = 0
      · right
        have hs := hwhole.toDigits_decimal
        rw [hzero] at hs ⊢
        subst hs
        exact ⟨rfl, rfl⟩
      · left
        have hint : (Int64.ofInt (-decimal digits)).toInt = -decimal digits :=
          Int64.toInt_ofInt_of_le (by omega) (by omega)
        rw [hint, toList_toString_of_neg (by omega), Int.neg_neg, Int.toNat_natCast,
          hwhole.toDigits_decimal]
    · cases hn
  · split at hn
    · rename_i hdigits
      obtain ⟨hall, hlt⟩ := hdigits
      have hunsigned : IsNumber ([] ++ lexeme) := h
      have hwhole := hunsigned.isWhole (by simp) (by simpa using hall)
      obtain rfl := Option.some.inj hn
      left
      have hint : (Int64.ofNat (decimal lexeme)).toInt = decimal lexeme :=
        Int64.toInt_ofNat_of_lt (by omega)
      rw [hint, toList_toString_of_nonneg (by omega), Int.toNat_natCast, hwhole.toDigits_decimal]
    · cases hn

end Json
end Lowering

import Lowering.Proofs.JsonText

/-!
# What is read is a legal text

Whatever the reader returns is legal, and the text that was read is its text with the rest
behind it. Each token has a lemma of this form, and the lemma for values follows by induction
on the fuel. So the reader returns a document just when the text is the text of a legal document
that is not nested too deep, and that document is the one returned.
-/

namespace Lowering

theorem exists_of_bind_eq_ok {ε α β : Type} {x : Except ε α} {k : α → Except ε β} {b : β}
    (h : x >>= k = .ok b) : ∃ a, x = .ok a ∧ k a = .ok b := by
  cases x with
  | error e => cases h
  | ok a => exact ⟨a, rfl, h⟩

theorem eq_append_of_span {p : Char → Bool} {s t rest : List Char} (h : s.span p = (t, rest)) :
    (∀ c ∈ t, p c = true) ∧ s = t ++ rest := by
  rw [List.span_eq_takeWhile_dropWhile, Prod.mk.injEq] at h
  obtain ⟨rfl, rfl⟩ := h
  exact ⟨fun c hc => List.mem_takeWhile_imp hc, List.takeWhile_append_dropWhile.symm⟩

namespace Json

variable {s rest : List Char}

theorem eq_append_of_readBlank {blank : Blank} (h : readBlank s = (blank, rest)) :
    blank.Legal ∧ s = blank ++ rest := by
  obtain ⟨hblank, hs⟩ := eq_append_of_span h
  refine ⟨fun c hc => ?_, hs⟩
  simpa [isBlank, or_assoc] using hblank c hc

theorem eq_append_of_readWord {word : List Char} (h : readWord word s = .ok rest) :
    s = word ++ rest := by
  induction word generalizing s with
  | nil =>
      rw [readWord, Except.ok.injEq] at h
      exact h
  | cons a word ih =>
      cases s with
      | nil => cases h
      | cons c s =>
          rw [readWord] at h
          split at h
          · rename_i hac
            rw [hac, ih h, List.cons_append]
          · cases h

/-- A mark that stands after a blank. -/
theorem eq_append_of_mark {blank : Blank} {t : List Char} {mark : Char}
    (hblank : readBlank s = (blank, t)) (hmark : readWord [mark] t = .ok rest) :
    blank.Legal ∧ s = blank ++ mark :: rest := by
  obtain ⟨legal, rfl⟩ := eq_append_of_readBlank hblank
  exact ⟨legal, by rw [eq_append_of_readWord hmark, List.singleton_append]⟩

theorem eq_append_of_readDigits {digits : List Char} (h : readDigits s = .ok (digits, rest)) :
    IsDigits digits ∧ s = digits ++ rest := by
  rw [readDigits] at h
  split at h
  · cases h
  · rename_i hspan hne
    cases h
    obtain ⟨hdigits, hs⟩ := eq_append_of_span hne
    refine ⟨⟨?_, hdigits⟩, hs⟩
    rintro rfl
    exact hspan rfl

theorem eq_append_of_readWhole {whole : List Char} (h : readWhole s = .ok (whole, rest)) :
    IsWhole whole ∧ s = whole ++ rest := by
  rw [readWhole.eq_def] at h
  split at h
  · cases h
    exact ⟨.zero, rfl⟩
  · rename_i hzero
    obtain ⟨hdigits, rfl⟩ := eq_append_of_readDigits h
    refine ⟨.digits hdigits fun hhead => ?_, rfl⟩
    obtain ⟨t, rfl⟩ := List.head?_eq_some_iff.mp hhead
    exact hzero _ rfl

theorem eq_append_of_readSign {sign : List Char} (h : readSign s = (sign, rest)) :
    sign ∈ [[], ['-']] ∧ s = sign ++ rest := by
  rw [readSign.eq_def] at h
  split at h
  · cases h
    exact ⟨by simp, rfl⟩
  · cases h
    exact ⟨by simp, rfl⟩

theorem eq_append_of_readExponentSign {sign : List Char} (h : readExponentSign s = (sign, rest)) :
    sign ∈ [[], ['+'], ['-']] ∧ s = sign ++ rest := by
  rw [readExponentSign.eq_def] at h
  split at h
  all_goals
    cases h
    exact ⟨by simp, rfl⟩

theorem eq_append_of_readFraction {fraction : List Char}
    (h : readFraction s = .ok (fraction, rest)) : IsFraction fraction ∧ s = fraction ++ rest := by
  rw [readFraction.eq_def] at h
  split at h
  · obtain ⟨⟨digits, rest⟩, hread, heq⟩ := exists_of_bind_eq_ok h
    cases heq
    obtain ⟨hdigits, rfl⟩ := eq_append_of_readDigits hread
    exact ⟨.some hdigits, rfl⟩
  · cases h
    exact ⟨.none, rfl⟩

theorem eq_append_of_readExponent {exponent : List Char}
    (h : readExponent s = .ok (exponent, rest)) : IsExponent exponent ∧ s = exponent ++ rest := by
  rw [readExponent.eq_def] at h
  split at h
  · cases h
    exact ⟨.none, rfl⟩
  · rename_i e t
    split at h
    · rename_i he
      obtain ⟨⟨digits, rest⟩, hread, heq⟩ := exists_of_bind_eq_ok h
      cases heq
      obtain ⟨hsign, ht⟩ := eq_append_of_readExponentSign (Eq.refl (readExponentSign t))
      obtain ⟨hdigits, hs⟩ := eq_append_of_readDigits hread
      refine ⟨.some (by simpa using he) hsign hdigits, ?_⟩
      rw [List.cons_append, List.cons_append, List.append_assoc, ← hs, ← ht]
    · cases h
      exact ⟨.none, rfl⟩

theorem eq_append_of_readNumber {lexeme : List Char} (h : readNumber s = .ok (lexeme, rest)) :
    IsNumber lexeme ∧ s = lexeme ++ rest := by
  obtain ⟨sign, t, hsign⟩ : ∃ sign t, readSign s = (sign, t) := ⟨_, _, rfl⟩
  rw [readNumber, hsign] at h
  obtain ⟨⟨whole, t₁⟩, hwhole, h⟩ := exists_of_bind_eq_ok h
  obtain ⟨⟨fraction, t₂⟩, hfraction, h⟩ := exists_of_bind_eq_ok h
  obtain ⟨⟨exponent, t₃⟩, hexponent, h⟩ := exists_of_bind_eq_ok h
  cases h
  obtain ⟨sign_mem, rfl⟩ := eq_append_of_readSign hsign
  obtain ⟨isWhole, rfl⟩ := eq_append_of_readWhole hwhole
  obtain ⟨isFraction, rfl⟩ := eq_append_of_readFraction hfraction
  obtain ⟨isExponent, rfl⟩ := eq_append_of_readExponent hexponent
  exact ⟨.parts sign_mem isWhole isFraction isExponent, by simp only [List.append_assoc]⟩

end Json

namespace StringPart

/-- A range of characters that are the digits from `offset` on. -/
theorem isHex_of_range {c first last : Char} {offset : Nat} (h : first ≤ c ∧ c ≤ last)
    (hdigits : ∀ n < last.toNat - first.toNat + 1,
      IsHex (Char.ofNat (first.toNat + n)) (n + offset)) :
    IsHex c (c.toNat - first.toNat + offset) := by
  simp only [Char.le_def, UInt32.le_iff_toNat_le, Char.toNat_val] at h
  have hc := hdigits (c.toNat - first.toNat) (by omega)
  rwa [Nat.add_sub_cancel' h.1, Char.ofNat_toNat] at hc

/-- A character that has a value is the digit of that value. -/
theorem isHex_of_hexDigit? {c : Char} {v : Nat} (h : hexDigit? c = some v) : IsHex c v := by
  rw [hexDigit?] at h
  split at h
  · rename_i hc
    rw [← Option.some.inj h]
    show IsHex c (c.toNat - '0'.toNat + 0)
    exact isHex_of_range hc (by unfold IsHex; decide)
  · split at h
    · rename_i hc
      rw [← Option.some.inj h]
      exact isHex_of_range hc (by unfold IsHex; decide)
    · split at h
      · rename_i hc
        rw [← Option.some.inj h]
        exact isHex_of_range hc (by unfold IsHex; decide)
      · cases h

theorem exists_mem_escapes {letter : Char} (h : (unescape? letter).isSome) :
    ∃ c, (letter, c) ∈ escapes := by
  rw [unescape?.eq_def] at h
  split at h
  all_goals simp_all [escapes]

/-- Four digits with values are those of the number that they name. -/
theorem exists_isUnit {a b c d : Char} (h : [a, b, c, d].all isHexDigit) :
    ∃ n, IsUnit [a, b, c, d] n := by
  simp only [List.all_cons, List.all_nil, Bool.and_true, Bool.and_eq_true, isHexDigit,
    Option.isSome_iff_exists] at h
  obtain ⟨⟨va, ha⟩, ⟨vb, hb⟩, ⟨vc, hc⟩, ⟨vd, hd⟩⟩ := h
  replace ha := isHex_of_hexDigit? ha
  replace hb := isHex_of_hexDigit? hb
  replace hc := isHex_of_hexDigit? hc
  replace hd := isHex_of_hexDigit? hd
  have hva := ha.lt
  have hvb := hb.lt
  have hvc := hc.lt
  have hvd := hd.lt
  refine ⟨4096 * va + 256 * vb + 16 * vc + vd, .digits ?_ ?_ ?_ ?_⟩
  · rwa [show (4096 * va + 256 * vb + 16 * vc + vd) / 4096 = va by omega]
  · rwa [show (4096 * va + 256 * vb + 16 * vc + vd) / 256 % 16 = vb by omega]
  · rwa [show (4096 * va + 256 * vb + 16 * vc + vd) / 16 % 16 = vc by omega]
  · rwa [show (4096 * va + 256 * vb + 16 * vc + vd) % 16 = vd by omega]

end StringPart

namespace Json

variable {s rest : List Char}

theorem eq_append_of_readParts {parts : List StringPart} (h : readParts s = .ok (parts, rest)) :
    (∀ part ∈ parts, part.Legal) ∧ s = parts.flatMap StringPart.spell ++ '"' :: rest := by
  fun_induction readParts s generalizing parts with
  | case1 => cases h
  | case2 s =>
      cases h
      exact ⟨by simp, rfl⟩
  | case3 a b c d s hhex ih =>
      obtain ⟨⟨others, t⟩, hread, heq⟩ := exists_of_bind_eq_ok h
      cases heq
      obtain ⟨hothers, rfl⟩ := ih hread
      exact ⟨List.forall_mem_cons.mpr ⟨StringPart.exists_isUnit hhex, hothers⟩, rfl⟩
  | case4 => cases h
  | case5 => cases h
  | case6 letter s _ _ hletter ih =>
      obtain ⟨⟨others, t⟩, hread, heq⟩ := exists_of_bind_eq_ok h
      cases heq
      obtain ⟨hothers, rfl⟩ := ih hread
      exact ⟨List.forall_mem_cons.mpr ⟨StringPart.exists_mem_escapes hletter, hothers⟩, rfl⟩
  | case7 => cases h
  | case8 => cases h
  | case9 => cases h
  | case10 c s hquote _ _ hescape hend hlow ih =>
      obtain ⟨⟨others, t⟩, hread, heq⟩ := exists_of_bind_eq_ok h
      cases heq
      obtain ⟨hothers, hs⟩ := ih hread
      have hslash : c ≠ '\\' := by
        intro hslash
        cases s with
        | nil => exact hend hslash rfl
        | cons letter s => exact hescape letter s hslash rfl
      refine ⟨List.forall_mem_cons.mpr ⟨⟨Nat.le_of_not_lt hlow, hquote, hslash⟩, hothers⟩, ?_⟩
      rw [hs]
      rfl

theorem eq_append_of_readString {parts : List StringPart} (h : readString s = .ok (parts, rest)) :
    (∀ part ∈ parts, part.Legal) ∧ s = spellString parts ++ rest := by
  rw [readString.eq_def] at h
  split at h
  · obtain ⟨hparts, rfl⟩ := eq_append_of_readParts h
    exact ⟨hparts, by simp [spellString]⟩
  · cases h

theorem eq_append_of_readKey {key : JsonKey} (h : readKey s = .ok (key, rest)) :
    key.Legal ∧ s = key.spell ++ rest := by
  obtain ⟨before, t, ht⟩ : ∃ before t, readBlank s = (before, t) := ⟨_, _, rfl⟩
  rw [readKey, ht] at h
  obtain ⟨⟨parts, t₁⟩, hstring, h⟩ := exists_of_bind_eq_ok h
  obtain ⟨beforeColon, t₂, ht₂⟩ : ∃ blank t, readBlank t₁ = (blank, t) := ⟨_, _, rfl⟩
  simp only [ht₂] at h
  obtain ⟨t₃, hcolon, h⟩ := exists_of_bind_eq_ok h
  obtain ⟨afterColon, t₄, ht₄⟩ : ∃ blank t, readBlank t₃ = (blank, t) := ⟨_, _, rfl⟩
  simp only [ht₄] at h
  cases h
  obtain ⟨hbefore, rfl⟩ := eq_append_of_readBlank ht
  obtain ⟨hparts, rfl⟩ := eq_append_of_readString hstring
  obtain ⟨hbeforeColon, rfl⟩ := eq_append_of_readBlank ht₂
  obtain rfl := eq_append_of_readWord hcolon
  obtain ⟨hafterColon, rfl⟩ := eq_append_of_readBlank ht₄
  exact ⟨⟨hbefore, hparts, hbeforeColon, hafterColon⟩, by simp [JsonKey.spell]⟩

theorem eq_append_of_readLiteral {word : List Char} {literal j : Json}
    (h : (do let t ← readWord word s; return (literal, t)) = Except.ok (j, rest)) :
    literal = j ∧ s = word ++ rest := by
  obtain ⟨t, hword, heq⟩ := exists_of_bind_eq_ok h
  cases heq
  exact ⟨rfl, eq_append_of_readWord hword⟩

end Json

-- The induction is on the fuel, which every call inside a value, its items or its members
-- takes one of.
mutual

theorem Json.eq_append_of_readValue : (fuel : Nat) →
    ∀ {depth : Nat} {s rest : List Char} {j : Json},
    Json.readValue depth fuel s = .ok (j, rest) →
    j.Legal ∧ j.depth ≤ depth ∧ s = j.spell ++ rest
  | 0, _, _, _, _, h => by cases h
  | _ + 1, _, [], _, _, h => by cases h
  | fuel + 1, depth, c :: s, rest, j, h => by
      rw [Json.readValue.eq_def] at h
      dsimp only at h
      split at h
      · rename_i hc
        obtain ⟨rfl, rfl⟩ := Json.eq_append_of_readLiteral h
        exact ⟨trivial, Nat.zero_le _, by rw [hc]; rfl⟩
      split at h
      · rename_i hc
        obtain ⟨rfl, rfl⟩ := Json.eq_append_of_readLiteral h
        exact ⟨trivial, Nat.zero_le _, by rw [hc]; rfl⟩
      split at h
      · rename_i hc
        obtain ⟨rfl, rfl⟩ := Json.eq_append_of_readLiteral h
        exact ⟨trivial, Nat.zero_le _, by rw [hc]; rfl⟩
      split at h
      · rename_i hc
        obtain ⟨⟨parts, t⟩, hparts, heq⟩ := exists_of_bind_eq_ok h
        cases heq
        obtain ⟨legal, rfl⟩ := Json.eq_append_of_readParts hparts
        exact ⟨legal, Nat.zero_le _, by simp [hc, Json.spell, spellString]⟩
      split at h
      · rename_i hc
        cases depth with
        | zero => cases h
        | succ depth =>
            obtain ⟨blank, t, hblank⟩ : ∃ blank t, Json.readBlank s = (blank, t) := ⟨_, _, rfl⟩
            simp only [hblank] at h
            split at h
            · rename_i hclose
              cases h
              obtain ⟨legal, rfl⟩ := Json.eq_append_of_mark hblank hclose
              exact ⟨legal, Nat.le_add_left 1 depth, by simp [hc, Json.spell]⟩
            · obtain ⟨⟨items, t⟩, hitems, heq⟩ := exists_of_bind_eq_ok h
              cases heq
              obtain ⟨legal, hdepth, rfl⟩ := JsonItems.eq_append_of_readItems fuel hitems
              exact ⟨legal, Nat.succ_le_succ hdepth, by rw [hc, Json.spell]; rfl⟩
      split at h
      · rename_i hc
        cases depth with
        | zero => cases h
        | succ depth =>
            obtain ⟨blank, t, hblank⟩ : ∃ blank t, Json.readBlank s = (blank, t) := ⟨_, _, rfl⟩
            simp only [hblank] at h
            split at h
            · rename_i hclose
              cases h
              obtain ⟨legal, rfl⟩ := Json.eq_append_of_mark hblank hclose
              exact ⟨legal, Nat.le_add_left 1 depth, by simp [hc, Json.spell]⟩
            · obtain ⟨⟨members, t⟩, hmembers, heq⟩ := exists_of_bind_eq_ok h
              cases heq
              obtain ⟨legal, hdepth, rfl⟩ := JsonMembers.eq_append_of_readMembers fuel hmembers
              exact ⟨legal, Nat.succ_le_succ hdepth, by rw [hc, Json.spell]; rfl⟩
      split at h
      · obtain ⟨⟨lexeme, t⟩, hnumber, heq⟩ := exists_of_bind_eq_ok h
        cases heq
        obtain ⟨legal, hs⟩ := Json.eq_append_of_readNumber hnumber
        exact ⟨legal, Nat.zero_le _, by rw [hs, Json.spell]⟩
      · cases h

theorem JsonItems.eq_append_of_readItems : (fuel : Nat) →
    ∀ {depth : Nat} {s rest : List Char} {items : JsonItems},
    Json.readItems depth fuel s = .ok (items, rest) →
    items.Legal ∧ items.depth ≤ depth ∧ s = items.spell ++ rest
  | 0, _, _, _, _, h => by cases h
  | fuel + 1, depth, s, rest, items, h => by
      obtain ⟨before, t, hbefore⟩ : ∃ blank t, Json.readBlank s = (blank, t) := ⟨_, _, rfl⟩
      rw [Json.readItems, hbefore] at h
      obtain ⟨⟨value, t₁⟩, hvalue, hnext⟩ := exists_of_bind_eq_ok h
      obtain ⟨after, t₂, hafter⟩ : ∃ blank t, Json.readBlank t₁ = (blank, t) := ⟨_, _, rfl⟩
      simp only [hafter] at hnext
      obtain ⟨before_legal, rfl⟩ := Json.eq_append_of_readBlank hbefore
      obtain ⟨value_legal, value_depth, rfl⟩ := Json.eq_append_of_readValue fuel hvalue
      split at hnext
      · obtain ⟨⟨others, t₃⟩, hothers, heq⟩ := exists_of_bind_eq_ok hnext
        cases heq
        obtain ⟨after_legal, rfl⟩ := Json.eq_append_of_readBlank hafter
        obtain ⟨others_legal, others_depth, rfl⟩ := JsonItems.eq_append_of_readItems fuel hothers
        exact ⟨⟨before_legal, value_legal, after_legal, others_legal⟩,
          Nat.max_le.mpr ⟨value_depth, others_depth⟩, by simp [JsonItems.spell]⟩
      · obtain ⟨t₃, hclose, heq⟩ := exists_of_bind_eq_ok hnext
        cases heq
        obtain ⟨after_legal, rfl⟩ := Json.eq_append_of_mark hafter hclose
        exact ⟨⟨before_legal, value_legal, after_legal⟩, value_depth, by simp [JsonItems.spell]⟩

theorem JsonMembers.eq_append_of_readMembers : (fuel : Nat) →
    ∀ {depth : Nat} {s rest : List Char} {members : JsonMembers},
    Json.readMembers depth fuel s = .ok (members, rest) →
    members.Legal ∧ members.depth ≤ depth ∧ s = members.spell ++ rest
  | 0, _, _, _, _, h => by cases h
  | fuel + 1, depth, s, rest, members, h => by
      rw [Json.readMembers] at h
      obtain ⟨⟨key, t⟩, hkey, hmember⟩ := exists_of_bind_eq_ok h
      obtain ⟨⟨value, t₁⟩, hvalue, hnext⟩ := exists_of_bind_eq_ok hmember
      obtain ⟨after, t₂, hafter⟩ : ∃ blank t, Json.readBlank t₁ = (blank, t) := ⟨_, _, rfl⟩
      simp only [hafter] at hnext
      obtain ⟨key_legal, rfl⟩ := Json.eq_append_of_readKey hkey
      obtain ⟨value_legal, value_depth, rfl⟩ := Json.eq_append_of_readValue fuel hvalue
      split at hnext
      · obtain ⟨⟨others, t₃⟩, hothers, heq⟩ := exists_of_bind_eq_ok hnext
        cases heq
        obtain ⟨after_legal, rfl⟩ := Json.eq_append_of_readBlank hafter
        obtain ⟨others_legal, others_depth, rfl⟩ :=
          JsonMembers.eq_append_of_readMembers fuel hothers
        exact ⟨⟨key_legal, value_legal, after_legal, others_legal⟩,
          Nat.max_le.mpr ⟨value_depth, others_depth⟩, by simp [JsonMembers.spell]⟩
      · obtain ⟨t₃, hclose, heq⟩ := exists_of_bind_eq_ok hnext
        cases heq
        obtain ⟨after_legal, rfl⟩ := Json.eq_append_of_mark hafter hclose
        exact ⟨⟨key_legal, value_legal, after_legal⟩, value_depth, by simp [JsonMembers.spell]⟩

end

namespace Document

/-- The documents that can be read are the legal ones that are not nested too deep, each from its
own text. -/
theorem parse_eq_ok_iff {s : List Char} {d : Document} :
    parse s = .ok d ↔ d.Legal ∧ d.value.depth ≤ Json.maxDepth ∧ d.spell = s := by
  constructor
  · intro h
    obtain ⟨before, t, hbefore⟩ : ∃ blank t, Json.readBlank s = (blank, t) := ⟨_, _, rfl⟩
    rw [parse, hbefore] at h
    obtain ⟨⟨value, t₁⟩, hvalue, hnext⟩ := exists_of_bind_eq_ok h
    obtain ⟨after, t₂, hafter⟩ : ∃ blank t, Json.readBlank t₁ = (blank, t) := ⟨_, _, rfl⟩
    simp only [hafter] at hnext
    obtain ⟨before_legal, rfl⟩ := Json.eq_append_of_readBlank hbefore
    obtain ⟨value_legal, value_depth, rfl⟩ := Json.eq_append_of_readValue _ hvalue
    obtain ⟨after_legal, rfl⟩ := Json.eq_append_of_readBlank hafter
    split at hnext
    · cases hnext
      exact ⟨⟨before_legal, value_legal, after_legal⟩, value_depth, by simp [spell]⟩
    · cases hnext
  · rintro ⟨hlegal, hdepth, rfl⟩
    rw [parse_spell hlegal, if_pos hdepth]

end Document
end Lowering

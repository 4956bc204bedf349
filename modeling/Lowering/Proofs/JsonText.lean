import Mathlib.Data.List.TakeDrop
import Mathlib.Data.List.TakeWhile
import Mathlib.Tactic.IntervalCases
import Lowering.Json.Grammar
import Lowering.Json.Parser

/-!
# Legal JSON is read back as it is spelled

Reading the text of a legal value, with anything behind it that does not continue a number,
gives the value itself and leaves the rest. The reader never looks further than one character
past a token, so each token has a lemma of this form, and the lemma for values follows by
induction on the value. Twice the length of the text is enough fuel.

It follows that a legal text is the text of one document only.
-/

namespace Lowering

/-- What a predicate holds of and nothing more is split off. -/
theorem span_append {p : Char → Bool} {s rest : List Char} (hs : ∀ c ∈ s, p c = true)
    (hrest : ∀ c ∈ rest.head?, p c = false) : (s ++ rest).span p = (s, rest) := by
  have htake : rest.takeWhile p = [] := by
    cases rest with
    | nil => rfl
    | cons c rest => simp [hrest c rfl]
  have hdrop : rest.dropWhile p = rest := by
    cases rest with
    | nil => rfl
    | cons c rest => simp [hrest c rfl]
  rw [List.span_eq_takeWhile_dropWhile, List.takeWhile_append_of_pos hs,
    List.dropWhile_append_of_pos hs, htake, hdrop, List.append_nil]

theorem Blank.Legal.isBlank {blank : Blank} (h : blank.Legal) : ∀ c ∈ blank, isBlank c = true := by
  intro c hc
  simpa [Lowering.isBlank, or_assoc] using h c hc

namespace Json

theorem readBlank_append {blank : Blank} {rest : List Char} (h : blank.Legal)
    (hrest : ∀ c ∈ rest.head?, isBlank c = false) : readBlank (blank ++ rest) = (blank, rest) :=
  span_append h.isBlank hrest

theorem readDigits_append {s rest : List Char} (h : IsDigits s)
    (hrest : ∀ c ∈ rest.head?, c.isDigit = false) : readDigits (s ++ rest) = .ok (s, rest) := by
  obtain ⟨hne, hs⟩ := h
  rw [readDigits, span_append hs hrest]
  cases s with
  | nil => exact absurd rfl hne
  | cons c s => rfl

theorem IsDigits.exists_cons {s : List Char} (h : IsDigits s) :
    ∃ c t, s = c :: t ∧ c.isDigit = true := by
  obtain ⟨hne, hs⟩ := h
  cases s with
  | nil => exact absurd rfl hne
  | cons c t => exact ⟨c, t, rfl, hs c (by simp)⟩

theorem IsWhole.isDigits {s : List Char} (h : IsWhole s) : IsDigits s := by
  cases h with
  | zero => exact ⟨by simp, by simp⟩
  | digits hs _ => exact hs

theorem readWhole_append {s rest : List Char} (h : IsWhole s)
    (hrest : ∀ c ∈ rest.head?, c.isDigit = false) : readWhole (s ++ rest) = .ok (s, rest) := by
  cases h with
  | zero => rfl
  | digits hs hzero =>
      rw [readWhole, readDigits_append hs hrest]
      intro t ht
      obtain ⟨c, u, rfl, -⟩ := hs.exists_cons
      simp_all

theorem readFraction_append {s rest : List Char} (h : IsFraction s)
    (hrest : ∀ c ∈ rest.head?, c.isDigit = false ∧ c ≠ '.') :
    readFraction (s ++ rest) = .ok (s, rest) := by
  cases h with
  | none =>
      rw [List.nil_append, readFraction]
      rintro t rfl
      exact (hrest '.' rfl).2 rfl
  | some hs =>
      rw [List.cons_append, readFraction, readDigits_append hs fun c hc => (hrest c hc).1]
      rfl

theorem readExponentSign_append {sign s : List Char} (h : sign ∈ [[], ['+'], ['-']])
    (hs : ∀ c ∈ s.head?, c.isDigit = true) : readExponentSign (sign ++ s) = (sign, s) := by
  simp only [List.mem_cons, List.not_mem_nil, or_false] at h
  rcases h with rfl | rfl | rfl
  · rw [List.nil_append, readExponentSign]
    · rintro t rfl
      exact absurd (hs '+' rfl) (by decide)
    · rintro t rfl
      exact absurd (hs '-' rfl) (by decide)
  · rfl
  · rfl

/-- The text does not go on with a number: neither with a digit nor with what starts a fraction
or an exponent. -/
def Stops (s : List Char) : Prop :=
  ∀ c ∈ s.head?, c.isDigit = false ∧ c ≠ '.' ∧ c ≠ 'e' ∧ c ≠ 'E'

theorem readExponent_append {s rest : List Char} (h : IsExponent s) (hrest : Stops rest) :
    readExponent (s ++ rest) = .ok (s, rest) := by
  cases h with
  | none =>
      cases rest with
      | nil => rfl
      | cons c rest =>
          obtain ⟨-, -, he, hE⟩ := hrest c rfl
          simp [readExponent, he, hE]
  | some he hsign hs =>
      rename_i e sign digits
      have hdigits : ∀ c ∈ (digits ++ rest).head?, c.isDigit = true := by
        obtain ⟨d, t, rfl, hd⟩ := hs.exists_cons
        simpa using hd
      have hread := readDigits_append hs fun c hc => (hrest c hc).1
      rw [List.cons_append, List.cons_append, List.append_assoc, readExponent,
        if_pos (by simpa using he), readExponentSign_append hsign hdigits]
      simp only [hread]
      rfl

theorem IsExponent.head_append {s rest : List Char} (h : IsExponent s) (hrest : Stops rest) :
    ∀ c ∈ (s ++ rest).head?, c.isDigit = false ∧ c ≠ '.' := by
  cases h with
  | none => exact fun c hc => ⟨(hrest c hc).1, (hrest c hc).2.1⟩
  | some he _ _ =>
      simp only [List.mem_cons, List.not_mem_nil, or_false] at he
      rcases he with rfl | rfl <;> simp

theorem IsFraction.head_append {s rest : List Char} (h : IsFraction s)
    (hrest : ∀ c ∈ rest.head?, c.isDigit = false) :
    ∀ c ∈ (s ++ rest).head?, c.isDigit = false := by
  cases h with
  | none => exact hrest
  | some _ => simp

theorem readSign_append {sign s : List Char} (h : sign ∈ [[], ['-']])
    (hs : ∀ c ∈ s.head?, c.isDigit = true) : readSign (sign ++ s) = (sign, s) := by
  simp only [List.mem_cons, List.not_mem_nil, or_false] at h
  rcases h with rfl | rfl
  · rw [List.nil_append, readSign]
    rintro t rfl
    exact absurd (hs '-' rfl) (by decide)
  · rfl

theorem readNumber_append {lexeme rest : List Char} (h : IsNumber lexeme) (hrest : Stops rest) :
    readNumber (lexeme ++ rest) = .ok (lexeme, rest) := by
  cases h with
  | parts hsign hwhole hfraction hexponent =>
      rename_i sign whole fraction exponent
      have hafter := hexponent.head_append hrest
      have hwholeHead : ∀ c ∈ (whole ++ (fraction ++ (exponent ++ rest))).head?,
          c.isDigit = true := by
        obtain ⟨d, t, rfl, hd⟩ := hwhole.isDigits.exists_cons
        simpa using hd
      simp only [List.append_assoc, readNumber, readSign_append hsign hwholeHead,
        readWhole_append hwhole (hfraction.head_append fun c hc => (hafter c hc).1),
        readFraction_append hfraction hafter, readExponent_append hexponent hrest, bind,
        Except.bind]
      rfl

theorem ne_of_isDigit {c d : Char} (hc : c.isDigit = true) (hd : d.isDigit = false) : c ≠ d := by
  rintro rfl
  exact absurd hc (by simp [hd])

/-- A number starts with a digit or a sign. -/
theorem IsNumber.exists_cons {lexeme : List Char} (h : IsNumber lexeme) :
    ∃ c s, lexeme = c :: s ∧ (c = '-' ∨ c.isDigit = true) := by
  cases h with
  | parts hsign hwhole _ _ =>
      simp only [List.mem_cons, List.not_mem_nil, or_false] at hsign
      rcases hsign with rfl | rfl
      · obtain ⟨c, t, rfl, hc⟩ := hwhole.isDigits.exists_cons
        exact ⟨c, _, rfl, .inr hc⟩
      · exact ⟨'-', _, rfl, .inl rfl⟩

end Json

namespace StringPart

theorem IsHex.lt {c : Char} {v : Nat} (h : IsHex c v) : v < 16 := by
  rcases h with h | h <;> simpa using (List.getElem?_eq_some_iff.mp h).1

theorem IsHex.value {c : Char} {v : Nat} (h : IsHex c v) : hexDigit? c = some v := by
  have hv := h.lt
  interval_cases v <;> rcases h with h | h <;> simp at h <;> subst h <;> decide

theorem unescape?_of_mem {letter c : Char} (h : (letter, c) ∈ escapes) :
    unescape? letter = some c := by
  simp only [escapes, List.mem_cons, Prod.mk.injEq, List.not_mem_nil, or_false] at h
  rcases h with h | h | h | h | h | h | h | h <;> obtain ⟨rfl, rfl⟩ := h <;> rfl

end StringPart

namespace Json

open StringPart

theorem readParts_plain {c : Char} {s : List Char} (h : IsPlain c) :
    readParts (c :: s) = do
      let (parts, rest) ← readParts s
      return (.plain c :: parts, rest) := by
  obtain ⟨hc, hquote, hslash⟩ := h
  rw [readParts.eq_def]
  split <;> simp_all

theorem readParts_escape {letter c : Char} {s : List Char} (h : (letter, c) ∈ escapes) :
    readParts ('\\' :: letter :: s) = do
      let (parts, rest) ← readParts s
      return (.escape letter :: parts, rest) := by
  have hsome := unescape?_of_mem h
  have hletter : letter ≠ 'u' := by
    rintro rfl
    cases hsome
  rw [readParts, if_pos (by simp [hsome])]
  all_goals simp_all

theorem readParts_unit {digits s : List Char} {n : Nat} (h : IsUnit digits n) :
    readParts ('\\' :: 'u' :: digits ++ s) = do
      let (parts, rest) ← readParts s
      return (.unit digits :: parts, rest) := by
  obtain ⟨ha, hb, hc, hd⟩ := h
  simp [readParts, isHexDigit, ha.value, hb.value, hc.value, hd.value]

theorem readParts_append {parts : List StringPart} {rest : List Char}
    (h : ∀ part ∈ parts, part.Legal) :
    readParts (parts.flatMap StringPart.spell ++ '"' :: rest) = .ok (parts, rest) := by
  induction parts with
  | nil => rfl
  | cons part parts ih =>
      have hpart := h part (by simp)
      have hparts := ih fun p hp => h p (by simp [hp])
      cases part with
      | plain c =>
          rw [List.flatMap_cons, List.append_assoc, StringPart.spell, List.singleton_append,
            readParts_plain hpart, hparts]
          rfl
      | escape letter =>
          obtain ⟨c, hc⟩ := hpart
          rw [List.flatMap_cons, List.append_assoc, StringPart.spell, List.cons_append,
            List.singleton_append, readParts_escape hc, hparts]
          rfl
      | unit digits =>
          obtain ⟨n, hn⟩ := hpart
          rw [List.flatMap_cons, List.append_assoc, StringPart.spell, readParts_unit hn, hparts]
          rfl

theorem readString_append {parts : List StringPart} {rest : List Char}
    (h : ∀ part ∈ parts, part.Legal) :
    readString (spellString parts ++ rest) = .ok (parts, rest) := by
  simpa [spellString, readString] using readParts_append h

theorem readKey_append {key : JsonKey} {rest : List Char} (h : key.Legal)
    (hrest : ∀ c ∈ rest.head?, isBlank c = false) :
    readKey (key.spell ++ rest) = .ok (key, rest) := by
  obtain ⟨hbefore, hparts, hcolon, hafter⟩ := h
  have hquote : ∀ s, ∀ c ∈ (spellString key.parts ++ s).head?, isBlank c = false := by
    simp [spellString, isBlank]
  have hword : ∀ s, readWord [':'] (':' :: s) = .ok s := fun _ => rfl
  simp only [JsonKey.spell, readKey, List.append_assoc, List.cons_append,
    readBlank_append hbefore (hquote _)]
  rw [readString_append hparts]
  simp only [bind, Except.bind]
  rw [readBlank_append hcolon (by simp [isBlank])]
  simp only [hword, readBlank_append hafter hrest]
  rfl

/-- No value starts with a blank, and none with a closing bracket. -/
theorem Legal.exists_cons {j : Json} (h : j.Legal) :
    ∃ c s, j.spell = c :: s ∧ isBlank c = false ∧ c ≠ ']' := by
  cases j with
  | null => exact ⟨'n', _, rfl, by decide⟩
  | bool value =>
      cases value with
      | false => exact ⟨'f', _, rfl, by decide⟩
      | true => exact ⟨'t', _, rfl, by decide⟩
  | number lexeme =>
      rw [Json.Legal] at h
      obtain ⟨c, s, rfl, hc⟩ := h.exists_cons
      refine ⟨c, s, by rw [spell], ?_⟩
      rcases hc with rfl | hc
      · decide
      · have hne {d : Char} (hd : d.isDigit = false) := ne_of_isDigit hc hd
        simp [isBlank, hne]
  | string parts => exact ⟨'"', _, by rw [spell, spellString]; rfl, by decide⟩
  | emptyArray blank => exact ⟨'[', _, by rw [spell]; rfl, by decide⟩
  | array items => exact ⟨'[', _, by rw [spell], by decide⟩
  | emptyObject blank => exact ⟨openBrace, _, by rw [spell]; rfl, by decide⟩
  | object members => exact ⟨openBrace, _, by rw [spell], by decide⟩

theorem Legal.head_append {j : Json} (h : j.Legal) (rest : List Char) :
    ∀ c ∈ (j.spell ++ rest).head?, isBlank c = false := by
  obtain ⟨c, s, hj, hc, -⟩ := h.exists_cons
  simpa [hj] using hc

theorem Legal.length_spell_pos {j : Json} (h : j.Legal) : 0 < j.spell.length := by
  obtain ⟨c, s, hj, -⟩ := h.exists_cons
  simp [hj]

theorem Stops.blank_append {blank : Blank} {rest : List Char} (hrest : Stops rest)
    (h : blank.Legal) : Stops (blank ++ rest) := by
  cases blank with
  | nil => exact hrest
  | cons b blank =>
      have hb := h b (by simp)
      simp only [List.mem_cons, List.not_mem_nil, or_false] at hb
      rcases hb with rfl | rfl | rfl | rfl <;> simp [Stops]

/-- What stands after a value ends a number. -/
theorem stops_append {blank : Blank} {c : Char} {rest : List Char} (h : blank.Legal)
    (hc : c ∈ [',', ']', closeBrace]) : Stops (blank ++ c :: rest) := by
  refine Stops.blank_append ?_ h
  simp only [List.mem_cons, List.not_mem_nil, or_false] at hc
  rcases hc with rfl | rfl | rfl <;> simp [Stops]

theorem readValue_array {depth fuel : Nat} {s t : List Char} {blank : Blank} {c : Char}
    (h : readBlank s = (blank, c :: t)) (hc : c ≠ ']') :
    readValue (depth + 1) (fuel + 1) ('[' :: s) = do
      let (items, rest) ← readItems depth fuel s
      return (.array items, rest) := by
  simp [readValue, h, readWord, hc.symm]

theorem readValue_object {depth fuel : Nat} {s t : List Char} {blank : Blank} {c : Char}
    (h : readBlank s = (blank, c :: t)) (hc : c ≠ closeBrace) :
    readValue (depth + 1) (fuel + 1) (openBrace :: s) = do
      let (members, rest) ← readMembers depth fuel s
      return (.object members, rest) := by
  simp [readValue, h, readWord, hc.symm]

theorem readValue_number {depth fuel : Nat} {c : Char} {s : List Char}
    (hc : c = '-' ∨ c.isDigit = true) :
    readValue depth (fuel + 1) (c :: s) = do
      let (lexeme, rest) ← readNumber (c :: s)
      return (.number lexeme, rest) := by
  rcases hc with rfl | hc
  · simp [readValue]
  · have hne {d : Char} (hd : d.isDigit = false) := ne_of_isDigit hc hd
    simp [readValue, hne, hc]

end Json

/-- The text of items starts, after blanks, with the text of a value. -/
theorem JsonItems.Legal.readBlank_append {items : JsonItems} (h : items.Legal)
    (rest : List Char) :
    ∃ blank c s, Json.readBlank (items.spell ++ rest) = (blank, c :: s) ∧ c ≠ ']' := by
  obtain ⟨blank, value, t, hblank, hvalue, hspell⟩ :
      ∃ (blank : Blank) (value : Json) (t : List Char), blank.Legal ∧ value.Legal ∧
        items.spell ++ rest = blank ++ (value.spell ++ t) := by
    cases items with
    | last before value after =>
        rw [JsonItems.Legal] at h
        exact ⟨before, value, after ++ ']' :: rest, h.1, h.2.1, by simp [JsonItems.spell]⟩
    | more before value after others =>
        rw [JsonItems.Legal] at h
        exact ⟨before, value, after ++ ',' :: (others.spell ++ rest), h.1, h.2.1,
          by simp [JsonItems.spell]⟩
  obtain ⟨c, s, hs, -, hc⟩ := hvalue.exists_cons
  refine ⟨blank, c, s ++ t, ?_, hc⟩
  rw [hspell, Json.readBlank_append hblank (hvalue.head_append t), hs, List.cons_append]

/-- The text of members starts, after blanks, with a quote. -/
theorem JsonMembers.Legal.readBlank_append {members : JsonMembers} (h : members.Legal)
    (rest : List Char) :
    ∃ blank s, Json.readBlank (members.spell ++ rest) = (blank, '"' :: s) := by
  obtain ⟨blank, t, hblank, hspell⟩ :
      ∃ (blank : Blank) (t : List Char), blank.Legal ∧
        members.spell ++ rest = blank ++ '"' :: t := by
    cases members with
    | last key value after =>
        rw [JsonMembers.Legal] at h
        exact ⟨key.before, _, h.1.1, by simp [JsonMembers.spell, JsonKey.spell, spellString]; rfl⟩
    | more key value after others =>
        rw [JsonMembers.Legal] at h
        exact ⟨key.before, _, h.1.1, by simp [JsonMembers.spell, JsonKey.spell, spellString]; rfl⟩
  exact ⟨blank, t, by rw [hspell, Json.readBlank_append hblank (by simp [isBlank])]⟩

-- The fuel of items and members is one less than that of a value, since their text ends with a
-- bracket or a brace that no call has to read.
mutual

/-- A legal value is read back, unless it is nested too deep. -/
theorem Json.readValue_spell : (j : Json) → j.Legal → ∀ {depth fuel : Nat} {rest : List Char},
    2 * j.spell.length ≤ fuel → Json.Stops rest →
    Json.readValue depth fuel (j.spell ++ rest) =
      if j.depth ≤ depth then .ok (j, rest) else .error .tooDeep := by
  intro j hj depth fuel rest hfuel hrest
  obtain ⟨fuel, rfl⟩ : ∃ n, fuel = n + 1 := by
    have := hj.length_spell_pos
    exact ⟨fuel - 1, by omega⟩
  cases j with
  | null => simp [Json.depth, Json.spell, Json.readValue, Json.readWord]
  | bool value => cases value <;> simp [Json.depth, Json.spell, Json.readValue, Json.readWord]
  | number lexeme =>
      rw [Json.Legal] at hj
      obtain ⟨c, s, hlexeme, hc⟩ := hj.exists_cons
      have hread := Json.readNumber_append hj hrest
      rw [Json.depth, if_pos (Nat.zero_le _), Json.spell]
      subst hlexeme
      rw [List.cons_append] at hread ⊢
      rw [Json.readValue_number hc, hread]
      rfl
  | string parts =>
      rw [Json.Legal] at hj
      have hread : Json.readParts (parts.flatMap StringPart.spell ++ '"' :: rest) = _ :=
        Json.readParts_append hj
      simp [Json.depth, Json.spell, spellString, Json.readValue, hread]
  | emptyArray blank =>
      rw [Json.Legal] at hj
      have hread : Json.readBlank (blank ++ ']' :: rest) = _ :=
        Json.readBlank_append hj (by simp [isBlank])
      cases depth with
      | zero => simp [Json.depth, Json.spell, Json.readValue]
      | succ depth => simp [Json.depth, Json.spell, Json.readValue, hread, Json.readWord]
  | array items =>
      rw [Json.spell, List.length_cons] at hfuel
      rw [Json.Legal] at hj
      obtain ⟨blank, c, s, hblank, hc⟩ := hj.readBlank_append rest
      cases depth with
      | zero => simp [Json.depth, Json.spell, Json.readValue]
      | succ depth =>
          rw [Json.spell, List.cons_append, Json.readValue_array hblank hc,
            JsonItems.readItems_spell items hj (by omega), Json.depth]
          by_cases hdepth : items.depth ≤ depth
          · rw [if_pos hdepth, if_pos (Nat.succ_le_succ hdepth)]
            rfl
          · rw [if_neg hdepth, if_neg (by omega)]
            rfl
  | emptyObject blank =>
      rw [Json.Legal] at hj
      have hread : Json.readBlank (blank ++ closeBrace :: rest) = _ :=
        Json.readBlank_append hj (by simp [isBlank])
      cases depth with
      | zero => simp [Json.depth, Json.spell, Json.readValue]
      | succ depth => simp [Json.depth, Json.spell, Json.readValue, hread, Json.readWord]
  | object members =>
      rw [Json.spell, List.length_cons] at hfuel
      rw [Json.Legal] at hj
      obtain ⟨blank, s, hblank⟩ := hj.readBlank_append rest
      cases depth with
      | zero => simp [Json.depth, Json.spell, Json.readValue]
      | succ depth =>
          rw [Json.spell, List.cons_append, Json.readValue_object hblank (by decide),
            JsonMembers.readMembers_spell members hj (by omega), Json.depth]
          by_cases hdepth : members.depth ≤ depth
          · rw [if_pos hdepth, if_pos (Nat.succ_le_succ hdepth)]
            rfl
          · rw [if_neg hdepth, if_neg (by omega)]
            rfl

theorem JsonItems.readItems_spell : (items : JsonItems) → items.Legal →
    ∀ {depth fuel : Nat} {rest : List Char}, 2 * items.spell.length ≤ fuel + 1 →
    Json.readItems depth fuel (items.spell ++ rest) =
      if items.depth ≤ depth then .ok (items, rest) else .error .tooDeep := by
  intro items h depth fuel rest hfuel
  cases items with
  | last before value after =>
      obtain ⟨hbefore, hvalue, hafter⟩ := h
      simp only [JsonItems.spell, List.length_append, List.length_singleton] at hfuel
      obtain ⟨fuel, rfl⟩ : ∃ n, fuel = n + 1 := ⟨fuel - 1, by omega⟩
      have hread : Json.readValue depth fuel (value.spell ++ (after ++ ']' :: rest)) = _ :=
        Json.readValue_spell value hvalue (by omega) (Json.stops_append hafter (by simp))
      have hend : Json.readBlank (after ++ ']' :: rest) = _ :=
        Json.readBlank_append hafter (by simp [isBlank])
      rw [JsonItems.depth]
      simp only [JsonItems.spell, List.append_assoc, List.singleton_append, Json.readItems,
        Json.readBlank_append hbefore (hvalue.head_append _), hread]
      by_cases hdepth : value.depth ≤ depth
      · rw [if_pos hdepth, if_pos hdepth]
        simp only [hend, bind, Except.bind]
        rfl
      · rw [if_neg hdepth, if_neg hdepth]
        rfl
  | more before value after others =>
      obtain ⟨hbefore, hvalue, hafter, hothers⟩ := h
      simp only [JsonItems.spell, List.length_append, List.length_cons] at hfuel
      obtain ⟨fuel, rfl⟩ : ∃ n, fuel = n + 1 := ⟨fuel - 1, by omega⟩
      have hread : Json.readValue depth fuel
          (value.spell ++ (after ++ ',' :: (others.spell ++ rest))) = _ :=
        Json.readValue_spell value hvalue (by omega) (Json.stops_append hafter (by simp))
      have hend : Json.readBlank (after ++ ',' :: (others.spell ++ rest)) = _ :=
        Json.readBlank_append hafter (by simp [isBlank])
      have hitems : Json.readItems depth fuel (others.spell ++ rest) = _ :=
        JsonItems.readItems_spell others hothers (by omega)
      rw [JsonItems.depth]
      simp only [JsonItems.spell, List.append_assoc, List.cons_append, Json.readItems,
        Json.readBlank_append hbefore (hvalue.head_append _), hread]
      by_cases hdepth : value.depth ≤ depth
      · rw [if_pos hdepth]
        simp only [hend, hitems, bind, Except.bind]
        by_cases hothersDepth : others.depth ≤ depth
        · rw [if_pos hothersDepth, if_pos (Nat.max_le.mpr ⟨hdepth, hothersDepth⟩)]
          rfl
        · rw [if_neg hothersDepth, if_neg fun h => hothersDepth (Nat.max_le.mp h).2]
      · rw [if_neg hdepth, if_neg fun h => hdepth (Nat.max_le.mp h).1]
        rfl

theorem JsonMembers.readMembers_spell : (members : JsonMembers) → members.Legal →
    ∀ {depth fuel : Nat} {rest : List Char}, 2 * members.spell.length ≤ fuel + 1 →
    Json.readMembers depth fuel (members.spell ++ rest) =
      if members.depth ≤ depth then .ok (members, rest) else .error .tooDeep := by
  intro members h depth fuel rest hfuel
  cases members with
  | last key value after =>
      obtain ⟨hkey, hvalue, hafter⟩ := h
      simp only [JsonMembers.spell, List.length_append, List.length_singleton] at hfuel
      obtain ⟨fuel, rfl⟩ : ∃ n, fuel = n + 1 := ⟨fuel - 1, by omega⟩
      have hread : Json.readValue depth fuel (value.spell ++ (after ++ closeBrace :: rest)) = _ :=
        Json.readValue_spell value hvalue (by omega) (Json.stops_append hafter (by simp))
      have hend : Json.readBlank (after ++ closeBrace :: rest) = _ :=
        Json.readBlank_append hafter (by simp [isBlank])
      rw [JsonMembers.depth]
      simp only [JsonMembers.spell, List.append_assoc, List.singleton_append, Json.readMembers,
        Json.readKey_append hkey (hvalue.head_append _), hread, bind, Except.bind]
      by_cases hdepth : value.depth ≤ depth
      · rw [if_pos hdepth, if_pos hdepth]
        simp only [hend]
        rfl
      · rw [if_neg hdepth, if_neg hdepth]
  | more key value after others =>
      obtain ⟨hkey, hvalue, hafter, hothers⟩ := h
      simp only [JsonMembers.spell, List.length_append, List.length_cons] at hfuel
      obtain ⟨fuel, rfl⟩ : ∃ n, fuel = n + 1 := ⟨fuel - 1, by omega⟩
      have hread : Json.readValue depth fuel
          (value.spell ++ (after ++ ',' :: (others.spell ++ rest))) = _ :=
        Json.readValue_spell value hvalue (by omega) (Json.stops_append hafter (by simp))
      have hend : Json.readBlank (after ++ ',' :: (others.spell ++ rest)) = _ :=
        Json.readBlank_append hafter (by simp [isBlank])
      have hmembers : Json.readMembers depth fuel (others.spell ++ rest) = _ :=
        JsonMembers.readMembers_spell others hothers (by omega)
      rw [JsonMembers.depth]
      simp only [JsonMembers.spell, List.append_assoc, List.cons_append, Json.readMembers,
        Json.readKey_append hkey (hvalue.head_append _), hread, bind, Except.bind]
      by_cases hdepth : value.depth ≤ depth
      · rw [if_pos hdepth]
        simp only [hend, hmembers]
        by_cases hothersDepth : others.depth ≤ depth
        · rw [if_pos hothersDepth, if_pos (Nat.max_le.mpr ⟨hdepth, hothersDepth⟩)]
          rfl
        · rw [if_neg hothersDepth, if_neg fun h => hothersDepth (Nat.max_le.mp h).2]
      · rw [if_neg hdepth, if_neg fun h => hdepth (Nat.max_le.mp h).1]

end

namespace Document

variable {d d' : Document}

theorem readBlank_spell (h : d.Legal) :
    Json.readBlank d.spell = (d.before, d.value.spell ++ d.after) := by
  rw [spell, List.append_assoc, Json.readBlank_append h.1 (h.2.1.head_append _)]

theorem readValue_spell (h : d.Legal) {depth fuel : Nat}
    (hfuel : 2 * d.value.spell.length ≤ fuel) :
    Json.readValue depth fuel (d.value.spell ++ d.after) =
      if d.value.depth ≤ depth then .ok (d.value, d.after) else .error .tooDeep := by
  have hstops : Json.Stops d.after := by
    have hend : Json.Stops [] := by simp [Json.Stops]
    simpa using hend.blank_append h.2.2
  exact Json.readValue_spell d.value h.2.1 hfuel hstops

/-- A legal document is read back, unless it is nested too deep. -/
theorem parse_spell (h : d.Legal) :
    parse d.spell = if d.value.depth ≤ Json.maxDepth then .ok d else .error .tooDeep := by
  have hafter : Json.readBlank d.after = (d.after, []) := by
    have hend : Json.readBlank (d.after ++ []) = _ := Json.readBlank_append h.2.2 (by simp)
    simpa using hend
  have hfuel : 2 * d.value.spell.length ≤ 2 * (d.value.spell ++ d.after).length + 1 := by
    rw [List.length_append]
    omega
  simp only [parse, readBlank_spell h, readValue_spell h hfuel]
  by_cases hdepth : d.value.depth ≤ Json.maxDepth
  · rw [if_pos hdepth, if_pos hdepth]
    simp only [hafter, bind, Except.bind]
    rfl
  · rw [if_neg hdepth, if_neg hdepth]
    rfl

/-- A text is the text of one legal document only, however deep it is nested. -/
theorem eq_of_spell_eq (h : d.Legal) (h' : d'.Legal) (heq : d.spell = d'.spell) : d = d' := by
  have hblank := readBlank_spell h
  rw [heq, readBlank_spell h', Prod.mk.injEq] at hblank
  obtain ⟨hbefore, htext⟩ := hblank
  -- Both are read at a depth and with fuel that are enough for either.
  have hread : Json.readValue (max d.value.depth d'.value.depth) _ _ = _ :=
    readValue_spell h (Nat.le_max_left _ (2 * d'.value.spell.length))
  rw [← htext, readValue_spell h' (Nat.le_max_right _ _), if_pos (Nat.le_max_right _ _),
    if_pos (Nat.le_max_left _ _)] at hread
  obtain ⟨hvalue, hafter⟩ : d'.value = d.value ∧ d'.after = d.after := by simpa using hread
  cases d
  cases d'
  simp_all

end Document
end Lowering

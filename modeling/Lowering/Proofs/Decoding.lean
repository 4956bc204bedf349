import Lowering.Compile
import Lowering.Proofs.Encoding
import Lowering.Proofs.JsonText
import Lowering.Proofs.Utf8Text

/-!
# Decoding undoes encoding

A value that writes an expression is read as that expression, however its strings and arrays
are spelled. With the fact that a legal text is read back as it is spelled, this gives the same
for the bytes of a text, and so two programs never share a text.
-/

namespace Lowering

namespace StringPart

theorem IsUnit.value {digits : List Char} {n : Nat} (h : IsUnit digits n) :
    unitValue digits = n := by
  cases h with
  | digits ha hb hc hd =>
      have hn := ha.lt
      simp only [unitValue, List.foldl_cons, List.foldl_nil, ha.value, hb.value, hc.value,
        hd.value, Option.getD_some]
      omega

/-- A character is never half of a pair. -/
theorem surrogatePair?_toNat (c : Char) (low : Nat) : surrogatePair? c.toNat low = none := by
  rw [surrogatePair?, if_neg]
  have hvalid : c.toNat < 0xD800 ∨ 0xDFFF < c.toNat ∧ c.toNat < 0x110000 := c.valid
  omega

theorem surrogatePair?_of_le {c : Char} (h : 0x10000 ≤ c.toNat) :
    surrogatePair? (0xD800 + (c.toNat - 0x10000) / 0x400)
      (0xDC00 + (c.toNat - 0x10000) % 0x400) = some c := by
  have hvalid : c.toNat < 0xD800 ∨ 0xDFFF < c.toNat ∧ c.toNat < 0x110000 := c.valid
  have hpoint : 0x10000 + (0xD800 + (c.toNat - 0x10000) / 0x400 - 0xD800) * 0x400 +
      (0xDC00 + (c.toNat - 0x10000) % 0x400 - 0xDC00) = c.toNat := by omega
  rw [surrogatePair?, if_pos (by omega), hpoint, Utf8.scalar?_toNat h]

theorem content_unit {digits : List Char} {parts : List StringPart}
    (h : ∀ low, surrogatePair? (unitValue digits) low = none) :
    content (.unit digits :: parts) = loneUnit (unitValue digits) :: content parts := by
  rw [content.eq_def]
  split <;> simp_all

theorem Spells.content {parts : List StringPart} {s : List Char} (h : Spells parts s) :
    content parts = s := by
  induction h with
  | nil => rfl
  | plain _ _ ih => rw [StringPart.content, ih]
  | escape hc _ ih => rw [StringPart.content, ih, unescape?_of_mem hc, Option.getD_some]
  | unit hc _ ih =>
      rw [content_unit (hc.value ▸ surrogatePair?_toNat _), hc.value, ih, loneUnit,
        Utf8.scalar?_toNat (Nat.zero_le _), Option.getD_some]
  | pair hc hhigh hlow _ ih =>
      rw [StringPart.content, hhigh.value, hlow.value, surrogatePair?_of_le hc]
      simp only [ih]

end StringPart

namespace Json

theorem IsString.string? {s : String} {j : Json} (h : j.IsString s) : j.string? = some s := by
  cases j with
  | string parts =>
      have hparts : StringPart.Spells parts s.toList := h
      rw [Json.string?, hparts.content, String.ofList_toList]
  | _ => exact h.elim

theorem decimal_toDigits (n : Nat) : decimal (Nat.toDigits 10 n) = n :=
  Nat.ofDigitChars_ten_toDigits

theorem all_isDigit_toDigits (n : Nat) : (Nat.toDigits 10 n).all Char.isDigit = true := by
  rw [List.all_eq_true]
  exact fun c hc => Nat.isDigit_of_mem_toDigits (by decide) (by decide) hc

theorem integer?_toDigits {n : Nat} (h : n < 0x8000000000000000) :
    integer? (Nat.toDigits 10 n) = some (Int64.ofNat n) := by
  rw [integer?]
  · rw [if_pos ⟨all_isDigit_toDigits n, by rwa [decimal_toDigits]⟩, decimal_toDigits]
  · intro digits hdigits
    have hminus := all_isDigit_toDigits n
    rw [hdigits, List.all_cons] at hminus
    exact absurd hminus (by simp)

theorem integer?_toDigits_neg {n : Nat} (h : n ≤ 0x8000000000000000) :
    integer? ('-' :: Nat.toDigits 10 n) = some (Int64.ofInt (-n)) := by
  rw [integer?, if_pos ⟨all_isDigit_toDigits n, by rwa [decimal_toDigits]⟩, decimal_toDigits]

theorem integer?_toString (n : Int64) : integer? (toString n.toInt).toList = some n := by
  have hle := n.le_toInt
  have hlt := n.toInt_lt
  by_cases hn : 0 ≤ n.toInt
  · rw [toList_toString_of_nonneg hn, integer?_toDigits (by omega), ← Int64.ofInt_eq_ofNat,
      Int.toNat_of_nonneg hn, Int64.ofInt_toInt]
  · rw [toList_toString_of_neg hn, integer?_toDigits_neg (by omega),
      Int.toNat_of_nonneg (by omega), Int.neg_neg, Int64.ofInt_toInt]

theorem IsWord.int64? {n : Int64} {j : Json} (h : j.IsWord n) : j.int64? = some n := by
  cases j with
  | number lexeme =>
      have hlexeme : lexeme = (toString n.toInt).toList ∨ n = 0 ∧ lexeme = ['-', '0'] := h
      rw [Json.int64?]
      obtain rfl | ⟨rfl, rfl⟩ := hlexeme
      · exact integer?_toString n
      · rfl
  | _ => exact h.elim

theorem IsString.readName {s : String} {j : Json} (h : j.IsString s) (kind : NodeKind) :
    j.readName kind = .ok s := by
  rw [Json.readName, h.string?]

theorem IsString.readKind {s : String} {j : Json} (h : j.IsString s) : j.readKind = .ok s := by
  rw [Json.readKind, h.string?]

theorem IsString.readParam {s : String} {j : Json} (h : j.IsString s) : j.readParam = .ok s := by
  rw [Json.readParam, h.string?]

theorem IsWord.readInt64 {n : Int64} {j : Json} (h : j.IsWord n) (kind : NodeKind) :
    j.readInt64 kind = .ok n := by
  rw [Json.readInt64, h.int64?]

theorem IsString.readExprKind {j : Json} (kind : ExprKind) (h : j.IsString kind.name) :
    j.readExprKind = .ok kind := by
  have hname : ExprKind.ofName? kind.name = some kind := by cases kind <;> decide
  rw [Json.readExprKind, h.readKind]
  simp only [bind, Except.bind, hname]
  rfl

theorem IsString.expectKind {j : Json} (kind : NodeKind) (h : j.IsString kind.name) :
    j.expectKind kind = .ok () := by
  rw [Json.expectKind, h.readKind]
  exact if_pos rfl

theorem mapM_readParam {ss : List String} {items : List Json}
    (h : List.Forall₂ IsString ss items) : items.mapM readParam = .ok ss := by
  induction h with
  | nil => rfl
  | cons hs _ ih =>
      rw [List.mapM_cons, hs.readParam, ih]
      rfl

theorem IsStrings.readParams {ss : List String} {j : Json} (h : j.IsStrings ss) :
    j.readParams = .ok ss := by
  obtain ⟨items, hitems, hss⟩ := h
  obtain ⟨blank, rfl, rfl⟩ | ⟨found, rfl, rfl⟩ := eq_of_elements? hitems
  · obtain rfl : ss = [] := by simpa using hss
    rfl
  · exact mapM_readParam hss

end Json

namespace JsonItems

theorem eq_last_of_toList {items : JsonItems} {x : Json} (h : items.toList = [x]) :
    ∃ before after, items = .last before x after := by
  cases items with
  | last before value after =>
      obtain rfl : value = x := by simpa [toList] using h
      exact ⟨before, after, rfl⟩
  | more before value after rest =>
      have hlength := congrArg List.length h
      cases rest <;> simp [toList] at hlength

theorem eq_more_of_toList {items : JsonItems} {x y : Json} {rest : List Json}
    (h : items.toList = x :: y :: rest) :
    ∃ before after others, items = .more before x after others ∧ others.toList = y :: rest := by
  cases items with
  | last before value after => simp [toList] at h
  | more before value after others =>
      obtain ⟨rfl, hothers⟩ : value = x ∧ others.toList = y :: rest := by simpa [toList] using h
      exact ⟨before, after, others, rfl, hothers⟩

end JsonItems

namespace Json

variable {kind : String} {x y z j : Json}

/-- A node with a field is an array of more than one item. -/
theorem IsNode.exists_items {fields : List Json} (h : j.IsNode kind (x :: fields)) :
    ∃ before k after items, j = .array (.more before k after items) ∧ k.IsString kind ∧
      items.toList = x :: fields := by
  obtain ⟨k, hk, helements⟩ := h
  obtain ⟨blank, rfl, hitems⟩ | ⟨items, rfl, hitems⟩ := eq_of_elements? helements
  · cases hitems
  · obtain ⟨before, after, others, rfl, hothers⟩ := JsonItems.eq_more_of_toList hitems.symm
    exact ⟨before, k, after, others, rfl, hk, hothers⟩

theorem IsNode.one (h : j.IsNode kind [x]) :
    ∃ b k a b₁ a₁, k.IsString kind ∧ j = .array (.more b k a (.last b₁ x a₁)) := by
  obtain ⟨b, k, a, items, rfl, hk, hitems⟩ := h.exists_items
  obtain ⟨b₁, a₁, rfl⟩ := JsonItems.eq_last_of_toList hitems
  exact ⟨b, k, a, b₁, a₁, hk, rfl⟩

theorem IsNode.two (h : j.IsNode kind [x, y]) :
    ∃ b k a b₁ a₁ b₂ a₂, k.IsString kind ∧
      j = .array (.more b k a (.more b₁ x a₁ (.last b₂ y a₂))) := by
  obtain ⟨b, k, a, items, rfl, hk, hitems⟩ := h.exists_items
  obtain ⟨b₁, a₁, others, rfl, hothers⟩ := JsonItems.eq_more_of_toList hitems
  obtain ⟨b₂, a₂, rfl⟩ := JsonItems.eq_last_of_toList hothers
  exact ⟨b, k, a, b₁, a₁, b₂, a₂, hk, rfl⟩

theorem IsNode.three (h : j.IsNode kind [x, y, z]) :
    ∃ b k a b₁ a₁ b₂ a₂ b₃ a₃, k.IsString kind ∧
      j = .array (.more b k a (.more b₁ x a₁ (.more b₂ y a₂ (.last b₃ z a₃)))) := by
  obtain ⟨b, k, a, items, rfl, hk, hitems⟩ := h.exists_items
  obtain ⟨b₁, a₁, others, rfl, hothers⟩ := JsonItems.eq_more_of_toList hitems
  obtain ⟨b₂, a₂, last, rfl, hlast⟩ := JsonItems.eq_more_of_toList hothers
  obtain ⟨b₃, a₃, rfl⟩ := JsonItems.eq_last_of_toList hlast
  exact ⟨b, k, a, b₁, a₁, b₂, a₂, b₃, a₃, hk, rfl⟩

end Json

@[simp] theorem DecodeStep.around_ok {α : Type} (step : DecodeStep) (a : α) :
    step.around (.ok a) = .ok a := rfl

theorem eq_nil_of_branchesWrittenAs {bs : List Branch} (h : branchesWrittenAs bs []) : bs = [] := by
  cases bs with
  | nil => rfl
  | cons b bs =>
      obtain ⟨c, params, body⟩ := b
      obtain ⟨j, rest, x, ps, e, hitems, -⟩ := h
      cases hitems

mutual

theorem Expr.ofJson_of_writtenAs : (e : Expr) → {j : Json} → e.WrittenAs j →
    Expr.ofJson j = .ok e
  | .var name, j, h => by
      obtain ⟨x, hnode, hx⟩ := h
      obtain ⟨_, k, _, _, _, hk, rfl⟩ := hnode.one
      have hkind := Json.IsString.readExprKind .var hk
      simp only [Expr.ofJson, hkind, hx.readName, bind, Except.bind]
      rfl
  | .ctor name, j, h => by
      obtain ⟨x, hnode, hx⟩ := h
      obtain ⟨_, k, _, _, _, hk, rfl⟩ := hnode.one
      have hkind := Json.IsString.readExprKind .ctor hk
      simp only [Expr.ofJson, hkind, hx.readName, bind, Except.bind]
      rfl
  | .num value, j, h => by
      obtain ⟨n, hnode, hn⟩ := h
      obtain ⟨_, k, _, _, _, hk, rfl⟩ := hnode.one
      have hkind := Json.IsString.readExprKind .num hk
      simp only [Expr.ofJson, hkind, hn.readInt64, bind, Except.bind]
      rfl
  | .char value, j, h => by
      obtain ⟨n, hnode, hn⟩ := h
      obtain ⟨_, k, _, _, _, hk, rfl⟩ := hnode.one
      have hkind := Json.IsString.readExprKind .char hk
      simp only [Expr.ofJson, hkind, hn.readInt64, bind, Except.bind]
      rfl
  | .caseOf scrutinee branches, j, h => by
      obtain ⟨e, bs, items, hnode, he, hitems, hbranches⟩ := h
      obtain ⟨_, k, _, _, _, _, _, hk, rfl⟩ := hnode.two
      have hkind := Json.IsString.readExprKind .caseOf hk
      have hbs := branchesOfJson_of_writtenAs branches hitems hbranches
      simp only [Expr.ofJson, hkind, Expr.ofJson_of_writtenAs scrutinee he, hbs,
        DecodeStep.around_ok, bind, Except.bind]
      rfl
  | .letIn name value body, j, h => by
      obtain ⟨x, v, b, hnode, hx, hv, hb⟩ := h
      obtain ⟨_, k, _, _, _, _, _, _, _, hk, rfl⟩ := hnode.three
      have hkind := Json.IsString.readExprKind .letIn hk
      simp only [Expr.ofJson, hkind, hx.readName, Expr.ofJson_of_writtenAs value hv,
        Expr.ofJson_of_writtenAs body hb, DecodeStep.around_ok, bind, Except.bind]
      rfl
  | .lam param body, j, h => by
      obtain ⟨x, b, hnode, hx, hb⟩ := h
      obtain ⟨_, k, _, _, _, _, _, hk, rfl⟩ := hnode.two
      have hkind := Json.IsString.readExprKind .lam hk
      simp only [Expr.ofJson, hkind, hx.readName, Expr.ofJson_of_writtenAs body hb,
        DecodeStep.around_ok, bind, Except.bind]
      rfl
  | .app func arg, j, h => by
      obtain ⟨f, a, hnode, hf, ha⟩ := h
      obtain ⟨_, k, _, _, _, _, _, hk, rfl⟩ := hnode.two
      have hkind := Json.IsString.readExprKind .app hk
      simp only [Expr.ofJson, hkind, Expr.ofJson_of_writtenAs func hf,
        Expr.ofJson_of_writtenAs arg ha, DecodeStep.around_ok, bind, Except.bind]
      rfl
  | .missing, _, h => h.elim
  | .foreign _, _, h => h.elim

theorem branchesOfJson_of_writtenAs : (bs : List Branch) → {j : Json} → {items : List Json} →
    j.elements? = some items → branchesWrittenAs bs items → branchesOfJson j = .ok bs
  | bs, j, items, hitems, h => by
      obtain ⟨blank, rfl, rfl⟩ | ⟨found, rfl, rfl⟩ := Json.eq_of_elements? hitems
      · rw [eq_nil_of_branchesWrittenAs h, branchesOfJson]
      · exact branchesOfItems_of_writtenAs bs h 0

theorem branchesOfItems_of_writtenAs : (bs : List Branch) → {items : JsonItems} →
    branchesWrittenAs bs items.toList → ∀ index, branchesOfItems index items = .ok bs
  | [], items, h => by
      have hlength := congrArg List.length h
      cases items <;> simp [JsonItems.toList] at hlength
  | .mk ctor params body :: bs, items, h => by
      intro index
      obtain ⟨j, rest, x, ps, b, hitems, hnode, hx, hps, hb, hbs⟩ := h
      have hbranch : Branch.ofJson j = .ok (.mk ctor params body) := by
        obtain ⟨_, k, _, _, _, _, _, _, _, hk, rfl⟩ := hnode.three
        have hkind := Json.IsString.expectKind .branch hk
        simp only [Branch.ofJson, hkind, hx.readName, hps.readParams,
          Expr.ofJson_of_writtenAs body hb, DecodeStep.around_ok, bind, Except.bind]
        rfl
      cases items with
      | last before value after =>
          obtain ⟨rfl, rfl⟩ : value = j ∧ [] = rest := by simpa [JsonItems.toList] using hitems
          rw [eq_nil_of_branchesWrittenAs hbs, branchesOfItems, hbranch]
          rfl
      | more before value after others =>
          obtain ⟨rfl, rfl⟩ : value = j ∧ others.toList = rest := by
            simpa [JsonItems.toList] using hitems
          rw [branchesOfItems, hbranch]
          simp only [branchesOfItems_of_writtenAs bs hbs, DecodeStep.around_ok, bind, Except.bind]
          rfl

end

theorem Def.ofJson_of_writtenAs {d : Def} {j : Json} (h : d.WrittenAs j) :
    Def.ofJson j = .ok d := by
  obtain ⟨x, b, hnode, hx, hb⟩ := h
  obtain ⟨_, k, _, _, _, _, _, hk, rfl⟩ := hnode.two
  have hkind := Json.IsString.expectKind .definition hk
  simp only [Def.ofJson, hkind, hx.readName, d.body.ofJson_of_writtenAs hb,
    DecodeStep.around_ok, bind, Except.bind]
  rfl

namespace Program

theorem ofItems_of_writtenAs {p : Program} {items : JsonItems}
    (h : List.Forall₂ Def.WrittenAs p items.toList) (index : Nat) :
    ofItems index items = .ok p := by
  induction p generalizing items index with
  | nil =>
      have hlength := h.length_eq
      cases items <;> simp [JsonItems.toList] at hlength
  | cons d p ih =>
      cases items with
      | last before value after =>
          obtain ⟨hd, hp⟩ : d.WrittenAs value ∧ List.Forall₂ Def.WrittenAs p [] := by
            simpa [JsonItems.toList] using h
          obtain rfl : p = [] := by simpa using hp
          rw [ofItems, Def.ofJson_of_writtenAs hd]
          rfl
      | more before value after others =>
          obtain ⟨hd, hp⟩ : d.WrittenAs value ∧ List.Forall₂ Def.WrittenAs p others.toList := by
            simpa [JsonItems.toList] using h
          simp only [ofItems, Def.ofJson_of_writtenAs hd, ih hp, DecodeStep.around_ok, bind,
            Except.bind]
          rfl

theorem ofJson_of_writtenAs {p : Program} {j : Json} (h : p.WrittenAs j) : ofJson j = .ok p := by
  obtain ⟨items, hitems, hp⟩ := h
  obtain ⟨blank, rfl, rfl⟩ | ⟨found, rfl, rfl⟩ := Json.eq_of_elements? hitems
  · obtain rfl : p = [] := by simpa using hp
    rfl
  · exact ofItems_of_writtenAs hp 0

theorem ofBytes_encode {p : Program} {d : Document} (h : d.Writes p) :
    ofBytes (Utf8.encode d.spell) =
      if d.value.depth ≤ Json.maxDepth then .ok p
      else .error ⟨[.program], .notJson .tooDeep⟩ := by
  rw [ofBytes, Utf8.decode_encode, ofText, Document.parse_spell h.legal]
  by_cases hdepth : d.value.depth ≤ Json.maxDepth
  · rw [if_pos hdepth, if_pos hdepth]
    exact ofJson_of_writtenAs h.written
  · rw [if_neg hdepth, if_neg hdepth]

theorem eq_of_encode_eq {p q : Program} {d d' : Document} (hp : d.Writes p) (hq : d'.Writes q)
    (heq : Utf8.encode d.spell = Utf8.encode d'.spell) : p = q := by
  have htext : d.spell = d'.spell := by
    rw [← Utf8.decode_encode d.spell, heq, Utf8.decode_encode]
  obtain rfl := Document.eq_of_spell_eq hp.legal hq.legal htext
  have hread := ofJson_of_writtenAs hp.written
  rw [ofJson_of_writtenAs hq.written] at hread
  exact (Except.ok.inj hread).symm

/-- Decoding undoes encoding. The programs that have a text are those without missing and
foreign parts. Every text of a program that nests at most 10000 arrays is read as that program,
however it spells blanks, strings and numbers. Two programs never share a text, and all texts of
one program are compiled alike, however deep they are nested. -/
theorem read_back :
    (∀ p : Program, (∃ d : Document, d.Writes p) ↔ ∀ x ∈ p, x.body.holes = []) ∧
    (∀ (p : Program) (d : Document), d.Writes p → d.value.depth ≤ 10000 →
      ofBytes (Utf8.encode d.spell) = .ok p) ∧
    (∀ (p q : Program) (d d' : Document), d.Writes p → d'.Writes q →
      Utf8.encode d.spell = Utf8.encode d'.spell → p = q) ∧
    ∀ (mode : Dispatch) (p : Program) (d d' : Document), d.Writes p → d'.Writes p →
      compile mode (Utf8.encode d.spell) = compile mode (Utf8.encode d'.spell) := by
  refine ⟨exists_writes_iff, ?_, fun _ _ _ _ => eq_of_encode_eq, ?_⟩
  · intro p d hd hdepth
    rw [ofBytes_encode hd]
    exact if_pos hdepth
  · intro mode p d d' hd hd'
    have hdepth : d.value.depth = d'.value.depth :=
      (depth_of_writes hd).trans (depth_of_writes hd').symm
    rw [compile, compile, ofBytes_encode hd, ofBytes_encode hd', hdepth]

/-- A program with names that have to be escaped or may be, the least number and an empty list. -/
def escapedNames : Program :=
  [⟨"😀", .caseOf (.num (-9223372036854775808)) [.mk "\"" [] (.lam "é" (.var "é"))]⟩]

/-- A text of `escapedNames` with blanks, in which a kind and most of the names are escaped:

```
 [
["\u0044ef", "\ud83D\uDE00",["ExprCase" ,["ExprNumber",-9223372036854775808],
[ ["CaseBranch","\"",[ ],["ExprLambda","\u00e9",["ExprVar","é"]]]]]]	]
```
-/
def escapedNamesText : Document where
  before := [' ']
  value :=
    .array (.last ['\n']
      (.array (.more [] (.string [.unit ['0', '0', '4', '4'], .plain 'e', .plain 'f']) []
        (.more [' '] (.string [.unit ['d', '8', '3', 'D'], .unit ['D', 'E', '0', '0']]) []
        (.last []
          (.array (.more [] (.ofString "ExprCase") [' ']
            (.more [] (.node "ExprNumber" [.number "-9223372036854775808".toList]) []
            (.last ['\n']
              (.array (.last [' ']
                (.array (.more [] (.ofString "CaseBranch") []
                  (.more [] (.string [.escape '"']) []
                  (.more [] (.emptyArray [' ']) []
                  (.last []
                    (.node "ExprLambda"
                      [.string [.unit ['0', '0', 'e', '9']], .node "ExprVar" [.ofString "é"]])
                    [])))))
                []))
              []))))
          []))))
      ['\t'])
  after := ['\r', '\n']

theorem escapedNamesText_writes : escapedNamesText.Writes escapedNames := by
  have hdef : Json.IsString "Def"
      (.string [.unit ['0', '0', '4', '4'], .plain 'e', .plain 'f']) :=
    .unit (.digits (.inl rfl) (.inl rfl) (.inl rfl) (.inl rfl))
      (.plain ⟨by decide, by decide⟩ (.plain ⟨by decide, by decide⟩ .nil))
  have hname : Json.IsString "😀"
      (.string [.unit ['d', '8', '3', 'D'], .unit ['D', 'E', '0', '0']]) :=
    .pair (by decide) (.digits (.inl rfl) (.inl rfl) (.inl rfl) (.inr rfl))
      (.digits (.inr rfl) (.inr rfl) (.inl rfl) (.inl rfl)) .nil
  have hquote : Json.IsString "\"" (.string [.escape '"']) := .escape (by decide) .nil
  have hparam : Json.IsString "é" (.string [.unit ['0', '0', 'e', '9']]) :=
    .unit (.digits (.inl rfl) (.inl rfl) (.inl rfl) (.inl rfl)) .nil
  have hlexeme : "-9223372036854775808".toList =
      (toString (-9223372036854775808 : Int64).toInt).toList := rfl
  have hnumber : Json.IsNumber "-9223372036854775808".toList :=
    hlexeme ▸ Json.isNumber_toString _
  constructor
  · have hlegal : Json.Legal (.node "ExprNumber" [.number "-9223372036854775808".toList]) ∧
        Json.Legal (.node "ExprLambda" [.string [.unit ['0', '0', 'e', '9']],
          .node "ExprVar" [.ofString "é"]]) := by
      constructor
      · refine Json.legal_node (List.forall_mem_singleton.mpr ?_)
        exact hnumber
      · refine Json.legal_node (List.forall_mem_cons.mpr ⟨hparam.legal, ?_⟩)
        exact List.forall_mem_singleton.mpr (Json.legal_node (by simp [Json.legal_ofString]))
    simp only [Document.Legal, escapedNamesText, Json.legal_array, Json.legal_emptyArray,
      JsonItems.Legal, hdef.legal, hname.legal, hquote.legal, Json.legal_ofString, hlegal,
      true_and]
    simp [Blank.Legal]
  · refine ⟨_, rfl, .cons ⟨_, _, ⟨_, hdef, rfl⟩, hname, ?_⟩ .nil⟩
    refine ⟨_, _, _, ⟨_, Json.isString_ofString _, rfl⟩, ?_, rfl, ?_⟩
    · exact ⟨_, Json.isNode_node _ _, .inl hlexeme⟩
    · refine ⟨_, _, _, _, _, rfl, ⟨_, Json.isString_ofString _, rfl⟩, hquote, ⟨_, rfl, .nil⟩,
        ?_, rfl⟩
      exact ⟨_, _, Json.isNode_node _ _, hparam, _, Json.isNode_node _ _, Json.isString_ofString _⟩

theorem read_back_escapedNames :
    escapedNamesText.Writes escapedNames ∧ escapedNamesText.value.depth = 7 ∧
    ofBytes (Utf8.encode escapedNamesText.spell) = .ok escapedNames ∧
    escapedNamesText.spell ≠ escapedNames.document.spell ∧
    ∀ mode, compile mode (Utf8.encode escapedNamesText.spell) =
      compile mode (Utf8.encode escapedNames.document.spell) := by
  obtain ⟨hholes, hread, -, hcompile⟩ := read_back
  have hwrites := escapedNamesText_writes
  have hdocument := document_writes ((hholes escapedNames).mp ⟨_, hwrites⟩)
  exact ⟨hwrites, rfl, hread _ _ hwrites (by decide), by decide +kernel,
    fun mode => hcompile mode _ _ _ hwrites hdocument⟩

end Program
end Lowering

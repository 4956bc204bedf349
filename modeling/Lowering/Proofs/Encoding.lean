import Mathlib.Data.List.Forall2
import Mathlib.Tactic.IntervalCases
import Lowering.Expr.Parts
import Lowering.Expr.TaggedForm

/-!
# Which programs can be written

`toJson` is legal and writes the program it is made from, unless a part of the program is
missing or foreign. Nothing writes such a part, so the programs that have a text are those
without holes. All values that write a program are nested equally deep.
-/

namespace Lowering

namespace StringPart

theorem isHex_digitChar {v : Nat} (h : v < 16) : IsHex (Nat.digitChar v) v := by
  left
  interval_cases v <;> rfl

/-- Two digits are enough for a character below U+0100. -/
theorem isUnit_digitChar {n : Nat} (h : n < 256) :
    IsUnit ['0', '0', Nat.digitChar (n / 16), Nat.digitChar (n % 16)] n := by
  have hzero : IsHex '0' 0 := isHex_digitChar (by decide)
  have hfirst : n / 4096 = 0 := by omega
  have hsecond : n / 256 % 16 = 0 := by omega
  have hthird : n / 16 % 16 = n / 16 := by omega
  apply IsUnit.digits
  · rwa [hfirst]
  · rwa [hsecond]
  · rw [hthird]
    exact isHex_digitChar (by omega)
  · exact isHex_digitChar (by omega)

theorem spells_map_ofChar (s : List Char) : Spells (s.map ofChar) s := by
  induction s with
  | nil => exact .nil
  | cons c s ih =>
      rw [List.map_cons, ofChar]
      split
      · rename_i hc
        have hlow : c.toNat < 256 := by
          rcases hc with hc | rfl | rfl
          · omega
          · decide
          · decide
        exact .unit (isUnit_digitChar hlow) ih
      · rename_i hc
        have hplain : IsPlain c := by
          simp only [not_or] at hc
          exact ⟨by omega, hc.2⟩
        exact .plain hplain ih

theorem Spells.legal {parts : List StringPart} {s : List Char} (h : Spells parts s) :
    ∀ part ∈ parts, part.Legal := by
  induction h with
  | nil => simp
  | plain hc _ ih => exact List.forall_mem_cons.mpr ⟨hc, ih⟩
  | escape hc _ ih => exact List.forall_mem_cons.mpr ⟨⟨_, hc⟩, ih⟩
  | unit hc _ ih => exact List.forall_mem_cons.mpr ⟨⟨_, hc⟩, ih⟩
  | pair _ hhigh hlow _ ih =>
      exact List.forall_mem_cons.mpr ⟨⟨_, hhigh⟩, List.forall_mem_cons.mpr ⟨⟨_, hlow⟩, ih⟩⟩

end StringPart

namespace Json

theorem head?_toDigits {n : Nat} (h : n ≠ 0) : (Nat.toDigits 10 n).head? ≠ some '0' := by
  induction n using Nat.strongRecOn with
  | ind n ih =>
      by_cases hn : n < 10
      · rw [Nat.toDigits_of_lt_base hn]
        simpa using h
      · -- The last digit is not the first one, which is that of `n / 10`.
        rw [Nat.toDigits_of_base_le (by decide) (by omega),
          List.head?_append_of_ne_nil _ Nat.toDigits_ne_nil]
        exact ih (n / 10) (by omega) (by omega)

theorem isWhole_toDigits (n : Nat) : IsWhole (Nat.toDigits 10 n) := by
  by_cases hn : n = 0
  · subst hn
    exact .zero
  · refine .digits ⟨Nat.toDigits_ne_nil, ?_⟩ (head?_toDigits hn)
    exact fun c hc => Nat.isDigit_of_mem_toDigits (by decide) (by decide) hc

theorem toList_toString_of_nonneg {n : Int} (h : 0 ≤ n) :
    (toString n).toList = Nat.toDigits 10 n.toNat := by
  rw [Int.toString_eq_repr, Int.repr_eq_if, if_pos h, Nat.toList_repr]

theorem toList_toString_of_neg {n : Int} (h : ¬0 ≤ n) :
    (toString n).toList = '-' :: Nat.toDigits 10 (-n).toNat := by
  rw [Int.toString_eq_repr, Int.repr_eq_if, if_neg h, String.toList_append, Nat.toList_repr]
  rfl

theorem IsWhole.isNumber {whole : List Char} (h : IsWhole whole) (sign : List Char)
    (hsign : sign ∈ [[], ['-']]) : IsNumber (sign ++ whole) := by
  simpa using IsNumber.parts hsign h .none .none

theorem isNumber_toString (n : Int) : IsNumber (toString n).toList := by
  by_cases hn : 0 ≤ n
  · rw [toList_toString_of_nonneg hn]
    exact (isWhole_toDigits _).isNumber [] (by simp)
  · rw [toList_toString_of_neg hn]
    exact (isWhole_toDigits _).isNumber ['-'] (by simp)

theorem isString_ofString (s : String) : (ofString s).IsString s :=
  StringPart.spells_map_ofChar s.toList

theorem isWord_ofWord (n : Int64) : (ofWord n).IsWord n := .inl rfl

theorem IsString.legal {s : String} {j : Json} (h : j.IsString s) : j.Legal := by
  cases j with
  | string parts =>
      rw [Json.Legal]
      exact StringPart.Spells.legal h
  | _ => exact h.elim

theorem legal_ofString (s : String) : (ofString s).Legal := (isString_ofString s).legal

theorem legal_ofWord (n : Int64) : (ofWord n).Legal := by
  rw [ofWord, Json.Legal]
  exact isNumber_toString n.toInt

/-- Only arrays have items. -/
theorem eq_of_elements? {j : Json} {items : List Json} (h : j.elements? = some items) :
    (∃ blank, j = .emptyArray blank ∧ items = []) ∨
      ∃ found : JsonItems, j = .array found ∧ items = found.toList := by
  cases j with
  | emptyArray blank =>
      left
      exact ⟨blank, rfl, by simpa [elements?] using h.symm⟩
  | array found =>
      right
      exact ⟨found, rfl, by simpa [elements?] using h.symm⟩
  | _ => simp [elements?] at h

theorem toList_ofList (value : Json) (rest : List Json) :
    (JsonItems.ofList value rest).toList = value :: rest := by
  induction rest generalizing value with
  | nil => rfl
  | cons next rest ih => rw [JsonItems.ofList, JsonItems.toList, ih]

theorem elements?_ofList (values : List Json) : (ofList values).elements? = some values := by
  cases values with
  | nil => rfl
  | cons value rest => rw [ofList, elements?, toList_ofList]

theorem isNode_node (kind : String) (fields : List Json) : (node kind fields).IsNode kind fields :=
  ⟨ofString kind, isString_ofString kind, elements?_ofList _⟩

theorem legal_array {items : JsonItems} : (array items).Legal ↔ items.Legal := Iff.rfl

theorem legal_emptyArray {blank : Blank} : (emptyArray blank).Legal ↔ blank.Legal := Iff.rfl

theorem legal_ofList {values : List Json} (h : ∀ value ∈ values, value.Legal) :
    (ofList values).Legal := by
  cases values with
  | nil => simp [ofList, legal_emptyArray, Blank.Legal]
  | cons value rest =>
      rw [ofList, legal_array]
      induction rest generalizing value with
      | nil => simpa [JsonItems.ofList, JsonItems.Legal, Blank.Legal] using h
      | cons next rest ih =>
          rw [JsonItems.ofList, JsonItems.Legal]
          refine ⟨by simp [Blank.Legal], h value (by simp), by simp [Blank.Legal], ?_⟩
          exact ih next fun v hv => h v (by simp [List.mem_cons.mp hv])

theorem legal_node {kind : String} {fields : List Json} (h : ∀ field ∈ fields, field.Legal) :
    (node kind fields).Legal :=
  legal_ofList (List.forall_mem_cons.mpr ⟨legal_ofString kind, h⟩)

end Json

mutual

theorem Expr.writtenAs_toJson : (e : Expr) → e.holes = [] → e.WrittenAs e.toJson
  | .var name, _ => ⟨_, Json.isNode_node _ _, Json.isString_ofString name⟩
  | .ctor name, _ => ⟨_, Json.isNode_node _ _, Json.isString_ofString name⟩
  | .num value, _ => ⟨_, Json.isNode_node _ _, Json.isWord_ofWord value⟩
  | .char value, _ => ⟨_, Json.isNode_node _ _, Json.isWord_ofWord value⟩
  | .caseOf scrutinee branches, h => by
      rw [Expr.holes, List.append_eq_nil_iff] at h
      exact ⟨_, _, _, Json.isNode_node _ _, scrutinee.writtenAs_toJson h.1,
        Json.elements?_ofList _, branchesWrittenAs_toJson branches h.2⟩
  | .letIn name value body, h => by
      rw [Expr.holes, List.append_eq_nil_iff] at h
      exact ⟨_, _, _, Json.isNode_node _ _, Json.isString_ofString name,
        value.writtenAs_toJson h.1, body.writtenAs_toJson h.2⟩
  | .lam param body, h =>
      ⟨_, _, Json.isNode_node _ _, Json.isString_ofString param, body.writtenAs_toJson h⟩
  | .app func arg, h => by
      rw [Expr.holes, List.append_eq_nil_iff] at h
      exact ⟨_, _, Json.isNode_node _ _, func.writtenAs_toJson h.1, arg.writtenAs_toJson h.2⟩
  | .missing, h => by cases h
  | .foreign _, h => by cases h

theorem branchesWrittenAs_toJson : (bs : List Branch) → holesInBranches bs = [] →
    branchesWrittenAs bs (branchesToJson bs)
  | [], _ => rfl
  | .mk ctor params body :: bs, h => by
      rw [holesInBranches, List.append_eq_nil_iff] at h
      have hparams : Json.IsStrings params (.ofList (params.map .ofString)) := by
        refine ⟨_, Json.elements?_ofList _, List.forall₂_map_right_iff.mpr ?_⟩
        exact List.forall₂_same.mpr fun s _ => Json.isString_ofString s
      exact ⟨_, _, _, _, _, rfl, Json.isNode_node _ _, Json.isString_ofString ctor, hparams,
        body.writtenAs_toJson h.1, branchesWrittenAs_toJson bs h.2⟩

end

mutual

theorem Expr.legal_toJson : (e : Expr) → e.toJson.Legal
  | .var name => Json.legal_node (by simp [Json.legal_ofString])
  | .ctor name => Json.legal_node (by simp [Json.legal_ofString])
  | .num value => Json.legal_node (by simp [Json.legal_ofWord])
  | .char value => Json.legal_node (by simp [Json.legal_ofWord])
  | .caseOf scrutinee branches => by
      have hbranches := Json.legal_ofList (legal_branchesToJson branches)
      exact Json.legal_node (by simp [scrutinee.legal_toJson, hbranches])
  | .letIn name value body =>
      Json.legal_node (by simp [Json.legal_ofString, value.legal_toJson, body.legal_toJson])
  | .lam param body => Json.legal_node (by simp [Json.legal_ofString, body.legal_toJson])
  | .app func arg => Json.legal_node (by simp [func.legal_toJson, arg.legal_toJson])
  | .missing => trivial
  | .foreign _ => trivial

theorem legal_branchesToJson : (bs : List Branch) → ∀ j ∈ branchesToJson bs, j.Legal
  | [] => by simp [branchesToJson]
  | .mk ctor params body :: bs => by
      have hparams : (Json.ofList (params.map .ofString)).Legal :=
        Json.legal_ofList (by simp [Json.legal_ofString])
      refine List.forall_mem_cons.mpr ⟨Json.legal_node ?_, legal_branchesToJson bs⟩
      simp [Json.legal_ofString, hparams, body.legal_toJson]

end

mutual

/-- What can be written has no holes. -/
theorem Expr.WrittenAs.holes_eq_nil : (e : Expr) → {j : Json} → e.WrittenAs j → e.holes = []
  | .var _, _, _ => rfl
  | .ctor _, _, _ => rfl
  | .num _, _, _ => rfl
  | .char _, _, _ => rfl
  | .caseOf scrutinee branches, _, h => by
      obtain ⟨_, _, _, -, he, -, hbs⟩ := h
      rw [Expr.holes, Expr.WrittenAs.holes_eq_nil scrutinee he,
        holesInBranches_eq_nil_of_writtenAs branches hbs, List.append_nil]
  | .letIn _ value body, _, h => by
      obtain ⟨_, _, _, -, -, hv, hb⟩ := h
      rw [Expr.holes, Expr.WrittenAs.holes_eq_nil value hv, Expr.WrittenAs.holes_eq_nil body hb,
        List.append_nil]
  | .lam _ body, _, h => by
      obtain ⟨_, _, -, -, hb⟩ := h
      exact Expr.WrittenAs.holes_eq_nil body hb
  | .app func arg, _, h => by
      obtain ⟨_, _, -, hf, ha⟩ := h
      rw [Expr.holes, Expr.WrittenAs.holes_eq_nil func hf, Expr.WrittenAs.holes_eq_nil arg ha,
        List.append_nil]
  | .missing, _, h => h.elim
  | .foreign _, _, h => h.elim

theorem holesInBranches_eq_nil_of_writtenAs : (bs : List Branch) → {items : List Json} →
    branchesWrittenAs bs items → holesInBranches bs = []
  | [], _, _ => rfl
  | .mk _ _ body :: bs, _, h => by
      obtain ⟨_, _, _, _, _, -, -, -, -, hb, hbs⟩ := h
      rw [holesInBranches, Expr.WrittenAs.holes_eq_nil body hb,
        holesInBranches_eq_nil_of_writtenAs bs hbs, List.append_nil]

end

namespace Json

theorem IsString.depth {s : String} {j : Json} (h : j.IsString s) : j.depth = 0 := by
  cases j with
  | string parts => rfl
  | _ => exact h.elim

theorem IsWord.depth {n : Int64} {j : Json} (h : j.IsWord n) : j.depth = 0 := by
  cases j with
  | number lexeme => rfl
  | _ => exact h.elim

@[simp] theorem depth_ofString (s : String) : (ofString s).depth = 0 := rfl

@[simp] theorem depth_ofWord (n : Int64) : (ofWord n).depth = 0 := rfl

theorem depth_items (items : JsonItems) :
    items.depth = (items.toList.map Json.depth).foldr max 0 := by
  match items with
  | .last _ value _ => simp [JsonItems.depth, JsonItems.toList]
  | .more _ value _ rest => simp [JsonItems.depth, JsonItems.toList, depth_items rest]

/-- An array is nested one deeper than its items. -/
theorem depth_of_elements? {j : Json} {items : List Json} (h : j.elements? = some items) :
    j.depth = (items.map Json.depth).foldr max 0 + 1 := by
  obtain ⟨blank, rfl, rfl⟩ | ⟨found, rfl, rfl⟩ := eq_of_elements? h
  · rfl
  · rw [Json.depth, depth_items]

theorem depth_eq_of_elements? {j j' : Json} {items items' : List Json}
    (h : j.elements? = some items) (h' : j'.elements? = some items')
    (hitems : items.map Json.depth = items'.map Json.depth) : j.depth = j'.depth := by
  rw [depth_of_elements? h, depth_of_elements? h', hitems]

/-- The depth of a node depends only on that of its fields. -/
theorem IsNode.depth_node {kind : String} {fields fields' : List Json} {j : Json}
    (h : j.IsNode kind fields) (hfields : fields.map Json.depth = fields'.map Json.depth) :
    j.depth = (node kind fields').depth := by
  obtain ⟨k, hk, hj⟩ := h
  refine depth_eq_of_elements? hj (elements?_ofList _) ?_
  rw [List.map_cons, List.map_cons, hk.depth, (isString_ofString kind).depth, hfields]

theorem map_depth_of_isString {ss : List String} {items : List Json}
    (h : List.Forall₂ IsString ss items) :
    items.map Json.depth = (ss.map ofString).map Json.depth := by
  induction h with
  | nil => rfl
  | cons hs _ ih =>
      rw [List.map_cons, List.map_cons, List.map_cons, hs.depth, ih]
      rfl

end Json

mutual

theorem Expr.depth_of_writtenAs : (e : Expr) → {j : Json} → e.WrittenAs j →
    j.depth = e.toJson.depth
  | .var _, _, ⟨_, hnode, hx⟩ => hnode.depth_node (by simp [hx.depth])
  | .ctor _, _, ⟨_, hnode, hx⟩ => hnode.depth_node (by simp [hx.depth])
  | .num _, _, ⟨_, hnode, hn⟩ => hnode.depth_node (by simp [hn.depth])
  | .char _, _, ⟨_, hnode, hn⟩ => hnode.depth_node (by simp [hn.depth])
  | .caseOf scrutinee branches, _, ⟨_, bs, _, hnode, he, hbs, hbranches⟩ => by
      have hdepth : bs.depth = (Json.ofList (branchesToJson branches)).depth :=
        Json.depth_eq_of_elements? hbs (Json.elements?_ofList _)
          (map_depth_of_branchesWrittenAs branches hbranches)
      exact hnode.depth_node (by simp [scrutinee.depth_of_writtenAs he, hdepth])
  | .letIn _ value body, _, ⟨_, _, _, hnode, hx, hv, hb⟩ =>
      hnode.depth_node (by
        simp [hx.depth, value.depth_of_writtenAs hv, body.depth_of_writtenAs hb])
  | .lam _ body, _, ⟨_, _, hnode, hx, hb⟩ =>
      hnode.depth_node (by simp [hx.depth, body.depth_of_writtenAs hb])
  | .app func arg, _, ⟨_, _, hnode, hf, ha⟩ =>
      hnode.depth_node (by simp [func.depth_of_writtenAs hf, arg.depth_of_writtenAs ha])

theorem map_depth_of_branchesWrittenAs : (bs : List Branch) → {items : List Json} →
    branchesWrittenAs bs items → items.map Json.depth = (branchesToJson bs).map Json.depth
  | [], _, h => by rw [branchesToJson, h]
  | .mk _ params body :: bs, _, ⟨j, _, _, ps, _, hitems, hnode, hx, hps, hb, hbs⟩ => by
      obtain ⟨found, hfound, hparams⟩ := hps
      have hdepth : ps.depth = (Json.ofList (params.map .ofString)).depth :=
        Json.depth_eq_of_elements? hfound (Json.elements?_ofList _)
          (Json.map_depth_of_isString hparams)
      rw [hitems, branchesToJson, List.map_cons, List.map_cons,
        map_depth_of_branchesWrittenAs bs hbs]
      congr 1
      exact hnode.depth_node (by simp [hx.depth, hdepth, body.depth_of_writtenAs hb])

end

namespace Program

theorem document_writes {p : Program} (h : ∀ d ∈ p, d.body.holes = []) : p.document.Writes p where
  legal := by
    refine ⟨by simp [document, Blank.Legal], Json.legal_ofList ?_, by simp [document, Blank.Legal]⟩
    intro j hj
    obtain ⟨d, -, rfl⟩ := List.mem_map.mp hj
    exact Json.legal_node (by simp [Json.legal_ofString, d.body.legal_toJson])
  written := by
    refine ⟨_, Json.elements?_ofList _,
      List.forall₂_map_right_iff.mpr (List.forall₂_same.mpr fun d hd => ?_)⟩
    exact ⟨_, _, Json.isNode_node _ _, Json.isString_ofString d.name,
      d.body.writtenAs_toJson (h d hd)⟩

/-- The programs that can be written are those without holes. -/
theorem exists_writes_iff (p : Program) :
    (∃ d : Document, d.Writes p) ↔ ∀ d ∈ p, d.body.holes = [] := by
  constructor
  · rintro ⟨document, -, items, -, hp⟩
    have hboth : List.Forall₂ (fun d j => d.body.holes = [] ∧ Def.WrittenAs d j) p items := by
      refine hp.imp ?_
      rintro d j ⟨x, b, hnode, hx, hb⟩
      exact ⟨Expr.WrittenAs.holes_eq_nil d.body hb, x, b, hnode, hx, hb⟩
    exact ((List.forall₂_and_left _ _).mp hboth).1
  · exact fun h => ⟨p.document, document_writes h⟩

/-- All texts of a program are nested equally deep. -/
theorem depth_of_writes {p : Program} {d : Document} (h : d.Writes p) :
    d.value.depth = p.toJson.depth := by
  obtain ⟨items, hitems, hp⟩ := h.written
  refine Json.depth_eq_of_elements? hitems (Json.elements?_ofList _) ?_
  clear hitems h
  induction hp with
  | nil => rfl
  | cons hd _ ih =>
      obtain ⟨x, b, hnode, hx, hb⟩ := hd
      rw [List.map_cons, List.map_cons, List.map_cons, ih]
      congr 1
      exact hnode.depth_node (by simp [hx.depth, Expr.depth_of_writtenAs _ hb])

end Program
end Lowering

import Lowering.Proofs.Pipeline
import Lowering.Proofs.Separation

/-!
# Listings can be read back

A line ends at its line end. What stands before it ends in a colon for a mark and in a
parenthesis for any other instruction, so a label cannot pass for an instruction. The name of
the operation ends at the first parenthesis and says how many operands follow; every operand
but the last ends at a comma, and only the last can be a label.
-/

namespace Lowering

/-- Texts that are the same, up to a separator that neither has before it, are the same
before and after it. -/
theorem append_cons_inj {α : Type} {sep : α} {xs ys us vs : List α} (hxs : sep ∉ xs)
    (hys : sep ∉ ys) (h : xs ++ sep :: us = ys ++ sep :: vs) : xs = ys ∧ us = vs := by
  induction xs generalizing ys with
  | nil =>
      cases ys with
      | nil => exact ⟨rfl, (List.cons.inj h).2⟩
      | cons y ys => exact absurd (List.mem_cons.mpr (.inl (List.cons.inj h).1)) hys
  | cons x xs ih =>
      cases ys with
      | nil => exact absurd (List.mem_cons.mpr (.inl (List.cons.inj h).1.symm)) hxs
      | cons y ys =>
          obtain ⟨rfl, htail⟩ := List.cons.inj h
          obtain ⟨rfl, hrest⟩ := ih (List.not_mem_of_not_mem_cons hxs)
            (List.not_mem_of_not_mem_cons hys) htail
          exact ⟨rfl, hrest⟩

namespace Instr

/-- The name of an operation. Marks have none. -/
def operation : Instr → String
  | .mark _ => ""
  | .movReg _ _ => "mov_reg"
  | .movInt _ _ => "mov_int"
  | .movLabel _ _ => "mov_label"
  | .alloc _ _ => "alloc"
  | .load _ _ _ => "load"
  | .store _ _ _ => "store"
  | .print _ => "print"
  | .printChar _ => "print_char"
  | .jump _ => "jump"
  | .jumpEq _ _ _ => "jump_eq"
  | .icall _ => "icall"
  | .ret => "return"

/-- The operands of an instruction, as listings show them. -/
def operands : Instr → List String
  | .mark label => [label.text]
  | .movReg dst src => [dst.text, src.text]
  | .movInt dst value => [dst.text, toString value]
  | .movLabel dst label => [dst.text, label.text]
  | .alloc dst slots => [dst.text, toString slots]
  | .load dst src index => [dst.text, src.text, toString index]
  | .store dst index src => [dst.text, toString index, src.text]
  | .print src => [src.text]
  | .printChar src => [src.text]
  | .jump label => [label.text]
  | .jumpEq left right label => [left.text, right.text, label.text]
  | .icall src => [src.text]
  | .ret => []

/-- The number of operands of an operation. -/
def arity : String → Nat
  | "return" => 0
  | "" | "print" | "print_char" | "jump" | "icall" => 1
  | "load" | "store" | "jump_eq" => 3
  | _ => 2

/-- The instruction with the given operation and operands. -/
def ofParts? : String → List String → Option Instr
  | "", [label] => some (.mark ⟨label⟩)
  | "mov_reg", [dst, src] => some (.movReg ⟨dst⟩ ⟨src⟩)
  | "mov_int", [dst, value] => value.toInt?.map (.movInt ⟨dst⟩)
  | "mov_label", [dst, label] => some (.movLabel ⟨dst⟩ ⟨label⟩)
  | "alloc", [dst, slots] => slots.toInt?.map (.alloc ⟨dst⟩)
  | "load", [dst, src, index] => index.toInt?.map (.load ⟨dst⟩ ⟨src⟩)
  | "store", [dst, index, src] => index.toInt?.map (.store ⟨dst⟩ · ⟨src⟩)
  | "print", [src] => some (.print ⟨src⟩)
  | "print_char", [src] => some (.printChar ⟨src⟩)
  | "jump", [label] => some (.jump ⟨label⟩)
  | "jump_eq", [left, right, label] => some (.jumpEq ⟨left⟩ ⟨right⟩ ⟨label⟩)
  | "icall", [src] => some (.icall ⟨src⟩)
  | "return", [] => some .ret
  | _, _ => none

theorem ofParts?_operands (i : Instr) : ofParts? i.operation i.operands = some i := by
  cases i <;> simp [ofParts?, operation, operands]

theorem length_operands (i : Instr) : i.operands.length = arity i.operation := by
  cases i <;> rfl

/-- No two instructions have the same operation and the same operands. -/
theorem eq_of_operands {i j : Instr} (hop : i.operation = j.operation)
    (hargs : i.operands = j.operands) : i = j := by
  have hi := ofParts?_operands i
  rw [hop, hargs, ofParts?_operands j] at hi
  exact (Option.some.inj hi).symm

/-- The label that an instruction names. -/
def label? : Instr → Option Label
  | .mark label => some label
  | .movLabel _ label => some label
  | .jump label => some label
  | .jumpEq _ _ label => some label
  | _ => none

/-- No register or label has a line end, and no register a comma. -/
structure Legible (i : Instr) : Prop where
  regs : ∀ r ∈ i.regs, '\n' ∉ r.text.toList ∧ ',' ∉ r.text.toList
  label : ∀ l ∈ i.label?, '\n' ∉ l.text.toList

/-- Numbers are written with digits and a sign. -/
theorem mem_toString {n : Int} {c : Char} (h : c ∈ (toString n).toList) :
    c = '-' ∨ c.isDigit = true := by
  rw [Int.toString_eq_repr, Int.repr_eq_if] at h
  split at h
  · rw [Nat.toList_repr] at h
    exact .inr (Nat.isDigit_of_mem_toDigits (by decide) (by decide) h)
  · rw [String.toList_append, Nat.toList_repr] at h
    rcases List.mem_append.mp h with h | h
    · exact .inl (List.mem_singleton.mp h)
    · exact .inr (Nat.isDigit_of_mem_toDigits (by decide) (by decide) h)

theorem notMem_toString {c : Char} (hc : c ≠ '-' ∧ c.isDigit = false) (n : Int) :
    c ∉ (toString n).toList := by
  intro hmem
  rcases mem_toString hmem with h | h
  · exact hc.1 h
  · rw [hc.2] at h
    cases h

/-- A line end is in no operand. -/
theorem Legible.newline_notMem {i : Instr} (h : i.Legible) :
    ∀ x ∈ i.operands, '\n' ∉ x.toList := by
  have hint := notMem_toString (c := '\n') (by decide)
  obtain ⟨hregs, hlabel⟩ := h
  cases i <;> simp_all [operands, Instr.regs, label?]

/-- A comma is in no operand but the last. -/
theorem Legible.comma_notMem {i : Instr} (h : i.Legible) :
    ∀ x ∈ i.operands.dropLast, ',' ∉ x.toList := by
  have hint := notMem_toString (c := ',') (by decide)
  obtain ⟨hregs, -⟩ := h
  cases i <;> simp_all [operands, Instr.regs]

theorem toList_form (op : String) (xs : List String) :
    (form op xs).toList = op.toList ++ '(' :: ((", ".intercalate xs).toList ++ [')']) := by
  simp [form]

/-- Operands can be told apart when there are as many of them on both sides and only the last
may have commas. -/
theorem intercalate_injective : ∀ {xs ys : List String}, xs.length = ys.length →
    (∀ x ∈ xs.dropLast, ',' ∉ x.toList) → (∀ y ∈ ys.dropLast, ',' ∉ y.toList) →
    ", ".intercalate xs = ", ".intercalate ys → xs = ys
  | [], [], _, _, _, _ => rfl
  | [x], [y], _, _, _, h => by simpa using h
  | x :: x' :: xs, y :: y' :: ys, hlength, hxs, hys, h => by
      have hchars : x.toList ++ ',' :: ' ' :: (", ".intercalate (x' :: xs)).toList =
          y.toList ++ ',' :: ' ' :: (", ".intercalate (y' :: ys)).toList := by
        simpa [String.intercalate_cons_cons] using congrArg String.toList h
      obtain ⟨hhead, hrest⟩ := append_cons_inj (hxs x (by simp)) (hys y (by simp)) hchars
      have htail := intercalate_injective (by simpa using hlength)
        (fun z hz => hxs z (List.mem_cons_of_mem x hz))
        (fun z hz => hys z (List.mem_cons_of_mem y hz))
        (String.toList_inj.mp (List.cons.inj hrest).2)
      rw [String.toList_inj.mp hhead, htail]

theorem notMem_intercalate {c : Char} (hc : c ∉ ", ".toList) :
    ∀ {xs : List String}, (∀ x ∈ xs, c ∉ x.toList) → c ∉ (", ".intercalate xs).toList
  | [], _ => by simp
  | [x], hxs => by simpa using hxs x (by simp)
  | x :: x' :: xs, hxs => by
      have hrest := notMem_intercalate hc fun z hz => hxs z (List.mem_cons_of_mem x hz)
      rw [String.intercalate_cons_cons, String.toList_append, String.toList_append,
        List.mem_append, List.mem_append, not_or, not_or]
      exact ⟨⟨hxs x (by simp), hc⟩, hrest⟩

theorem notMem_operation (i : Instr) :
    '(' ∉ i.operation.toList ∧ '\n' ∉ i.operation.toList := by
  cases i <;> simp [operation]

/-- A line shows a mark with a colon at the end, or an operation with its operands. -/
theorem line_cases (i : Instr) :
    (∃ l, i = .mark l ∧ i.line.toList = l.text.toList ++ [':'] ++ ['\n']) ∨
      i.line.toList = '\t' :: (form i.operation i.operands).toList ++ ['\n'] := by
  cases i with
  | mark l => exact .inl ⟨l, rfl, by simp [line, text]⟩
  | _ => exact .inr (by simp [line, text, operation, operands])

/-- A line has one line end, its last character. -/
theorem Legible.line_eq {i : Instr} (h : i.Legible) :
    ∃ body, i.line.toList = body ++ ['\n'] ∧ '\n' ∉ body := by
  rcases line_cases i with ⟨l, rfl, hline⟩ | hline
  · refine ⟨_, hline, ?_⟩
    simpa using h.label l rfl
  · refine ⟨_, hline, ?_⟩
    have hargs := notMem_intercalate (c := '\n') (by decide) h.newline_notMem
    simpa [toList_form, (notMem_operation i).2] using hargs

/-- The operation and the operands can be read from the text of an instruction. -/
theorem Legible.form_injective {i j : Instr} (hi : i.Legible) (hj : j.Legible)
    (h : form i.operation i.operands = form j.operation j.operands) : i = j := by
  have hchars := congrArg String.toList h
  rw [toList_form, toList_form] at hchars
  obtain ⟨hop, hargs⟩ := append_cons_inj (notMem_operation i).1 (notMem_operation j).1 hchars
  have hop := String.toList_inj.mp hop
  refine eq_of_operands hop (intercalate_injective ?_ hi.comma_notMem hj.comma_notMem ?_)
  · rw [length_operands, length_operands, hop]
  · exact String.toList_inj.mp (List.append_cancel_right hargs)

/-- A label cannot be chosen so that its mark looks like another instruction. -/
theorem mark_ne_form (label : List Char) (op : String) (xs : List String) :
    label ++ [':'] ≠ '\t' :: (form op xs).toList := by
  intro h
  have hform : '\t' :: (form op xs).toList =
      '\t' :: (op.toList ++ '(' :: (", ".intercalate xs).toList) ++ [')'] := by
    simp [toList_form]
  have hlast : [':'] = [')'] := List.append_inj_right' (h.trans hform) rfl
  exact absurd hlast (by decide)

/-- Instructions with the same line are the same. -/
theorem Legible.line_injective {i j : Instr} (hi : i.Legible) (hj : j.Legible)
    (h : i.line = j.line) : i = j := by
  have hchars := congrArg String.toList h
  rcases line_cases i with ⟨l, rfl, hl⟩ | hl <;> rcases line_cases j with ⟨m, rfl, hm⟩ | hm <;>
    rw [hl, hm, List.append_cancel_right_eq] at hchars
  · rw [List.append_cancel_right_eq, String.toList_inj] at hchars
    exact eq_of_operands rfl (congrArg ([·]) hchars)
  · exact absurd hchars (mark_ne_form _ _ _)
  · exact absurd hchars.symm (mark_ne_form _ _ _)
  · exact form_injective hi hj (String.toList_inj.mp (List.cons.inj hchars).2)

end Instr

theorem Code.listing_cons (i : Instr) (code : Code) :
    Code.listing (i :: code) = i.line ++ Code.listing code := by
  simp [listing]

/-- Code can be read from its listing, line by line. -/
theorem Code.listing_injective {c d : Code} (hc : ∀ i ∈ c, i.Legible) (hd : ∀ i ∈ d, i.Legible)
    (h : c.listing = d.listing) : c = d := by
  induction c generalizing d with
  | nil => exact ((listing_eq_empty_iff d).mp h.symm).symm
  | cons i c ih =>
      cases d with
      | nil => exact (listing_eq_empty_iff _).mp h
      | cons j d =>
          obtain ⟨line, hline, hend⟩ := (hc i List.mem_cons_self).line_eq
          obtain ⟨line', hline', hend'⟩ := (hd j List.mem_cons_self).line_eq
          have hchars := congrArg String.toList h
          rw [listing_cons, listing_cons, String.toList_append, String.toList_append, hline,
            hline', List.append_assoc, List.append_assoc] at hchars
          obtain ⟨heq, hrest⟩ := append_cons_inj hend hend' hchars
          have hij : i = j := by
            refine (hc i List.mem_cons_self).line_injective (hd j List.mem_cons_self) ?_
            rw [← String.toList_inj, hline, hline', heq]
          rw [hij, ih (fun k hk => hc k (List.mem_cons_of_mem i hk))
            (fun k hk => hd k (List.mem_cons_of_mem j hk)) (String.toList_inj.mp hrest)]

/-- Code without gaps has a listing, and the listing, whatever text it is appended to, determines
the code if no register or label has a line end and no register a comma. -/
theorem Listing.append_eq_iff (buffer : String) {c d : Code} (hc : ∀ i ∈ c, i.Legible)
    (hd : ∀ i ∈ d, i.Legible) :
    ∃ text, append buffer (c.map some) = .ok text ∧
      (append buffer (d.map some) = .ok text ↔ d = c) := by
  refine ⟨buffer ++ c.listing, append_map_some buffer c, ?_⟩
  rw [append_map_some, Except.ok.injEq]
  constructor
  · intro h
    exact Code.listing_injective hd hc (String.append_right_inj buffer |>.mp h)
  · rintro rfl
    rfl

/-- The mark of a label that looks like a jump is not listed as the jump, and an operand is not
taken for a part of a label. -/
theorem Listing.append_eq_iff_lookalikes :
    ∃ c d : Code, c = [.mark ⟨"\tjump(f)"⟩, .jumpEq ⟨"a"⟩ ⟨"b"⟩ ⟨"c, d):"⟩] ∧
      d = [.jump ⟨"f"⟩, .jumpEq ⟨"a"⟩ ⟨"b"⟩ ⟨"c, d"⟩] ∧
      (∀ i ∈ c, i.Legible) ∧ (∀ i ∈ d, i.Legible) ∧
      ∃ text, append "> " (c.map some) = .ok text ∧ append "> " (d.map some) ≠ .ok text := by
  refine ⟨_, _, rfl, rfl, ?_⟩
  have hc : ∀ i ∈ ([.mark ⟨"\tjump(f)"⟩, .jumpEq ⟨"a"⟩ ⟨"b"⟩ ⟨"c, d):"⟩] : Code), i.Legible := by
    simp only [List.forall_mem_cons]
    exact ⟨⟨by decide, by decide⟩, ⟨by decide, by decide⟩, by simp⟩
  have hd : ∀ i ∈ ([.jump ⟨"f"⟩, .jumpEq ⟨"a"⟩ ⟨"b"⟩ ⟨"c, d"⟩] : Code), i.Legible := by
    simp only [List.forall_mem_cons]
    exact ⟨⟨by decide, by decide⟩, ⟨by decide, by decide⟩, by simp⟩
  obtain ⟨text, htext, hiff⟩ := append_eq_iff "> " hc hd
  exact ⟨hc, hd, text, htext, fun h => absurd (hiff.mp h) (by decide)⟩

/-- A comma in a register would hide where its operand ends. -/
example : (Instr.store ⟨"a, 1"⟩ 2 ⟨"b"⟩).line = (Instr.store ⟨"a"⟩ 1 ⟨"2, b"⟩).line := by decide

end Lowering

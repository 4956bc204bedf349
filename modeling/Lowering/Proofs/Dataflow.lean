import Mathlib.Data.Set.Basic
import Lowering.Proofs.Frames
import Lowering.Proofs.Operands

/-!
# Registers that are written on every path

One pass over a block finds out which registers are written on each path to a place of it.
`Known` is what the pass carries along: the registers that are written when control comes to
the place at hand, and for each label those that were written at every jump to it so far.
Jumps go forward, so all jumps to a mark have been seen when the pass gets there.

What the pass finds holds of every path from the start of the block
(`Code.Path.exists_write`).
-/

namespace Lowering

/-- What is known to be written at a place of a block. -/
structure Known where
  /-- The registers that are written when control falls to this place. -/
  here : Set Reg
  /-- The registers that are written at all jumps to a label before this place. -/
  jumped : Label → Set Reg

namespace Known

variable {k : Known} {x : Instr} {l : Label} {r : Reg}

/-- At the start of a block nothing is written, and there was no jump. -/
def entry : Known := ⟨∅, fun _ => Set.univ⟩

/-- The registers that are written when control comes to an instruction, by a jump or not. -/
def arriving (k : Known) : Instr → Set Reg
  | .mark l => k.here ∩ k.jumped l
  | _ => k.here

/-- What is known behind an instruction. Control does not fall out of jumps and returns, so
anything holds there. -/
def after (k : Known) : Instr → Known
  | .mark l => ⟨k.here ∩ k.jumped l, k.jumped⟩
  | .jump l => ⟨Set.univ, Function.update k.jumped l (k.jumped l ∩ k.here)⟩
  | .jumpEq _ _ l => ⟨k.here, Function.update k.jumped l (k.jumped l ∩ k.here)⟩
  | .ret => ⟨Set.univ, k.jumped⟩
  | x =>
    match x.writes? with
    | some r => ⟨insert r k.here, k.jumped⟩
    | none => k

theorem arriving_subset : k.arriving x ⊆ k.here := by
  cases x with
  | mark l => exact Set.inter_subset_left
  | _ => exact subset_rfl

theorem mem_here_after (hx : x.Falls) (h : r ∈ (k.after x).here) :
    r ∈ k.arriving x ∨ x.writes? = some r := by
  cases x <;> simp_all [after, arriving, or_comm, eq_comm]

theorem subset_here_after (hx : x.Straight) : k.here ⊆ (k.after x).here := by
  cases x with
  | movReg _ _ | movInt _ _ | movLabel _ _ | alloc _ _ | load _ _ _ => exact Set.subset_insert _ _
  | store _ _ _ | print _ | printChar _ | icall _ => exact subset_rfl
  | mark _ | jump _ | jumpEq _ _ _ | ret => exact hx.elim

theorem mem_here_after_of_writes (hr : x.writes? = some r) : r ∈ (k.after x).here := by
  cases x <;> cases hr <;> exact Set.mem_insert _ _

theorem jumped_after_of_ne (hl : x.target? ≠ some l) : (k.after x).jumped l = k.jumped l := by
  cases x with
  | jump l' => exact Function.update_of_ne (fun h => hl (by rw [h]; rfl)) ..
  | jumpEq left right l' => exact Function.update_of_ne (fun h => hl (by rw [h]; rfl)) ..
  | _ => rfl

theorem jumped_after_of_eq (hl : x.target? = some l) :
    (k.after x).jumped l = k.jumped l ∩ k.arriving x := by
  cases x <;> cases hl <;> exact Function.update_self ..

theorem jumped_after_subset : (k.after x).jumped l ⊆ k.jumped l := by
  by_cases hl : x.target? = some l
  · rw [jumped_after_of_eq hl]
    exact Set.inter_subset_left
  · rw [jumped_after_of_ne hl]

/-- What is written here and at earlier jumps is written at all jumps. -/
theorem subset_jumped_after {K : Set Reg} (hhere : K ⊆ k.here) (hl : K ⊆ k.jumped l) :
    K ⊆ (k.after x).jumped l := by
  by_cases htarget : x.target? = some l
  · rw [jumped_after_of_eq htarget]
    refine Set.subset_inter hl ?_
    cases x <;> cases htarget <;> exact hhere
  · rwa [jumped_after_of_ne htarget]

end Known

namespace Code

/-- What is known behind the code. -/
def scan (k : Known) (code : Code) : Known := code.foldl Known.after k

@[simp] theorem scan_nil (k : Known) : scan k [] = k := rfl

@[simp] theorem scan_cons (k : Known) (x : Instr) (c : Code) :
    scan k (x :: c) = scan (k.after x) c := rfl

@[simp] theorem scan_append (k : Known) (c d : Code) : scan k (c ++ d) = scan (scan k c) d :=
  List.foldl_append

theorem jumped_scan_subset (k : Known) (c : Code) (l : Label) :
    (scan k c).jumped l ⊆ k.jumped l := by
  induction c generalizing k with
  | nil => exact subset_rfl
  | cons x c ih => exact (ih (k.after x)).trans Known.jumped_after_subset

/-- Each virtual register that is read is known to be written. -/
def Defined (k : Known) : Code → Prop
  | [] => True
  | x :: rest => (∀ r ∈ x.reads, r.isVirtual = true → r ∈ k.here) ∧ Defined (k.after x) rest

theorem defined_append {k : Known} {c d : Code} :
    Defined k (c ++ d) ↔ Defined k c ∧ Defined (scan k c) d := by
  induction c generalizing k with
  | nil => simp [Defined]
  | cons x c ih => simp [Defined, ih, and_assoc]

theorem Defined.mem_here {k : Known} {code : Code} (h : Defined k code) {i : Nat} {x : Instr}
    (hx : code[i]? = some x) {r : Reg} (hr : r ∈ x.reads) (hvirtual : r.isVirtual = true) :
    r ∈ (scan k (code.take i)).here := by
  induction code generalizing k i with
  | nil => simp at hx
  | cons y rest ih =>
      obtain ⟨hy, hrest⟩ := h
      cases i with
      | zero =>
          cases hx
          exact hy r hr hvirtual
      | succ i => exact ih hrest hx

/-- Control may come from `start` to a position by way of the positions `visited`. -/
inductive Path (code : Code) (start : Nat) : List Nat → Nat → Prop where
  | here : Path code start [] start
  | move {visited : List Nat} {i j : Nat} (path : Path code start visited i)
      (flow : code.Flow i j) : Path code start (visited ++ [i]) j

variable {code block : Code} {start : Nat}

theorem Flow.exists_fetch {i j : Nat} (h : code.Flow i j) : ∃ x, code[i]? = some x := by
  cases h with
  | next fetch _ => exact ⟨_, fetch⟩
  | jump fetch _ _ => exact ⟨_, fetch⟩

namespace Path

/-- Code that does not leave its order is passed from its start to its end. -/
theorem falls {visited : List Nat} {i : Nat} (h : code.Path start visited i)
    (hcode : code.Holds i block) (hfalls : ∀ x ∈ block, x.Falls) :
    code.Path start (visited ++ List.range' i block.length) (i + block.length) := by
  induction block generalizing visited i with
  | nil => simpa using h
  | cons x rest ih =>
      have hx := h.move (.next hcode.head (hfalls x List.mem_cons_self))
      have hrest := ih hx hcode.tail fun y hy => hfalls y (List.mem_cons_of_mem x hy)
      rw [List.append_assoc, Nat.add_assoc, Nat.add_comm 1] at hrest
      exact hrest

theorem start_le (hforward : ∀ i j, code.Flow i j → i < j) {visited : List Nat} {j : Nat}
    (h : code.Path start visited j) : start ≤ j := by
  induction h with
  | here => exact Nat.le_refl start
  | move _ flow ih => exact ih.trans (hforward _ _ flow).le

/-- What the pass over a block knows at a place is written on each path to that place. -/
theorem exists_write (hforward : ∀ i j, code.Flow i j → i < j) (hcode : code.Holds start block)
    {visited : List Nat} {j : Nat} (h : code.Path start visited j)
    (hj : j < start + block.length) {x : Instr} (hx : code[j]? = some x) {r : Reg}
    (hr : r ∈ (scan .entry (block.take (j - start))).arriving x) :
    ∃ i ∈ visited, start ≤ i ∧ i < j ∧ ∃ y, code[i]? = some y ∧ y.writes? = some r := by
  induction h generalizing x r with
  | here =>
      rw [Nat.sub_self, List.take_zero] at hr
      exact (Known.arriving_subset hr).elim
  | @move visited i j path flow ih =>
      have hij := hforward i j flow
      have hi := path.start_le hforward
      obtain ⟨y, hy⟩ := flow.exists_fetch
      have earlier (hr : r ∈ (scan .entry (block.take (i - start))).arriving y) :
          ∃ i' ∈ visited ++ [i], start ≤ i' ∧ i' < j ∧ ∃ y, code[i']? = some y ∧
            y.writes? = some r := by
        obtain ⟨i', hmem, hstart, hlt, hwrite⟩ := ih (by omega) hy hr
        exact ⟨i', List.mem_append_left _ hmem, hstart, hlt.trans hij, hwrite⟩
      have hfetch : block[i - start]? = some y := by
        rw [← hcode.getElem? (by omega), ← hy]
        congr 1
        omega
      have hscan : scan .entry (block.take (i - start + 1)) =
          (scan .entry (block.take (i - start))).after y := by
        rw [List.take_add_one, hfetch, scan_append]
        rfl
      cases flow with
      | next fetch falls =>
          cases hy.symm.trans fetch
          rw [Nat.sub_add_comm hi, hscan] at hr
          rcases Known.mem_here_after falls (Known.arriving_subset hr) with hr | hr
          · exact earlier hr
          · exact ⟨i, by simp, hi, hij, y, hy, hr⟩
      | @jump _ l _ fetch target mark =>
          cases hy.symm.trans fetch
          cases hx.symm.trans mark
          -- The jump has been seen when the pass comes to the mark.
          have hsplit := List.take_append_drop (i - start + 1) (block.take (j - start))
          rw [List.take_take, Nat.min_eq_left (by omega)] at hsplit
          have hjumped := hr.2
          rw [← hsplit, scan_append, hscan] at hjumped
          have hafter := jumped_scan_subset _ _ _ hjumped
          rw [Known.jumped_after_of_eq target] at hafter
          exact earlier hafter.2

end Path

/-- If a block reads only what is known to be written, then on each path through it a register
is written before it is read. -/
theorem Defined.exists_write (hblock : block.Defined .entry)
    (hforward : ∀ i j, code.Flow i j → i < j) (hcode : code.Holds start block)
    {visited : List Nat} {j : Nat} (h : code.Path start visited j)
    (hj : j < start + block.length) {x : Instr} (hx : code[j]? = some x) {r : Reg}
    (hr : r ∈ x.reads) (hvirtual : r.isVirtual = true) :
    ∃ i ∈ visited, start ≤ i ∧ i < j ∧ ∃ y, code[i]? = some y ∧ y.writes? = some r := by
  have hstart := h.start_le hforward
  have hfetch : block[j - start]? = some x := by
    rw [← hcode.getElem? (by omega), ← hx]
    congr 1
    omega
  refine h.exists_write hforward hcode hj hx ?_
  have hknown := hblock.mem_here hfetch hr hvirtual
  cases x with
  | mark l => simp at hr
  | _ => exact hknown

end Code

end Lowering

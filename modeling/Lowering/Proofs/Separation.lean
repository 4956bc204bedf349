import Lowering.Proofs.Appending
import Lowering.Proofs.FreshRegisters

/-!
# Blocks share no virtual register

One counter hands out the registers of all blocks, so a routine takes its registers from
the middle of those of the block around it. What keeps them apart is that a block only
uses registers that are bound in its scope, registers it was given, and registers that
were handed out for itself. `Confined` states this of the registers of a block and of the
routines inside of it, and `Lowers.confines` proves it of lowered code. A program then has
blocks without a common register (`Compiler.registers_separate`), however its code is cut
into blocks, since there is one way to do it (`Program.Blocks.eq`).
-/

namespace Lowering

/-- The registers that an instruction names. -/
def Instr.regs (i : Instr) : List Reg := i.reads ++ i.writes?.toList

/-- The virtual registers that occur in code. -/
def Code.virtuals (c : Code) : Set Reg := {r | r.isVirtual = true ∧ ∃ i ∈ c, r ∈ i.regs}

namespace Code

variable {c d : Code}

@[simp] theorem virtuals_nil : virtuals [] = ∅ := by
  simp [virtuals]

@[simp] theorem mem_virtuals_cons {i : Instr} {r : Reg} :
    r ∈ virtuals (i :: c) ↔ r.isVirtual = true ∧ r ∈ i.regs ∨ r ∈ c.virtuals := by
  simp only [virtuals, Set.mem_ofPred_eq, List.mem_cons, exists_eq_or_imp, and_or_left]

@[simp] theorem virtuals_append : virtuals (c ++ d) = c.virtuals ∪ d.virtuals := by
  ext r
  simp only [virtuals, Set.mem_ofPred_eq, Set.mem_union, List.mem_append, or_and_right, exists_or,
    and_or_left]

/-- Code that accesses no virtual register outside of `K`. -/
theorem virtuals_subset_iff {K : Set Reg} :
    c.virtuals ⊆ K ↔ c.Accesses (Reg.within K) (Reg.within K) := by
  constructor
  · intro h i hi
    refine ⟨fun r hr hvirtual => h ⟨hvirtual, i, hi, ?_⟩,
      fun r hr hvirtual => h ⟨hvirtual, i, hi, ?_⟩⟩
    · exact List.mem_append_left _ hr
    · exact List.mem_append_right _ (Option.mem_toList.mpr hr)
  · rintro h r ⟨hvirtual, i, hi, hr⟩
    rcases List.mem_append.mp hr with hr | hr
    · exact (h i hi).1 r hr hvirtual
    · exact (h i hi).2 r (Option.mem_toList.mp hr) hvirtual

end Code

/-- What is held in registers of `K`, or is no local variable, is accessed without other virtual
registers. -/
theorem Refers.virtuals_subset {x : String} {dst : Reg} {s : LowerState} {c : Code} {K : Set Reg}
    (h : Refers x dst s c) (hs : s.scope.HeldIn K) (hdst : dst ∈ K) : c.virtuals ⊆ K :=
  Code.virtuals_subset_iff.mpr (h.accesses (hs.mono fun _ => Reg.mem_within)
    (fun y _ hvirtual => by simp at hvirtual) (Reg.mem_within hdst))

theorem RefersAll.virtuals_subset {xs : List String} {s : LowerState} {c : Code} {K : Set Reg}
    (h : RefersAll xs s c) (hs : s.scope.HeldIn K) (hregs : ∀ r ∈ s.regs xs.length, r ∈ K) :
    c.virtuals ⊆ K :=
  Code.virtuals_subset_iff.mpr (h.accesses (hs.mono fun _ => Reg.mem_within)
    (fun y _ hvirtual => by simp at hvirtual) fun r hr => Reg.mem_within (hregs r hr))

theorem LowerState.Has.not_between {s : LowerState} {r : Reg} (h : s.Has r) {lo hi : Nat}
    (hlo : s.next ≤ lo) : ¬ r.Between lo hi := by
  obtain ⟨n, rfl, hn⟩ := h
  rintro ⟨m, hm, hlo', -⟩
  have hnm := Reg.virtual_injective hm
  omega

namespace LowerState

/-- The registers `K` were handed out before, and those of the local variables are among them. -/
structure Owns (s : LowerState) (K : Set Reg) : Prop where
  has : ∀ r ∈ K, s.Has r
  held : s.scope.HeldIn K

/-- The registers `K` and the next `n` registers. -/
def granted (s : LowerState) (K : Set Reg) (n : Nat) : Set Reg :=
  {r | r ∈ K ∨ r.Between s.next (s.next + n)}

variable {s t : LowerState} {K : Set Reg} {i n : Nat}

theorem reg_mem_granted (hi : 0 < i) (hn : i ≤ n) : s.reg i ∈ s.granted K n :=
  .inr (between_reg (by omega) (by omega))

/-- An object is made by way of the next two registers. -/
theorem accesses_object (s : LowerState) {dst : Reg} (hdst : dst ∈ K) :
    Code.Building (Instr.Accesses (Reg.within (s.granted K 2)) (Reg.within (s.granted K 2)))
      (s.reg 2) (s.reg 1) dst [] :=
  Code.accesses_building (Reg.mem_within_inter (reg_mem_granted (by omega) (by omega)))
    (Reg.mem_within_inter (reg_mem_granted (by omega) (by omega))) (Reg.mem_within (.inl hdst))
    (List.forall_mem_nil _)

theorem virtuals_printCode (s : LowerState) {dst : Reg} (x : String) (hdst : dst ∈ K) :
    (printCode x (s.reg 1) dst).virtuals ⊆ s.granted K 1 :=
  Code.virtuals_subset_iff.mpr (Code.accesses_printCode x
    (Reg.mem_within_inter (reg_mem_granted (by omega) (by omega))) (Reg.mem_within (.inl hdst)))

theorem has_granted (hK : ∀ r ∈ K, s.Has r) : ∀ r ∈ s.granted K n, (s.skip n).Has r := by
  rintro r (hr | ⟨m, rfl, -, hm⟩)
  · exact (hK r hr).mono (by simp)
  · exact ⟨m, rfl, hm⟩

/-- The routine of a lambda starts with three registers, whatever is in scope around it. -/
theorem owns_routine {captured : List String} (h : captured.Nodup) (x : String) :
    ((s.enterRoutine.skip 3).inScope (routineScope (s.reg 1) x (s.reg 2) captured)).Owns
      (s.granted ∅ 3) where
  has := has_granted (by simp)
  held := .routineScope h (reg_mem_granted (by omega) (by omega))
    (reg_mem_granted (by omega) (by omega)) x

namespace Owns

theorem not_between (h : s.Owns K) {r : Reg} (hr : r ∈ K) {lo hi : Nat} (hlo : s.next ≤ lo) :
    ¬ r.Between lo hi :=
  (h.has r hr).not_between hlo

theorem later (h : s.Owns K) (hgrows : s.Grows t) : t.Owns K where
  has r hr := (h.has r hr).mono hgrows.next
  held := hgrows.scope ▸ h.held

theorem grant (h : s.Owns K) (n : Nat) : (s.skip n).Owns (s.granted K n) where
  has := has_granted h.has
  held := h.held.mono fun _ => .inl

theorem bind (h : s.Owns K) {c : Scope} (hc : c.HeldIn K) {r : Reg} (hr : r ∈ K) (x : String) :
    (s.inScope (c.bind x (.register x r))).Owns K :=
  ⟨h.has, hc.bind hr x⟩

end Owns

end LowerState

namespace Fragment

/-- The registers that belong to the block of a fragment and not to one of its routines: those
of its code and the given ones. -/
def frame (f : Fragment) (regs : List Reg) : Set Reg := f.code.virtuals ∪ {r | r ∈ regs}

/-- The registers of the block are from `K` or from a range of numbers. Those of its routines are
all from the range, and no register belongs to two of these blocks. -/
structure Confined (K : Set Reg) (lo hi : Nat) (regs : List Reg) (f : Fragment) : Prop where
  frame_from : ∀ r ∈ f.frame regs, r ∈ K ∨ r.Between lo hi
  inner_from : ∀ b ∈ f.routines, ∀ r ∈ b.code.virtuals, r.Between lo hi
  frame_apart : ∀ b ∈ f.routines, Disjoint (f.frame regs) b.code.virtuals
  inner_apart : f.routines.Pairwise fun b c => Disjoint b.code.virtuals c.code.virtuals

@[simp] theorem frame_nil (f : Fragment) : f.frame [] = f.code.virtuals := by
  simp [frame]

namespace Confined

variable {K K' : Set Reg} {lo lo' mid mid' hi hi' : Nat} {regs regs' regs'' : List Reg}
  {f g h : Fragment} {s t : LowerState} {dst : Reg} {c : Code}

theorem ofCode (hc : ∀ r ∈ c.virtuals, r ∈ K ∨ r.Between lo hi) :
    (ofCode c).Confined K lo hi [] := by
  refine ⟨?_, by simp, by simp, .nil⟩
  rintro r (hr | hr)
  · exact hc r hr
  · cases hr

/-- Registers that were given to a part may belong to the range of the whole. -/
theorem widen (hf : f.Confined K lo hi regs) (hK : ∀ r ∈ K, r ∈ K' ∨ r.Between lo' hi')
    (hlo : lo' ≤ lo) (hhi : hi ≤ hi') : f.Confined K' lo' hi' regs := by
  refine ⟨?_, ?_, hf.frame_apart, hf.inner_apart⟩
  · intro r hr
    rcases hf.frame_from r hr with hr | hr
    · exact hK r hr
    · exact .inr (hr.mono hlo hhi)
  · intro b hb r hr
    exact (hf.inner_from b hb r hr).mono hlo hhi

/-- What was granted for a phrase is part of its own range. -/
theorem release {n : Nat} (hf : f.Confined (s.granted K n) (s.next + n) hi [])
    (hhi : s.next + n ≤ hi) : f.Confined K s.next hi [] :=
  hf.widen (fun _ hr => hr.imp_right fun hr => hr.mono (Nat.le_refl _) hhi) (by omega)
    (Nat.le_refl _)

/-- A register that the block was given may be one of those that are set aside. -/
theorem give (hs : s.Owns K) (hf : f.Confined K s.next hi []) {r : Reg} (hr : r ∈ K) :
    f.Confined K s.next hi [r] := by
  have hframe : ∀ q ∈ f.frame [r], q ∈ f.frame [] ∨ q = r := by
    rintro q (hq | hq)
    · exact .inl (.inl hq)
    · exact .inr (List.mem_singleton.mp hq)
  refine ⟨?_, hf.inner_from, ?_, hf.inner_apart⟩
  · intro q hq
    rcases hframe q hq with hq | rfl
    · exact hf.frame_from q hq
    · exact .inl hr
  · intro b hb
    rw [Set.disjoint_left]
    intro q hq hqb
    rcases hframe q hq with hq | rfl
    · exact Set.disjoint_left.mp (hf.frame_apart b hb) hq hqb
    · exact hs.not_between hr (Nat.le_refl _) (hf.inner_from b hb q hqb)

/-- Two parts with ranges of their own, neither of which is given a register of the other. -/
theorem join (hf : f.Confined K lo mid regs) (hg : g.Confined K mid' hi regs')
    (hroutines : h.routines = f.routines ++ g.routines)
    (hframe : h.frame regs'' ⊆ f.frame regs ∪ g.frame regs') (hlo : lo ≤ mid) (hmid : mid ≤ mid')
    (hhi : mid' ≤ hi) (hK : ∀ r ∈ K, ¬ r.Between lo mid ∧ ¬ r.Between mid' hi) :
    h.Confined K lo hi regs'' := by
  refine ⟨?_, ?_, ?_, ?_⟩
  · intro r hr
    rcases hframe hr with hr | hr
    · exact (hf.frame_from r hr).imp_right fun hr => hr.mono (Nat.le_refl lo) (by omega)
    · exact (hg.frame_from r hr).imp_right fun hr => hr.mono (by omega) (Nat.le_refl hi)
  · intro b hb r hr
    rw [hroutines] at hb
    rcases List.mem_append.mp hb with hb | hb
    · exact (hf.inner_from b hb r hr).mono (Nat.le_refl lo) (by omega)
    · exact (hg.inner_from b hb r hr).mono (by omega) (Nat.le_refl hi)
  · intro b hb
    rw [hroutines] at hb
    refine Disjoint.mono_left hframe (Set.disjoint_union_left.mpr ?_)
    rcases List.mem_append.mp hb with hb | hb
    · refine ⟨hf.frame_apart b hb, Set.disjoint_left.mpr ?_⟩
      intro r hr hrb
      have hrange := hf.inner_from b hb r hrb
      rcases hg.frame_from r hr with hr | hr
      · exact (hK r hr).1 hrange
      · exact hrange.not_between hmid hr
    · refine ⟨Set.disjoint_left.mpr ?_, hg.frame_apart b hb⟩
      intro r hr hrb
      have hrange := hg.inner_from b hb r hrb
      rcases hf.frame_from r hr with hr | hr
      · exact (hK r hr).2 hrange
      · exact hr.not_between hmid hrange
  · rw [hroutines]
    refine List.pairwise_append.mpr ⟨hf.inner_apart, hg.inner_apart, ?_⟩
    intro b hb c hc
    rw [Set.disjoint_left]
    intro r hrb hrc
    exact (hf.inner_from b hb r hrb).not_between hmid (hg.inner_from c hc r hrc)

theorem append (hs : s.Owns K) (hf : f.Confined K s.next mid []) (hg : g.Confined K mid hi [])
    (hlo : s.next ≤ mid) (hhi : mid ≤ hi) : (f ++ g).Confined K s.next hi [] := by
  refine hf.join hg rfl ?_ hlo (Nat.le_refl mid) hhi ?_
  · simp
  · intro r hr
    exact ⟨hs.not_between hr (Nat.le_refl _), hs.not_between hr hlo⟩

/-- More code of the block may use what the block has, what it was given, and what is handed
out next. -/
theorem emit (hs : s.Owns K) (hf : f.Confined K s.next mid regs) (hlo : s.next ≤ mid)
    (hhi : mid ≤ hi) (hc : ∀ r ∈ c.virtuals, r ∈ regs ∨ r ∈ K ∨ r.Between mid hi) :
    (f ++ .ofCode c).Confined K s.next hi [] := by
  have hframe : ∀ r ∈ (f ++ .ofCode c).frame [], r ∈ f.frame regs ∨ r ∈ K ∨ r.Between mid hi := by
    intro r hr
    rw [frame_nil, code_append, Code.virtuals_append] at hr
    rcases hr with hr | hr
    · exact .inl (.inl hr)
    · exact (hc r hr).imp_left .inr
  have hroutines : (f ++ .ofCode c).routines = f.routines := List.append_nil _
  refine ⟨?_, ?_, ?_, ?_⟩
  · intro r hr
    rcases hframe r hr with hr | hr | hr
    · exact (hf.frame_from r hr).imp_right fun hr => hr.mono (Nat.le_refl _) hhi
    · exact .inl hr
    · exact .inr (hr.mono hlo (Nat.le_refl hi))
  · intro b hb r hr
    exact (hf.inner_from b (hroutines ▸ hb) r hr).mono (Nat.le_refl _) hhi
  · intro b hb
    rw [hroutines] at hb
    rw [Set.disjoint_left]
    intro r hr hrb
    have hrange := hf.inner_from b hb r hrb
    rcases hframe r hr with hr | hr | hr
    · exact Set.disjoint_left.mp (hf.frame_apart b hb) hr hrb
    · exact hs.not_between hr (Nat.le_refl _) hrange
    · exact hrange.not_between (Nat.le_refl mid) hr
  · rw [hroutines]
    exact hf.inner_apart

theorem thenCode (hs : s.Owns K) (hf : f.Confined K s.next mid []) (hlo : s.next ≤ mid)
    (hhi : mid ≤ hi) (hc : ∀ r ∈ c.virtuals, r ∈ K ∨ r.Between mid hi) :
    (f ++ .ofCode c).Confined K s.next hi [] :=
  emit hs hf hlo hhi fun r hr => .inr (hc r hr)

/-- The function and the argument of a call are in registers that were granted for it. -/
theorem call (hs : s.Owns K) (hf : f.Confined (s.granted K 2) (s.next + 2) t.next [])
    (hnext : s.next + 2 ≤ t.next) (hdst : dst ∈ K) :
    (f ++ .ofCode (callCode (s.reg 1) (s.reg 2) (t.reg 1) (t.reg 2) dst)).Confined K s.next
      (t.next + 2) [] := by
  have hold {i : Nat} (hi : 0 < i) (hn : i ≤ 2) : s.reg i ∈ t.granted (s.granted K 2) 2 :=
    .inl (LowerState.reg_mem_granted hi hn)
  have hnew {i : Nat} (hi : 0 < i) (hn : i ≤ 2) : t.reg i ∈ t.granted (s.granted K 2) 2 :=
    LowerState.reg_mem_granted hi hn
  have hcode : Code.virtuals (callCode (s.reg 1) (s.reg 2) (t.reg 1) (t.reg 2) dst) ⊆
      t.granted (s.granted K 2) 2 := by
    refine Code.virtuals_subset_iff.mpr (Code.accesses_callCode
      (Reg.mem_within (hold ?_ ?_)) (Reg.mem_within (hold ?_ ?_))
      (Reg.mem_within_inter (hnew ?_ ?_)) (Reg.mem_within_inter (hnew ?_ ?_))
      (Reg.mem_within (.inl (.inl hdst))) (Reg.linkage_subset_within _)
      (Reg.linkage_subset_within _)) <;> omega
  exact release (thenCode (hs.grant 2) hf hnext (Nat.le_add_right _ 2) fun r hr => hcode hr)
    (by omega)

/-- A block becomes a routine of another block, whose own registers come later. -/
theorem lambda (hf : f.Confined K mid mid' []) (hK : ∀ r ∈ K, r.Between lo mid) (hlo : lo ≤ mid)
    (hmid : mid ≤ mid') (hhi : mid' ≤ hi) (hK' : ∀ r ∈ K', ¬ r.Between lo mid') {code : Code}
    (hcode : ∀ r ∈ code.virtuals, r ∈ K' ∨ r.Between mid' hi) {routine : Routine}
    (hroutine : ∀ r ∈ routine.code.virtuals, r ∈ f.code.virtuals ∨ r ∈ K) :
    Confined K' lo hi [] ⟨code, f.routines ++ [routine]⟩ := by
  have hinner : ∀ b ∈ f.routines ++ [routine], ∀ r ∈ b.code.virtuals, r.Between lo mid' := by
    intro b hb r hr
    rcases List.mem_append.mp hb with hb | hb
    · exact (hf.inner_from b hb r hr).mono hlo (Nat.le_refl mid')
    · rw [List.mem_singleton.mp hb] at hr
      have hfrom : r ∈ K ∨ r.Between mid mid' :=
        (hroutine r hr).elim (fun hr => hf.frame_from r (.inl hr)) .inl
      rcases hfrom with hr | hr
      · exact (hK r hr).mono (Nat.le_refl lo) hmid
      · exact hr.mono hlo (Nat.le_refl mid')
  refine ⟨?_, ?_, ?_, ?_⟩
  · intro r hr
    rw [frame_nil] at hr
    exact (hcode r hr).imp_right fun hr => hr.mono (hlo.trans hmid) (Nat.le_refl hi)
  · intro b hb r hr
    exact (hinner b hb r hr).mono (Nat.le_refl lo) hhi
  · intro b hb
    rw [frame_nil, Set.disjoint_left]
    intro r hr hrb
    have hrange := hinner b hb r hrb
    rcases hcode r hr with hr | hr
    · exact hK' r hr hrange
    · exact hrange.not_between (Nat.le_refl mid') hr
  · refine List.pairwise_append.mpr ⟨hf.inner_apart, by simp, ?_⟩
    intro b hb c hc
    rw [List.mem_singleton.mp hc, Set.disjoint_left]
    intro r hrb hr
    rcases hroutine r hr with hr | hr
    · exact Set.disjoint_left.mp (hf.frame_apart b hb) (.inl hr) hrb
    · exact (hK r hr).not_between (Nat.le_refl mid) (hf.inner_from b hb r hrb)

end Confined

end Fragment

open Fragment (Confined)
open LowerState (Grows reg_mem_granted between_reg)

/-- A block uses what is in scope, what it is given and what is handed out for it. None of its
registers is in one of its routines. -/
def Phrase.Confines (ph : Phrase) (s t : LowerState) (regs : List Reg) (f : Fragment) : Prop :=
  ∀ ⦃K : Set Reg⦄, s.Owns K → (∀ r ∈ ph.operands, r ∈ K) → f.Confined K s.next t.next regs

namespace Phrase.Confines

variable {mode : Dispatch} {s s₁ s₂ t : LowerState} {dst : Reg}

theorem caseOf {e : Expr} {bs : List Branch} {fe fb : Fragment} {tests : Code}
    (he : Lowers mode (.expr e (s.reg 1)) (s.skip 3).enterCase [] fe s₁)
    (compares : Compares mode (s.cases + 1) (s.reg 2) (s.reg 3) 0 bs s₁ tests s₂)
    (hb : Lowers mode (.branches (s.cases + 1) (s.reg 1) 0 bs dst) s₂ [] fb t)
    (scrutinee : (Phrase.expr e (s.reg 1)).Confines (s.skip 3).enterCase s₁ [] fe)
    (branches : (Phrase.branches (s.cases + 1) (s.reg 1) 0 bs dst).Confines s₂ t [] fb) :
    (Phrase.expr (.caseOf e bs) dst).Confines s t []
      (fe ++ .ofCode (.load (s.reg 2) (s.reg 1) 0 :: tests) ++ fb ++
        .ofCode [.mark (.caseEnd (s.cases + 1))]) := by
  intro K hs hdst
  have hnext₁ : s.next + 3 ≤ s₁.next := he.grows.next
  have hnext₂ : s₁.next ≤ s₂.next := compares.grows.next
  have hnext₃ : s₂.next ≤ t.next := hb.grows.next
  have hown : (s.skip 3).enterCase.Owns (s.granted K 3) := (hs.grant 3).later (.enterCase _)
  have hreg {i : Nat} (hi : 0 < i) (hn : i ≤ 3) : s.reg i ∈ s.granted K 3 := reg_mem_granted hi hn
  have hfe := scrutinee hown (by simpa using hreg (by omega) (by omega))
  have hcode : Code.virtuals (.load (s.reg 2) (s.reg 1) 0 :: tests) ⊆ s.granted K 3 := by
    refine Code.virtuals_subset_iff.mpr (Code.each_cons.mpr ⟨?_, compares.accesses
      (Reg.mem_within (hreg (by omega) (by omega)))
      (Reg.mem_within_inter (hreg (by omega) (by omega)))⟩)
    simp [Instr.Accesses, Reg.mem_within (hreg _ _)]
  have htests := hfe.thenCode hown hnext₁ hnext₂ fun r hr => .inl (hcode hr)
  have hfb := branches (hown.later (he.grows.trans compares.grows)) <| by
    have hgiven : dst ∈ s.granted K 3 := .inl (hdst dst (by simp))
    simpa using ⟨hreg (by omega) (by omega), hgiven⟩
  have hbodies := htests.append hown hfb (hnext₁.trans hnext₂) hnext₃
  have hall := hbodies.thenCode hown (c := [.mark (.caseEnd (s.cases + 1))])
    ((hnext₁.trans hnext₂).trans hnext₃) (Nat.le_refl _) (by simp [Instr.regs])
  exact hall.release (n := 3) ((hnext₁.trans hnext₂).trans hnext₃)

theorem letIn {x : String} {v b : Expr} {fv fb : Fragment}
    (hv : Lowers mode (.expr v (s.reg 1)) (s.skip 1) [] fv s₁)
    (hb : Lowers mode (.expr b dst)
      (s₁.inScope (s.scope.bind x (.register x (s.reg 1)))) [] fb s₂)
    (value : (Phrase.expr v (s.reg 1)).Confines (s.skip 1) s₁ [] fv)
    (body : (Phrase.expr b dst).Confines
      (s₁.inScope (s.scope.bind x (.register x (s.reg 1)))) s₂ [] fb) :
    (Phrase.expr (.letIn x v b) dst).Confines s (s₂.inScope s.scope) [] (fv ++ fb) := by
  intro K hs hdst
  have hnext₁ : s.next + 1 ≤ s₁.next := hv.grows.next
  have hnext₂ : s₁.next ≤ s₂.next := hb.grows.next
  have hown := hs.grant 1
  have htmp : s.reg 1 ∈ s.granted K 1 := reg_mem_granted (by omega) (by omega)
  have hfv := value hown (by simpa using htmp)
  have hfb := body ((hown.later hv.grows).bind hown.held htmp x) fun r hr => .inl (hdst r hr)
  exact (hfv.append hown hfb hnext₁ hnext₂).release (hnext₁.trans hnext₂)

theorem lam {x : String} {e : Expr} {fe : Fragment} {captured : List String} {loads : Code}
    {label : Label} {tag : Tag} (hcaptured : captured = captures s.env x e)
    (he : Lowers mode (.expr e (s.reg 3))
      ((s.enterRoutine.skip 3).inScope (routineScope (s.reg 1) x (s.reg 2) captured)) [] fe s₁)
    (values : RefersAll captured (s₁.inScope s.scope) loads)
    (hs₂ : s₂ = (s₁.inScope s.scope).skip captured.length)
    (body : (Phrase.expr e (s.reg 3)).Confines
      ((s.enterRoutine.skip 3).inScope (routineScope (s.reg 1) x (s.reg 2) captured)) s₁ [] fe) :
    (Phrase.expr (.lam x e) dst).Confines s ((s₂.withTag "Closure" 1).skip 2) []
      ⟨loads ++ closureCode tag label ((s₁.inScope s.scope).regs captured.length) (s₂.reg 1)
          (s₂.reg 2) dst,
        fe.routines ++
          [⟨label, routineCode label (s.reg 1) (s.reg 2) (s.reg 3) fe.code, captured⟩]⟩ := by
  intro K hs hdst
  subst hs₂
  have hnext : s.next + 3 ≤ s₁.next := he.grows.next
  have hnodup : captured.Nodup := hcaptured ▸ nodup_captures _ _ _
  have hreg {i : Nat} (hi : 0 < i) (hn : i ≤ 3) : s.reg i ∈ s.granted ∅ 3 := reg_mem_granted hi hn
  have hfe := body (LowerState.owns_routine hnodup x) (by simpa using hreg (by omega) (by omega))
  let own : Set Reg := {r | r ∈ K ∨ r.Between s₁.next (s₁.next + captured.length + 2)}
  have hregs : ∀ r ∈ (s₁.inScope s.scope).regs captured.length, r ∈ own := by
    intro r hr
    obtain ⟨i, hi, rfl⟩ := List.mem_map.mp hr
    have hi' := List.mem_range.mp hi
    exact .inr (between_reg (by simp) (by simp; omega))
  have hown {i : Nat} (hi : 0 < i) (hn : i ≤ 2) :
      ((s₁.inScope s.scope).skip captured.length).reg i ∈ own :=
    .inr (between_reg (by simp; omega) (by simp; omega))
  have hcode : Code.virtuals (loads ++ closureCode tag label
      ((s₁.inScope s.scope).regs captured.length)
      (((s₁.inScope s.scope).skip captured.length).reg 1)
      (((s₁.inScope s.scope).skip captured.length).reg 2) dst) ⊆ own := by
    rw [Code.virtuals_append]
    refine Set.union_subset (values.virtuals_subset (hs.held.mono fun _ => .inl) hregs) ?_
    exact Code.virtuals_subset_iff.mpr ((Code.accesses_building
      (Reg.mem_within_inter (hown (by omega) (by omega)))
      (Reg.mem_within_inter (hown (by omega) (by omega)))
      (Reg.mem_within (.inl (hdst dst (by simp)))) fun r hr =>
        Reg.mem_within (hregs r hr)).closureCode _ _)
  have hroutine : Code.virtuals (routineCode label (s.reg 1) (s.reg 2) (s.reg 3) fe.code) ⊆
      fe.code.virtuals ∪ s.granted ∅ 3 :=
    Code.virtuals_subset_iff.mpr (Code.accesses_routineCode
      (Reg.mem_within (.inr (hreg (by omega) (by omega))))
      (Reg.mem_within (.inr (hreg (by omega) (by omega))))
      (Reg.mem_within (.inr (hreg (by omega) (by omega)))) (Reg.linkage_subset_within _)
      (Reg.linkage_subset_within _) (Code.virtuals_subset_iff.mp Set.subset_union_left))
  refine hfe.lambda ?_ (Nat.le_add_right _ 3) hnext (by simp; omega) ?_ ?_ ?_
  · rintro r (hr | hr)
    · cases hr
    · exact hr
  · exact fun r hr => hs.not_between hr (Nat.le_refl _)
  · exact fun r hr => hcode hr
  · exact fun r hr => hroutine hr

/-- The registers of the arguments are set aside until all of them are there. -/
theorem arg {f a : Expr} {regs : List Reg} {before fa : Fragment}
    (hf : Lowers mode (.args f) s regs before s₁)
    (ha : Lowers mode (.expr a (s₁.reg 1)) (s₁.skip 1) [] fa t)
    (func : (Phrase.args f).Confines s s₁ regs before)
    (last : (Phrase.expr a (s₁.reg 1)).Confines (s₁.skip 1) t [] fa) :
    (Phrase.args (.app f a)).Confines s t (regs ++ [s₁.reg 1]) (before.prepend fa) := by
  intro K hs _
  have hnext₁ : s.next ≤ s₁.next := hf.grows.next
  have hnext₂ : s₁.next + 1 ≤ t.next := ha.grows.next
  have hown := (hs.later hf.grows).grant 1
  have hr₁ : s₁.reg 1 ∈ s₁.granted K 1 := reg_mem_granted (by omega) (by omega)
  have hbefore : before.Confined (s₁.granted K 1) s.next s₁.next regs :=
    (func hs (by simp)).widen (fun _ hr => .inl (.inl hr)) (Nat.le_refl _) (Nat.le_refl _)
  have hlast := (last hown (by simpa using hr₁)).give hown hr₁
  have hboth : (before.prepend fa).Confined (s₁.granted K 1) s.next t.next
      (regs ++ [s₁.reg 1]) := by
    refine hbefore.join hlast rfl ?_ hnext₁ (Nat.le_succ _) hnext₂ ?_
    · intro r hr
      simp [Fragment.frame] at hr ⊢
      tauto
    · rintro r (hr | hr)
      · exact ⟨hs.not_between hr (Nat.le_refl _), hown.not_between (.inl hr) (Nat.le_refl _)⟩
      · exact ⟨fun h => h.not_between (Nat.le_refl _) hr, hr.not_between (Nat.le_refl _)⟩
  exact hboth.widen (fun r hr => hr.imp_right fun hr => hr.mono hnext₁ hnext₂) (Nat.le_refl _)
    (Nat.le_refl _)

theorem field {value : Reg} {field : Nat} {x : String} {params : List String} {e : Expr}
    {f : Fragment}
    (hf : Lowers mode (.fields value (field + 1) params e dst)
      ((s.skip 1).inScope (s.scope.bind x (.register x (s.reg 1)))) [] f s₁)
    (rest : (Phrase.fields value (field + 1) params e dst).Confines
      ((s.skip 1).inScope (s.scope.bind x (.register x (s.reg 1)))) s₁ [] f) :
    (Phrase.fields value field (x :: params) e dst).Confines s (s₁.inScope s.scope) []
      (.ofCode [.load (s.reg 1) value (field : Int)] ++ f) := by
  intro K hs hgiven
  have hnext : s.next + 1 ≤ s₁.next := hf.grows.next
  have hown := hs.grant 1
  have hr₁ : s.reg 1 ∈ s.granted K 1 := reg_mem_granted (by omega) (by omega)
  have hload : (Fragment.ofCode [.load (s.reg 1) value (field : Int)]).Confined
      (s.granted K 1) (s.next + 1) (s.next + 1) [] := by
    refine .ofCode fun r hr => .inl ?_
    have hcases : r = value ∨ s.reg 1 = r := by simpa [Instr.regs] using hr.2
    rcases hcases with rfl | rfl
    · exact .inl (hgiven _ (by simp))
    · exact hr₁
  have hrest := rest (hown.bind hown.held hr₁ x) fun r hr => .inl (hgiven r hr)
  exact (hload.append hown hrest (Nat.le_refl _) hnext).release hnext

theorem branch {id index : Nat} {value : Reg} {c : String} {params : List String} {e : Expr}
    {bs : List Branch} {f fs : Fragment}
    (hf : Lowers mode (.fields value 1 params e dst) s [] f s₁)
    (hr : Lowers mode (.branches id value (index + 1) bs dst) s₁ [] fs t)
    (first : (Phrase.fields value 1 params e dst).Confines s s₁ [] f)
    (rest : (Phrase.branches id value (index + 1) bs dst).Confines s₁ t [] fs) :
    (Phrase.branches id value index (.mk c params e :: bs) dst).Confines s t []
      (.ofCode [.mark (.branch id index)] ++ f ++ .ofCode [.jump (.caseEnd id)] ++ fs) := by
  intro K hs hgiven
  have hnext₁ : s.next ≤ s₁.next := hf.grows.next
  have hmark : (Fragment.ofCode [.mark (.branch id index)]).Confined K s.next s.next [] :=
    .ofCode (by simp [Instr.regs])
  have hstart := hmark.append hs (first hs hgiven) (Nat.le_refl _) hnext₁
  have hbody := hstart.thenCode hs (c := [.jump (.caseEnd id)]) hnext₁ (Nat.le_refl _)
    (by simp [Instr.regs])
  exact hbody.append hs (rest (hs.later hf.grows) hgiven) hnext₁ hr.grows.next

end Phrase.Confines

theorem Lowers.confines {mode : Dispatch} {ph : Phrase} {s t : LowerState} {regs : List Reg}
    {f : Fragment} (h : Lowers mode ph s regs f t) : ph.Confines s t regs f := by
  induction h with
  | @primitive x dst s _ =>
      intro K hs hdst
      have hcode := s.virtuals_printCode x (hdst dst (by simp))
      exact .ofCode fun r hr => hcode hr
  | @var x dst s c refers =>
      intro K hs hdst
      have hcode := refers.virtuals_subset hs.held (hdst dst (by simp))
      exact .ofCode fun r hr => .inl (hcode hr)
  | @ctor c dst s =>
      intro K hs hdst
      have hcode := Code.virtuals_subset_iff.mpr
        ((s.accesses_object (hdst dst (by simp))).ctorCode (s.tagOf c 1))
      exact .ofCode fun r hr => hcode hr
  | @num n dst s =>
      intro K hs hdst
      have hcode := Code.virtuals_subset_iff.mpr
        ((s.accesses_object (hdst dst (by simp))).boxedCode (s.tagOf "Num" 2) n)
      exact .ofCode fun r hr => hcode hr
  | @char n dst s =>
      intro K hs hdst
      have hcode := Code.virtuals_subset_iff.mpr
        ((s.accesses_object (hdst dst (by simp))).boxedCode (s.tagOf "Char" 2) n)
      exact .ofCode fun r hr => hcode hr
  | caseOf he compares hb scrutinee branches => exact .caseOf he compares hb scrutinee branches
  | letIn hv hb value body => exact .letIn hv hb value body
  | lam hcaptured he values hs₂ body => exact .lam hcaptured he values hs₂ body
  | @construct f a c n dst s s₁ regs fa _ ha args =>
      intro K hs hdst
      have hown : (s.withTag c (n + 2)).Owns K := hs.later (.withTag _ _ _)
      have hnew {i : Nat} (hi : 0 < i) (hn : i ≤ 2) : s₁.reg i ∈ {r | r ∈ regs} ∪ s₁.granted K 2 :=
        .inr (reg_mem_granted hi hn)
      have hcode := Code.virtuals_subset_iff.mpr ((Code.accesses_building
        (Reg.mem_within_inter (hnew Nat.one_pos (Nat.le_succ 1)))
        (Reg.mem_within_inter (hnew Nat.two_pos (Nat.le_refl 2)))
        (Reg.mem_within (.inr (.inl (hdst dst (by simp)))))
        fun r hr => Reg.mem_within (.inl hr)).constructCode (s.tagOf c (n + 2)))
      exact (args hown (by simp)).emit hs ha.grows.next (Nat.le_add_right _ 2) fun r hr => hcode hr
  | @print x a dst s s₁ fa _ ha arg =>
      intro K hs hdst
      have hcode := s₁.virtuals_printCode x (hdst dst (by simp))
      exact (arg hs hdst).thenCode hs ha.grows.next (Nat.le_succ _) fun r hr => hcode hr
  | @callVar x a dst s s₁ fa c ha refers arg =>
      intro K hs hdst
      have hown := hs.grant 2
      have hreg {i : Nat} (hi : 0 < i) (hn : i ≤ 2) : s.reg i ∈ s.granted K 2 :=
        reg_mem_granted hi hn
      have hfa := arg hown (by simpa using hreg (by omega) (by omega))
      have hcode := refers.virtuals_subset (hown.later ha.grows).held
        (hreg (by omega) (by omega))
      exact (hfa.thenCode hown ha.grows.next (Nat.le_refl _) fun r hr => .inl (hcode hr)).call hs
        ha.grows.next (hdst dst (by simp))
  | @call f a dst s s₁ s₂ ff fa _ hf ha func arg =>
      intro K hs hdst
      have hown := hs.grant 2
      have hreg {i : Nat} (hi : 0 < i) (hn : i ≤ 2) : s.reg i ∈ s.granted K 2 :=
        reg_mem_granted hi hn
      have hff := func hown (by simpa using hreg (by omega) (by omega))
      have hfa := arg (hown.later hf.grows) (by simpa using hreg (by omega) (by omega))
      exact (hff.append hown hfa hf.grows.next ha.grows.next).call hs
        (hf.grows.trans ha.grows).next (hdst dst (by simp))
  | head _ => exact fun K _ _ => .ofCode (by simp)
  | arg hf ha func last => exact .arg hf ha func last
  | body _ ih => exact fun K hs hgiven => ih hs fun r hr => hgiven r (List.mem_cons_of_mem _ hr)
  | field hf rest => exact .field hf rest
  | noBranch => exact fun K _ _ => .ofCode (by simp)
  | branch hf hr first rest => exact .branch hf hr first rest

/-- The code of the fragment and that of each of its routines. -/
def Fragment.blocks (f : Fragment) : List Code := f.code :: f.routines.map Routine.code

/-- No virtual register occurs in both. -/
def Code.Apart (c d : Code) : Prop := Disjoint c.virtuals d.virtuals

theorem Code.Apart.symm {c d : Code} (h : c.Apart d) : d.Apart c := Disjoint.symm h

namespace Fragment.Confined

variable {lo hi : Nat} {f : Fragment}

theorem blocks_from (h : f.Confined ∅ lo hi []) :
    ∀ c ∈ f.blocks, ∀ r ∈ c.virtuals, r.Between lo hi := by
  intro c hc r hr
  rcases List.mem_cons.mp hc with rfl | hc
  · exact (h.frame_from r (.inl hr)).resolve_left (Set.notMem_empty r)
  · obtain ⟨b, hb, rfl⟩ := List.mem_map.mp hc
    exact h.inner_from b hb r hr

theorem blocks_apart (h : f.Confined ∅ lo hi []) : f.blocks.Pairwise Code.Apart := by
  refine List.pairwise_cons.mpr ⟨?_, List.pairwise_map.mpr h.inner_apart⟩
  intro c hc
  obtain ⟨b, hb, rfl⟩ := List.mem_map.mp hc
  have hapart := h.frame_apart b hb
  rwa [frame_nil] at hapart

end Fragment.Confined

/-- Nothing is in scope for a definition. -/
theorem Lowers.confined_fragment {mode : Dispatch} {d : Def} {s t : LowerState} {f : Fragment}
    (h : Lowers mode (.expr d.body (s.reg 1)) (s.skip 1) [] f t) (hs : s.scope = {}) :
    (d.fragment (s.reg 1) f).Confined ∅ s.next t.next [] := by
  have hnext : s.next + 1 ≤ t.next := h.grows.next
  have hnone : s.Owns ∅ := ⟨by simp, hs ▸ .empty _⟩
  have hown := hnone.grant 1
  have hvalue : s.reg 1 ∈ s.granted ∅ 1 := reg_mem_granted (by omega) (by omega)
  have hbody := h.confines hown (by simpa using hvalue)
  have hmark : (Fragment.ofCode [.mark ⟨d.name⟩]).Confined (s.granted ∅ 1) (s.next + 1)
      (s.next + 1) [] := .ofCode (by simp [Instr.regs])
  have hstart := hmark.append hown hbody (Nat.le_refl _) hnext
  refine (hstart.thenCode hown hnext (Nat.le_refl _) ?_).release hnext
  intro r hr
  simp [Instr.regs] at hr
  obtain ⟨hvirtual, rfl | rfl⟩ := hr
  · exact .inl hvalue
  · simp at hvirtual

namespace LowersDefs

variable {mode : Dispatch} {p : Program} {s t : LowerState} {fs : List Fragment}

theorem blocks_from (h : LowersDefs mode p s fs t) (hs : s.scope = {}) :
    ∀ c ∈ fs.flatMap Fragment.blocks, ∀ r ∈ c.virtuals, r.Between s.next t.next := by
  induction h with
  | nil s => simp
  | @cons d rest s s₁ t f fs body others ih =>
      have hnext : s.next + 1 ≤ s₁.next := body.grows.next
      have hnext' : s₁.next ≤ t.next := others.grows.next
      intro c hc r hr
      rw [List.flatMap_cons] at hc
      rcases List.mem_append.mp hc with hc | hc
      · exact ((body.confined_fragment hs).blocks_from c hc r hr).mono (Nat.le_refl _) hnext'
      · exact (ih (body.grows.scope.trans hs) c hc r hr).mono (by omega) (Nat.le_refl _)

/-- The blocks of a definition have their registers from the range of the definition. -/
theorem blocks_apart (h : LowersDefs mode p s fs t) (hs : s.scope = {}) :
    (fs.flatMap Fragment.blocks).Pairwise Code.Apart := by
  induction h with
  | nil s => exact .nil
  | @cons d rest s s₁ t f fs body others ih =>
      have hscope : s₁.scope = {} := body.grows.scope.trans hs
      have hfirst := body.confined_fragment hs
      refine List.pairwise_append.mpr ⟨hfirst.blocks_apart, ih hscope, ?_⟩
      intro c hc e he
      refine Set.disjoint_left.mpr fun r hrc hre => ?_
      exact (hfirst.blocks_from c hc r hrc).not_between (Nat.le_refl _)
        (others.blocks_from hscope e he r hre)

theorem allocatesIn (h : LowersDefs mode p s fs t) :
    (Fragment.ofCode (fs.flatMap Fragment.allCode)).AllocatesIn s.next t.next := by
  induction h with
  | nil s => exact .none rfl
  | @cons d rest s s₁ t f fs body others ih =>
      have hnext : s.next + 1 ≤ s₁.next := body.grows.next
      have hfirst : (d.fragment (s.reg 1) f).AllocatesIn (s.next + 1) s₁.next :=
        (body.allocatesIn.none_append rfl).append_none rfl
      refine Fragment.AllocatesIn.mono (hfirst.join ih hnext (Nat.le_refl _) others.grows.next ?_)
        (Nat.le_add_right _ 1) (Nat.le_refl _)
      simp [Fragment.allCode]

end LowersDefs

theorem blocks_perm (fs : List Fragment) :
    ((fs.flatMap Fragment.routines).map Routine.code ++ fs.map Fragment.code).Perm
      (fs.flatMap Fragment.blocks) := by
  induction fs with
  | nil => exact .refl _
  | cons f fs ih =>
      rw [List.perm_iff_count] at ih ⊢
      intro c
      have hcount := ih c
      simp [Fragment.blocks, List.count_cons] at hcount ⊢
      omega

namespace Code

/-- A routine ends at the first return. -/
theorem IsRoutine.eq_of_append_eq {c d x y : Code} {m n : Nat} (hc : c.IsRoutine m)
    (hd : d.IsRoutine n) (h : c ++ x = d ++ y) : c = d ∧ x = y := by
  have hshort {c d x y : Code} {m n : Nat} (hc : c.IsRoutine m) (hd : d.IsRoutine n)
      (h : c ++ x = d ++ y) : d.length ≤ c.length := by
    have hpos := List.length_pos_iff.mpr hc.ne_nil
    by_contra hlt
    have hret : (c ++ x)[c.length - 1]? = some .ret := by
      rw [List.getElem?_append_left (by omega)]
      exact hc.ret_at_end
    rw [h, List.getElem?_append_left (by omega)] at hret
    have hend := (hd.returns _).mp hret
    omega
  exact List.append_inj h (Nat.le_antisymm (hshort hd hc h.symm) (hshort hc hd h))

theorem eq_of_flatten_eq_routines {cs ds : List Code} (hcs : ∀ c ∈ cs, ∃ n, c.IsRoutine n)
    (hds : ∀ d ∈ ds, ∃ n, d.IsRoutine n) (h : cs.flatten = ds.flatten) : cs = ds := by
  induction cs generalizing ds with
  | nil =>
      cases ds with
      | nil => rfl
      | cons d ds =>
          obtain ⟨n, hd⟩ := hds d (by simp)
          have hnil : d = [] := (List.append_eq_nil_iff.mp h.symm).1
          have hopens := hd.opens
          simp [hnil] at hopens
  | cons c cs ih =>
      obtain ⟨m, hc⟩ := hcs c (by simp)
      cases ds with
      | nil =>
          have hnil : c = [] := (List.append_eq_nil_iff.mp h).1
          have hopens := hc.opens
          simp [hnil] at hopens
      | cons d ds =>
          obtain ⟨n, hd⟩ := hds d (by simp)
          obtain ⟨rfl, hrest⟩ := hc.eq_of_append_eq hd h
          rw [ih (fun c hc => hcs c (by simp [hc])) (fun d hd => hds d (by simp [hd])) hrest]

/-- A definition ends where the next one starts, and each label marks one place. -/
theorem eq_of_flatten_eq_definitions {p : Program} {cs ds : List Code}
    (hcs : List.Forall₂ (fun c d => c.IsDefinition d.name) cs p)
    (hds : List.Forall₂ (fun c d => c.IsDefinition d.name) ds p) (h : cs.flatten = ds.flatten)
    (hmarks : (Code.marks cs.flatten).Nodup) : cs = ds := by
  induction hcs generalizing ds with
  | nil =>
      cases hds
      rfl
  | @cons c e cs p _ hcs ih =>
      obtain _ | @⟨d, _, ds, _, _, hds⟩ := hds
      have hlength : c.length = d.length := by
        obtain _ | @⟨c', e', cs', p', hc', hcs'⟩ := hcs
        · cases hds
          simpa using congrArg List.length h
        · obtain _ | @⟨d', _, ds', _, hd', hds'⟩ := hds
          obtain ⟨c'', rfl⟩ := List.head?_eq_some_iff.mp hc'.opens
          obtain ⟨d'', rfl⟩ := List.head?_eq_some_iff.mp hd'.opens
          refine mark_unique hmarks (l := ⟨e'.name⟩) ?_ ?_
          · simp
          · rw [h]
            simp
      obtain ⟨rfl, hrest⟩ := List.append_inj h hlength
      rw [List.flatten_cons, marks_append, List.nodup_append] at hmarks
      rw [ih hds hrest hmarks.2.1]

end Code

/-- There is one way to cut the code of a program into blocks. -/
theorem Program.Blocks.eq {p : Program} {code : Code} {bodies defs bodies' defs' : List Code}
    (h : p.Blocks code bodies defs) (h' : p.Blocks code bodies' defs') (hmarks : code.marks.Nodup) :
    bodies = bodies' ∧ defs = defs' := by
  obtain ⟨hbodies, hdefs⟩ := h.flatten_eq h' hmarks
  have hmarks' : (Code.marks defs.flatten).Nodup := by
    obtain ⟨d, -, rfl⟩ := h.code_eq
    rw [← List.cons_append, Code.marks_append, List.nodup_append] at hmarks
    exact hmarks.2.1
  exact ⟨Code.eq_of_flatten_eq_routines (fun _ => h.routines.isRoutine)
    (fun _ => h'.routines.isRoutine) hbodies,
    Code.eq_of_flatten_eq_definitions h.definitions h'.definitions hdefs hmarks'⟩

namespace Compiler

theorem exists_blocks_of_mem_virtuals {p : Program} {fs : List Fragment} {r : Reg}
    (h : r ∈ (Program.assemble p fs).virtuals) :
    ∃ c ∈ fs.flatMap Fragment.blocks, r ∈ c.virtuals := by
  obtain ⟨hvirtual, i, hi, hr⟩ := h
  cases p with
  | nil => simp [Program.assemble] at hi
  | cons d rest =>
      have hcases : i = .jump ⟨d.name⟩ ∨ (∃ b, (∃ f ∈ fs, b ∈ f.routines) ∧ i ∈ b.code) ∨
          ∃ f ∈ fs, i ∈ f.code := by
        simpa [Program.assemble] using hi
      rcases hcases with rfl | ⟨b, ⟨f, hf, hb⟩, hi⟩ | ⟨f, hf, hi⟩
      · simp [Instr.regs] at hr
      · refine ⟨b.code, List.mem_flatMap.mpr ⟨f, hf, ?_⟩, hvirtual, i, hi, hr⟩
        exact List.mem_cons_of_mem _ (List.mem_map_of_mem hb)
      · exact ⟨f.code, List.mem_flatMap.mpr ⟨f, hf, List.mem_cons_self ..⟩, hvirtual, i, hi, hr⟩

theorem allocated_perm {mode : Dispatch} {p : Program} {s t : LowerState} {fs : List Fragment}
    (h : LowersDefs mode p s fs t) :
    (Program.assemble p fs).allocated.Perm (Code.allocated (fs.flatMap Fragment.allCode)) := by
  cases p with
  | nil =>
      rw [h.eq_nil_of_nil]
      exact .refl _
  | cons d rest => exact (flatMap_allCode_perm fs).filterMap _

/-- The blocks of an accepted program share no virtual register, no two objects are made in one
register, and all virtual registers have been handed out. In whatever state an expression is
lowered, its code and its routines write no virtual registers but its destination and those
that are handed out on the way. -/
theorem registers_separate :
    (∀ mode p code, ((new mode).compile p).1 = .ok code →
      (p ≠ [] → ∃ bodies defs, p.Blocks code bodies defs) ∧
      (∀ bodies defs, p.Blocks code bodies defs → (bodies ++ defs).Pairwise Code.Apart) ∧
      code.allocated.Nodup ∧
      ∀ r ∈ code.virtuals, ∃ n : Nat, r = .virtual n ∧ 1 ≤ n ∧
        n ≤ ((new mode).compile p).2.state.env.shared.next) ∧
    ∀ mode (e : Expr) dst s f t, e.lower mode dst s = .ok f t →
      ∀ i ∈ f.allCode, ∀ r, i.writes? = some r → r.isVirtual = true →
        r = dst ∨ ∃ n : Nat, r = .virtual n ∧ s.env.shared.next < n ∧ n ≤ t.env.shared.next := by
  constructor
  · intro mode p code h
    refine ⟨?_, ?_, ?_, ?_⟩
    · intro hp
      obtain ⟨fs, -, hblocks⟩ := exists_blocks hp h
      exact ⟨_, _, hblocks⟩
    · intro bodies defs hown
      have hp : p ≠ [] := by
        rintro rfl
        obtain ⟨d, hd, -⟩ := hown.code_eq
        cases hd
      obtain ⟨fs, hfs, hblocks⟩ := exists_blocks hp h
      obtain ⟨rfl, rfl⟩ := hblocks.eq hown (nodup_marks h)
      exact ((blocks_perm fs).pairwise_iff Code.Apart.symm).mpr (hfs.blocks_apart rfl)
    · obtain ⟨-, fs, hfs, rfl⟩ := compile_eq_ok h
      rw [(allocated_perm hfs).nodup_iff]
      simpa [Fragment.allCode] using hfs.allocatesIn.nodup
    · intro r hr
      obtain ⟨-, fs, hfs, rfl⟩ := compile_eq_ok h
      obtain ⟨c, hc, hr⟩ := exists_blocks_of_mem_virtuals hr
      exact hfs.blocks_from rfl c hc r hr
  · intro mode e dst s f t h i hi r hr hvirtual
    exact (((Expr.lowers_of_lower h).writesOnly i hi).2 r hr hvirtual).imp_left fun h =>
      (Option.some.inj h).symm

/-- Routines inside of one another that use the same names, and a definition next to them. -/
def sameNames : Program :=
  [⟨"x", .lam "x" (.letIn "y" (.lam "x" (.var "x")) (.lam "z" (.app (.var "y") (.var "x"))))⟩,
    ⟨"main", .caseOf (.app (.app (.ctor "Pair") (.num 1)) (.lam "x" (.var "x")))
      [.mk "Pair" ["x", "y"] (.app (.var "y") (.var "x"))]⟩]

theorem registers_separate_sameNames : ∃ code bodies defs,
    ((new .tag).compile sameNames).1 = .ok code ∧ sameNames.Blocks code bodies defs ∧
      (bodies ++ defs).Pairwise Code.Apart ∧ code.allocated.Nodup := by
  obtain ⟨code, h⟩ := exists_code .tag sameNames (by decide +kernel)
  obtain ⟨hblocks, hapart, hnodup, -⟩ := registers_separate.1 .tag sameNames code h
  obtain ⟨bodies, defs, hcut⟩ := hblocks (by simp [sameNames])
  exact ⟨code, bodies, defs, h, hcut, hapart bodies defs hcut, hnodup⟩

end Compiler

end Lowering

import Lowering.Proofs.Operands
import Lowering.Proofs.Sites

/-!
# Registers that are handed out on the way

Lowered code writes its destination and the registers that were handed out while it was
lowered, whatever is in scope (`Lowers.writesOnly`). No register is handed out twice, so
no two objects are made in one register (`Lowers.allocatesIn`).
-/

namespace Lowering

theorem Reg.Between.not_between {lo mid mid' hi : Nat} {r : Reg} (h : r.Between lo mid)
    (hmid : mid ≤ mid') : ¬ r.Between mid' hi := by
  obtain ⟨n, rfl, -, hn⟩ := h
  rintro ⟨m, hm, hlo, -⟩
  have hnm := Reg.virtual_injective hm
  omega

/-- All registers but the virtual ones outside of `K`. -/
def Reg.within (K : Set Reg) : Set Reg := {r | r.isVirtual = true → r ∈ K}

namespace Reg

variable {K K' : Set Reg} {r : Reg}

theorem mem_within (h : r ∈ K) : r ∈ within K := fun _ => h

theorem mem_within_inter (h : r ∈ K) : r ∈ within K ∩ within K := ⟨mem_within h, mem_within h⟩

theorem within_mono (h : K ⊆ K') : within K ⊆ within K' := fun _ hr hvirtual => h (hr hvirtual)

theorem linkage_subset_within (K : Set Reg) : linkage ⊆ within K := by
  rw [linkage_subset_iff]
  simp [within]

end Reg

/-- The virtual registers that the code of the fragment and its routines write are all in `W`. -/
abbrev Fragment.WritesOnly (W : Set Reg) (f : Fragment) : Prop :=
  f.Accesses Set.univ (Reg.within W)

theorem Fragment.WritesOnly.mono {W W' : Set Reg} {f : Fragment} (h : f.WritesOnly W)
    (hW : W ⊆ W') : f.WritesOnly W' :=
  Fragment.Each.mono h fun _ hi => ⟨hi.1, fun r hr => Reg.within_mono hW (hi.2 r hr)⟩

/-- The register that the value of a phrase goes to. -/
@[simp] def Phrase.target? : Phrase → Option Reg
  | .expr _ dst => some dst
  | .args _ => none
  | .fields _ _ _ _ dst => some dst
  | .branches _ _ _ _ dst => some dst

/-- What a phrase may write: its target, and the registers that are handed out for it. -/
def Phrase.writable (ph : Phrase) (lo hi : Nat) : Set Reg :=
  {r | ph.target? = some r ∨ r.Between lo hi}

section

variable {ph ph' : Phrase} {lo hi lo' hi' : Nat} {f : Fragment} {e : Expr} {r : Reg}

theorem Phrase.reg_mem_writable {s : LowerState} {i : Nat} (hlo : lo < s.next + i)
    (hhi : s.next + i ≤ hi) : s.reg i ∈ ph.writable lo hi :=
  .inr (LowerState.between_reg hlo hhi)

theorem Phrase.target_mem_writable (h : ph.target? = some r) : r ∈ ph.writable lo hi :=
  .inl h

/-- A part of a phrase may write what the phrase may write, if the phrase may write its target. -/
theorem Fragment.WritesOnly.part (h : f.WritesOnly (ph'.writable lo hi))
    (htarget : ∀ r, ph'.target? = some r → r ∈ ph.writable lo' hi') (hlo : lo' ≤ lo)
    (hhi : hi ≤ hi') : f.WritesOnly (ph.writable lo' hi') := by
  refine h.mono ?_
  rintro r (hr | hr)
  · exact htarget r hr
  · exact .inr (hr.mono hlo hhi)

/-- The value of a part may be meant for a register that was handed out for the phrase. -/
theorem Fragment.WritesOnly.into (h : f.WritesOnly ((Phrase.expr e r).writable lo hi))
    (hr : r ∈ ph.writable lo' hi') (hlo : lo' ≤ lo) (hhi : hi ≤ hi') :
    f.WritesOnly (ph.writable lo' hi') := by
  refine h.part ?_ hlo hhi
  rintro _ ⟨⟩
  exact hr

end

open Phrase (reg_mem_writable target_mem_writable)

/-- Apart from its target, a phrase writes only registers that are handed out for it. -/
theorem Lowers.writesOnly {mode : Dispatch} {ph : Phrase} {s t : LowerState} {regs : List Reg}
    {f : Fragment} (h : Lowers mode ph s regs f t) :
    f.WritesOnly (ph.writable s.next t.next) := by
  have hany (scope : Scope) : scope.HeldIn Set.univ := ⟨fun _ _ _ _ => trivial, fun _ _ => trivial⟩
  have hreg {ph : Phrase} {s : LowerState} {i lo hi : Nat} (hlo : lo < s.next + i)
      (hhi : s.next + i ≤ hi) : s.reg i ∈ Set.univ ∩ Reg.within (ph.writable lo hi) :=
    ⟨trivial, Reg.mem_within (reg_mem_writable hlo hhi)⟩
  have htarget {ph : Phrase} {r : Reg} {lo hi : Nat} (h : ph.target? = some r) :
      r ∈ Reg.within (ph.writable lo hi) := Reg.mem_within (target_mem_writable h)
  have hlinkage {ph : Phrase} {lo hi : Nat} : Reg.linkage ⊆ Reg.within (ph.writable lo hi) :=
    Reg.linkage_subset_within _
  induction h with
  | primitive _ =>
      exact Fragment.each_ofCode.mpr
        (Code.accesses_printCode _ (hreg (by simp) (by simp)) trivial)
  | var refers =>
      exact Fragment.each_ofCode.mpr (refers.accesses (hany _) (fun _ _ => trivial) (htarget rfl))
  | ctor =>
      exact Fragment.each_ofCode.mpr ((Code.accesses_building (hreg (by simp) (by simp))
        (hreg (by simp) (by simp)) (htarget rfl) (List.forall_mem_nil _)).ctorCode _)
  | num =>
      exact Fragment.each_ofCode.mpr ((Code.accesses_building (hreg (by simp) (by simp))
        (hreg (by simp) (by simp)) (htarget rfl) (List.forall_mem_nil _)).boxedCode _ _)
  | char =>
      exact Fragment.each_ofCode.mpr ((Code.accesses_building (hreg (by simp) (by simp))
        (hreg (by simp) (by simp)) (htarget rfl) (List.forall_mem_nil _)).boxedCode _ _)
  | @caseOf e bs dst s s₁ s₂ t fe fb tests he compares hb scrutinee branches =>
      have hnext₁ : s.next + 3 ≤ s₁.next := he.grows.next
      have hnext₂ : s₁.next ≤ s₂.next := compares.grows.next
      have hnext₃ : s₂.next ≤ t.next := hb.grows.next
      have hload : Instr.Accesses Set.univ
          (Reg.within (Phrase.writable (.expr (.caseOf e bs) dst) s.next t.next))
          (.load (s.reg 2) (s.reg 1) 0) := by
        refine ⟨fun _ _ => trivial, ?_⟩
        rintro r ⟨⟩
        exact (hreg (by omega) (by omega)).2
      simp only [Fragment.each_append, Fragment.each_ofCode, Code.each_cons]
      refine ⟨⟨⟨?_, hload, compares.accesses trivial (hreg (by omega) (by omega))⟩, ?_⟩,
        by simp [Instr.Accesses], Code.each_nil⟩
      · exact scrutinee.into (reg_mem_writable (by omega) (by omega)) (Nat.le_add_right _ 3)
          (by omega)
      · exact branches.part (fun r hr => target_mem_writable hr) (by omega) (Nat.le_refl _)
  | @letIn x v b dst s s₁ s₂ fv fb hv hb value body =>
      have hnext₁ : s.next + 1 ≤ s₁.next := hv.grows.next
      have hnext₂ : s₁.next ≤ s₂.next := hb.grows.next
      refine Fragment.each_append.mpr ⟨?_, ?_⟩
      · exact value.into (reg_mem_writable (by omega) (by simp; omega)) (Nat.le_succ _) hnext₂
      · exact body.into (target_mem_writable rfl) (by simp; omega) (Nat.le_refl _)
  | @lam x e dst s s₁ s₂ fe captured loads _ he values hs₂ body =>
      subst hs₂
      have hnext : s.next + 3 ≤ s₁.next := he.grows.next
      have hthree {i : Nat} (hpos : 0 < i) (hi : i ≤ 3) : s.reg i ∈ Phrase.writable
          (.expr (.lam x e) dst) s.next (s₁.next + captured.length + 2) :=
        reg_mem_writable (by omega) (by omega)
      have hbody := body.into (hthree (by omega) (by omega)) (Nat.le_add_right _ 3)
        (Nat.le_trans (Nat.le_add_right _ captured.length) (Nat.le_add_right _ 2))
      refine hbody.lambda (Code.each_append.mpr ⟨values.accesses (hany _) (fun _ _ => trivial) ?_,
        (Code.accesses_building ?_ ?_ (htarget rfl) fun _ _ => trivial).closureCode _ _⟩)
        (Code.accesses_routineCode ?_ ?_ trivial (Set.subset_univ _) hlinkage)
      · intro r hr
        obtain ⟨i, hi, rfl⟩ := List.mem_map.mp hr
        have hi' := List.mem_range.mp hi
        exact (hreg (by simp; omega) (by simp; omega)).2
      · exact hreg (by simp; omega) (by simp)
      · exact hreg (by simp; omega) (by simp)
      · exact Reg.mem_within (hthree (by omega) (by omega))
      · exact Reg.mem_within (hthree (by omega) (by omega))
  | @construct f a c n dst s s₁ regs fa _ ha args =>
      have hnext : s.next ≤ s₁.next := ha.grows.next
      refine Fragment.each_append.mpr
        ⟨args.part (by simp) (Nat.le_refl _) (Nat.le_add_right _ 2), Fragment.each_ofCode.mpr
          ((Code.accesses_building ?_ ?_ (htarget rfl) fun _ _ => trivial).constructCode _)⟩
      · exact hreg (by omega) (by simp)
      · exact hreg (by omega) (by simp)
  | @print x a dst s s₁ fa _ ha arg =>
      have hnext : s.next ≤ s₁.next := ha.grows.next
      refine Fragment.each_append.mpr ⟨?_, Fragment.each_ofCode.mpr ?_⟩
      · exact arg.into (target_mem_writable rfl) (Nat.le_refl _) (Nat.le_add_right _ 1)
      · exact Code.accesses_printCode x (hreg (by omega) (by simp)) trivial
  | @callVar x a dst s s₁ fa c ha refers arg =>
      have hnext : s.next + 2 ≤ s₁.next := ha.grows.next
      simp only [Fragment.each_append, Fragment.each_ofCode]
      refine ⟨⟨arg.into ?_ (Nat.le_add_right _ 2) (Nat.le_add_right _ 2),
        refers.accesses (hany _) (fun _ _ => trivial) ?_⟩,
        Code.accesses_callCode trivial trivial ?_ ?_ (htarget rfl) (Set.subset_univ _) hlinkage⟩
      · exact reg_mem_writable (by omega) (by simp; omega)
      · exact (hreg (by omega) (by simp; omega)).2
      · exact hreg (by omega) (by simp)
      · exact hreg (by omega) (by simp)
  | @call f a dst s s₁ s₂ ff fa _ hf ha func arg =>
      have hnext₁ : s.next + 2 ≤ s₁.next := hf.grows.next
      have hnext₂ : s₁.next ≤ s₂.next := ha.grows.next
      simp only [Fragment.each_append, Fragment.each_ofCode]
      refine ⟨⟨func.into ?_ (Nat.le_add_right _ 2) (by simp; omega),
        arg.into ?_ (by omega) (Nat.le_add_right _ 2)⟩,
        Code.accesses_callCode trivial trivial ?_ ?_ (htarget rfl) (Set.subset_univ _) hlinkage⟩
      · exact reg_mem_writable (by omega) (by simp; omega)
      · exact reg_mem_writable (by omega) (by simp; omega)
      · exact hreg (by omega) (by simp)
      · exact hreg (by omega) (by simp)
  | head _ => exact Fragment.each_empty
  | @arg f a s s₁ t regs before fa hf ha func last =>
      have hnext₁ : s.next ≤ s₁.next := hf.grows.next
      have hnext₂ : s₁.next + 1 ≤ t.next := ha.grows.next
      refine Fragment.each_prepend.mpr ⟨?_, ?_⟩
      · exact func.part (by simp) (Nat.le_refl _) (by omega)
      · exact last.into (reg_mem_writable (by omega) (by omega)) (by simp; omega) (Nat.le_refl _)
  | body _ ih => exact ih
  | @field value field x params e dst s s₁ f hf rest =>
      have hnext : s.next + 1 ≤ s₁.next := hf.grows.next
      refine Fragment.each_append.mpr ⟨Fragment.each_ofCode.mpr ?_, ?_⟩
      · refine Code.each_cons.mpr ⟨⟨fun _ _ => trivial, ?_⟩, Code.each_nil⟩
        rintro r ⟨⟩
        exact (hreg (by omega) hnext).2
      · exact rest.part (fun r hr => target_mem_writable hr) (Nat.le_succ _) (Nat.le_refl _)
  | noBranch => exact Fragment.each_empty
  | @branch id value index c params e bs dst s s₁ t f fs hf hr first rest =>
      have hnext₁ : s.next ≤ s₁.next := hf.grows.next
      have hnext₂ : s₁.next ≤ t.next := hr.grows.next
      simp only [Fragment.each_append, Fragment.each_ofCode]
      refine ⟨⟨⟨by simp [Instr.Accesses], ?_⟩, by simp [Instr.Accesses]⟩, ?_⟩
      · exact first.part (fun r hr => target_mem_writable hr) (Nat.le_refl _) hnext₂
      · exact rest.part (fun r hr => target_mem_writable hr) hnext₁ (Nat.le_refl _)

/-- The register that an instruction makes a new object in. -/
@[simp] def Instr.allocates? : Instr → Option Reg
  | .alloc dst _ => some dst
  | _ => none

namespace Code

/-- The registers that the code makes new objects in, one for each allocation. -/
def allocated (code : Code) : List Reg := code.filterMap Instr.allocates?

@[simp] theorem allocated_nil : allocated [] = [] := rfl

@[simp] theorem allocated_cons (i : Instr) (c : Code) :
    allocated (i :: c) = i.allocates?.toList ++ c.allocated := by
  rw [allocated, List.filterMap_cons]
  cases i.allocates? <;> rfl

@[simp] theorem allocated_append (c d : Code) :
    allocated (c ++ d) = c.allocated ++ d.allocated :=
  List.filterMap_append

@[simp] theorem allocated_storeAll (obj : Reg) (slot : Nat) (args : List Reg) :
    allocated (storeAll obj slot args) = [] := by
  induction args generalizing slot with
  | nil => rfl
  | cons a rest ih => simp [storeAll, ih]

theorem allocated_printCode (x : String) (tmp dst : Reg) :
    (printCode x tmp dst).allocated = [] := by
  by_cases hx : x = printCharName <;> simp [printCode, hx]

theorem allocated_boxedCode (t : Tag) (value : Int64) (tmp obj dst : Reg) :
    (boxedCode t value tmp obj dst).allocated = [obj] := by
  simp [boxedCode, storeInt]

theorem allocated_ctorCode (t : Tag) (tmp obj dst : Reg) :
    (ctorCode t tmp obj dst).allocated = [obj] := by
  simp [ctorCode, storeInt]

theorem allocated_constructCode (t : Tag) (args : List Reg) (obj tmp dst : Reg) :
    (constructCode t args obj tmp dst).allocated = [obj] := by
  simp [constructCode, storeInt]

theorem allocated_closureCode (t : Tag) (label : Label) (captured : List Reg) (obj tmp dst : Reg) :
    (closureCode t label captured obj tmp dst).allocated = [obj] := by
  simp [closureCode, storeInt]

theorem allocated_callCode (func arg address res dst : Reg) :
    (callCode func arg address res dst).allocated = [] := by
  simp [callCode]

theorem allocated_routineCode (label : Label) (closure arg res : Reg) (body : Code) :
    (routineCode label closure arg res body).allocated = body.allocated := by
  simp [routineCode]

end Code

theorem Refers.allocated_eq {x : String} {dst : Reg} {s : LowerState} {c : Code}
    (h : Refers x dst s c) : c.allocated = [] := by
  cases h <;> simp

theorem RefersAll.allocated_eq {xs : List String} {s : LowerState} {c : Code}
    (h : RefersAll xs s c) : c.allocated = [] := by
  induction h with
  | nil => simp
  | cons head _ ih => simp [head.allocated_eq, ih]

theorem Compares.allocated_eq {mode : Dispatch} {id : Nat} {tagReg wanted : Reg} {index : Nat}
    {bs : List Branch} {s t : LowerState} {code : Code}
    (h : Compares mode id tagReg wanted index bs s code t) : code.allocated = [] := by
  induction h with
  | nil => simp
  | cons _ ih => simp [ih]

namespace Fragment

/-- The code of the fragment and its routines make objects in registers of this range, at most
one in each. -/
structure AllocatesIn (lo hi : Nat) (f : Fragment) : Prop where
  between : ∀ r ∈ f.allCode.allocated, r.Between lo hi
  nodup : f.allCode.allocated.Nodup

namespace AllocatesIn

variable {lo lo' mid mid' hi hi' : Nat} {f g h : Fragment} {c : Code}

theorem mono (hf : f.AllocatesIn lo hi) (hlo : lo' ≤ lo) (hhi : hi ≤ hi') :
    f.AllocatesIn lo' hi' :=
  ⟨fun r hr => (hf.between r hr).mono hlo hhi, hf.nodup⟩

theorem none (hc : c.allocated = []) : (ofCode c).AllocatesIn lo hi := by
  constructor <;> simp [allCode, hc]

theorem one {obj : Reg} (hc : c.allocated = [obj]) (hobj : obj.Between lo hi) :
    (ofCode c).AllocatesIn lo hi := by
  constructor <;> simp [allCode, hc, hobj]

/-- Two parts with ranges of their own. -/
theorem join (hf : f.AllocatesIn lo mid) (hg : g.AllocatesIn mid' hi) (hlo : lo ≤ mid)
    (hmid : mid ≤ mid') (hhi : mid' ≤ hi)
    (hperm : h.allCode.allocated.Perm (f.allCode.allocated ++ g.allCode.allocated)) :
    h.AllocatesIn lo hi := by
  constructor
  · intro r hr
    rcases List.mem_append.mp (hperm.mem_iff.mp hr) with hr | hr
    · exact (hf.between r hr).mono (Nat.le_refl lo) (hmid.trans hhi)
    · exact (hg.between r hr).mono (hlo.trans hmid) (Nat.le_refl hi)
  · rw [hperm.nodup_iff, List.nodup_append]
    refine ⟨hf.nodup, hg.nodup, ?_⟩
    rintro r hr _ hr' rfl
    exact (hf.between r hr).not_between hmid (hg.between r hr')

theorem append (hf : f.AllocatesIn lo mid) (hg : g.AllocatesIn mid' hi) (hlo : lo ≤ mid)
    (hmid : mid ≤ mid') (hhi : mid' ≤ hi) : (f ++ g).AllocatesIn lo hi := by
  refine hf.join hg hlo hmid hhi (List.perm_iff_count.mpr fun r => ?_)
  simp [allCode]
  omega

/-- Code without allocations does not matter. -/
theorem append_none (hf : f.AllocatesIn lo hi) (hc : c.allocated = []) :
    (f ++ ofCode c).AllocatesIn lo hi := by
  constructor
  · simpa [allCode, hc] using hf.between
  · simpa [allCode, hc] using hf.nodup

theorem none_append (hf : f.AllocatesIn lo hi) (hc : c.allocated = []) :
    (ofCode c ++ f).AllocatesIn lo hi := by
  constructor
  · simpa [allCode, hc] using hf.between
  · simpa [allCode, hc] using hf.nodup

end AllocatesIn

end Fragment

/-- Objects are made in registers that are handed out on the way, no two in one register. -/
theorem Lowers.allocatesIn {mode : Dispatch} {ph : Phrase} {s t : LowerState} {regs : List Reg}
    {f : Fragment} (h : Lowers mode ph s regs f t) : f.AllocatesIn s.next t.next := by
  induction h with
  | primitive _ => exact .none (Code.allocated_printCode _ _ _)
  | var refers => exact .none refers.allocated_eq
  | ctor =>
      exact .one (Code.allocated_ctorCode _ _ _ _) (LowerState.between_reg (by simp) (by simp))
  | num =>
      exact .one (Code.allocated_boxedCode _ _ _ _ _) (LowerState.between_reg (by simp) (by simp))
  | char =>
      exact .one (Code.allocated_boxedCode _ _ _ _ _) (LowerState.between_reg (by simp) (by simp))
  | @caseOf e bs dst s s₁ s₂ t fe fb tests he compares hb scrutinee branches =>
      have hstart := scrutinee.append_none (c := .load (s.reg 2) (s.reg 1) 0 :: tests)
        (by simp [compares.allocated_eq])
      exact ((hstart.append branches he.grows.next compares.grows.next hb.grows.next).append_none
        rfl).mono (Nat.le_add_right _ 3) (Nat.le_refl _)
  | letIn hv hb value body =>
      exact (value.append body hv.grows.next (Nat.le_refl _) hb.grows.next).mono
        (Nat.le_add_right _ 1) (Nat.le_refl _)
  | @lam x e dst s s₁ s₂ fe captured loads _ he values hs₂ body =>
      have hnext : s.next + 3 ≤ s₁.next := he.grows.next
      have hs₂' : s₁.next ≤ s₂.next := by simp [hs₂]
      have hcode : (Fragment.ofCode (loads ++ closureCode (s₂.tagOf "Closure" 1)
          (.routine s.routines) ((s₁.inScope s.scope).regs captured.length) (s₂.reg 1) (s₂.reg 2)
          dst)).AllocatesIn s₁.next (s₂.next + 2) := by
        refine .one ?_ (LowerState.between_reg (by omega) (Nat.le_succ _))
        rw [Code.allocated_append, values.allocated_eq, Code.allocated_closureCode,
          List.nil_append]
      refine Fragment.AllocatesIn.mono (body.join hcode hnext (Nat.le_refl _) (by omega) ?_)
        (Nat.le_add_right _ 3) (Nat.le_refl _)
      refine List.perm_iff_count.mpr fun r => ?_
      simp [Fragment.allCode, Code.allocated_routineCode]
      omega
  | construct _ ha args =>
      refine args.append (.one (Code.allocated_constructCode _ _ _ _ _) ?_) ha.grows.next
        (Nat.le_refl _) (Nat.le_add_right _ 2)
      exact LowerState.between_reg (by simp) (by simp)
  | print _ _ arg =>
      exact (arg.append_none (Code.allocated_printCode _ _ _)).mono (Nat.le_refl _)
        (Nat.le_add_right _ 1)
  | callVar _ refers arg =>
      exact ((arg.append_none refers.allocated_eq).append_none
        (Code.allocated_callCode _ _ _ _ _)).mono (Nat.le_add_right _ 2) (Nat.le_add_right _ 2)
  | call _ hf ha func arg =>
      exact ((func.append arg hf.grows.next (Nat.le_refl _) ha.grows.next).append_none
        (Code.allocated_callCode _ _ _ _ _)).mono (Nat.le_add_right _ 2) (Nat.le_add_right _ 2)
  | head _ => exact .none rfl
  | arg hf ha func last =>
      refine func.join last hf.grows.next (Nat.le_add_right _ 1) ha.grows.next ?_
      refine List.perm_iff_count.mpr fun r => ?_
      simp [Fragment.allCode]
      omega
  | body _ ih => exact ih
  | field _ ih => exact (ih.none_append rfl).mono (Nat.le_add_right _ 1) (Nat.le_refl _)
  | noBranch => exact .none rfl
  | branch hf hr first rest =>
      exact ((first.none_append rfl).append_none rfl).append rest hf.grows.next (Nat.le_refl _)
        hr.grows.next

end Lowering

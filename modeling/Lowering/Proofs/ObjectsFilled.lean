import Lowering.Proofs.Frames
import Lowering.Proofs.Separation
import Lowering.Proofs.Sites

/-!
# Objects are filled

An object is allocated, filled and moved to its destination by consecutive instructions, so a
store finds its allocation shortly before it and within reach (`Code.StoresInBounds`). Every
allocation is that of an expression that is lowered (`Builds`): a number, a character, a
constructor with its arguments and a closure have a register for each of their slots, and a
constructor without arguments only one for its tag.
-/

namespace Lowering

/-- The instruction is followed by the next one and does not write the register. -/
@[simp] def Instr.Quiet (r : Reg) : Instr → Prop
  | .mark _ | .jump _ | .jumpEq _ _ _ | .icall _ | .ret => False
  | i => i.writes? ≠ some r

/-- The slot of the object in `obj` that is written, and the register that is stored there. -/
def Instr.storeTo? (obj : Reg) : Instr → Option (Int × Reg)
  | .store dst slot src => if dst = obj then some (slot, src) else none
  | _ => none

namespace Code

/-- Every store follows an allocation of its object, with nothing but quiet instructions in
between, and names a slot that the object has. No mark is quiet, so both are in one block. -/
def StoresInBounds (code : Code) : Prop :=
  ∀ (q : Nat) (r : Reg) (k : Int) (src : Reg), code[q]? = some (.store r k src) →
    ∃ (a : Nat) (n : Int), a < q ∧ code[a]? = some (.alloc r n) ∧ 0 ≤ k ∧ k < n ∧
      ∀ i x, a < i → i < q → code[i]? = some x → x.Quiet r

/-- The stores to the object in `obj`, in order. -/
def stores (obj : Reg) (code : Code) : List (Int × Reg) := code.filterMap (Instr.storeTo? obj)

/-- The code stores the registers into the slots of the object, one after the other, and does
nothing else to objects. -/
structure Fills (obj : Reg) (srcs : List Reg) (fill : Code) : Prop where
  quiet : ∀ x ∈ fill, x.Quiet obj
  own : ∀ x ∈ fill, ∀ r, x.object? = some r → r = obj
  stores : fill.stores obj = srcs.zipIdx.map fun x => ((x.2 : Int), x.1)

namespace Fills

variable {obj : Reg} {srcs : List Reg} {fill : Code}

theorem nil (obj : Reg) : Fills obj [] [] := ⟨by simp, by simp, rfl⟩

/-- An instruction that has nothing to do with objects. -/
theorem step {x : Instr} (h : Fills obj srcs fill) (hx : x.Quiet obj) (hobject : x.object? = none) :
    Fills obj srcs (fill ++ [x]) where
  quiet := by
    rw [List.forall_mem_append]
    exact ⟨h.quiet, by simpa using hx⟩
  own := by
    rw [List.forall_mem_append]
    refine ⟨h.own, List.forall_mem_singleton.mpr fun r hr => ?_⟩
    rw [hobject] at hr
    cases hr
  stores := by
    have hstore : x.storeTo? obj = none := by
      cases x with
      | store => cases hobject
      | _ => rfl
    rw [Code.stores, List.filterMap_append, ← Code.stores, h.stores,
      List.filterMap_cons_none hstore, List.filterMap_nil, List.append_nil]

theorem store (h : Fills obj srcs fill) (r : Reg) :
    Fills obj (srcs ++ [r]) (fill ++ [.store obj srcs.length r]) where
  quiet := by
    rw [List.forall_mem_append]
    exact ⟨h.quiet, by simp⟩
  own := by
    rw [List.forall_mem_append]
    exact ⟨h.own, by simp⟩
  stores := by
    rw [Code.stores, List.filterMap_append, ← Code.stores, h.stores]
    simp [List.zipIdx_append, Instr.storeTo?]

theorem storeAll (h : Fills obj srcs fill) (regs : List Reg) :
    Fills obj (srcs ++ regs) (fill ++ Lowering.storeAll obj srcs.length regs) := by
  induction regs generalizing srcs fill with
  | nil => simpa [Lowering.storeAll] using h
  | cons r regs ih =>
      have hrest := ih (h.store r)
      simpa [Lowering.storeAll] using hrest

/-- A word goes through a register of its own. -/
theorem storeInt {tmp : Reg} (h : Fills obj srcs fill) (htmp : tmp ≠ obj) (value : Int) :
    Fills obj (srcs ++ [tmp]) (fill ++ Lowering.storeInt obj srcs.length tmp value) := by
  have hset : Fills obj srcs (fill ++ [.movInt tmp value]) := h.step (by simpa using htmp) rfl
  simpa [Lowering.storeInt] using hset.store tmp

/-- Slots are counted from zero. -/
theorem slot_mem (h : Fills obj srcs fill) {k : Int} {src : Reg}
    (hmem : .store obj k src ∈ fill) : 0 ≤ k ∧ k < srcs.length := by
  have hstores : (k, src) ∈ fill.stores obj := List.mem_filterMap.mpr ⟨_, hmem, if_pos rfl⟩
  rw [h.stores] at hstores
  obtain ⟨⟨r, i⟩, hi, heq⟩ := List.mem_map.mp hstores
  obtain ⟨rfl, -⟩ := Prod.mk.inj heq
  have hlt := (List.getElem?_eq_some_iff.mp (List.mem_zipIdx_iff_getElem?.mp hi)).1
  omega

theorem storesInBounds {n : Int} (h : Fills obj srcs fill) (hn : srcs.length ≤ n) :
    StoresInBounds (.alloc obj n :: fill) := by
  intro q r k src hq
  cases q with
  | zero => cases hq
  | succ q =>
      have hmem : .store r k src ∈ fill := List.mem_of_getElem? hq
      obtain rfl : r = obj := h.own _ hmem r rfl
      obtain ⟨hlo, hhi⟩ := h.slot_mem hmem
      refine ⟨0, n, Nat.succ_pos q, rfl, hlo, by omega, ?_⟩
      intro i x hi _ hx
      obtain ⟨i, rfl⟩ := Nat.exists_eq_succ_of_ne_zero (by omega : i ≠ 0)
      exact h.quiet x (List.mem_of_getElem? hx)

end Fills

/-- The code allocates an object with `n` slots, fills it from the registers, and moves it
to `dst`. -/
def Makes (obj : Reg) (n : Int) (srcs : List Reg) (dst : Reg) (code : Code) : Prop :=
  ∃ fill, code = .alloc obj n :: (fill ++ [.movReg dst obj]) ∧ Fills obj srcs fill

theorem makes_boxedCode (t : Tag) (value : Int64) (s : LowerState) (dst : Reg) :
    (boxedCode t value (s.reg 1) (s.reg 2) dst).Makes (s.reg 2) t.size [s.reg 1, s.reg 1] dst :=
  ⟨_, rfl, ((Fills.nil _).storeInt (by simp) t.id).storeInt (by simp) value.toInt⟩

theorem makes_ctorCode (t : Tag) (s : LowerState) (dst : Reg) :
    (ctorCode t (s.reg 1) (s.reg 2) dst).Makes (s.reg 2) t.size [s.reg 1] dst :=
  ⟨_, rfl, (Fills.nil _).storeInt (by simp) t.id⟩

theorem makes_constructCode (t : Tag) (args : List Reg) (s : LowerState) (dst : Reg) :
    (constructCode t args (s.reg 1) (s.reg 2) dst).Makes (s.reg 1) (args.length + 1)
      (s.reg 2 :: args) dst :=
  ⟨_, rfl, ((Fills.nil _).storeInt (by simp) t.id).storeAll args⟩

theorem makes_closureCode (t : Tag) (label : Label) (captured : List Reg) (s : LowerState)
    (dst : Reg) :
    (closureCode t label captured (s.reg 1) (s.reg 2) dst).Makes (s.reg 1) (2 + captured.length)
      (s.reg 2 :: s.reg 2 :: captured) dst := by
  have hne : s.reg 2 ≠ s.reg 1 := by simp
  have htag := (Fills.nil (s.reg 1)).storeInt hne t.id
  have haddress := (htag.step (x := .movLabel (s.reg 2) label) (by simp) rfl).store (s.reg 2)
  refine ⟨_, ?_, haddress.storeAll captured⟩
  simp [closureCode, captureOffset]

section

variable {code c d : Code} {pc : Nat}

theorem Holds.append_left (h : code.Holds pc c) (d : Code) : (code ++ d).Holds pc c := by
  rw [Holds, List.drop_append]
  exact List.IsPrefix.trans h (List.prefix_append _ _)

theorem Holds.append_right (h : code.Holds pc c) (d : Code) :
    (d ++ code).Holds (d.length + pc) c := by
  rwa [Holds, ← List.drop_drop, List.drop_left]

theorem getElem?_append_add (c d : Code) (i : Nat) : (c ++ d)[c.length + i]? = d[i]? := by
  rw [List.getElem?_append_right (Nat.le_add_right _ _), Nat.add_sub_cancel_left]

/-- An instruction stands in the first piece or in the second. -/
theorem getElem?_append_eq_some {i : Nat} {x : Instr} (h : (code ++ d)[i]? = some x) :
    i < code.length ∧ code[i]? = some x ∨ ∃ j, i = code.length + j ∧ d[j]? = some x := by
  rcases Nat.lt_or_ge i code.length with hlt | hge
  · rw [List.getElem?_append_left hlt] at h
    exact .inl ⟨hlt, h⟩
  · obtain ⟨j, rfl⟩ := Nat.exists_eq_add_of_le hge
    rw [getElem?_append_add] at h
    exact .inr ⟨j, rfl, h⟩

theorem StoresInBounds.append (hc : c.StoresInBounds) (hd : d.StoresInBounds) :
    (c ++ d).StoresInBounds := by
  intro q r k src hq
  rcases getElem?_append_eq_some hq with ⟨hlt, hstore⟩ | ⟨q, rfl, hstore⟩
  · obtain ⟨a, n, haq, ha, hlo, hhi, hquiet⟩ := hc q r k src hstore
    refine ⟨a, n, haq, ?_, hlo, hhi, ?_⟩
    · rw [List.getElem?_append_left (haq.trans hlt), ha]
    · intro i x hai hiq hx
      rw [List.getElem?_append_left (hiq.trans hlt)] at hx
      exact hquiet i x hai hiq hx
  · obtain ⟨a, n, haq, ha, hlo, hhi, hquiet⟩ := hd q r k src hstore
    refine ⟨c.length + a, n, by omega, by rwa [getElem?_append_add], hlo, hhi, ?_⟩
    intro i x hai hiq hx
    obtain ⟨i, rfl⟩ := Nat.exists_eq_add_of_le (by omega : c.length ≤ i)
    rw [getElem?_append_add] at hx
    exact hquiet i x (by omega) (by omega) hx

/-- Every allocation stands where the code that makes its object has it. `B` tells how an object
is made: what stands before the allocation and what follows it. -/
def AllocsBy (B : Code → Reg → Int → Code → Prop) (code : Code) : Prop :=
  ∀ (a : Nat) (obj : Reg) (n : Int), code[a]? = some (.alloc obj n) →
    ∃ start before after, a = start + before.length ∧
      code.Holds start (before ++ .alloc obj n :: after) ∧ B before obj n after

variable {B : Code → Reg → Int → Code → Prop}

theorem AllocsBy.append (hc : c.AllocsBy B) (hd : d.AllocsBy B) : (c ++ d).AllocsBy B := by
  intro a obj n ha
  rcases getElem?_append_eq_some ha with ⟨-, halloc⟩ | ⟨a, rfl, halloc⟩
  · obtain ⟨start, before, after, rfl, hholds, hB⟩ := hc a obj n halloc
    exact ⟨start, before, after, rfl, hholds.append_left d, hB⟩
  · obtain ⟨start, before, after, rfl, hholds, hB⟩ := hd a obj n halloc
    exact ⟨c.length + start, before, after, (Nat.add_assoc _ _ _).symm, hholds.append_right c, hB⟩

/-- Stores are within bounds, and objects are made as `B` tells. -/
structure WellBuilt (B : Code → Reg → Int → Code → Prop) (code : Code) : Prop where
  stores : code.StoresInBounds
  allocs : code.AllocsBy B

namespace WellBuilt

theorem append (hc : c.WellBuilt B) (hd : d.WellBuilt B) : (c ++ d).WellBuilt B :=
  ⟨hc.stores.append hd.stores, hc.allocs.append hd.allocs⟩

/-- Code without objects, since the range of their registers is empty. -/
theorem plain (h : code.ObjectsIn 0 0) : code.WellBuilt B := by
  have hnone : ∀ (q : Nat) x r, code[q]? = some x → x.object? ≠ some r := by
    intro q x r hx hr
    obtain ⟨n, -, hlo, hhi⟩ := h x (List.mem_of_getElem? hx) r hr
    omega
  exact ⟨fun q r k src hq => absurd rfl (hnone q _ r hq),
    fun a obj n ha => absurd rfl (hnone a _ obj ha)⟩

theorem flatMap {α : Type} {g : α → Code} {xs : List α} (h : ∀ x ∈ xs, (g x).WellBuilt B) :
    WellBuilt B (xs.flatMap g) := by
  induction xs with
  | nil => exact plain (by simp)
  | cons x xs ih =>
      obtain ⟨hx, hxs⟩ := List.forall_mem_cons.mp h
      exact hx.append (ih hxs)

/-- An object that is allocated, filled and moved. -/
theorem object {before after : Code} {dst obj : Reg} {n : Int} {srcs : List Reg}
    (hbefore : before.WellBuilt B) (hmakes : Makes obj n srcs dst (.alloc obj n :: after))
    (hn : srcs.length ≤ n) (hB : B before obj n after) :
    WellBuilt B (before ++ .alloc obj n :: after) := by
  obtain ⟨fill, hafter, hfills⟩ := hmakes
  obtain rfl : after = fill ++ [.movReg dst obj] := List.tail_eq_of_cons_eq hafter
  have hmove : Code.WellBuilt B [.movReg dst obj] := plain (by simp)
  refine ⟨hbefore.stores.append ((hfills.storesInBounds hn).append hmove.stores), ?_⟩
  intro a obj' n' ha
  rcases getElem?_append_eq_some ha with ⟨-, halloc⟩ | ⟨a, rfl, halloc⟩
  · obtain ⟨start, before', after, rfl, hholds, hB'⟩ := hbefore.allocs a obj' n' halloc
    exact ⟨start, before', after, rfl, hholds.append_left _, hB'⟩
  · cases a with
    | zero =>
        cases halloc
        exact ⟨0, before, _, (Nat.add_comm _ _), List.prefix_refl _, hB⟩
    | succ a =>
        -- Nothing is allocated while the object is filled.
        rw [List.getElem?_cons_succ] at halloc
        rcases List.mem_append.mp (List.mem_of_getElem? halloc) with hmem | hmem
        · obtain rfl := hfills.own _ hmem obj' rfl
          exact absurd rfl (hfills.quiet _ hmem)
        · cases List.mem_singleton.mp hmem

end WellBuilt

end

end Code

namespace Fragment

/-- The code of the fragment and of its routines is well built. -/
structure WellBuilt (B : Code → Reg → Int → Code → Prop) (f : Fragment) : Prop where
  code : f.code.WellBuilt B
  routines : ∀ r ∈ f.routines, r.code.WellBuilt B

namespace WellBuilt

variable {B : Code → Reg → Int → Code → Prop} {f g : Fragment} {c : Code}

theorem ofCode (h : c.WellBuilt B) : (ofCode c).WellBuilt B := ⟨h, by simp⟩

theorem plain (h : c.ObjectsIn 0 0) : (Fragment.ofCode c).WellBuilt B := ofCode (.plain h)

theorem append (hf : f.WellBuilt B) (hg : g.WellBuilt B) : (f ++ g).WellBuilt B :=
  ⟨hf.code.append hg.code, List.forall_mem_append.mpr ⟨hf.routines, hg.routines⟩⟩

theorem prepend (hf : f.WellBuilt B) (hg : g.WellBuilt B) : (f.prepend g).WellBuilt B :=
  ⟨hg.code.append hf.code, List.forall_mem_append.mpr ⟨hf.routines, hg.routines⟩⟩

/-- The body of a lambda is moved to a routine. -/
theorem lambda (hf : f.WellBuilt B) (hc : c.WellBuilt B) (label : Label) (closure arg res : Reg)
    (free : List String) :
    WellBuilt B
      ⟨c, f.routines ++ [⟨label, routineCode label closure arg res f.code, free⟩]⟩ := by
  refine ⟨hc, List.forall_mem_append.mpr ⟨hf.routines, List.forall_mem_singleton.mpr ?_⟩⟩
  exact ((Code.WellBuilt.plain (by simp)).append hf.code).append (.plain (by simp))

end WellBuilt

end Fragment

section

variable (mode : Dispatch) (p : Program) (fs : List Fragment)

/-- The object of an expression that is lowered from the state `s`: the code that stands before
the allocation, the registers for the slots, and the number of slots. The arguments of a
constructor are lowered into registers of their own, the last of them first. -/
inductive ObjectOf (block : Block) (locals : List (String × Reg)) (s : LowerState) :
    Expr → Code → List Reg → Int → Prop where
  | num {v : Int64} {tmp : Reg} : ObjectOf block locals s (.num v) [] [tmp, tmp] 2
  | char {v : Int64} {tmp : Reg} : ObjectOf block locals s (.char v) [] [tmp, tmp] 2
  | construct {f a : Expr} {c : String} {m : Nat} {tmp : Reg} {args : List Expr} {regs : List Reg}
      {ks : List Job} (callee : f.callee = .ctor c m) (hargs : args = (Expr.app f a).spine.2)
      (length : regs.length = args.length)
      (phrases : ks.map Job.phrase = List.zipWith Phrase.expr args regs)
      (reached : ∀ k ∈ ks, Reaches mode p fs block locals k) :
      ObjectOf block locals s (.app f a) (ks.reverse.flatMap fun k => k.out.code) (tmp :: regs)
        (args.length + 1)
  | closure {x : String} {e : Expr} {tmp : Reg} {s' : LowerState} {captured : List String}
      {loads : Code} (hcaptured : captured = captures s.env x e)
      (values : RefersAll captured s' loads) :
      ObjectOf block locals s (.lam x e) loads (tmp :: tmp :: s'.regs captured.length)
        (2 + captured.length)
  | bare {c : String} {tmp : Reg} {n : Int} (pos : 0 < n) :
      ObjectOf block locals s (.ctor c) [] [tmp] n

/-- The code around an allocation is that of an expression that is lowered. All slots of the
object are filled, but for a constructor without arguments. -/
def Builds (before : Code) (obj : Reg) (n : Int) (after : Code) : Prop :=
  ∃ block locals e dst s out done srcs,
    Reaches mode p fs block locals ⟨.expr e dst, s, [], out, done⟩ ∧
    out.code = before ++ .alloc obj n :: after ∧
    Code.Makes obj n srcs dst (.alloc obj n :: after) ∧
    ObjectOf mode p fs block locals s e before srcs n ∧
    ((∀ c, e ≠ .ctor c) → (srcs.length : Int) = n)

end

section

variable {mode : Dispatch} {p : Program} {fs : List Fragment} {block : Block}
  {locals : List (String × Reg)} {e : Expr} {dst obj : Reg} {s t : LowerState}

theorem ObjectOf.length_eq {before : Code} {srcs : List Reg} {n : Int}
    (h : ObjectOf mode p fs block locals s e before srcs n) (he : ∀ c, e ≠ .ctor c) :
    (srcs.length : Int) = n := by
  cases h with
  | num => rfl
  | char => rfl
  | construct _ _ length _ _ => simp [length]
  | closure _ _ =>
      simp
      omega
  | bare _ => exact absurd rfl (he _)

theorem ObjectOf.length_le {before : Code} {srcs : List Reg} {n : Int}
    (h : ObjectOf mode p fs block locals s e before srcs n) : (srcs.length : Int) ≤ n := by
  by_cases he : ∀ c, e ≠ .ctor c
  · exact (h.length_eq he).le
  · cases h with
    | bare pos => exact pos
    | _ => simp at he

/-- The code of an expression that makes an object. -/
theorem Reaches.wellBuilt {before make : Code} {srcs : List Reg} {n : Int} {out : Fragment}
    (h : Reaches mode p fs block locals ⟨.expr e dst, s, [], out, t⟩)
    (hbefore : before.WellBuilt (Builds mode p fs)) (hmakes : make.Makes obj n srcs dst)
    (hobject : ObjectOf mode p fs block locals s e before srcs n)
    (hcode : out.code = before ++ make) : out.code.WellBuilt (Builds mode p fs) := by
  obtain ⟨fill, rfl, hfills⟩ := hmakes
  have hmakes : Code.Makes obj n srcs dst (.alloc obj n :: (fill ++ [.movReg dst obj])) :=
    ⟨fill, rfl, hfills⟩
  rw [hcode]
  refine hbefore.object hmakes hobject.length_le ?_
  exact ⟨block, locals, e, dst, s, out, t, srcs, h, hcode, hmakes, hobject, hobject.length_eq⟩

theorem Reaches.size_builtin {j : Job} (h : Reaches mode p fs block locals j) (name : String)
    {tag : Tag} (hname : Registry.builtin.lookup? name = some tag) (size : Nat) :
    (j.start.tagOf name size).size = tag.size := by
  have hlookup := Registry.lookup?_mono hname h.tags_start.1
  rw [LowerState.tagOf, Registry.tag_of_lookup? hlookup]

/-- There is room for the tag, whatever size the constructor was met with first. -/
theorem Reaches.size_pos {j : Job} (h : Reaches mode p fs block locals j) (c : String) :
    0 < (j.start.tagOf c 1).size :=
  (h.tags_start.2.tag Int.one_pos).sizes _
    (Registry.mem_of_lookup? (Registry.lookup?_tag j.start.tags c 1))

/-- The arguments of a chain are lowered into one register each, the last of them first. -/
theorem Lowers.exists_argJobs {ph : Phrase} {regs : List Reg} {f : Fragment}
    (hlower : Lowers mode ph s regs f t) {chain : Expr} (hph : ph = .args chain)
    (hr : Reaches mode p fs block locals ⟨ph, s, regs, f, t⟩) :
    ∃ ks : List Job, regs.length = chain.spine.2.length ∧
      ks.map Job.phrase = List.zipWith Phrase.expr chain.spine.2 regs ∧
      (∀ k ∈ ks, Reaches mode p fs block locals k) ∧
      f.code = ks.reverse.flatMap fun k => k.out.code := by
  induction hlower generalizing chain with
  | head notApp =>
      cases hph
      rw [Expr.spine_of_not_app notApp]
      exact ⟨[], rfl, rfl, by simp, rfl⟩
  | arg func last ih _ =>
      cases hph
      obtain ⟨ks, hlength, hphrases, hreached, hcode⟩ := ih rfl (hr.part (.before func last))
      have hlast := hr.part (.last func last)
      refine ⟨ks ++ [_], ?_, ?_, List.forall_mem_append.mpr
        ⟨hreached, List.forall_mem_singleton.mpr hlast⟩, ?_⟩
      · simp [Expr.spine_app, hlength]
      · rw [Expr.spine_app, List.zipWith_append hlength.symm, List.map_append, hphrases]
        rfl
      · simp [hcode]
  | _ => cases hph

/-- What a job that is reached comes to is well built. -/
theorem Lowers.wellBuilt {ph : Phrase} {regs : List Reg} {f : Fragment}
    (h : Lowers mode ph s regs f t) : ∀ {block : Block} {locals : List (String × Reg)},
      Reaches mode p fs block locals ⟨ph, s, regs, f, t⟩ → f.WellBuilt (Builds mode p fs) := by
  induction h with
  | primitive _ => exact fun _ => .plain (Code.objectsIn_printCode _ _ _)
  | var refers => exact fun _ => .plain refers.objectsIn
  | ctor =>
      intro _ _ hr
      exact .ofCode (hr.wellBuilt (.plain (by simp)) (Code.makes_ctorCode _ _ _)
        (.bare (hr.size_pos _)) rfl)
  | @num v dst s =>
      intro _ _ hr
      have hsize : (s.tagOf "Num" 2).size = 2 := hr.size_builtin "Num" rfl 2
      have hmakes := Code.makes_boxedCode (s.tagOf "Num" 2) v s dst
      rw [hsize] at hmakes
      exact .ofCode (hr.wellBuilt (.plain (by simp)) hmakes .num rfl)
  | @char v dst s =>
      intro _ _ hr
      have hsize : (s.tagOf "Char" 2).size = 2 := hr.size_builtin "Char" rfl 2
      have hmakes := Code.makes_boxedCode (s.tagOf "Char" 2) v s dst
      rw [hsize] at hmakes
      exact .ofCode (hr.wellBuilt (.plain (by simp)) hmakes .char rfl)
  | caseOf he compares hb scrutinee branches =>
      intro _ _ hr
      have hscrutinee := scrutinee (hr.part (.scrutinee he compares hb))
      have hbranches := branches (hr.part (.branches he compares hb))
      exact ((hscrutinee.append (.plain (by simpa using compares.objectsIn))).append
        hbranches).append (.plain (by simp))
  | letIn hv hb value body =>
      intro _ _ hr
      exact (value (hr.part (.letValue hv hb))).append (body (hr.part (.letBody hv hb)))
  | @lam _ _ dst s s₁ s₂ _ captured _ hcaptured hb values hs₂ body =>
      intro _ _ hr
      have hbody := body (.routine hcaptured hb values hs₂ hr)
      have hmakes := Code.makes_closureCode (s₂.tagOf "Closure" 1) (.routine s.routines)
        ((s₁.inScope s.scope).regs captured.length) s₂ dst
      rw [LowerState.length_regs] at hmakes
      have hcode := hr.wellBuilt (.plain values.objectsIn) hmakes (.closure hcaptured values) rfl
      exact hbody.lambda hcode _ _ _ _ _
  | @construct _ _ c n dst s s₁ regs _ callee ha args =>
      intro _ _ hr
      have hargs := args (hr.part (.fields callee ha))
      obtain ⟨ks, hlength, hphrases, hreached, hcode⟩ :=
        ha.exists_argJobs rfl (hr.part (.fields callee ha))
      have hmakes := Code.makes_constructCode (s.tagOf c (n + 2)) regs s₁ dst
      rw [hlength] at hmakes
      refine ⟨hr.wellBuilt (hcode ▸ hargs.code) hmakes
        (.construct callee rfl hlength hphrases hreached) ?_, ?_⟩
      · rw [← hcode]
        rfl
      · simpa using hargs.routines
  | print hx ha arg =>
      intro _ _ hr
      exact (arg (hr.part (.printed hx ha))).append (.plain (Code.objectsIn_printCode _ _ _))
  | callVar ha refers arg =>
      intro _ _ hr
      exact ((arg (hr.part (.varArg ha refers))).append (.plain refers.objectsIn)).append
        (.plain (Code.objectsIn_callCode _ _ _ _ _))
  | call callee hf ha func arg =>
      intro _ _ hr
      have hfunc := func (hr.part (.func callee hf ha))
      have harg := arg (hr.part (.arg callee hf ha))
      exact (hfunc.append harg).append (.plain (Code.objectsIn_callCode _ _ _ _ _))
  | head _ => exact fun _ => .ofCode (.plain (by simp))
  | arg hf ha func last =>
      intro _ _ hr
      exact (func (hr.part (.before hf ha))).prepend (last (hr.part (.last hf ha)))
  | body hb ih =>
      intro _ _ hr
      exact ih (hr.part (.body hb))
  | field hb ih =>
      intro _ _ hr
      exact .append (.plain (by simp)) (ih (hr.part (.field hb)))
  | noBranch => exact fun _ => .ofCode (.plain (by simp))
  | branch hf hrest first rest =>
      intro _ _ hr
      have hfirst := first (hr.part (.first hf hrest))
      have hothers := rest (hr.part (.others hf hrest))
      exact ((Fragment.WellBuilt.append (.plain (by simp)) hfirst).append
        (.plain (by simp))).append hothers

theorem LowersDefs.wellBuilt {after : Program} (before : Program) {fs₂ : List Fragment}
    (fs₁ : List Fragment) (hp : p = before ++ after) (hfs : fs = fs₁ ++ fs₂)
    (earlier : LowersDefs mode before (.declared (p.map Def.name)) fs₁ s)
    (h : LowersDefs mode after s fs₂ t) : ∀ f ∈ fs₂, f.WellBuilt (Builds mode p fs) := by
  induction h generalizing before fs₁ with
  | nil => simp
  | @cons d rest s s₁ t f gs body others ih =>
      have hbody := body.wellBuilt (.definition hp hfs earlier body others)
      have hothers := ih (before ++ [d]) (fs₁ ++ [d.fragment (s.reg 1) f]) (by simp [hp])
        (by simp [hfs]) (earlier.append (.cons body (.nil s₁)))
      refine List.forall_mem_cons.mpr ⟨?_, hothers⟩
      exact (Fragment.WellBuilt.append (.plain (by simp)) hbody).append (.plain (by simp))

end

/-- The blocks of a program are put one after the other. -/
theorem Program.wellBuilt_assemble {B : Code → Reg → Int → Code → Prop} {p : Program}
    {fs : List Fragment} (h : ∀ f ∈ fs, f.WellBuilt B) : (assemble p fs).WellBuilt B := by
  cases p with
  | nil => exact .plain (by simp [assemble])
  | cons d rest =>
      have hjump : Code.WellBuilt B [.jump ⟨d.name⟩] := .plain (by simp)
      refine (hjump.append (.flatMap fun r hr => ?_)).append (.flatMap fun f hf => (h f hf).code)
      obtain ⟨f, hf, hr⟩ := List.mem_flatMap.mp hr
      exact (h f hf).routines r hr

namespace Compiler

/-- A store follows the allocation of its object in the same block, names one of its slots, and
finds the object still in its register. Every allocation is that of an expression: the object of
a number or a character has two slots, that of a constructor with arguments has one more than
there are arguments, and a closure two more than there are captures, and all of them are
filled, once, before the object is moved to its destination. -/
theorem objects_filled {mode : Dispatch} {p : Program} {code : Code}
    (h : ((new mode).compile p).1 = .ok code) :
    code.StoresInBounds ∧
      ∃ fs, LowersDefs mode p (.declared (p.map Def.name)) fs ((new mode).compile p).2.state ∧
        code = Program.assemble p fs ∧ code.AllocsBy (Builds mode p fs) := by
  obtain ⟨-, fs, hfs, rfl⟩ := compile_eq_ok h
  have hbuilt : ∀ f ∈ fs, f.WellBuilt (Builds mode p fs) :=
    LowersDefs.wellBuilt [] [] (List.nil_append p).symm (List.nil_append fs).symm (.nil _) hfs
  obtain ⟨hstores, hallocs⟩ := Program.wellBuilt_assemble (p := p) hbuilt
  exact ⟨hstores, fs, hfs, rfl, hallocs⟩

/-- A constructor with the name of a built-in shape is made without its fields, and another one
with more fields than the shape has. -/
def mixedShapes : Program :=
  [⟨"main", .letIn "x" (.ctor "Cons")
    (.lam "y" (.app (.app (.ctor "Num") (.var "x")) (.var "y")))⟩]

theorem objects_filled_mixedShapes : ∃ code fs,
    ((new .tag).compile mixedShapes).1 = .ok code ∧
      code.filter (fun i => i.object?.isSome) =
        [.alloc (.virtual 10) 3, .store (.virtual 10) 0 (.virtual 11),
        .store (.virtual 10) 1 (.virtual 8), .store (.virtual 10) 2 (.virtual 9),
        .alloc (.virtual 4) 3, .store (.virtual 4) 0 (.virtual 3),
        .alloc (.virtual 13) 3, .store (.virtual 13) 0 (.virtual 14),
        .store (.virtual 13) 1 (.virtual 14), .store (.virtual 13) 2 (.virtual 12)] ∧
      code.StoresInBounds ∧ code.AllocsBy (Builds .tag mixedShapes fs) := by
  obtain ⟨code, h⟩ := exists_code .tag mixedShapes (by decide +kernel)
  obtain ⟨hstores, fs, -, -, hallocs⟩ := objects_filled h
  refine ⟨code, fs, h, ?_, hstores, hallocs⟩
  refine Option.some.inj (Eq.trans ?_ (?_ : ((new .tag).compile mixedShapes).1.toOption.map
    (List.filter fun i => i.object?.isSome) = some _))
  · rw [h]
    rfl
  · decide +kernel

end Compiler

end Lowering

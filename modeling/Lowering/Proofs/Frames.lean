import Mathlib.Logic.Relation
import Lowering.Proofs.Blocks
import Lowering.Proofs.Execution

/-!
# Control flow within an activation

`Code.Flow` says where control may go from a position of the code while an activation runs,
a call counting as a move to the next position. A run follows it whatever the code is
(`Machine.InFrame.flow`). In the code of an accepted program it only leads forward, and not
out of a routine (`Compiler.blocks_and_flow`).
-/

namespace Lowering

/-- The instruction may be followed by the next one. -/
@[simp] def Instr.Falls : Instr → Prop
  | .jump _ | .ret => False
  | _ => True

/-- Control may go from position `i` to another one in the same activation. -/
inductive Code.Flow (code : Code) (i : Nat) : Nat → Prop where
  | next {x : Instr} (fetch : code[i]? = some x) (falls : x.Falls) : Flow code i (i + 1)
  | jump {x : Instr} {l : Label} {j : Nat} (fetch : code[i]? = some x)
      (target : x.target? = some l) (mark : code[j]? = some (.mark l)) : Flow code i j

namespace Machine

variable {code : Code} {m t : Machine}

/-- What a step does to the position and the waiting activations: it moves within the running
activation, calls, or returns. -/
theorem step_cases (h : m.step code = some t) :
    (code.Flow m.pc t.pc ∧ t.callers = m.callers) ∨
      (code.Flow m.pc (m.pc + 1) ∧ t.callers = ⟨m.pc + 1, m.regs⟩ :: m.callers) ∨
      ∃ c, m.callers = c :: t.callers ∧ t.pc = c.resume := by
  obtain ⟨x, hx, hexec⟩ := Option.bind_eq_some_iff.mp h
  have hjump {l : Label} (hl : x.target? = some l) (hjump : m.jump? code l = some t) :
      code.Flow m.pc t.pc ∧ t.callers = m.callers := by
    obtain ⟨pc, hpc, ⟨⟩⟩ := Option.bind_eq_some_iff.mp hjump
    obtain ⟨hlt, hmark, -⟩ := List.idxOf?_eq_some_iff.mp hpc
    exact ⟨.jump hx hl (List.getElem?_eq_some_iff.mpr ⟨hlt, hmark⟩), rfl⟩
  cases x with
  | mark l =>
      cases hexec
      exact .inl ⟨.next hx trivial, rfl⟩
  | movReg dst src =>
      obtain ⟨w, -, ⟨⟩⟩ := Option.bind_eq_some_iff.mp hexec
      exact .inl ⟨by simpa using .next hx trivial, by simp⟩
  | movInt dst value =>
      cases hexec
      exact .inl ⟨by simpa using .next hx trivial, by simp⟩
  | movLabel dst l =>
      obtain ⟨w, -, ⟨⟩⟩ := Option.bind_eq_some_iff.mp hexec
      exact .inl ⟨by simpa using .next hx trivial, by simp⟩
  | alloc dst slots =>
      obtain ⟨u, hu, ⟨⟩⟩ := Option.bind_eq_some_iff.mp hexec
      rw [alloc?] at hu
      split at hu
      · cases hu
      · cases hu
        exact .inl ⟨by simpa using .next hx trivial, by simp⟩
  | load dst src index =>
      obtain ⟨w, -, ⟨⟩⟩ := Option.bind_eq_some_iff.mp hexec
      exact .inl ⟨by simpa using .next hx trivial, by simp⟩
  | store dst index src =>
      obtain ⟨w, -, hexec⟩ := Option.bind_eq_some_iff.mp hexec
      obtain ⟨u, hstore, ⟨⟩⟩ := Option.bind_eq_some_iff.mp hexec
      obtain ⟨object, -, hslot⟩ := Option.bind_eq_some_iff.mp hstore
      obtain ⟨i, -, ⟨⟩⟩ := Option.bind_eq_some_iff.mp hslot
      exact .inl ⟨.next hx trivial, rfl⟩
  | print src =>
      obtain ⟨w, -, ⟨⟩⟩ := Option.bind_eq_some_iff.mp hexec
      exact .inl ⟨.next hx trivial, rfl⟩
  | printChar src =>
      obtain ⟨w, -, ⟨⟩⟩ := Option.bind_eq_some_iff.mp hexec
      exact .inl ⟨.next hx trivial, rfl⟩
  | jump l => exact .inl (hjump rfl hexec)
  | jumpEq left right l =>
      obtain ⟨w, -, hexec⟩ := Option.bind_eq_some_iff.mp hexec
      obtain ⟨w', -, hexec⟩ := Option.bind_eq_some_iff.mp hexec
      split at hexec
      · exact .inl (hjump rfl hexec)
      · cases hexec
        exact .inl ⟨.next hx trivial, rfl⟩
  | icall src =>
      obtain ⟨w, -, hexec⟩ := Option.bind_eq_some_iff.mp hexec
      rw [call?] at hexec
      split at hexec
      · cases hexec
      · split at hexec
        · cases hexec
          exact .inr (.inl ⟨.next hx trivial, rfl⟩)
        · cases hexec
  | ret =>
      simp only [exec, return?] at hexec
      split at hexec
      · cases hexec
      · next c rest hcallers =>
          cases hexec
          exact .inr (.inr ⟨c, hcallers, rfl⟩)

theorem steps_succ {n : Nat} :
    m.steps code (n + 1) = some t ↔ ∃ u, m.step code = some u ∧ u.steps code n = some t :=
  Option.bind_eq_some_iff

theorem steps_add {n k : Nat} :
    m.steps code (n + k) = some t ↔ ∃ u, m.steps code n = some u ∧ u.steps code k = some t := by
  induction n generalizing m with
  | zero => simp [steps]
  | succ n ih =>
      rw [Nat.add_right_comm, steps_succ]
      simp only [steps_succ, ih]
      constructor
      · rintro ⟨v, hv, u, hu, ht⟩
        exact ⟨u, ⟨v, hv, hu⟩, ht⟩
      · rintro ⟨u, ⟨v, hv, hu⟩, ht⟩
        exact ⟨v, hv, u, hu, ht⟩

/-- A run that gives up the activation that `c` waits for does so by a return to `c`. -/
theorem exists_return {n : Nat} {above rest : List Caller} {c : Caller}
    (h : m.steps code n = some t) (hm : m.callers = above ++ c :: rest)
    (ht : t.callers.length ≤ rest.length) :
    ∃ k < n, ∃ u, m.steps code (k + 1) = some u ∧ u.pc = c.resume ∧ u.callers = rest := by
  induction n generalizing m above with
  | zero =>
      cases h
      rw [hm, List.length_append, List.length_cons] at ht
      omega
  | succ n ih =>
      obtain ⟨v, hv, hn⟩ := steps_succ.mp h
      have later {above' : List Caller} (hv' : v.callers = above' ++ c :: rest) :
          ∃ k < n + 1, ∃ u, m.steps code (k + 1) = some u ∧ u.pc = c.resume ∧
            u.callers = rest := by
        obtain ⟨k, hk, u, hu, hpc, hcallers⟩ := ih hn hv'
        exact ⟨k + 1, Nat.succ_lt_succ hk, u, steps_succ.mpr ⟨v, hv, hu⟩, hpc, hcallers⟩
      obtain ⟨-, hsame⟩ | ⟨-, hcall⟩ | ⟨d, hret, hpc⟩ := step_cases hv
      · exact later (hsame.trans hm)
      · have hv' : v.callers = (⟨m.pc + 1, m.regs⟩ :: above) ++ c :: rest := by
          rw [hcall, hm, List.cons_append]
        exact later hv'
      · rw [hm] at hret
        cases above with
        | nil =>
            cases hret
            exact ⟨0, Nat.succ_pos n, v, steps_succ.mpr ⟨v, hv, rfl⟩, hpc, rfl⟩
        | cons a above => exact later (List.cons.inj hret).2.symm

/-- `n` steps lead from `m` to `t`, and the activation that runs in `m` runs in `t` again: it
has not returned in between. -/
structure InFrame (code : Code) (n : Nat) (m t : Machine) : Prop where
  steps : m.steps code n = some t
  depth : t.callers.length = m.callers.length
  within : ∀ k ≤ n, ∀ u, m.steps code k = some u → m.callers.length ≤ u.callers.length

namespace InFrame

variable {n : Nat}

/-- The rest of a run, from a state in which the same activation runs. -/
theorem rest {k : Nat} {u : Machine} (h : InFrame code (k + n) m t) (hu : m.steps code k = some u)
    (hdepth : u.callers.length = m.callers.length) : InFrame code n u t := by
  refine ⟨?_, h.depth.trans hdepth.symm, ?_⟩
  · obtain ⟨v, hv, ht⟩ := steps_add.mp h.steps
    cases hu.symm.trans hv
    exact ht
  · intro j hj v hv
    rw [hdepth]
    exact h.within (k + j) (Nat.add_le_add_left hj k) v (steps_add.mpr ⟨u, hu, hv⟩)

/-- The first move of an activation takes one step, or a call with all that it does. -/
theorem exists_move (h : InFrame code (n + 1) m t) :
    ∃ k ≤ n, ∃ u, code.Flow m.pc u.pc ∧ InFrame code k u t := by
  obtain ⟨v, hv, hn⟩ := steps_succ.mp h.steps
  have hone : m.steps code 1 = some v := steps_succ.mpr ⟨v, hv, rfl⟩
  obtain ⟨hflow, hsame⟩ | ⟨hflow, hcall⟩ | ⟨c, hret, -⟩ := step_cases hv
  · refine ⟨n, Nat.le_refl n, v, hflow, ?_⟩
    rw [Nat.add_comm] at h
    exact h.rest hone (by rw [hsame])
  · have hcall' : v.callers = [] ++ ⟨m.pc + 1, m.regs⟩ :: m.callers := hcall
    obtain ⟨k, hk, u, hu, hpc, hcallers⟩ := exists_return hn hcall' h.depth.le
    have hrun : m.steps code (k + 2) = some u := steps_succ.mpr ⟨v, hv, hu⟩
    refine ⟨n - (k + 1), Nat.sub_le .., u, by rwa [hpc], ?_⟩
    have hsplit : n + 1 = k + 2 + (n - (k + 1)) := by omega
    rw [hsplit] at h
    exact h.rest hrun (by rw [hcallers])
  · have hdepth := h.within 1 (by omega) v hone
    rw [hret, List.length_cons] at hdepth
    omega

/-- A run follows the control flow of its code within the running activation. -/
theorem flow (h : InFrame code n m t) : Relation.ReflTransGen code.Flow m.pc t.pc := by
  induction n using Nat.strong_induction_on generalizing m with
  | _ n ih =>
      cases n with
      | zero =>
          cases h.steps
          exact .refl
      | succ n =>
          obtain ⟨k, hk, u, hflow, hu⟩ := h.exists_move
          exact .head hflow (ih k (Nat.lt_succ_of_le hk) hu)

theorem flow_of_pos (h : InFrame code n m t) (hn : 0 < n) :
    Relation.TransGen code.Flow m.pc t.pc := by
  obtain ⟨n, rfl⟩ := Nat.exists_eq_add_of_lt hn
  rw [Nat.zero_add] at h
  obtain ⟨k, -, u, hflow, hu⟩ := h.exists_move
  exact .head' hflow hu.flow

end InFrame

end Machine

namespace Code

variable {code block : Code} {start : Nat}

theorem Holds.getElem? (h : code.Holds start block) {i : Nat} (hi : i < block.length) :
    code[start + i]? = block[i]? := by
  obtain ⟨rest, hrest⟩ := h
  rw [← List.getElem?_drop, ← hrest, List.getElem?_append_left hi]

theorem mark_unique (hmarks : code.marks.Nodup) {i j : Nat} {l : Label}
    (hi : code[i]? = some (.mark l)) (hj : code[j]? = some (.mark l)) : i = j :=
  Option.some.inj ((address?_eq hmarks hi).symm.trans (address?_eq hmarks hj))

/-- A jump of a block goes to a later place of the block, wherever the block stands. -/
theorem JumpsForward.exists_target (hblock : block.JumpsForward) (hmarks : code.marks.Nodup)
    (hcode : code.Holds start block) {i j : Nat} {x : Instr} {l : Label}
    (hx : block[i]? = some x) (hl : x.target? = some l) (hj : code[j]? = some (.mark l)) :
    ∃ k, i < k ∧ k < block.length ∧ j = start + k := by
  obtain ⟨k, hik, hk⟩ := hblock i x l hx hl
  have hlt : k < block.length := (List.getElem?_eq_some_iff.mp hk).1
  refine ⟨k, hik, hlt, mark_unique hmarks hj ?_⟩
  rw [hcode.getElem? hlt, hk]

/-- Each position of joined blocks lies in one of them. -/
theorem exists_block {blocks : List Code} {i : Nat} (hi : i < blocks.flatten.length) :
    ∃ block ∈ blocks, ∃ start, Holds blocks.flatten start block ∧ start ≤ i ∧
      i < start + block.length := by
  induction blocks generalizing i with
  | nil => simp at hi
  | cons first rest ih =>
      rw [List.flatten_cons, List.length_append] at hi
      rcases Nat.lt_or_ge i first.length with hlt | hge
      · exact ⟨first, by simp, 0, List.prefix_append _ _, Nat.zero_le i, by omega⟩
      · obtain ⟨block, hblock, start, hcode, hstart, hend⟩ :=
          ih (i := i - first.length) (by omega)
        refine ⟨block, by simp [hblock], first.length + start, ?_, by omega, by omega⟩
        rwa [Holds, List.flatten_cons, ← List.drop_drop, List.drop_left]

end Code

namespace Program.Blocks

variable {p : Program} {code : Code} {bodies defs : List Code}

theorem jumpsForward (h : p.Blocks code bodies defs) {block : Code}
    (hblock : block ∈ bodies ++ defs) : block.JumpsForward := by
  rcases List.mem_append.mp hblock with hblock | hblock
  · obtain ⟨n, hn⟩ := h.routines.isRoutine hblock
    exact hn.jumps
  · obtain ⟨d, -, hd⟩ := exists_rel_of_mem h.definitions hblock
    exact hd.jumps

/-- Behind the first jump, each position of the code lies in a block. -/
theorem exists_block (h : p.Blocks code bodies defs) {i : Nat} (hi : i + 1 < code.length) :
    ∃ block ∈ bodies ++ defs, ∃ start, code.Holds start block ∧ start ≤ i + 1 ∧
      i + 1 < start + block.length := by
  obtain ⟨d, -, rfl⟩ := h.code_eq
  rw [← List.flatten_append] at hi ⊢
  obtain ⟨block, hblock, start, hcode, hstart, hend⟩ :=
    Code.exists_block (Nat.lt_of_succ_lt_succ hi)
  exact ⟨block, hblock, start + 1, hcode, by omega, by omega⟩

theorem flow_lt (h : p.Blocks code bodies defs) (hmarks : code.marks.Nodup) {i j : Nat}
    (hflow : code.Flow i j) : i < j := by
  cases hflow with
  | next => exact Nat.lt_succ_self i
  | @jump x l j fetch target mark =>
      cases i with
      | zero =>
          -- The jump at the start goes to a mark, and it is none itself.
          obtain ⟨d, -, rfl⟩ := h.code_eq
          cases j with
          | zero => cases mark
          | succ j => exact Nat.succ_pos j
      | succ i =>
          obtain ⟨hi, -⟩ := List.getElem?_eq_some_iff.mp fetch
          obtain ⟨block, hblock, start, hcode, hstart, hend⟩ := h.exists_block hi
          have hx : block[i + 1 - start]? = some x := by
            rw [← hcode.getElem? (by omega), ← fetch]
            congr 1
            omega
          obtain ⟨k, hk, -, rfl⟩ :=
            (h.jumpsForward hblock).exists_target hmarks hcode hx target mark
          omega

/-- Control does not leave a routine. -/
theorem flow_routine (h : p.Blocks code bodies defs) (hmarks : code.marks.Nodup) {block : Code}
    (hblock : block ∈ bodies) {start : Nat} (hcode : code.Holds start block) {i j : Nat}
    (hflow : code.Flow i j) (hi : i ∈ Set.Ico start (start + block.length)) :
    j ∈ Set.Ico start (start + block.length) := by
  obtain ⟨n, hn⟩ := h.routines.isRoutine hblock
  obtain ⟨hstart, hend⟩ := hi
  obtain ⟨i, rfl⟩ := Nat.exists_eq_add_of_le hstart
  have hlt : i < block.length := by omega
  cases hflow with
  | @next x fetch falls =>
      rw [hcode.getElem? hlt] at fetch
      have hlast : i + 1 ≠ block.length := by
        intro hlast
        cases ((hn.returns i).mpr hlast).symm.trans fetch
        exact falls
      exact ⟨by omega, by omega⟩
  | jump fetch target mark =>
      rw [hcode.getElem? hlt] at fetch
      obtain ⟨k, hk, hklt, rfl⟩ := hn.jumps.exists_target hmarks hcode fetch target mark
      exact ⟨by omega, by omega⟩

theorem transGen_flow_lt (h : p.Blocks code bodies defs) (hmarks : code.marks.Nodup) {i j : Nat}
    (hflow : Relation.TransGen code.Flow i j) : i < j := by
  induction hflow with
  | single hmove => exact h.flow_lt hmarks hmove
  | tail _ hmove ih => exact Nat.lt_trans ih (h.flow_lt hmarks hmove)

theorem transGen_flow_routine (h : p.Blocks code bodies defs) (hmarks : code.marks.Nodup)
    {block : Code} (hblock : block ∈ bodies) {start : Nat} (hcode : code.Holds start block)
    {i j : Nat} (hflow : Relation.TransGen code.Flow i j)
    (hi : i ∈ Set.Ico start (start + block.length)) :
    j ∈ Set.Ico start (start + block.length) := by
  induction hflow with
  | single hmove => exact h.flow_routine hmarks hblock hcode hmove hi
  | tail _ hmove ih => exact h.flow_routine hmarks hblock hcode hmove ih

end Program.Blocks

namespace Compiler

theorem nodup_marks {mode : Dispatch} {p : Program} {code : Code}
    (h : ((new mode).compile p).1 = .ok code) : code.marks.Nodup :=
  (marks_perm h).nodup_iff.mpr (Program.nodup_labels (compile_eq_ok h).1)

/-- The code of an accepted program is a jump to its first definition and blocks for its
routines and definitions. In a run, an activation follows the control flow of the code, so
that it only moves forward, and it never leaves a routine that it is in. -/
theorem blocks_and_flow {mode : Dispatch} {p : Program} {code : Code} (hp : p ≠ [])
    (h : ((new mode).compile p).1 = .ok code) :
    ∃ bodies defs, p.Blocks code bodies defs ∧
      ∀ n m t, 0 < n → Machine.InFrame code n m t →
        Relation.TransGen code.Flow m.pc t.pc ∧ m.pc < t.pc ∧
          ∀ block ∈ bodies, ∀ start, code.Holds start block →
            m.pc ∈ Set.Ico start (start + block.length) →
            t.pc ∈ Set.Ico start (start + block.length) := by
  obtain ⟨fs, -, hblocks⟩ := exists_blocks hp h
  have hmarks := nodup_marks h
  refine ⟨_, _, hblocks, ?_⟩
  intro n m t hn hrun
  have hflow := hrun.flow_of_pos hn
  refine ⟨hflow, hblocks.transGen_flow_lt hmarks hflow, ?_⟩
  intro block hblock start hcode hin
  exact hblocks.transGen_flow_routine hmarks hblock hcode hflow hin

/-- A program that calls a routine with a case in it. -/
def branchInCall : Program :=
  [⟨"main", .app (.lam "x" (.caseOf (.var "x") [.mk "A" [] (.var "x"), .mk "B" [] (.ctor "A")]))
    (.ctor "B")⟩]

theorem blocks_and_flow_branchInCall : ∃ code,
    ((new .tag).compile branchInCall).1 = .ok code ∧ ∃ bodies defs,
      branchInCall.Blocks code bodies defs ∧ ∃ t, Machine.InFrame code 37 {} t ∧ 0 < t.pc := by
  obtain ⟨code, h⟩ := exists_code .tag branchInCall (by decide +kernel)
  have hcode : ((new .tag).compile branchInCall).1.toOption.getD [] = code := by
    rw [h]
    rfl
  have hrun : ((Machine.steps (((new .tag).compile branchInCall).1.toOption.getD []) 37 {}).any
      fun t => t.callers.length = 0) = true := by
    decide +kernel
  rw [hcode] at hrun
  obtain ⟨t, ht, hdepth⟩ := (Option.any_eq_true _ _).mp hrun
  have hframe : Machine.InFrame code 37 {} t :=
    ⟨ht, by simpa using hdepth, fun _ _ _ _ => Nat.zero_le _⟩
  obtain ⟨bodies, defs, hblocks, hmoves⟩ := blocks_and_flow (by simp [branchInCall]) h
  exact ⟨code, h, bodies, defs, hblocks, t, hframe, (hmoves 37 {} t (by decide) hframe).2.1⟩

end Compiler

end Lowering

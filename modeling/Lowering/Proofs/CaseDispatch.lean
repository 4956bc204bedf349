import Lowering.Proofs.Frames
import Lowering.Proofs.Sites
import Lowering.Proofs.TagOrder

/-!
# Where the comparisons of a case lead

The comparisons of a case look for the tag word of the scrutinee from the first branch on.
They end at the first branch whose constructor has that word as its id (`Compares.stays`).
Nothing stands between the last comparison and the first branch, so a word that no branch asks
for leads to the first branch as well (`Compiler.branch_entered_iff`).
-/

namespace Lowering

namespace Machine

/-- The run from `m` comes to `t`, and is at the addresses from `lo` up to `hi` before that. -/
def Stays (code : Code) (lo hi : Nat) (m t : Machine) : Prop :=
  ∃ n, m.steps code n = some t ∧ ∀ k < n, ∀ u, m.steps code k = some u → u.pc ∈ Set.Ico lo hi

namespace Stays

variable {code : Code} {lo hi : Nat} {m t u : Machine}

theorem refl (m : Machine) : Stays code lo hi m m :=
  ⟨0, rfl, fun _ hk => absurd hk (Nat.not_lt_zero _)⟩

theorem head (hm : m.pc ∈ Set.Ico lo hi) (hstep : m.step code = some t)
    (h : Stays code lo hi t u) : Stays code lo hi m u := by
  obtain ⟨n, hn, hin⟩ := h
  refine ⟨n + 1, steps_succ.mpr ⟨t, hstep, hn⟩, ?_⟩
  intro k hk v hv
  cases k with
  | zero =>
      cases hv
      exact hm
  | succ k =>
      obtain ⟨t', ht', hv⟩ := steps_succ.mp hv
      cases hstep.symm.trans ht'
      exact hin k (Nat.lt_of_succ_lt_succ hk) v hv

theorem trans (h : Stays code lo hi m t) (k : Stays code lo hi t u) : Stays code lo hi m u := by
  obtain ⟨n, hn, hin⟩ := h
  induction n generalizing m with
  | zero =>
      cases hn
      exact k
  | succ n ih =>
      obtain ⟨v, hv, hn⟩ := steps_succ.mp hn
      refine head (hin 0 (Nat.succ_pos n) m rfl) hv (ih hn ?_)
      intro j hj w hw
      exact hin (j + 1) (Nat.succ_lt_succ hj) w (steps_succ.mpr ⟨v, hv, hw⟩)

/-- A comparison goes to the mark that it names, or on to the next comparison. -/
theorem compare {tagReg wanted : Reg} {w n : Word} {l : Label} {pc : Nat} {cs : Code}
    (hcode : code.Holds m.pc (.movInt wanted n :: .jumpEq tagReg wanted l :: cs))
    (hw : m.get? tagReg = some w) (hne : tagReg ≠ wanted) (hl : code.address? l = some pc)
    (hlo : lo ≤ m.pc) (hhi : m.pc + 2 ≤ hi) :
    ∃ t, Stays code lo hi m t ∧ t.get? tagReg = some w ∧
      t.pc = if w = n then pc else m.pc + 2 := by
  let m₁ := (m.set wanted n).next
  have hpc : m₁.pc = m.pc + 1 := by simp [m₁]
  have htag : m₁.get? tagReg = some w := (get?_set_of_ne m hne n).trans hw
  have hwanted : m₁.get? wanted = some n := get?_set_self m wanted n
  have hset : m.step code = some m₁ := by
    rw [step, hcode.head]
    rfl
  have htest : m₁.step code = some (m₁.moveTo (if w = n then pc else m.pc + 2)) := by
    have hfetch : code[m₁.pc]? = some (.jumpEq tagReg wanted l) := hpc ▸ hcode.tail.head
    by_cases hwn : w = n
    · simp [step, hfetch, exec, htag, hwanted, hwn, jump?_eq hl]
    · have hnext : m₁.next = m₁.moveTo (m.pc + 2) := by
        show m₁.moveTo (m₁.pc + 1) = m₁.moveTo (m.pc + 2)
        rw [hpc]
      simp [step, hfetch, exec, htag, hwanted, hwn, hnext]
  refine ⟨_, head ?_ hset (head ?_ htest (refl _)), htag, rfl⟩
  · exact ⟨hlo, by omega⟩
  · exact ⟨by omega, by omega⟩

end Stays

end Machine

/-- The first branch whose constructor has the word as its id. -/
def Registry.branchFor? (r : Registry) (bs : List Branch) (w : Word) : Option Nat :=
  bs.findIdx? fun b => (r.lookup? b.ctor).map Tag.id = some w

theorem Registry.branchFor?_cons {r : Registry} {b : Branch} {n : Word}
    (h : (r.lookup? b.ctor).map Tag.id = some n) (bs : List Branch) (w : Word) :
    r.branchFor? (b :: bs) w = if w = n then some 0 else (r.branchFor? bs w).map (· + 1) := by
  simp [branchFor?, List.findIdx?_cons, h, eq_comm]

namespace Compares

variable {code tests : Code} {id index : Nat} {tagReg wanted : Reg} {bs : List Branch}
  {s t : LowerState} {m : Machine} {w : Word}

theorem length_eq {mode : Dispatch} (h : Compares mode id tagReg wanted index bs s tests t) :
    tests.length = 2 * bs.length := by
  induction h with
  | nil => rfl
  | cons _ ih => simp [ih, Nat.mul_add]

/-- Each branch has a jump to it. -/
theorem getElem?_jumpEq {mode : Dispatch} (h : Compares mode id tagReg wanted index bs s tests t)
    {i : Nat} (hi : i < bs.length) :
    tests[2 * i + 1]? = some (.jumpEq tagReg wanted (.branch id (index + i))) := by
  induction h generalizing i with
  | nil => simp at hi
  | cons _ ih =>
      cases i with
      | zero => rfl
      | succ i =>
          have hjump := ih (by simpa using hi)
          rw [Nat.add_right_comm _ 1 i] at hjump
          exact hjump

/-- The comparisons lead to the first branch for the word, and behind them if there is none. -/
theorem stays {lo hi : Nat} {r : Registry} (h : Compares .tag id tagReg wanted index bs s tests t)
    (htags : t.tags.entries <+: r.entries) (hne : tagReg ≠ wanted)
    (hw : m.get? tagReg = some w) (hcode : code.Holds m.pc tests)
    (hbranch : ∀ i < bs.length, ∃ pc, code.address? (.branch id (index + i)) = some pc)
    (hlo : lo ≤ m.pc) (hhi : m.pc + tests.length ≤ hi) :
    ∃ u, m.Stays code lo hi u ∧
      (∀ i, r.branchFor? bs w = some i → code.address? (.branch id (index + i)) = some u.pc) ∧
      (r.branchFor? bs w = none → u.pc = m.pc + tests.length) := by
  induction h generalizing m with
  | nil => exact ⟨m, .refl m, by simp [Registry.branchFor?], fun _ => rfl⟩
  | @cons index b bs s t cs rest ih =>
      have hid : (r.lookup? b.ctor).map Tag.id = some (Dispatch.tag.number s index b) := by
        rw [Registry.lookup?_mono (Registry.lookup?_tag _ _ _) (rest.grows.tags.trans htags)]
        rfl
      obtain ⟨pc, hpc⟩ := hbranch 0 (by simp)
      rw [List.length_cons, List.length_cons] at hhi ⊢
      have hroom : m.pc + 2 ≤ hi := by omega
      obtain ⟨u, hstays, hwu, hu⟩ := Machine.Stays.compare hcode hw hne hpc hlo hroom
      rw [Registry.branchFor?_cons hid]
      by_cases hword : w = Dispatch.tag.number s index b
      · rw [if_pos hword] at hu ⊢
        refine ⟨u, hstays, ?_, fun h => by cases h⟩
        rintro i ⟨⟩
        rw [hu, hpc]
      · rw [if_neg hword] at hu ⊢
        have hrest : ∀ i < bs.length, ∃ pc,
            code.address? (.branch id (index + 1 + i)) = some pc := by
          intro i hi
          have hnext := hbranch (i + 1) (Nat.succ_lt_succ hi)
          rwa [Nat.add_comm i 1, ← Nat.add_assoc] at hnext
        obtain ⟨v, hstays', hfound, hnone⟩ :=
          ih htags hwu (hu ▸ hcode.tail.tail) hrest (by omega) (by omega)
        refine ⟨v, hstays.trans hstays', ?_, ?_⟩
        · intro i hi
          obtain ⟨j, hj, rfl⟩ := Option.map_eq_some_iff.mp hi
          rw [Nat.add_comm j 1, ← Nat.add_assoc]
          exact hfound j hj
        · intro hi
          rw [hnone (Option.map_eq_none_iff.mp hi), hu]
          omega

theorem mark_not_mem {mode : Dispatch} (h : Compares mode id tagReg wanted index bs s tests t)
    (l : Label) : .mark l ∉ tests := by
  induction h with
  | nil => simp
  | cons _ ih => simpa using ih

end Compares

theorem Code.address?_eq_some_iff {code : Code} (hmarks : code.marks.Nodup) {l : Label} {pc : Nat} :
    code.address? l = some pc ↔ code[pc]? = some (.mark l) := by
  refine ⟨fun h => ?_, address?_eq hmarks⟩
  obtain ⟨hpc, hmark, -⟩ := List.idxOf?_eq_some_iff.mp h
  exact List.getElem?_eq_some_iff.mpr ⟨hpc, hmark⟩

/-- Where a run that has loaded a tag word leaves the comparisons of a case. -/
theorem Compares.enters {code tests rest : Code} {id start : Nat} {tagReg wanted : Reg}
    {bs : List Branch} {s t : LowerState} {r : Registry} {m : Machine} {w : Word}
    (h : Compares .tag id tagReg wanted 0 bs s tests t) (htags : t.tags.entries <+: r.entries)
    (hne : tagReg ≠ wanted) (hmarks : code.marks.Nodup) (hcode : code.Holds start (tests ++ rest))
    (hrest : rest[0]? = some (.mark (if bs = [] then .caseEnd id else .branch id 0)))
    (hbranch : ∀ i < bs.length, ∃ pc, code.address? (.branch id (0 + i)) = some pc)
    (hpc : m.pc = start) (hw : m.get? tagReg = some w) :
    ∃ u, m.Stays code start (start + 2 * bs.length) u ∧
      u.pc ∉ Set.Ico start (start + 2 * bs.length) ∧
      ∀ i, code.address? (.branch id i) = some u.pc ↔
        r.branchFor? bs w = some i ∨ r.branchFor? bs w = none ∧ bs ≠ [] ∧ i = 0 := by
  subst hpc
  rw [← h.length_eq]
  obtain ⟨u, hstays, hfound, hnone⟩ :=
    h.stays htags hne hw hcode.left hbranch le_rfl le_rfl
  have hinj (i j : Nat) : Label.branch id i = .branch id j ↔ i = j :=
    ⟨fun hij => (Label.branch_injective hij).2, congrArg _⟩
  cases hfirst : r.branchFor? bs w with
  | some j =>
      have hmark := (Code.address?_eq_some_iff hmarks).mp (hfound j hfirst)
      rw [Nat.zero_add] at hmark
      refine ⟨u, hstays, ?_, fun i => ?_⟩
      · -- There is no mark among the comparisons.
        rintro ⟨hlo, hhi⟩
        obtain ⟨d, hd⟩ := Nat.exists_eq_add_of_le hlo
        rw [hd, hcode.left.getElem? (by omega)] at hmark
        exact h.mark_not_mem _ (List.mem_of_getElem? hmark)
      · rw [Code.address?_eq_some_iff hmarks, hmark]
        simp [hinj]
  | none =>
      have hpos : 0 < rest.length := (List.getElem?_eq_some_iff.mp hrest).1
      have hmark : code[u.pc]? = rest[0]? := by
        rw [hnone hfirst]
        exact hcode.right.getElem? hpos
      refine ⟨u, hstays, fun hin => ?_, fun i => ?_⟩
      · exact absurd hin.2 (by rw [hnone hfirst]; omega)
      · rw [Code.address?_eq_some_iff hmarks, hmark, hrest]
        by_cases hbs : bs = []
        · simp [hbs, (Label.branch_ne_caseEnd id id i).symm]
        · simp [hbs, hinj, eq_comm]

/-- The first branch stands right behind the comparisons, or the end of a case without
branches. -/
theorem Lowers.head_branches {mode : Dispatch} {id : Nat} {value : Reg} {bs : List Branch}
    {dst : Reg} {s t : LowerState} {regs : List Reg} {f : Fragment}
    (h : Lowers mode (.branches id value 0 bs dst) s regs f t) (after : Code) :
    (f.code ++ .mark (.caseEnd id) :: after)[0]? =
      some (.mark (if bs = [] then .caseEnd id else .branch id 0)) := by
  cases h with
  | noBranch => rfl
  | branch _ _ => simp

/-- A job knows the tags that the whole program ends with. -/
theorem Reaches.tags_done {mode : Dispatch} {p : Program} {fs : List Fragment} {block : Block}
    {locals : List (String × Reg)} {j : Job} {final : LowerState}
    (hfs : LowersDefs mode p (.declared (p.map Def.name)) fs final)
    (h : Reaches mode p fs block locals j) : j.done.tags.entries <+: final.tags.entries := by
  induction h with
  | definition hp _ earlier body later =>
      have hwhole := (earlier.append (.cons body later)).tags_eq (List.prefix_refl _)
      rw [← hp, ← hfs.tags_eq (List.prefix_refl _)] at hwhole
      exact hwhole ▸ later.grows.tags
  | part _ part ih => exact part.done_grows.tags.trans ih
  | routine _ _ _ hs₂ _ ih =>
      subst hs₂
      exact (Registry.entries_prefix_tag _ _ _).trans ih

namespace Compiler

/-- By tag, the comparisons of a case lead to the first branch whose constructor has the tag word
of the scrutinee as its id. If there is none, they lead to the first branch all the same, since
it stands right behind them; a case without branches is left. -/
theorem branch_entered_iff {p : Program} {code : Code} {c : Compiler}
    (h : (new .tag).compile p = (.ok code, c)) {k : Nat} {bs : List Branch}
    (hk : p.cases[k]? = some bs) :
    ∃ value tagReg wanted start, code[start]? = some (.load tagReg value 0) ∧
      (∀ i < bs.length,
        code[start + 1 + (2 * i + 1)]? = some (.jumpEq tagReg wanted (.branch (k + 1) i))) ∧
      ∀ (m : Machine) (w : Word), m.pc = start + 1 → m.get? tagReg = some w →
        ∃ t, m.Stays code (start + 1) (start + 1 + 2 * bs.length) t ∧
          t.pc ∉ Set.Ico (start + 1) (start + 1 + 2 * bs.length) ∧
          ∀ i, code.address? (.branch (k + 1) i) = some t.pc ↔
            c.state.tags.branchFor? bs w = some i ∨
              c.state.tags.branchFor? bs w = none ∧ bs ≠ [] ∧ i = 0 := by
  have hcode : ((new .tag).compile p).1 = .ok code := by rw [h]
  obtain rfl : ((new .tag).compile p).2 = c := by rw [h]
  have hmarks := nodup_marks hcode
  obtain ⟨-, fs, hfs, rfl⟩ := compile_eq_ok hcode
  obtain ⟨block, locals, e, dst, s, out, done, hreach, hcases⟩ :=
    (LowersDefs.partsReached [] [] (List.nil_append p).symm (List.nil_append fs).symm (.nil _)
      hfs).2 k bs hk
  rw [LowerState.cases_declared, Nat.zero_add] at hcases
  have htags := hreach.tags_done hfs
  have hwithin := hreach.code_within.trans hreach.block_within
  have hlowered := hreach.lowered
  simp only [Job.Lowered] at hlowered
  cases hlowered with
  | @caseOf _ _ _ _ s₁ s₂ _ fe fb tests scrutinee compares branches =>
      subst hcases
      obtain ⟨start, hstart⟩ := Code.Holds.exists_of_within hwithin
      simp only [Fragment.code_append, Fragment.code_ofCode, List.append_assoc] at hstart hwithin
      have hload := hstart.right
      have hchain := hload.tail
      have hbranch : ∀ i < bs.length, ∃ pc,
          (Program.assemble p fs).address? (.branch (s.cases + 1) (0 + i)) = some pc := by
        intro i hi
        have hmem := hwithin.subset (List.mem_append_right fe.code (List.mem_append_right _
          (List.mem_append_left _ (branches.mark_mem_branches i hi))))
        obtain ⟨pc, hpc⟩ := List.mem_iff_getElem?.mp hmem
        exact ⟨pc, Code.address?_eq hmarks hpc⟩
      refine ⟨s.reg 1, s.reg 2, s.reg 3, start + fe.code.length, hload.head, ?_, ?_⟩
      · intro i hi
        have hlength := compares.length_eq
        have hjump := compares.getElem?_jumpEq hi
        rw [Nat.zero_add] at hjump
        exact (hchain.left.getElem? (by omega)).trans hjump
      · intro m w hpc hw
        exact compares.enters (branches.grows.tags.trans htags) (by simp) hmarks hchain
          (branches.head_branches []) hbranch hpc hw

/-- A case whose only branch is for another constructor than that of the scrutinee. -/
def unmatched : Program := [⟨"main", .caseOf (.ctor "B") [.mk "A" [] (.num 1)]⟩]

/-- The branch for `A` is entered with the tag word of `B`. -/
theorem branch_entered_iff_unmatched : ∃ code c, (new .tag).compile unmatched = (.ok code, c) ∧
    unmatched.cases[0]? = some [.mk "A" [] (.num 1)] ∧
    c.state.tags.lookup? "B" = some ⟨8, 1⟩ ∧ c.state.tags.lookup? "A" = some ⟨9, 1⟩ ∧
    ∃ value tagReg start, code[start]? = some (.load tagReg value 0) ∧
      ∀ m : Machine, m.pc = start + 1 → m.get? tagReg = some 8 →
        ∃ t, m.Stays code (start + 1) (start + 3) t ∧
          code.address? (.branch 1 0) = some t.pc := by
  obtain ⟨code, h⟩ := exists_code .tag unmatched (by decide +kernel)
  have hboth : (new .tag).compile unmatched = (.ok code, ((new .tag).compile unmatched).2) := by
    rw [← h]
  have hk : unmatched.cases[0]? = some [.mk "A" [] (.num 1)] := rfl
  have hnone : ((new .tag).compile unmatched).2.state.tags.branchFor? [.mk "A" [] (.num 1)] 8 =
      none := by
    decide +kernel
  obtain ⟨value, tagReg, -, start, hload, -, henters⟩ := branch_entered_iff hboth hk
  refine ⟨code, _, hboth, hk, by decide +kernel, by decide +kernel, value, tagReg, start, hload, ?_⟩
  intro m hpc hw
  obtain ⟨t, hstays, -, hiff⟩ := henters m 8 hpc hw
  exact ⟨t, hstays, (hiff 0).mpr (.inr ⟨hnone, by simp, rfl⟩)⟩

end Compiler
end Lowering

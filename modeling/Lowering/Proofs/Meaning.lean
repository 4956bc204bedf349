import Lowering.Proofs.Branching

/-!
# Compiled programs do what they mean

If the evaluator gives a program its globals, the code of the program runs to its end,
prints the same, and leaves each global in its register (`Compiler.runs_of_eval`).
-/

namespace Lowering

open Machine

variable {code : Code} {tags : Registry} {globals : Locals}

/-- Where evaluation has a result, the lowered code yields it. The induction is on the fuel:
every part and every called body is evaluated with less. -/
theorem Linked.simulates (h : Linked code tags) (fuel : Nat) :
    Simulates code tags globals fuel := by
  induction fuel with
  | zero =>
      intro e locals v printed s t f d m heval
      cases heval
  | succ fuel ih =>
      intro e locals v printed s t f d m heval hlower hd hready
      have hknows := hlower.knows_free
      cases hlower with
      | primitive hx => simp [Expr.eval, lookupValue?, hx] at heval
      | var hrefers =>
          obtain ⟨u, hu, ⟨⟩⟩ := Option.map_eq_some_iff.mp heval
          exact hready.var (by simp [Expr.free]) hrefers hu
      | ctor =>
          cases heval
          exact h.ctor hready
      | num =>
          cases heval
          exact h.boxed rfl .num hready
      | char =>
          cases heval
          exact h.boxed rfl .char hready
      | caseOf hscrutinee hcompares hbranches =>
          exact ih.caseOf h heval hscrutinee hcompares hbranches hd hready
      | letIn hvalue hbody =>
          have hyields := ih.letIn heval hvalue hbody hd hready
          exact hyields
      | lam hcaptured hbody hvalues hs₂ =>
          cases heval
          exact h.lam hknows hcaptured hbody hvalues hs₂ hd hready
      | construct hcallee hargs => exact ih.construct hcallee heval hargs hd hready
      | print hx harg => exact ih.print hx heval harg hd hready
      | callVar harg hrefers => exact ih.callVar heval harg hrefers hready
      | call hcallee hfunc harg => exact ih.callOther hcallee heval hfunc harg hready

/-- A value is moved into its global. -/
theorem HasGlobals.set {m : Machine} {x : String} {v : Value} {w : Word}
    (h : HasGlobals code tags globals m) (hv : Represents code tags m.heap v w) :
    HasGlobals code tags ((x, v) :: globals) (m.set (.global x) w).next := by
  intro y u hu
  rw [get?_next, heap_next, heap_set]
  by_cases hyx : y = x
  · subst hyx
    rw [List.lookup_cons_self] at hu
    cases hu
    exact ⟨w, get?_set_self m _ _, hv⟩
  · have hne : (y == x) = false := by simpa using hyx
    rw [List.lookup_cons, hne] at hu
    rw [get?_set_of_ne m fun h => hyx (Reg.global_injective h)]
    exact h y u hu

/-- The code of definitions runs through and sets their globals one after the other. -/
theorem LowersDefs.leads (hlinked : Linked code tags) {fuel : Nat} {p : Program}
    {s t : LowerState} {fs : List Fragment} (h : LowersDefs .tag p s fs t)
    {globals globals' : Locals} {printed : List Printed} {m : Machine}
    (heval : Program.eval fuel globals p = some (globals', printed)) (hscope : s.scope = {})
    (htags : t.tags.entries <+: tags.entries)
    (hroutines : ∀ f ∈ fs, ∀ r ∈ f.routines, r.code <:+: code)
    (hcode : code.Holds m.pc (fs.flatMap Fragment.code))
    (hglobals : HasGlobals code tags globals m) :
    ∃ m', Leads code m m' ∧ m'.pc = m.pc + (fs.flatMap Fragment.code).length ∧
      m'.output = m.output ++ printed ∧ HasGlobals code tags globals' m' := by
  induction h generalizing globals printed m with
  | nil s =>
      cases heval
      exact ⟨m, .refl m, rfl, by simp, hglobals⟩
  | @cons d rest s s₁ t f fs body others ih =>
      obtain ⟨v, first, last, hbody, hrest, rfl⟩ := Outcome.andThen_eq_some heval
      rw [List.flatMap_cons] at hcode
      have hdef : code.Holds m.pc ([.mark ⟨d.name⟩] ++ f.code ++
        [.movReg (.global d.name) (s.reg 1)]) := hcode.left
      let m₁ := m.moveTo (m.pc + 1)
      have hready : Ready code tags globals [] d.body.free (s.skip 1) s₁ f m₁ := by
        refine ⟨hdef.left.right, ⟨?_, others.grows.tags.trans htags⟩, ?_, ?_⟩
        · exact fun r hr => hroutines _ (List.mem_cons_self ..) r (by simp [Def.fragment, hr])
        · constructor <;> simp [hscope, Scope.lookup?]
        · exact ⟨fun y _ _ => .inl (by simp [hscope, Scope.lookup?]), hglobals⟩
      obtain ⟨m₂, w, hpass, hheap, hw, hrep⟩ := hlinked.simulates fuel hbody body (by simp) hready
      let m₃ := (m₂.set (.global d.name) w).next
      have hmove : Leads code m₂ m₃ := by
        rw [List.append_assoc] at hdef
        exact .movReg (hpass.holds hdef.right) hw
      have hpc : m₃.pc = m.pc + (d.fragment (s.reg 1) f).code.length := by
        simp [m₃, hpass.pc, m₁, Def.fragment]
        omega
      obtain ⟨m₄, hleads, hpc', houtput, hglobals'⟩ := ih hrest
        (body.grows.scope.trans hscope) htags
        (fun g hg => hroutines g (List.mem_cons_of_mem _ hg)) (hpc ▸ hcode.right)
        ((hglobals.mono hpass.globals hheap).set hrep)
      refine ⟨m₄, ?_, ?_, ?_, hglobals'⟩
      · exact .trans (.of_exec hdef.left.left.head rfl) (hpass.leads.trans (hmove.trans hleads))
      · rw [hpc', hpc, List.flatMap_cons, List.length_append, Nat.add_assoc]
      · simp [houtput, hpass.output, m₁]

namespace Compiler

/-- The code of an accepted program offers what its parts need. -/
theorem linked {p : Program} (h : ((new .tag).compile p).1 = .ok code) :
    Linked code ((new .tag).compile p).2.state.tags := by
  obtain ⟨hp, fs, hfs, -⟩ := compile_eq_ok h
  exact ⟨(marks_perm h).nodup_iff.mpr (Program.nodup_labels hp),
    hfs.grows.numbered Registry.numbered_builtin, hfs.grows.tags⟩

/-- If a program has a meaning, the code that it is compiled to runs to its end, prints what
the program prints, and leaves the value of each definition in its global. -/
theorem runs_of_eval {p : Program} (h : ((new .tag).compile p).1 = .ok code) {fuel : Nat}
    {globals : Locals} {printed : List Printed}
    (heval : Program.eval fuel [] p = some (globals, printed)) :
    ∃ m, Machine.Runs code {} m ∧ m.output = printed ∧
      HasGlobals code ((new .tag).compile p).2.state.tags globals m := by
  obtain ⟨-, fs, hfs, rfl⟩ := compile_eq_ok h
  have hlinked := linked h
  cases p with
  | nil =>
      cases heval
      exact ⟨{}, ⟨0, rfl, Nat.le_refl 0⟩, rfl, fun x v hv => by cases hv⟩
  | cons d rest =>
      have hroutines : ∀ f ∈ fs, ∀ r ∈ f.routines,
          r.code <:+: Program.assemble (d :: rest) fs := by
        intro f hf r hr
        have hmem : r ∈ fs.flatMap Fragment.routines := List.mem_flatMap.mpr ⟨f, hf, hr⟩
        exact (Code.within_flatMap Routine.code hmem).trans ⟨[.jump ⟨d.name⟩], _, rfl⟩
      -- The run starts with a jump over the routines.
      let routines : Code := (fs.flatMap Fragment.routines).flatMap Routine.code
      let entry := (.jump ⟨d.name⟩ :: routines : Code).length
      have hcode : Code.Holds (Program.assemble (d :: rest) fs) entry
          (fs.flatMap Fragment.code) := by
        rw [Code.Holds, Program.assemble, List.drop_left]
      have hmark : (Program.assemble (d :: rest) fs)[entry]? = some (.mark ⟨d.name⟩) := by
        cases hfs with
        | cons body others => exact hcode.head
      obtain ⟨m, hleads, hpc, houtput, hglobals⟩ := hfs.leads hlinked (m := { pc := entry }) heval
        rfl (List.prefix_refl _) hroutines hcode fun x v hv => by cases hv
      have hjump : Leads (Program.assemble (d :: rest) fs) {} { pc := entry } := by
        have haddress := Code.address?_eq hlinked.marks hmark
        exact .of_exec rfl (by simp [exec, jump?, haddress])
      obtain ⟨n, hn⟩ := hjump.trans hleads
      refine ⟨m, ⟨n, hn, ?_⟩, houtput, hglobals⟩
      rw [Halted, hpc, Program.assemble, List.length_append]

/-- A function that prints once for every `S` of its argument. It calls itself from inside of
a closure. -/
def printUnary : Program :=
  [⟨"each", .lam "n" (.caseOf (.var "n")
      [.mk "S" ["m"] (.letIn "again" (.lam "x" (.app (.var "each") (.var "m")))
        (.app (.var "again") (.app (.var printIntName) (.num 7)))),
        .mk "Z" [] (.var "n")])⟩,
    ⟨"main", .app (.var "each") (.app (.ctor "S") (.app (.ctor "S") (.ctor "Z")))⟩]

theorem runs_of_eval_printUnary : ∃ code globals m,
    ((new .tag).compile printUnary).1 = .ok code ∧
      Program.eval 12 [] printUnary = some (globals, [.int 7, .int 7]) ∧
      Machine.Runs code {} m ∧ m.output = [.int 7, .int 7] ∧
      HasGlobals code ((new .tag).compile printUnary).2.state.tags globals m := by
  obtain ⟨code, hcode⟩ := exists_code .tag printUnary (by decide +kernel)
  have hprinted : (Program.eval 12 [] printUnary).map Prod.snd = some [.int 7, .int 7] := by
    decide +kernel
  obtain ⟨⟨globals, printed⟩, heval, rfl⟩ := Option.map_eq_some_iff.mp hprinted
  obtain ⟨m, hruns, houtput, hglobals⟩ := runs_of_eval hcode heval
  exact ⟨code, globals, m, hcode, heval, hruns, houtput, hglobals⟩

end Compiler
end Lowering

import Lowering.Proofs.Constructs

/-!
# Cases

The comparisons of a case lead to the first branch for the constructor of the scrutinee
(`Compares.goes`), because different constructors have different ids. A branch loads the
fields of the scrutinee into registers of its own, runs its body and jumps behind the case.
-/

namespace Lowering

open Machine

variable {code : Code} {tags : Registry} {globals locals : Locals} {s t : LowerState}
  {f : Fragment} {d fuel : Nat} {v : Value} {printed : List Printed} {m : Machine}

/-- A comparison jumps exactly if it is for the constructor. -/
theorem Linked.compare (h : Linked code tags) (pc : Nat) {a b lo hi : Nat} {c c' : String}
    {tc tc' : Tag} {l : Label} {cs : Code}
    (hc : tags.lookup? c = some tc) (hc' : tags.lookup? c' = some tc')
    (ha : m.get? (.virtual a) = some tc.id) (hab : a ≠ b)
    (haddress : c' = c → code.address? l = some pc)
    (hcode : code.Holds m.pc (.movInt (.virtual b) tc'.id ::
      .jumpEq (.virtual a) (.virtual b) l :: cs)) :
    ∃ m', Goes code lo hi b [] m m' ∧ m'.heap = m.heap ∧
      m'.get? (.virtual a) = some tc.id ∧ m'.pc = if c' = c then pc else m.pc + 2 := by
  have hset : m.exec code (.movInt (.virtual b) tc'.id) = some (m.set (.virtual b) tc'.id).next :=
    rfl
  obtain ⟨m₁, hpass, hheap, hb', hother⟩ :=
    Passes.exists_set lo hi (Code.Holds.left (c := [_]) hcode) hset
  have ha' : m₁.get? (.virtual a) = some tc.id := (hother a hab).trans ha
  have hjump : code[m₁.pc]? = some (.jumpEq (.virtual a) (.virtual b) l) :=
    (hpass.holds (c := [_]) hcode).head
  by_cases hname : c' = c
  · subst hname
    have hid : tc.id = tc'.id := by rw [Option.some.inj (hc.symm.trans hc')]
    have hexec : m₁.exec code (.jumpEq (.virtual a) (.virtual b) l) = some (m₁.moveTo pc) := by
      simp [exec, ha', hb', hid, jump?_eq (haddress rfl)]
    exact ⟨m₁.moveTo pc, hpass.toGoes.trans (.counter hjump hexec), hheap, ha', (if_pos rfl).symm⟩
  · have hid : tc.id ≠ tc'.id := fun hid => hname (h.numbered.eq_of_id_eq hc hc' hid).symm
    have hexec : m₁.exec code (.jumpEq (.virtual a) (.virtual b) l) =
        some (m₁.moveTo (m₁.pc + 1)) := by
      simp [exec, ha', hb', hid, next, moveTo]
    refine ⟨m₁.moveTo (m₁.pc + 1), hpass.toGoes.trans (.counter hjump hexec), hheap, ha', ?_⟩
    rw [if_neg hname, pc_moveTo, hpass.pc]
    rfl

/-- The comparisons lead to the mark of the first branch for the constructor. -/
theorem Compares.goes (hlinked : Linked code tags) (lo hi : Nat) {id index a b pc : Nat}
    {c : String} {before after : List Branch} {params : List String} {e : Expr}
    {tests : Code} {tc : Tag}
    (h : Compares .tag id (.virtual a) (.virtual b) index (before ++ .mk c params e :: after) s
      tests t)
    (htags : t.tags.entries <+: tags.entries) (hbefore : ∀ b ∈ before, b.ctor ≠ c)
    (hc : tags.lookup? c = some tc) (ha : m.get? (.virtual a) = some tc.id) (hab : a ≠ b)
    (haddress : code.address? (.branch id (index + before.length)) = some pc)
    (hcode : code.Holds m.pc tests) :
    ∃ m', Goes code lo hi b [] m m' ∧ m'.pc = pc ∧ m'.heap = m.heap := by
  have hmet {b' : Branch} {s : LowerState} (hs : (Dispatch.tag.meet s b').Grows t) :
      tags.lookup? b'.ctor = some (s.tagOf b'.ctor (b'.params.length + 1)) :=
    Registry.lookup?_mono (Registry.lookup?_tag _ _ _) (hs.tags.trans htags)
  induction before generalizing index s tests m with
  | nil =>
      cases h with
      | cons rest =>
          obtain ⟨m₁, hgoes, hheap, -, hpc⟩ :=
            hlinked.compare pc hc (hmet rest.grows) ha hab (fun _ => haddress) hcode
          exact ⟨m₁, hgoes, hpc.trans (if_pos rfl), hheap⟩
  | cons b' before ih =>
      cases h with
      | cons rest =>
          have hname : b'.ctor ≠ c := hbefore b' (by simp)
          obtain ⟨m₁, hgoes, hheap, ha', hpc⟩ := hlinked.compare pc hc (hmet rest.grows) ha hab
            (fun h => absurd h hname) hcode
          rw [if_neg hname] at hpc
          rw [List.length_cons, Nat.add_comm before.length, ← Nat.add_assoc] at haddress
          obtain ⟨m₂, hgoes', hpc', hheap'⟩ := ih rest (fun b hb => hbefore b (by simp [hb])) ha'
            haddress (hpc ▸ hcode.tail.tail)
          exact ⟨m₂, hgoes.trans hgoes', hpc', hheap'.trans hheap⟩

/-- Where the code of a branch is. -/
theorem Lowers.branch_within {mode : Dispatch} {id index : Nat} {value dst : Reg} {c : String}
    {before after : List Branch} {params : List String} {e : Expr} {regs : List Reg}
    (h : Lowers mode (.branches id value index (before ++ .mk c params e :: after) dst) s regs
      f t) :
    ∃ s₁ t₁ fb pre post, Lowers mode (.fields value 1 params e dst) s₁ [] fb t₁ ∧
      s.Grows s₁ ∧ t₁.Grows t ∧ fb.routines ⊆ f.routines ∧
      f.code = pre ++ ([Instr.mark (.branch id (index + before.length))] ++ fb.code ++
        [Instr.jump (.caseEnd id)]) ++ post := by
  induction before generalizing index s f with
  | nil =>
      cases h with
      | @branch _ _ _ _ _ _ _ _ _ s₁ _ fb fs first rest =>
          exact ⟨s, s₁, fb, [], fs.code, first, .refl s, rest.grows, by simp, by simp⟩
  | cons b before ih =>
      cases h with
      | @branch _ _ _ _ _ _ _ _ _ s₁ _ fb fs first rest =>
          obtain ⟨s₂, t₂, fb', pre, post, hfields, hgrows, hgrows', hroutines, hcode⟩ := ih rest
          refine ⟨s₂, t₂, fb',
            [.mark (.branch id index)] ++ fb.code ++ [.jump (.caseEnd id)] ++ pre, post, hfields,
            first.grows.trans hgrows, hgrows', ?_, ?_⟩
          · intro r hr
            simp [hroutines hr]
          · have hindex : index + 1 + before.length = index + (before.length + 1) := by omega
            simp [hcode, hindex]

/-- A branch yields the value of its body, with the fields of the scrutinee as locals. -/
theorem Simulates.fields (ih : Simulates code tags globals fuel) {a field : Nat}
    {params : List String} {e : Expr} {args : List Value} {w : Word} {words : List Word}
    (h : Lowers .tag (.fields (.virtual a) field params e (.virtual d)) s [] f t)
    (heval : e.eval globals fuel ((params.zip args).reverse ++ locals) = some (v, printed))
    (hlength : params.length ≤ args.length) (hw : m.get? (.virtual a) = some w)
    (hobject : PointsTo m.heap w words)
    (hfields : ∀ (k : Nat) u, args[k]? = some u →
      ∃ uw, words[field + k]? = some uw ∧ Represents code tags m.heap u uw)
    (ha : a ≤ s.next) (hd : d ≤ s.next)
    (hready : Ready code tags globals locals (e.free.filter (· ∉ params)) s t f m) :
    Yields code tags f.code s.next t.next d printed v m := by
  induction params generalizing field s t f m locals args with
  | nil =>
      cases h with
      | body hbody =>
          have hagrees : Agrees code tags globals locals s.scope e.free m :=
            hready.agrees.subset (by simp)
          exact ih heval hbody hd ⟨hready.holds, hready.placed, hready.tidy, hagrees⟩
  | cons x params ihp =>
      cases h with
      | @field _ _ _ _ _ _ _ s₁ f rest =>
      cases args with
      | nil => simp at hlength
      | cons u args =>
      obtain ⟨uw, huw, hrep⟩ := hfields 0 u rfl
      have hload : m.load? (.virtual a) field = some uw := load?_eq hw hobject huw
      let m₁ := (m.set (s.reg 1) uw).next
      have hpass : Passes code [.load (s.reg 1) (.virtual a) (field : Int)] s.next s.next
          (s.next + 1) [] m m₁ :=
        .set hready.holds.left (by simp only [exec, hload]; rfl)
      have hheap : m₁.heap = m.heap := by rw [heap_next, heap_set]
      have hloaded : m₁.get? (s.reg 1) = some uw := by rw [get?_next, get?_set_self]
      have hkeep := hpass.toGoes.keeps (hheap ▸ List.prefix_refl _) le_rfl (Nat.lt_succ_self s.next)
      have hready₁ : Ready code tags globals ((x, u) :: locals) (e.free.filter (· ∉ params))
          ((s.skip 1).inScope (s.scope.bind x (.register x (s.reg 1)))) s₁ f m₁ := by
        refine ⟨hpass.holds hready.holds, hready.placed.mono (by simp) (List.prefix_refl _), ?_, ?_⟩
        · exact (hready.tidy.mono (.skip s 1)).bind ⟨s.next + 1, rfl, Nat.le_refl _⟩
        · refine .bind ?_ hloaded (hheap ▸ hrep)
          refine (hready.agrees.keep hready.tidy hkeep).subset fun y hy => ?_
          simp only [List.mem_filter, decide_eq_true_eq, List.mem_cons, not_or] at hy ⊢
          exact ⟨hy.1.1, hy.2, hy.1.2⟩
      have hbody : e.eval globals fuel ((params.zip args).reverse ++ ((x, u) :: locals)) =
          some (v, printed) := by simpa using heval
      have hothers : ∀ (k : Nat) u', args[k]? = some u' →
          ∃ uw, words[field + 1 + k]? = some uw ∧ Represents code tags m₁.heap u' uw := by
        intro k u' hk
        rw [hheap, Nat.add_assoc, Nat.add_comm 1 k]
        exact hfields (k + 1) u' hk
      have hnext : s.next + 1 ≤ s₁.next := rest.grows.next
      have hrest := ihp rest hbody (by simpa using hlength) ((hkeep.regs a ha).trans hw)
        (hheap ▸ hobject) hothers (Nat.le_succ_of_le ha) (Nat.le_succ_of_le hd) hready₁
      exact .after (hpass.widen le_rfl (Nat.le_of_succ_le hnext) (.inr ⟨Nat.lt_succ_self _, hnext⟩))
        (hheap ▸ List.prefix_refl _) (hrest.widen (Nat.le_succ _) le_rfl)

theorem subset_freeInBranches {c : String} {params : List String} {e : Expr}
    (before after : List Branch) :
    e.free.filter (· ∉ params) ⊆ freeInBranches (before ++ .mk c params e :: after) := by
  induction before with
  | nil => simp [freeInBranches]
  | cons b before ih =>
      obtain ⟨c', params', e'⟩ := b
      exact List.Subset.trans ih (by simp [freeInBranches])

/-- A case with a scrutinee of this constructor goes to the code of the branch. -/
theorem Compares.selects (hlinked : Linked code tags) {id pc : Nat} {c : String}
    {before after : List Branch} {params : List String} {e : Expr} {tests : Code} {tc : Tag}
    {s₁ s₂ : LowerState} {w : Word} {words : List Word}
    (h : Compares .tag id (s.reg 2) (s.reg 3) 0 (before ++ .mk c params e :: after) s₁ tests s₂)
    (htags : s₂.tags.entries <+: tags.entries) (hbefore : ∀ b ∈ before, b.ctor ≠ c)
    (hc : tags.lookup? c = some tc) (hw : m.get? (s.reg 1) = some w)
    (hobject : PointsTo m.heap w (tc.id :: words))
    (hmark : code[pc]? = some (.mark (.branch id (0 + before.length))))
    (hcode : code.Holds m.pc (.load (s.reg 2) (s.reg 1) 0 :: tests)) :
    ∃ m', Goes code (s.next + 1) (s.next + 3) (s.next + 2) [] m m' ∧ m'.pc = pc + 1 ∧
      m'.heap = m.heap := by
  have hload : m.load? (s.reg 1) 0 = some tc.id := load?_eq hw hobject rfl
  have hset : m.exec code (.load (s.reg 2) (s.reg 1) 0) = some (m.set (s.reg 2) tc.id).next := by
    simp [exec, hload]
  obtain ⟨m₁, hpass, hheap₁, htag, -⟩ :=
    Passes.exists_set (s.next + 1) (s.next + 3) (Code.Holds.left (c := [_]) hcode) hset
  have htests : code.Holds m₁.pc tests := hpass.holds (c := [_]) hcode
  obtain ⟨m₂, hgoes, hpc, hheap₂⟩ := h.goes hlinked (s.next + 1) (s.next + 3) htags hbefore hc htag
    (by omega) (Code.address?_eq hlinked.marks hmark) htests
  refine ⟨m₂.moveTo (m₂.pc + 1), ?_, by rw [pc_moveTo, hpc], hheap₂.trans hheap₁⟩
  exact (hpass.toGoes.trans (hgoes.widen le_rfl le_rfl (.inr (by omega)))).trans
    (.counter (hpc ▸ hmark) (exec_mark _ _ _))

/-- With the scrutinee in its register, a case runs the branch for it and goes on behind
its end. -/
theorem Simulates.branches (ih : Simulates code tags globals fuel) (hlinked : Linked code tags)
    {id : Nat} {bs : List Branch} {s₁ s₂ : LowerState} {fb : Fragment} {tests : Code}
    {c : String} {args : List Value} {e : Expr} {inner : Locals} {w : Word}
    (hselect : selectBranch? c args locals bs = some (e, inner))
    (heval : e.eval globals fuel inner = some (v, printed))
    (hw : m.get? (s.reg 1) = some w) (hrep : Represents code tags m.heap (.ctor c args) w)
    (hcompares : Compares .tag id (s.reg 2) (s.reg 3) 0 bs s₁ tests s₂)
    (hbranches : Lowers .tag (.branches id (s.reg 1) 0 bs (.virtual d)) s₂ [] fb t)
    (hs₁ : s.Grows s₁) (hnext : s.next + 3 ≤ s₁.next) (hd : d ≤ s.next) (htidy : s.Tidy)
    (hplaced : Placed code tags fb t)
    (hagrees : Agrees code tags globals locals s.scope (freeInBranches bs) m)
    (hcode : code.Holds m.pc ((Instr.load (s.reg 2) (s.reg 1) 0 :: tests) ++ fb.code ++
      [Instr.mark (.caseEnd id)])) :
    Yields code tags ((Instr.load (s.reg 2) (s.reg 1) 0 :: tests) ++ fb.code ++
      [Instr.mark (.caseEnd id)]) s.next t.next d printed v m := by
  obtain ⟨before, params, after, rfl, hbefore, hlength, rfl⟩ := selectBranch?_eq_some hselect
  obtain ⟨s₃, t₃, fields, pre, post, hfields, hs₃, ht₃, hroutines, hfb⟩ := hbranches.branch_within
  have hs₃' : s.Grows s₃ := hs₁.trans (hcompares.grows.trans hs₃)
  have hnext₃ : s.next + 3 ≤ s₃.next := hnext.trans (hcompares.grows.trans hs₃).next
  have hnext₃' : s₃.next ≤ t₃.next := hfields.grows.next
  have hnextt : t₃.next ≤ t.next := ht₃.next
  cases hrep with
  | @ctor _ _ _ tc ws unused htag hobject hcount heach =>
  have hbranch : code.Holds (m.pc + (tests.length + 1) + pre.length)
      ([Instr.mark (.branch id (0 + before.length))] ++ fields.code ++
        [Instr.jump (.caseEnd id)]) := by
    have h := hcode.left.right
    rw [hfb] at h
    exact h.left.right
  obtain ⟨m₁, hgoes₁, hpc₁, hheap₁⟩ := hcompares.selects hlinked
    (hbranches.grows.tags.trans hplaced.tags) hbefore htag hw hobject hbranch.left.left.head
    hcode.left.left
  have hready : Ready code tags globals locals (e.free.filter (· ∉ params)) s₃ t₃ fields m₁ := by
    refine ⟨?_, hplaced.mono hroutines ht₃.tags, htidy.mono hs₃', ?_⟩
    · rw [hpc₁]
      exact hbranch.left.right
    · have hkeep := hgoes₁.keeps (n := s.next) (hheap₁ ▸ List.prefix_refl _) (by omega) (by omega)
      rw [hs₃'.scope]
      exact (hagrees.keep htidy hkeep).subset (subset_freeInBranches _ _)
  have hw₁ : m₁.get? (s.reg 1) = some w := (hgoes₁.regs _ (.inl le_rfl) (by omega)).trans hw
  have hargs : ∀ (k : Nat) u, args[k]? = some u →
      ∃ uw, (tc.id :: ws ++ unused)[1 + k]? = some uw ∧ Represents code tags m₁.heap u uw := by
    intro k u hu
    have hk : k < ws.length := hcount ▸ (List.getElem?_eq_some_iff.mp hu).1
    have hfield := List.getElem?_eq_getElem hk
    refine ⟨_, ?_, hheap₁ ▸ heach k u _ hu hfield⟩
    rw [Nat.add_comm, List.cons_append, List.getElem?_cons_succ, List.getElem?_append_left hk,
      hfield]
  obtain ⟨m₂, r, hpass₂, hheap₂, hr, hrep⟩ := ih.fields hfields heval hlength hw₁ (hheap₁ ▸ hobject)
    hargs (by omega) (by omega) hready
  -- Behind the branch the run jumps to the end of the case.
  have hend := hcode.right
  have hjump : code[m₂.pc]? = some (.jump (.caseEnd id)) := by
    rw [List.append_assoc] at hbranch
    exact (hpass₂.holds (hpc₁ ▸ hbranch.right)).head
  have h₁ : Goes code s.next t.next d [] m m₁ :=
    hgoes₁.widen (by omega) (by omega) (.inr (by omega))
  have h₂ : Goes code s.next t.next d printed m₁ m₂ :=
    hpass₂.toGoes.widen (by omega) (by omega) (.inl rfl)
  have hgoes := (h₁.trans h₂).trans (.jumpMark hlinked.marks hjump hend.head)
  rw [List.nil_append, List.append_nil] at hgoes
  refine ⟨_, r, ⟨hgoes, ?_⟩, hheap₁ ▸ hheap₂, hr, hrep⟩
  simp only [pc_moveTo, List.length_append, List.length_singleton, Nat.add_assoc]

theorem Simulates.caseOf (ih : Simulates code tags globals fuel) (hlinked : Linked code tags)
    {e : Expr} {bs : List Branch} {s₁ s₂ : LowerState} {fe fb : Fragment} {tests : Code}
    (heval : (Expr.caseOf e bs).eval globals (fuel + 1) locals = some (v, printed))
    (hscrutinee : Lowers .tag (.expr e (s.reg 1)) (s.skip 3).enterCase [] fe s₁)
    (hcompares : Compares .tag (s.cases + 1) (s.reg 2) (s.reg 3) 0 bs s₁ tests s₂)
    (hbranches : Lowers .tag (.branches (s.cases + 1) (s.reg 1) 0 bs (.virtual d)) s₂ [] fb t)
    (hd : d ≤ s.next)
    (hready : Ready code tags globals locals (Expr.caseOf e bs).free s t
      (fe ++ .ofCode (.load (s.reg 2) (s.reg 1) 0 :: tests) ++ fb ++
        .ofCode [.mark (.caseEnd (s.cases + 1))]) m) :
    Yields code tags (fe.code ++ (.load (s.reg 2) (s.reg 1) 0 :: tests) ++ fb.code ++
      [Instr.mark (.caseEnd (s.cases + 1))]) s.next t.next d printed v m := by
  obtain ⟨c, args, body, inner, first, last, he, hselect, hbody, rfl⟩ := Expr.eval_caseOf heval
  have hstart : s.Grows (s.skip 3).enterCase := (LowerState.Grows.skip s 3).trans (.enterCase _)
  have hnext : s.next + 3 ≤ s₁.next := hscrutinee.grows.next
  have hnextt : s₁.next ≤ t.next := (hcompares.grows.trans hbranches.grows).next
  have hready₁ : Ready code tags globals locals e.free (s.skip 3).enterCase s₁ fe m := by
    refine ⟨hready.holds.left.left.left, ?_, hready.tidy.mono hstart, ?_⟩
    · exact hready.placed.mono (by simp) (hcompares.grows.trans hbranches.grows).tags
    · exact hready.agrees.subset (by simp [Expr.free])
  obtain ⟨m₁, w, hpass, hheap, hw, hrep⟩ := ih he hscrutinee (by simp) hready₁
  have hagrees : Agrees code tags globals locals s.scope (freeInBranches bs) m₁ := by
    have hkeep := hpass.toGoes.keeps (n := s.next) hheap (by simp) (by omega)
    exact (hready.agrees.keep hready.tidy hkeep).subset (by simp [Expr.free])
  have hcode := hready.holds
  simp only [Fragment.code_append, Fragment.code_ofCode, List.append_assoc fe.code] at hcode
  rw [List.append_assoc fe.code, List.append_assoc fe.code]
  refine .after (hpass.widen (by simp) hnextt (.inr (by omega))) hheap ?_
  exact ih.branches hlinked hselect hbody hw hrep hcompares hbranches
    (hstart.trans hscrutinee.grows) hnext hd hready.tidy
    (hready.placed.mono (by simp) (List.prefix_refl _)) hagrees (hpass.holds hcode)

end Lowering

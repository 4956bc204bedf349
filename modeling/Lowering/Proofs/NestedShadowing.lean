import Lowering.Proofs.SessionHistory

/-!
# Nested shadowings leave no trace

Shadowings of one environment are nested when each is undone before the ones that were open
when it was made. Such a history gives the environment its local names back as they were
(`Nested.after`), and at each point of it the names are those from before with the open
shadowings on top (`Nested.onTop`).
-/

namespace Lowering

/-- A call for a register, a routine or a global, which is for no local name. -/
def Call.Neutral (c : Call) : Prop :=
  match c.action with
  | .fresh | .routine _ | .declare _ => True
  | _ => False

namespace Session

/-- Calls that shadow names of environment `n` and undo each shadowing, the last one first, with
neutral calls in between. The undos have the numbers from `k` on, up to but not including the
second number. -/
inductive Nested (n : Nat) : Nat → List Call → Nat → Prop where
  | nil {k : Nat} : Nested n k [] k
  | neutral {k l : Nat} {c : Call} {calls : List Call} (hc : c.Neutral)
      (h : Nested n k calls l) : Nested n k (c :: calls) l
  | bracket {k l r m : Nat} {x : String} {b : Binding} {inner later : List Call}
      (hinner : Nested n (k + 1) inner l) (hlater : Nested n l later r) :
      Nested n k (⟨n, .shadow x b⟩ :: (inner ++ ⟨m, .restore k⟩ :: later)) r

/-- The shadowings that are open after calls, innermost first. Those in `outer` were open
before. -/
def opened (outer : List (String × Binding)) (calls : List Call) : List (String × Binding) :=
  calls.foldl (fun stack c =>
    match c.action with
    | .shadow x b => (x, b) :: stack
    | .restore _ => stack.tail
    | _ => stack) outer

/-- The names of `scope` are those of `base` with the open shadowings on top. -/
def OnTop (base : Scope) (stack : List (String × Binding)) (scope : Scope) : Prop :=
  ∀ y, scope.lookup? y = (stack.lookup y).or (base.lookup? y)

variable {s : Session} {c : Call} {calls inner past : List Call} {n m k l : Nat} {x : String}
  {b : Binding} {scope base : Scope} {outer : List (String × Binding)}

theorem neutral_keeps (hc : c.Neutral) (hn : s.scopes[n]? = some scope) :
    (s.advance c).scopes[n]? = some scope ∧ (s.advance c).undos = s.undos := by
  obtain ⟨m, a⟩ := c
  cases a with
  | fresh => exact ⟨hn, rfl⟩
  | declare x => exact ⟨hn, rfl⟩
  | routine closure =>
      refine ⟨?_, rfl⟩
      show (s.scopes ++ [Scope.routine closure])[n]? = some scope
      rw [List.getElem?_append_left (List.getElem?_eq_some_iff.mp hn).1, hn]
  | _ => exact hc.elim

theorem shadow_opens (hn : s.scopes[n]? = some scope) (x : String) (b : Binding) :
    (s.advance ⟨n, .shadow x b⟩).scopes[n]? = some (scope.bind x b) ∧
      (s.advance ⟨n, .shadow x b⟩).undos = s.undos ++ [(n, (scope.shadow x b).1)] := by
  rw [advance, step_shadow hn]
  exact ⟨getElem?_modifyScope_self hn (·.bind x b), rfl⟩

/-- The undo of a shadowing gives the scope back if it is as the shadowing left it. -/
theorem restore_closes (hn : s.scopes[n]? = some (scope.bind x b))
    (hk : s.undos[k]? = some (n, (scope.shadow x b).1)) (m : Nat) :
    (s.advance ⟨m, .restore k⟩).scopes[n]? = some scope ∧
      (s.advance ⟨m, .restore k⟩).undos = s.undos := by
  rw [advance, step_restore hk]
  refine ⟨(getElem?_modifyScope_self hn _).trans ?_, rfl⟩
  exact congrArg some (scope.restore_shadow x b)

/-- A nesting leaves the scope as it was, and keeps the undos that there were. -/
theorem Nested.after (h : Nested n k calls l) (hn : s.scopes[n]? = some scope)
    (hk : s.undos.length = k) :
    (s.after calls).scopes[n]? = some scope ∧ (s.after calls).undos.length = l ∧
      s.undos <+: (s.after calls).undos := by
  induction h generalizing s scope with
  | nil => exact ⟨hn, hk, List.prefix_refl _⟩
  | neutral hc h ih =>
      obtain ⟨hscope, hundos⟩ := neutral_keeps hc hn
      rw [← hundos] at hk ⊢
      exact ih hscope hk
  | @bracket k l r m x b inner later hinner hlater ihinner ihlater =>
      obtain ⟨hopen, hadded⟩ := shadow_opens hn x b
      obtain ⟨hinside, hl, hprefix⟩ := ihinner hopen (by rw [hadded, List.length_append, hk]; rfl)
      rw [hadded] at hprefix
      have hundo : ((s.advance ⟨n, .shadow x b⟩).after inner).undos[k]? =
          some (n, (scope.shadow x b).1) := by
        obtain ⟨rest, hrest⟩ := hprefix
        rw [← hrest, ← hk]
        simp
      obtain ⟨hclosed, hkept⟩ := restore_closes hinside hundo m
      obtain ⟨hscope, hr, hlast⟩ := ihlater hclosed (by rw [hkept, hl])
      have hrun : s.after (⟨n, .shadow x b⟩ :: (inner ++ ⟨m, .restore k⟩ :: later)) =
          (((s.advance ⟨n, .shadow x b⟩).after inner).advance ⟨m, .restore k⟩).after later :=
        after_append
      rw [hrun]
      rw [hkept] at hlast
      exact ⟨hscope, hr, ((List.prefix_append _ _).trans hprefix).trans hlast⟩

theorem opened_neutral (hc : c.Neutral) (outer : List (String × Binding)) (calls : List Call) :
    opened outer (c :: calls) = opened outer calls := by
  obtain ⟨m, a⟩ := c
  cases a with
  | fresh => rfl
  | declare x => rfl
  | routine closure => rfl
  | _ => exact hc.elim

theorem opened_bracket (outer : List (String × Binding)) (inner later : List Call) :
    opened outer (⟨n, .shadow x b⟩ :: (inner ++ ⟨m, .restore k⟩ :: later)) =
      opened (opened ((x, b) :: outer) inner).tail later :=
  List.foldl_append

/-- A nesting leaves those shadowings open that were open before it. -/
theorem Nested.opened_eq (h : Nested n k calls l) (outer : List (String × Binding)) :
    opened outer calls = outer := by
  induction h generalizing outer with
  | nil => rfl
  | neutral hc h ih => rw [opened_neutral hc, ih]
  | bracket hinner hlater ihinner ihlater => rw [opened_bracket, ihinner, List.tail_cons, ihlater]

theorem OnTop.bind (h : OnTop base outer scope) (x : String) (b : Binding) :
    OnTop base ((x, b) :: outer) (scope.bind x b) := by
  intro y
  by_cases hy : y = x
  · subst hy
    simp
  · have hne : (y == x) = false := by simpa using hy
    rw [scope.lookup?_bind_of_ne hy, List.lookup_cons, hne, h y]

/-- A point of a bracket is before it, inside it, or after it. -/
theorem prefix_bracket_cases {c d : Call} {later : List Call}
    (h : past <+: c :: (inner ++ d :: later)) :
    past = [] ∨ (∃ point, past = c :: point ∧ point <+: inner) ∨
      ∃ point, past = c :: (inner ++ d :: point) ∧ point <+: later := by
  rcases List.prefix_cons_iff.mp h with rfl | ⟨tail, rfl, htail⟩
  · exact .inl rfl
  rcases List.prefix_or_prefix_of_prefix htail (List.prefix_append inner (d :: later)) with
    hin | hout
  · exact .inr (.inl ⟨tail, rfl, hin⟩)
  obtain ⟨rest, rfl⟩ := hout
  rcases List.prefix_cons_iff.mp ((List.prefix_append_right_inj inner).mp htail) with
    rfl | ⟨point, rfl, hpoint⟩
  · exact .inr (.inl ⟨inner, by rw [List.append_nil], List.prefix_refl inner⟩)
  · exact .inr (.inr ⟨point, rfl, hpoint⟩)

/-- At every point of a nesting the open shadowings are on top of the names from before. -/
theorem Nested.onTop (h : Nested n k calls l) (hn : s.scopes[n]? = some scope)
    (hk : s.undos.length = k) (htop : OnTop base outer scope) (hpast : past <+: calls) :
    ∃ here, (s.after past).scopes[n]? = some here ∧ OnTop base (opened outer past) here := by
  induction h generalizing s scope outer past with
  | nil =>
      rw [List.prefix_nil.mp hpast]
      exact ⟨scope, hn, htop⟩
  | @neutral k l c calls hc h ih =>
      rcases List.prefix_cons_iff.mp hpast with rfl | ⟨point, rfl, hpoint⟩
      · exact ⟨scope, hn, htop⟩
      · obtain ⟨hscope, hundos⟩ := neutral_keeps hc hn
        rw [opened_neutral hc]
        exact ih hscope (by rw [hundos, hk]) htop hpoint
  | @bracket k l r m x b inner later hinner hlater ihinner ihlater =>
      rcases prefix_bracket_cases hpast with rfl | ⟨point, rfl, hpoint⟩ | ⟨point, rfl, hpoint⟩
      · exact ⟨scope, hn, htop⟩
      · obtain ⟨hopen, hadded⟩ := shadow_opens hn x b
        refine ihinner (s := s.advance ⟨n, .shadow x b⟩) hopen ?_ (htop.bind x b) hpoint
        rw [hadded, List.length_append, hk]
        rfl
      · -- the whole bracket lies behind: it left the scope, and the open shadowings, as they were
        have hclosed : Nested n k (⟨n, .shadow x b⟩ :: (inner ++ [⟨m, .restore k⟩])) l :=
          .bracket hinner .nil
        obtain ⟨hscope, hl, -⟩ := hclosed.after hn hk
        have hrun : s.after (⟨n, .shadow x b⟩ :: (inner ++ ⟨m, .restore k⟩ :: point)) =
            (s.after (⟨n, .shadow x b⟩ :: (inner ++ [⟨m, .restore k⟩]))).after point := by
          rw [← after_append]
          simp
        rw [hrun, opened_bracket, hinner.opened_eq, List.tail_cons]
        exact ihlater hscope hl htop hpoint

theorem env?_eq_some_iff {e : Env} :
    s.env? n = some e ↔ s.scopes[n]? = some e.scope ∧ e.shared = s.shared := by
  rw [env?, Option.map_eq_some_iff]
  constructor
  · rintro ⟨scope, hscope, rfl⟩
    exact ⟨hscope, rfl⟩
  · rintro ⟨hscope, hshared⟩
    exact ⟨e.scope, hscope, by rw [← hshared]⟩

theorem resolve_of_local? {e : Env} (h : e.local? x = some b) : e.resolve x = .ok b := by
  rw [Env.resolve, h]

/-- After nested shadowings of an environment, its local names are bound as before. At every
point of the nesting a name with an open shadowing resolves to the binding of the innermost one,
and every other name has the local binding that it had before. -/
theorem nested_shadowing {s : Session} {n last : Nat} {e : Env} {calls : List Call}
    (he : s.env? n = some e) (h : Nested n s.undos.length calls last) :
    (∃ e', (s.after calls).env? n = some e' ∧ e'.scope = e.scope) ∧
      ∀ past, past <+: calls → ∃ e', (s.after past).env? n = some e' ∧
        ∀ y, (∀ b, (opened [] past).lookup y = some b →
            e'.local? y = some b ∧ e'.resolve y = .ok b) ∧
          ((opened [] past).lookup y = none → e'.local? y = e.local? y) := by
  obtain ⟨hn, -⟩ := env?_eq_some_iff.mp he
  refine ⟨⟨⟨(s.after calls).shared, e.scope⟩,
    env?_eq_some_iff.mpr ⟨(h.after hn rfl).1, rfl⟩, rfl⟩, ?_⟩
  intro past hpast
  have htop : OnTop e.scope [] e.scope := fun y => rfl
  obtain ⟨here, hhere, hnames⟩ := h.onTop hn rfl htop hpast
  refine ⟨⟨(s.after past).shared, here⟩, env?_eq_some_iff.mpr ⟨hhere, rfl⟩,
    fun y => ⟨fun b hb => ?_, fun hnone => ?_⟩⟩
  · have hlocal : here.lookup? y = some b := by rw [hnames y, hb, Option.some_or]
    exact ⟨hlocal, resolve_of_local? hlocal⟩
  · show here.lookup? y = e.scope.lookup? y
    rw [hnames y, hnone, Option.none_or]

/-- `x` is shadowed inside its own shadowing, with a routine and a global between them, and again
after both are undone. -/
def nestedCalls : List Call :=
  [⟨0, .shadow "x" (.enclosed "x" 1)⟩, ⟨0, .routine ⟨"$r1"⟩⟩, ⟨0, .shadow "y" (.enclosed "y" 2)⟩,
    ⟨1, .declare "y"⟩, ⟨0, .shadow "x" (.enclosed "x" 3)⟩, ⟨1, .fresh⟩, ⟨0, .restore 2⟩,
    ⟨0, .restore 1⟩, ⟨0, .restore 0⟩, ⟨0, .shadow "x" (.enclosed "x" 4)⟩, ⟨0, .restore 3⟩]

theorem nested_nestedCalls : Nested 0 0 nestedCalls 4 := by
  have hfresh : Nested 0 3 [⟨1, .fresh⟩] 3 := .neutral trivial .nil
  have hx := Nested.bracket (m := 0) (x := "x") (b := .enclosed "x" 3) hfresh .nil
  have hglobal := Nested.neutral (c := ⟨1, .declare "y"⟩) trivial hx
  have hy := Nested.bracket (m := 0) (x := "y") (b := .enclosed "y" 2) hglobal .nil
  have hroutine := Nested.neutral (c := ⟨0, .routine ⟨"$r1"⟩⟩) trivial hy
  have hagain := Nested.bracket (m := 0) (x := "x") (b := .enclosed "x" 4)
    (Nested.nil : Nested 0 4 [] 4) .nil
  exact Nested.bracket (m := 0) (x := "x") (b := .enclosed "x" 1) hroutine hagain

theorem nested_shadowing_nestedCalls :
    ∃ s e, s = root.advance ⟨0, .bind "x" (.enclosed "x" 0)⟩ ∧ s.env? 0 = some e ∧
      Nested 0 s.undos.length nestedCalls 4 ∧
      (∃ e', (s.after nestedCalls).env? 0 = some e' ∧ e'.scope = e.scope) ∧
      ∃ e', (s.after (nestedCalls.take 6)).env? 0 = some e' ∧
        e'.resolve "x" = .ok (.enclosed "x" 3) ∧ e'.resolve "y" = .ok (.enclosed "y" 2) ∧
        e'.local? "z" = none := by
  have he : (root.advance ⟨0, .bind "x" (.enclosed "x" 0)⟩).env? 0 =
      some { scope := Scope.bind {} "x" (.enclosed "x" 0) } := by decide
  obtain ⟨hend, hpoints⟩ := nested_shadowing he nested_nestedCalls
  obtain ⟨e', he', hnames⟩ := hpoints (nestedCalls.take 6) (List.take_prefix 6 _)
  exact ⟨_, _, rfl, he, nested_nestedCalls, hend, e', he', ((hnames "x").1 _ (by decide)).2,
    ((hnames "y").1 _ (by decide)).2, (hnames "z").2 (by decide)⟩

end Session
end Lowering

import Lowering.Expr.Eval
import Lowering.Proofs.Execution

/-!
# Values on the heap

`Represents code tags heap v w` says that the word `w` refers to an object for the value
`v`. A number or character is a tag and its payload, a constructor is its tag and its
arguments, and a closure is a tag, the address of its routine and the captured values. The
heap only grows, so a word stays what it is (`Represents.mono`).

`Agrees` relates the locals of the evaluator to the scope of lowering and the registers of
a machine. Only the free names of an expression matter, and of those a closure holds just
the captured ones.
-/

namespace Lowering

open Machine (PointsTo)

/-- The routines of a fragment are blocks of the code, and the tags met up to `t` are the
ones that the code uses. -/
structure Placed (code : Code) (tags : Registry) (f : Fragment) (t : LowerState) : Prop where
  routines : ∀ r ∈ f.routines, r.code <:+: code
  tags : t.tags.entries <+: tags.entries

/-- The routine of `fun x => e` is at `address`, and finds the names `captured` in its
closure. -/
inductive RoutineAt (code : Code) (tags : Registry) (address : Nat) (x : String) (e : Expr)
    (captured : List String) : Prop where
  | intro {label : Label} {s t : LowerState} {f : Fragment}
      (holds : code.Holds address (routineCode label (s.reg 1) (s.reg 2) (s.reg 3) f.code))
      (body : Lowers .tag (.expr e (s.reg 3))
        ((s.skip 3).inScope (routineScope (s.reg 1) x (s.reg 2) captured)) [] f t)
      (placed : Placed code tags f t)

/-- The closure of `fun x => e` captures the values of some locals. The other free names of
the lambda are not local. -/
structure CapturesLocals (x : String) (e : Expr) (locals : Locals) (captured : List String)
    (values : List Value) : Prop where
  nodup : captured.Nodup
  notParam : x ∉ captured
  values : captured.map (fun y => locals.lookup y) = values.map some
  others : ∀ y ∈ (Expr.lam x e).free, isPrimitive y = false → y ∉ captured →
    locals.lookup y = none

/-- The word refers to an object for the value. -/
inductive Represents (code : Code) (tags : Registry) (heap : List (List Word)) :
    Value → Word → Prop where
  | num {n : Int64} {w : Word} {t : Tag} (tag : tags.lookup? "Num" = some t)
      (object : PointsTo heap w [t.id, n.toInt]) : Represents code tags heap (.num n) w
  | char {n : Int64} {w : Word} {t : Tag} (tag : tags.lookup? "Char" = some t)
      (object : PointsTo heap w [t.id, n.toInt]) : Represents code tags heap (.char n) w
  | ctor {c : String} {args : List Value} {w : Word} {t : Tag} {fields unused : List Word}
      (tag : tags.lookup? c = some t) (object : PointsTo heap w (t.id :: fields ++ unused))
      (length : args.length = fields.length)
      (each : ∀ (k : Nat) v u, args[k]? = some v → fields[k]? = some u →
        Represents code tags heap v u) :
      Represents code tags heap (.ctor c args) w
  | closure {x : String} {e : Expr} {locals : Locals} {w : Word} {t : Tag} {address : Nat}
      {captured : List String} {values : List Value} {fields : List Word}
      (tag : tags.lookup? "Closure" = some t)
      (object : PointsTo heap w (t.id :: (address : Int) :: fields))
      (routine : RoutineAt code tags address x e captured)
      (captures : CapturesLocals x e locals captured values)
      (length : values.length = fields.length)
      (each : ∀ (k : Nat) v u, values[k]? = some v → fields[k]? = some u →
        Represents code tags heap v u) :
      Represents code tags heap (.closure x e locals) w

namespace Represents

variable {code : Code} {tags : Registry} {heap heap' : List (List Word)} {v : Value} {w : Word}

theorem mono (h : Represents code tags heap v w) (hheap : heap <+: heap') :
    Represents code tags heap' v w := by
  induction h with
  | num tag object => exact .num tag (object.mono hheap)
  | char tag object => exact .char tag (object.mono hheap)
  | ctor tag object length _ ih => exact .ctor tag (object.mono hheap) length ih
  | closure tag object routine captures length _ ih =>
      exact .closure tag (object.mono hheap) routine captures length ih

end Represents

/-- The words refer to objects for the values. -/
def RepresentsAll (code : Code) (tags : Registry) (heap : List (List Word)) (vs : List Value)
    (ws : List Word) : Prop :=
  List.Forall₂ (Represents code tags heap) vs ws

namespace RepresentsAll

variable {code : Code} {tags : Registry} {heap heap' : List (List Word)} {vs : List Value}
  {ws : List Word}

theorem mono (h : RepresentsAll code tags heap vs ws) (hheap : heap <+: heap') :
    RepresentsAll code tags heap' vs ws :=
  List.Forall₂.imp (fun _ _ hv => hv.mono hheap) h

theorem iff_get : RepresentsAll code tags heap vs ws ↔ vs.length = ws.length ∧
    ∀ (k : Nat) v u, vs[k]? = some v → ws[k]? = some u → Represents code tags heap v u := by
  rw [RepresentsAll, List.forall₂_iff_get]
  refine and_congr_right fun _ => ⟨fun h k v u hv hu => ?_, fun h k hk hk' => ?_⟩
  · obtain ⟨hk, rfl⟩ := List.getElem?_eq_some_iff.mp hv
    obtain ⟨hk', rfl⟩ := List.getElem?_eq_some_iff.mp hu
    exact h k hk hk'
  · exact h k _ _ (List.getElem?_eq_getElem hk) (List.getElem?_eq_getElem hk')

end RepresentsAll

/-- All registers of the scope have been handed out. -/
structure LowerState.Tidy (s : LowerState) : Prop where
  register : ∀ {y n r}, s.scope.lookup? y = some (.register n r) → s.Has r
  closure : ∀ {r}, s.scope.closure = some r → s.Has r

namespace LowerState.Tidy

variable {s t : LowerState}

theorem mono (h : s.Tidy) (hst : s.Grows t) : t.Tidy where
  register hr := (h.register (hst.scope ▸ hr)).mono hst.next
  closure hr := (h.closure (hst.scope ▸ hr)).mono hst.next

theorem bind (h : s.Tidy) {x : String} {r : Reg} (hr : s.Has r) :
    (s.inScope (s.scope.bind x (.register x r))).Tidy where
  register {y n q} hy := by
    by_cases hyx : y = x
    · subst hyx
      simp only [scope_inScope, Scope.lookup?_bind_self, Option.some.injEq,
        Binding.register.injEq] at hy
      exact hy.2 ▸ hr
    · exact h.register ((s.scope.lookup?_bind_of_ne hyx _).symm.trans hy)
  closure hq := h.closure hq

theorem routine {closure arg : Reg} {x : String} {captured : List String}
    (hcaptured : captured.Nodup) (hclosure : s.Has closure) (harg : s.Has arg) :
    (s.inScope (routineScope closure x arg captured)).Tidy where
  register {y n r} hy := by
    rw [scope_inScope, lookup?_routineScope hcaptured] at hy
    split at hy
    · cases hy
    · split at hy
      · cases hy
        exact harg
      · cases hy
  closure {r} hr := by
    rw [scope_inScope, closure_routineScope] at hr
    cases hr
    exact hclosure

end LowerState.Tidy

namespace Machine

/-- The word is at the place that the scope gives for a name. -/
inductive Finds (m : Machine) (c : Scope) (y : String) (w : Word) : Prop where
  | register {n : String} {r : Reg} (found : c.lookup? y = some (.register n r))
      (get : m.get? r = some w)
  | enclosed {n : String} {i : Nat} {r : Reg} {p : Word} {words : List Word}
      (found : c.lookup? y = some (.enclosed n i)) (running : c.closure = some r)
      (get : m.get? r = some p) (object : PointsTo m.heap p words)
      (slot : words[i + captureOffset]? = some w)

/-- Registers up to a number, globals and objects of `m` are still there in `t`. -/
structure Keeps (n : Nat) (m t : Machine) : Prop where
  regs : ∀ k : Nat, k ≤ n → t.get? (.virtual k) = m.get? (.virtual k)
  globals : ∀ x, t.get? (.global x) = m.get? (.global x)
  heap : m.heap <+: t.heap

theorem Goes.keeps {code : Code} {lo hi d n : Nat} {printed : List Printed} {m t : Machine}
    (h : Goes code lo hi d printed m t) (hheap : m.heap <+: t.heap) (hlo : n ≤ lo)
    (hd : n < d) : Keeps n m t :=
  ⟨fun k hk => h.regs k (by omega) (by omega), h.globals, hheap⟩

theorem Keeps.trans {n : Nat} {m t u : Machine} (h : Keeps n m t) (k : Keeps n t u) :
    Keeps n m u :=
  ⟨fun j hj => (k.regs j hj).trans (h.regs j hj), fun x => (k.globals x).trans (h.globals x),
    h.heap.trans k.heap⟩

theorem Keeps.get? {n : Nat} {m t : Machine} {s : LowerState} {r : Reg} (h : Keeps n m t)
    (hr : s.Has r) (hs : s.next ≤ n) : t.get? r = m.get? r := by
  obtain ⟨k, rfl, hk⟩ := hr
  exact h.regs k (hk.trans hs)

theorem Finds.keep {m t : Machine} {s : LowerState} {y : String} {w : Word}
    (h : m.Finds s.scope y w) (hs : s.Tidy) (hkeep : Keeps s.next m t) :
    t.Finds s.scope y w := by
  cases h with
  | register found get => exact .register found ((hkeep.get? (hs.register found) le_rfl).trans get)
  | enclosed found running get object slot =>
      exact .enclosed found running ((hkeep.get? (hs.closure running) le_rfl).trans get)
        (object.mono hkeep.heap) slot

end Machine

/-- The globals of the evaluator are in their registers. -/
def HasGlobals (code : Code) (tags : Registry) (globals : Locals) (m : Machine) : Prop :=
  ∀ x v, globals.lookup x = some v →
    ∃ w, m.get? (.global x) = some w ∧ Represents code tags m.heap v w

theorem HasGlobals.mono {code : Code} {tags : Registry} {globals : Locals} {m t : Machine}
    (h : HasGlobals code tags globals m)
    (hglobals : ∀ x, t.get? (.global x) = m.get? (.global x)) (hheap : m.heap <+: t.heap) :
    HasGlobals code tags globals t := by
  intro x v hv
  obtain ⟨w, hw, hrep⟩ := h x v hv
  exact ⟨w, (hglobals x).trans hw, hrep.mono hheap⟩

/-- The machine has the values of the evaluator: the locals among the names `free` at the
places that the scope gives, and the globals in their registers. -/
structure Agrees (code : Code) (tags : Registry) (globals locals : Locals) (c : Scope)
    (free : List String) (m : Machine) : Prop where
  locals : ∀ y ∈ free, isPrimitive y = false →
    (c.lookup? y = none ∧ locals.lookup y = none) ∨
      ∃ v w, locals.lookup y = some v ∧ m.Finds c y w ∧ Represents code tags m.heap v w
  globals : HasGlobals code tags globals m

namespace Agrees

variable {code : Code} {tags : Registry} {globals locals : Locals} {c : Scope}
  {free free' : List String} {m t : Machine} {s : LowerState}

theorem subset (h : Agrees code tags globals locals c free m) (hfree : free' ⊆ free) :
    Agrees code tags globals locals c free' m :=
  ⟨fun y hy => h.locals y (hfree hy), h.globals⟩

theorem keep (h : Agrees code tags globals locals s.scope free m) (hs : s.Tidy)
    (hkeep : Machine.Keeps s.next m t) : Agrees code tags globals locals s.scope free t where
  locals y hy hp := by
    rcases h.locals y hy hp with hnone | ⟨v, w, hv, hw, hrep⟩
    · exact .inl hnone
    · exact .inr ⟨v, w, hv, hw.keep hs hkeep, hrep.mono hkeep.heap⟩
  globals := h.globals.mono hkeep.globals hkeep.heap

/-- A name is bound to a register that holds its value. -/
theorem bind {x : String} {r : Reg} {v : Value} {w : Word}
    (h : Agrees code tags globals locals c (free.filter (· ≠ x)) m) (hr : m.get? r = some w)
    (hv : Represents code tags m.heap v w) :
    Agrees code tags globals ((x, v) :: locals) (c.bind x (.register x r)) free m where
  locals y hy hp := by
    by_cases hyx : y = x
    · subst hyx
      exact .inr ⟨v, w, by simp, .register (c.lookup?_bind_self _ _) hr, hv⟩
    · have hlookup : ((x, v) :: locals).lookup y = locals.lookup y := by
        have hne : (y == x) = false := by simpa using hyx
        simp [List.lookup_cons, hne]
      have hscope : (c.bind x (.register x r)).lookup? y = c.lookup? y :=
        c.lookup?_bind_of_ne hyx _
      rw [hlookup, hscope]
      rcases h.locals y (by simp [hy, hyx]) hp with hnone | ⟨u, w', hu, hw, hrep⟩
      · exact .inl hnone
      · refine .inr ⟨u, w', hu, ?_, hrep⟩
        cases hw with
        | register found get => exact .register (hscope.trans found) get
        | enclosed found running get object slot =>
            exact .enclosed (hscope.trans found) running get object slot
  globals := h.globals

end Agrees

/-- The instructions `c` leave a reference to the value in the register with number `d`. -/
def Yields (code : Code) (tags : Registry) (c : Code) (lo hi d : Nat) (printed : List Printed)
    (v : Value) (m : Machine) : Prop :=
  ∃ t w, Machine.Passes code c lo hi d printed m t ∧ m.heap <+: t.heap ∧
    t.get? (.virtual d) = some w ∧ Represents code tags t.heap v w

namespace Yields

variable {code c c' : Code} {tags : Registry} {lo hi d lo' hi' d' : Nat}
  {printed printed' : List Printed} {v : Value} {m t : Machine}

theorem widen (h : Yields code tags c lo hi d printed v m) (hlo : lo' ≤ lo) (hhi : hi ≤ hi') :
    Yields code tags c lo' hi' d printed v m := by
  obtain ⟨t, w, hpass, hheap, hw, hv⟩ := h
  exact ⟨t, w, hpass.widen hlo hhi (.inl rfl), hheap, hw, hv⟩

theorem after (k : Machine.Passes code c lo hi d printed m t) (hheap : m.heap <+: t.heap)
    (h : Yields code tags c' lo hi d printed' v t) :
    Yields code tags (c ++ c') lo hi d (printed ++ printed') v m := by
  obtain ⟨u, w, hpass, hheap', hw, hv⟩ := h
  exact ⟨u, w, k.trans hpass, hheap.trans hheap', hw, hv⟩

end Yields

/-- A new object for a value. -/
theorem Machine.Leaves.yields {code c : Code} {tags : Registry} {lo hi d : Nat} {v : Value}
    {words : List Word} {m : Machine} (h : Leaves code c lo hi d words m)
    (hv : Represents code tags (m.heap ++ [words]) v m.heap.length) :
    Yields code tags c lo hi d [] v m := by
  obtain ⟨t, hpass, hheap, hd⟩ := h
  exact ⟨t, _, hpass, hheap ▸ List.prefix_append _ _, hd, hheap ▸ hv⟩

/-- A variable is read from the place that its scope gives. -/
theorem Agrees.refers {code : Code} {tags : Registry} {globals locals : Locals}
    {free : List String} {m : Machine} {s : LowerState} {x : String} {d : Nat} {c : Code}
    {v : Value} (h : Agrees code tags globals locals s.scope free m) (lo hi : Nat) (hx : x ∈ free)
    (hrefers : Refers x (.virtual d) s c) (hcode : code.Holds m.pc c)
    (hv : lookupValue? globals locals x = some v) :
    ∃ t w, Machine.Passes code c lo hi d [] m t ∧ t.heap = m.heap ∧
      t.get? (.virtual d) = some w ∧ Represents code tags m.heap v w := by
  have hmove {i : Instr} {w : Word} (hcode : code.Holds m.pc [i])
      (hexec : m.exec code i = some (m.set (.virtual d) w).next)
      (hw : Represents code tags m.heap v w) :
      ∃ t w, Machine.Passes code [i] lo hi d [] m t ∧ t.heap = m.heap ∧
        t.get? (.virtual d) = some w ∧ Represents code tags m.heap v w :=
    ⟨_, w, .set hcode hexec, by simp, by simp, hw⟩
  cases hrefers with
  | register notPrimitive found =>
      rcases h.locals x hx notPrimitive with ⟨hnone, -⟩ | ⟨u, w, hu, hfinds, hrep⟩
      · simp [found] at hnone
      have huv : u = v := by simpa [lookupValue?, notPrimitive, hu] using hv
      subst huv
      cases hfinds with
      | register found' get =>
          rw [found] at found'
          cases found'
          exact hmove hcode (by simp [Machine.exec, get]) hrep
      | enclosed found' _ _ _ _ => simp [found] at found'
  | @enclosed n i closure notPrimitive found running =>
      rcases h.locals x hx notPrimitive with ⟨hnone, -⟩ | ⟨u, w, hu, hfinds, hrep⟩
      · simp [found] at hnone
      have huv : u = v := by simpa [lookupValue?, notPrimitive, hu] using hv
      subst huv
      cases hfinds with
      | register found' _ => simp [found] at found'
      | @enclosed _ j _ _ _ found' running' get object slot =>
          rw [found] at found'
          cases found'
          rw [running] at running'
          cases running'
          have hload : m.load? closure (captureSlot j) = some w := by
            rw [captureSlot, ← Nat.cast_add]
            exact Machine.load?_eq get object slot
          exact hmove hcode (by simp [Machine.exec, hload]) hrep
  | global notPrimitive notLocal declared =>
      rcases h.locals x hx notPrimitive with ⟨-, hnone⟩ | ⟨u, w, -, hfinds, -⟩
      · have hglobal : globals.lookup x = some v := by
          simpa [lookupValue?, notPrimitive, hnone] using hv
        obtain ⟨w, hw, hrep⟩ := h.globals x v hglobal
        exact hmove hcode (by simp [Machine.exec, hw]) hrep
      · cases hfinds <;> simp_all

/-- A fragment stands where the machine is about to run it, and the machine has the values
of the free names. -/
structure Ready (code : Code) (tags : Registry) (globals locals : Locals) (free : List String)
    (s t : LowerState) (f : Fragment) (m : Machine) : Prop where
  holds : code.Holds m.pc f.code
  placed : Placed code tags f t
  tidy : s.Tidy
  agrees : Agrees code tags globals locals s.scope free m

/-- Where evaluation with this much fuel has a result, the lowered code yields it. -/
def Simulates (code : Code) (tags : Registry) (globals : Locals) (fuel : Nat) : Prop :=
  ∀ {e : Expr} {locals : Locals} {v : Value} {printed : List Printed} {s t : LowerState}
    {f : Fragment} {d : Nat} {m : Machine}, e.eval globals fuel locals = some (v, printed) →
    Lowers .tag (.expr e (.virtual d)) s [] f t → d ≤ s.next →
    Ready code tags globals locals e.free s t f m →
    Yields code tags f.code s.next t.next d printed v m

end Lowering

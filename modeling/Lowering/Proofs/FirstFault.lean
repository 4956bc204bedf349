import Lowering.Proofs.JsonReading
import Lowering.Proofs.Readers

/-!
# Programs are read up to the first fault

The readers of expressions, branches, definitions and programs go through lists and nodes as
`readList` and `readNode` do, so by induction on how deep a value is nested they decide what it
is. A program is therefore read from exactly the values that are read as one, and any other
value is reported with the first of its faults.
-/

namespace Lowering

namespace Json

/-- A reader that goes through items as `readItemsWith` does is `readItemsWith`. -/
theorem eq_readItemsWith {α : Type} {read : Nat → Json → Except DecodeFailure α}
    {go : Nat → JsonItems → Except DecodeFailure (List α)}
    (hlast : ∀ index before j after, go index (.last before j after) = do
      let a ← read index j
      return [a])
    (hmore : ∀ index before j after rest, go index (.more before j after rest) = do
      let a ← read index j
      let others ← go (index + 1) rest
      return a :: others) :
    (items : JsonItems) → ∀ index, go index items = readItemsWith read index items.toList
  | .last before j after, index => by
      rw [hlast, JsonItems.toList, readItemsWith]
      rfl
  | .more before j after rest, index => by
      rw [hmore, JsonItems.toList, readItemsWith]
      simp only [eq_readItemsWith hlast hmore rest]

theorem mapM_readParam_eq (js : List Json) :
    ∀ index, js.mapM readParam = readItemsWith (fun _ => readParam) index js := by
  induction js with
  | nil => exact fun _ => rfl
  | cons j js ih =>
      intro index
      rw [List.mapM_cons, readItemsWith, ih (index + 1)]

theorem readParams_eq (j : Json) : j.readParams = readList .params (fun _ => readParam) j := by
  cases j with
  | array items => exact mapM_readParam_eq items.toList 0
  | _ => rfl

theorem decides_readParams (j : Json) :
    Decides (fun xs => (Piece.params xs).ReadAs j) j.readParams (j.faults .params) := by
  rw [readParams_eq]
  refine decides_readList rfl (fun _ => rfl) fun values _ index v _ => ?_
  rw [Field.locate_nil, List.map_id]
  exact v.decides_readParam

end Json

theorem branchesOfJson_eq (j : Json) :
    branchesOfJson j =
      j.readList .branches fun i b => (DecodeStep.branch i).around (Branch.ofJson b) := by
  cases j with
  | array items =>
      rw [branchesOfJson]
      exact Json.eq_readItemsWith (fun _ _ _ _ => by rw [branchesOfItems])
        (fun _ _ _ _ _ => by rw [branchesOfItems]) items 0
  | _ => rfl

theorem Program.ofJson_eq (j : Json) :
    Program.ofJson j =
      j.readList .program fun i d => (DecodeStep.definition i).around (Def.ofJson d) := by
  cases j with
  | array items =>
      exact Json.eq_readItemsWith (fun _ _ _ _ => rfl) (fun _ _ _ _ _ => rfl) items 0
  | _ => rfl

namespace Json

theorem kindAmong_expr (k : Json) :
    k.kindAmong (ExprKind.all.map .expr) = k.readExprKind.map .expr := by
  rw [kindAmong, readExprKind, readKind]
  cases k.string? with
  | none => rfl
  | some word =>
      have hfind : (ExprKind.all.map NodeKind.expr).find? (·.name == word) =
          (ExprKind.ofName? word).map .expr := by
        rw [List.find?_map]
        rfl
      simp only [hfind, bind, Except.bind]
      cases ExprKind.ofName? word <;> rfl

theorem kindAmong_singleton (k : Json) (kind : NodeKind) :
    k.kindAmong [kind] = (k.expectKind kind).map fun _ => kind := by
  rw [kindAmong, expectKind, readKind]
  cases k.string? with
  | none => rfl
  | some word =>
      simp only [bind, Except.bind]
      by_cases h : word = kind.name
      · subst h
        simp only [List.find?_cons, beq_self_eq_true, if_true]
        rfl
      · have hbeq : (kind.name == word) = false := beq_eq_false_iff_ne.mpr (Ne.symm h)
        simp only [List.find?_cons, hbeq, List.find?_nil, if_neg h]
        rfl

end Json

/-- Read the fields of an expression of the given kind. -/
def Expr.ofFields : NodeKind → List Json → Except DecodeFailure Expr
  | .expr .var, [x] => do return .var (← x.readName (.expr .var))
  | .expr .ctor, [x] => do return .ctor (← x.readName (.expr .ctor))
  | .expr .num, [x] => do return .num (← x.readInt64 (.expr .num))
  | .expr .char, [x] => do return .char (← x.readInt64 (.expr .char))
  | .expr .caseOf, [x, y] => do
    let scrutinee ← DecodeStep.scrutinee.around (Expr.ofJson x)
    let branches ← branchesOfJson y
    return .caseOf scrutinee branches
  | .expr .letIn, [x, y, z] => do
    let name ← x.readName (.expr .letIn)
    let value ← (DecodeStep.letValue name).around (Expr.ofJson y)
    let body ← (DecodeStep.letBody name).around (Expr.ofJson z)
    return .letIn name value body
  | .expr .lam, [x, y] => do
    let param ← x.readName (.expr .lam)
    let body ← (DecodeStep.lambda param).around (Expr.ofJson y)
    return .lam param body
  | .expr .app, [x, y] => do
    let func ← DecodeStep.func.around (Expr.ofJson x)
    let arg ← DecodeStep.arg.around (Expr.ofJson y)
    return .app func arg
  | kind, fields => wrongArity kind fields.length

theorem Expr.ofJson_eq (j : Json) :
    Expr.ofJson j = j.readNode (ExprKind.all.map .expr) Expr.ofFields := by
  cases j with
  | array items =>
      -- No kind has more than three fields.
      rcases items with ⟨_, k, _⟩ | ⟨_, k, _, ⟨_, x, _⟩ | ⟨_, x, _, ⟨_, y, _⟩ |
        ⟨_, y, _, ⟨_, z, _⟩ | ⟨_, z, _, ⟨_, w, _⟩ | ⟨_, w, _, rest⟩⟩⟩⟩⟩
      all_goals
        simp only [Expr.ofJson, Json.readNode, Json.elements?, ← JsonItems.length_toList,
          JsonItems.toList, Json.kindAmong_expr]
        cases k.readExprKind with
        | error f => rfl
        | ok kind => cases kind <;> rfl
  | _ => rfl

/-- Read the fields of a branch. -/
def Branch.ofFields : NodeKind → List Json → Except DecodeFailure Branch
  | .branch, [c, ps, b] => do
    let ctor ← c.readName .branch
    let params ← ps.readParams
    let body ← (DecodeStep.body ctor).around (Expr.ofJson b)
    return .mk ctor params body
  | kind, fields => wrongArity kind fields.length

theorem Branch.ofJson_eq (j : Json) : Branch.ofJson j = j.readNode [.branch] Branch.ofFields := by
  cases j with
  | array items =>
      rcases items with ⟨_, k, _⟩ | ⟨_, k, _, ⟨_, x, _⟩ | ⟨_, x, _, ⟨_, y, _⟩ |
        ⟨_, y, _, ⟨_, z, _⟩ | ⟨_, z, _, ⟨_, w, _⟩ | ⟨_, w, _, rest⟩⟩⟩⟩⟩
      all_goals
        simp only [Branch.ofJson, Json.readNode, Json.elements?, ← JsonItems.length_toList,
          JsonItems.toList, Json.kindAmong_singleton]
        cases k.expectKind .branch <;> rfl
  | _ => rfl

/-- Read the fields of a definition. -/
def Def.ofFields : NodeKind → List Json → Except DecodeFailure Def
  | .definition, [x, b] => do
    let name ← x.readName .definition
    let body ← (DecodeStep.body name).around (Expr.ofJson b)
    return ⟨name, body⟩
  | kind, fields => wrongArity kind fields.length

theorem Def.ofJson_eq (j : Json) : Def.ofJson j = j.readNode [.definition] Def.ofFields := by
  cases j with
  | array items =>
      rcases items with ⟨_, k, _⟩ | ⟨_, k, _, ⟨_, x, _⟩ | ⟨_, x, _, ⟨_, y, _⟩ |
        ⟨_, y, _, ⟨_, z, _⟩ | ⟨_, z, _, rest⟩⟩⟩⟩
      all_goals
        simp only [Def.ofJson, Json.readNode, Json.elements?, ← JsonItems.length_toList,
          JsonItems.toList, Json.kindAmong_singleton]
        cases k.expectKind .definition <;> rfl
  | _ => rfl

/-- The readers of expressions, branches and lists of branches decide what a value is. -/
structure Json.Decided (j : Json) : Prop where
  expr : Decides (fun e => (Piece.expr e).ReadAs j) (Expr.ofJson j) (j.faults .expr)
  branch : Decides (fun b => (Piece.branch b).ReadAs j) (Branch.ofJson j) (j.faults .branch)
  branches : Decides (fun bs => (Piece.branches bs).ReadAs j) (branchesOfJson j)
    (j.faults .branches)

/-- What follows a name may depend on it. -/
theorem Json.decides_named {α : Type} {owner : NodeKind} {x : Json} {fields : List Json}
    {T : String → α → Prop} {k : String → Except DecodeFailure α}
    {gs : String → List DecodeFailure} (hk : ∀ s, Decides (T s) (k s) (gs s)) :
    Decides (fun a => ∃ s, (Piece.name s).ReadAs x ∧ T s a) (x.readName owner >>= k)
      (x.faults (.name owner) ++ gs (nameIn (x :: fields))) := by
  refine (x.decides_readName owner).bind fun s hs => ?_
  have hname : nameIn (x :: fields) = s := by
    rw [nameIn, Piece.readAs_name_iff.mp hs]
    rfl
  rw [hname]
  exact hk s

/-- The fields of an expression are read in the order in which their faults are listed. -/
theorem Expr.decides_ofFields {kind : ExprKind} {fields : List Json}
    (hlegal : ∀ v ∈ fields, v.Legal) (h : ∀ v ∈ fields, v.Decided)
    (hlength : fields.length = kind.arity) :
    Decides (fun e => ∃ pieces, (Piece.expr e).node? = some (.expr kind, pieces) ∧
      Piece.AllReadAs pieces fields) (Expr.ofFields (.expr kind) fields)
      (faultsIn ((NodeKind.expr kind).fields (nameIn fields)) fields) := by
  -- Only expressions of the kind have its fields, so in each case the other constructors drop out.
  cases kind with
  | var =>
      obtain ⟨x, rfl⟩ := List.length_eq_one_iff.mp hlength
      simp only [NodeKind.fields, faultsIn, Field.locate_nil, List.map_id, List.append_nil]
      refine (x.decides_readName (.expr .var)).map.congr fun e => ?_
      cases e <;> simp [Piece.node?]
  | ctor =>
      obtain ⟨x, rfl⟩ := List.length_eq_one_iff.mp hlength
      simp only [NodeKind.fields, faultsIn, Field.locate_nil, List.map_id, List.append_nil]
      refine (x.decides_readName (.expr .ctor)).map.congr fun e => ?_
      cases e <;> simp [Piece.node?]
  | num =>
      obtain ⟨x, rfl⟩ := List.length_eq_one_iff.mp hlength
      simp only [NodeKind.fields, faultsIn, Field.locate_nil, List.map_id, List.append_nil]
      refine (Json.decides_readInt64 (.expr .num) (hlegal x (by simp))).map.congr fun e => ?_
      cases e <;> simp [Piece.node?]
  | char =>
      obtain ⟨x, rfl⟩ := List.length_eq_one_iff.mp hlength
      simp only [NodeKind.fields, faultsIn, Field.locate_nil, List.map_id, List.append_nil]
      refine (Json.decides_readInt64 (.expr .char) (hlegal x (by simp))).map.congr fun e => ?_
      cases e <;> simp [Piece.node?]
  | caseOf =>
      obtain ⟨x, y, rfl⟩ := List.length_eq_two.mp hlength
      simp only [NodeKind.fields, faultsIn, Field.locate_nil, List.map_id, List.append_nil]
      have hx := (h x (by simp)).expr.locate .expr .scrutinee
      have hy := (h y (by simp)).branches
      refine (hx.bind fun _ _ => hy.map).congr fun e => ?_
      cases e <;> simp [Piece.node?]
  | letIn =>
      obtain ⟨x, y, z, rfl⟩ := List.length_eq_three.mp hlength
      simp only [NodeKind.fields, faultsIn, Field.locate_nil, List.map_id, List.append_nil]
      have hy := fun s => (h y (by simp)).expr.locate .expr (.letValue s)
      have hz := fun s => (h z (by simp)).expr.locate .expr (.letBody s)
      refine (Json.decides_named fun s => (hy s).bind fun _ _ => (hz s).map).congr fun e => ?_
      cases e <;> simp [Piece.node?]
  | lam =>
      obtain ⟨x, y, rfl⟩ := List.length_eq_two.mp hlength
      simp only [NodeKind.fields, faultsIn, Field.locate_nil, List.map_id, List.append_nil]
      have hy := fun s => (h y (by simp)).expr.locate .expr (.lambda s)
      refine (Json.decides_named fun s => (hy s).map).congr fun e => ?_
      cases e <;> simp [Piece.node?]
  | app =>
      obtain ⟨x, y, rfl⟩ := List.length_eq_two.mp hlength
      simp only [NodeKind.fields, faultsIn, List.append_nil]
      have hx := (h x (by simp)).expr.locate .expr .func
      have hy := (h y (by simp)).expr.locate .expr .arg
      refine (hx.bind fun _ _ => hy.map).congr fun e => ?_
      cases e <;> simp [Piece.node?]

theorem Branch.decides_ofFields {fields : List Json} (h : ∀ v ∈ fields, v.Decided)
    (hlength : fields.length = 3) :
    Decides (fun b => ∃ pieces, (Piece.branch b).node? = some (.branch, pieces) ∧
      Piece.AllReadAs pieces fields) (Branch.ofFields .branch fields)
      (faultsIn (NodeKind.branch.fields (nameIn fields)) fields) := by
  obtain ⟨c, ps, b, rfl⟩ := List.length_eq_three.mp hlength
  simp only [NodeKind.fields, faultsIn, Field.locate_nil, List.map_id, List.append_nil]
  have hbody := fun s => (h b (by simp)).expr.locate .expr (.body s)
  refine (Json.decides_named fun s => ps.decides_readParams.bind fun _ _ =>
    (hbody s).map).congr fun b => ?_
  obtain ⟨c, xs, body⟩ := b
  simp [Piece.node?]

theorem Def.decides_ofFields {fields : List Json} (h : ∀ v ∈ fields, v.Decided)
    (hlength : fields.length = 2) :
    Decides (fun d => ∃ pieces, (Piece.definition d).node? = some (.definition, pieces) ∧
      Piece.AllReadAs pieces fields) (Def.ofFields .definition fields)
      (faultsIn (NodeKind.definition.fields (nameIn fields)) fields) := by
  obtain ⟨x, b, rfl⟩ := List.length_eq_two.mp hlength
  simp only [NodeKind.fields, faultsIn, Field.locate_nil, List.map_id, List.append_nil]
  have hbody := fun s => (h b (by simp)).expr.locate .expr (.body s)
  refine (Json.decides_named fun s => (hbody s).map).congr fun d => ?_
  obtain ⟨x, body⟩ := d
  simp [Piece.node?]

namespace JsonItems

theorem legal_of_mem_toList {v : Json} : (items : JsonItems) → items.Legal → v ∈ items.toList →
    v.Legal
  | .last _ value _, h, hv => by
      obtain rfl := List.mem_singleton.mp hv
      exact h.2.1
  | .more _ value _ rest, h, hv => by
      rcases List.mem_cons.mp hv with rfl | hv
      · exact h.2.1
      · exact legal_of_mem_toList rest h.2.2.2 hv

theorem depth_le_of_mem_toList {v : Json} : (items : JsonItems) → v ∈ items.toList →
    v.depth ≤ items.depth
  | .last _ value _, hv => by
      obtain rfl := List.mem_singleton.mp hv
      exact Nat.le_refl _
  | .more _ value _ rest, hv => by
      rcases List.mem_cons.mp hv with rfl | hv
      · exact Nat.le_max_left _ _
      · exact Nat.le_trans (depth_le_of_mem_toList rest hv) (Nat.le_max_right _ _)

end JsonItems

namespace Json

/-- The items of a legal value are legal and nested less deep. -/
theorem legal_and_depth_lt {j v : Json} {values : List Json} (hj : j.Legal)
    (hvalues : j.elements? = some values) (hv : v ∈ values) : v.Legal ∧ v.depth < j.depth := by
  obtain ⟨_, rfl, rfl⟩ | ⟨items, rfl, rfl⟩ := eq_of_elements? hvalues
  · cases hv
  · exact ⟨items.legal_of_mem_toList (legal_array.mp hj) hv,
      Nat.lt_succ_of_le (items.depth_le_of_mem_toList hv)⟩

/-- A value is decided if its items are. Names and numbers have no items, and the fields of a
node are among those of its array. -/
theorem decided_of_elements {j : Json}
    (h : ∀ values, j.elements? = some values → ∀ v ∈ values, v.Legal ∧ v.Decided) :
    j.Decided where
  expr := by
    rw [Expr.ofJson_eq]
    refine decides_readNode rfl (fun _ => trivial) fun k fields hj kind hkind harity => ?_
    obtain ⟨kind, -, rfl⟩ := List.mem_map.mp hkind
    have hfields := fun v (hv : v ∈ fields) => h _ hj v (List.mem_cons_of_mem k hv)
    exact Expr.decides_ofFields (fun v hv => (hfields v hv).1) (fun v hv => (hfields v hv).2) harity
  branch := by
    rw [Branch.ofJson_eq]
    refine decides_readNode rfl (fun _ => trivial) fun k fields hj kind hkind harity => ?_
    obtain rfl := List.mem_singleton.mp hkind
    exact Branch.decides_ofFields (fun v hv => (h _ hj v (List.mem_cons_of_mem k hv)).2) harity
  branches := by
    rw [branchesOfJson_eq]
    refine decides_readList rfl (fun _ => rfl) fun values hj index v hv => ?_
    exact (h values hj v hv).2.branch.locate .branch (.branch index)

/-- The induction is on how deep the value is nested. -/
theorem decided (j : Json) (hj : j.Legal) : j.Decided := by
  refine decided_of_elements fun values hvalues v hv => ?_
  have hv := legal_and_depth_lt hj hvalues hv
  exact ⟨hv.1, decided v hv.1⟩
termination_by j.depth
decreasing_by exact hv.2

end Json

theorem Def.decides_ofJson {j : Json} (hj : j.Legal) :
    Decides (fun d => (Piece.definition d).ReadAs j) (Def.ofJson j) (j.faults .definition) := by
  rw [Def.ofJson_eq]
  refine Json.decides_readNode rfl (fun _ => trivial) fun k fields helements kind hkind harity => ?_
  obtain rfl := List.mem_singleton.mp hkind
  refine Def.decides_ofFields (fun v hv => v.decided ?_) harity
  exact (Json.legal_and_depth_lt hj helements (List.mem_cons_of_mem k hv)).1

theorem Program.decides_ofJson {j : Json} (hj : j.Legal) :
    Decides (fun p => (Piece.program p).ReadAs j) (Program.ofJson j) (j.faults .program) := by
  rw [Program.ofJson_eq]
  refine Json.decides_readList rfl (fun _ => rfl) fun values hvalues index v hv => ?_
  exact (Def.decides_ofJson (Json.legal_and_depth_lt hj hvalues hv).1).locate .definition _

theorem Decides.faults_eq_nil_iff_accepts {α : Type} {place : Place} {j : Json} {wrap : α → Piece}
    {x : Except DecodeFailure α}
    (h : Decides (fun a => (wrap a).ReadAs j) x (j.faults place))
    (hwrap : ∀ piece, place.Holds piece ↔ ∃ a, wrap a = piece) :
    j.faults place = [] ↔ place.Accepts j := by
  simp [h.faults_eq_nil_iff, Place.Accepts, hwrap]

/-- The values without faults are those that are read as something. -/
theorem Json.faults_eq_nil_iff (place : Place) {j : Json} (hj : j.Legal) :
    j.faults place = [] ↔ place.Accepts j := by
  cases place
  case' name owner => apply (j.decides_readName owner).faults_eq_nil_iff_accepts
  case' word owner => apply (decides_readInt64 owner hj).faults_eq_nil_iff_accepts
  case' param => apply j.decides_readParam.faults_eq_nil_iff_accepts
  case' params => apply j.decides_readParams.faults_eq_nil_iff_accepts
  case' branches => apply (j.decided hj).branches.faults_eq_nil_iff_accepts
  case' expr => apply (j.decided hj).expr.faults_eq_nil_iff_accepts
  case' branch => apply (j.decided hj).branch.faults_eq_nil_iff_accepts
  case' definition => apply (Def.decides_ofJson hj).faults_eq_nil_iff_accepts
  case' program => apply (Program.decides_ofJson hj).faults_eq_nil_iff_accepts
  all_goals
    intro piece
    cases piece <;> simp [Place.Holds]

/-- The first fault in a row of values is that of the first value that is not accepted in its
place. -/
theorem head?_faultsIn {fields : List Field} {js : List Json} (hjs : ∀ j ∈ js, j.Legal)
    {f : DecodeFailure} :
    (faultsIn fields js).head? = some f ↔
      ∃ (i : Nat) (field : Field) (j : Json) (g : DecodeFailure), fields[i]? = some field ∧
        js[i]? = some j ∧ (j.faults field.place).head? = some g ∧ f = field.locate g ∧
        ∀ n < i, ∀ (field' : Field) (j' : Json), fields[n]? = some field' → js[n]? = some j' →
          field'.place.Accepts j' := by
  induction fields generalizing js with
  | nil => simp [faultsIn]
  | cons field fields ih =>
      cases js with
      | nil => simp [faultsIn]
      | cons j js =>
          obtain ⟨hj, hjs⟩ := List.forall_mem_cons.mp hjs
          have haccepts := Json.faults_eq_nil_iff field.place hj
          rw [faultsIn]
          -- If the first value is accepted, the index moves by one; otherwise it has to be zero.
          cases hfaults : j.faults field.place with
          | nil =>
              rw [List.map_nil, List.nil_append, ih hjs]
              constructor
              · rintro ⟨i, field', j', g, hfield, hj', hg, rfl, hbefore⟩
                refine ⟨i + 1, field', j', g, hfield, hj', hg, rfl, fun n hn => ?_⟩
                cases n with
                | zero =>
                    rintro _ _ ⟨⟩ ⟨⟩
                    exact haccepts.mp hfaults
                | succ n => exact hbefore n (by omega)
              · rintro ⟨i, field', j', g, hfield, hj', hg, rfl, hbefore⟩
                cases i with
                | zero =>
                    cases hfield
                    cases hj'
                    simp [hfaults] at hg
                | succ i =>
                    exact ⟨i, field', j', g, hfield, hj', hg, rfl,
                      fun n hn => hbefore (n + 1) (by omega)⟩
          | cons g gs =>
              have hrejects : ¬ field.place.Accepts j := by simp [← haccepts, hfaults]
              constructor
              · intro hhead
                cases hhead
                exact ⟨0, field, j, g, rfl, rfl, by rw [hfaults]; rfl, rfl, by simp⟩
              · rintro ⟨i, field', j', g', hfield, hj', hg, rfl, hbefore⟩
                cases i with
                | zero =>
                    cases hfield
                    cases hj'
                    rw [hfaults] at hg
                    cases hg
                    rfl
                | succ i => exact absurd (hbefore 0 (by omega) field j rfl rfl) hrejects

namespace Program

theorem ofBytes_of_document {bytes : List UInt8} {d : Document} (hlegal : d.Legal)
    (hdepth : d.value.depth ≤ Json.maxDepth) (hspell : d.spell = Utf8.decode bytes) :
    ofBytes bytes = ofJson d.value := by
  rw [ofBytes, ofText, Document.parse_eq_ok_iff.mpr ⟨hlegal, hdepth, hspell⟩]

theorem ofBytes_of_no_document {bytes : List UInt8}
    (h : ¬ ∃ d : Document, d.Legal ∧ d.value.depth ≤ Json.maxDepth ∧ d.spell = Utf8.decode bytes) :
    ∃ fault, ofBytes bytes = .error ⟨[.program], .notJson fault⟩ := by
  rw [ofBytes, ofText]
  cases hparse : Document.parse (Utf8.decode bytes) with
  | ok d => exact absurd ⟨d, Document.parse_eq_ok_iff.mp hparse⟩ h
  | error fault => exact ⟨fault, rfl⟩

/-- A program is read from exactly the values that are read as one, and every other value is
reported with its first fault. A value has no faults in a place just when the place accepts it,
and the first fault in a row of values is that of the first one that is not accepted, so all that
comes before it is well formed. The bytes of a text are read as the value that they spell.
A text that spells no value, or one with more than 10000 nested arrays and objects, is not JSON,
and this is reported whatever faults its parts have. -/
theorem read_up_to_first_fault :
    (∀ j : Json, j.Legal →
      (∀ p, ofJson j = .ok p ↔ (Piece.program p).ReadAs j) ∧
      (∀ f, ofJson j = .error f ↔ (j.faults .program).head? = some f) ∧
      ∀ f fault, ofJson j = .error f → f.cause ≠ .notJson fault) ∧
    (∀ (place : Place) (j : Json), j.Legal → (j.faults place = [] ↔ place.Accepts j)) ∧
    (∀ (fields : List Field) (items : JsonItems), items.Legal → ∀ f,
      (items.faults fields).head? = some f ↔
        ∃ (i : Nat) (field : Field) (j : Json) (g : DecodeFailure), fields[i]? = some field ∧
          items.toList[i]? = some j ∧ (j.faults field.place).head? = some g ∧
          f = field.locate g ∧
          ∀ n < i, ∀ (field' : Field) (j' : Json), fields[n]? = some field' →
            items.toList[n]? = some j' → field'.place.Accepts j') ∧
    (∀ (bytes : List UInt8) (d : Document), d.Legal → d.value.depth ≤ 10000 →
      d.spell = Utf8.decode bytes → ofBytes bytes = ofJson d.value) ∧
    ∀ bytes : List UInt8,
      (¬ ∃ d : Document, d.Legal ∧ d.value.depth ≤ 10000 ∧ d.spell = Utf8.decode bytes) →
      ∃ fault, ofBytes bytes = .error ⟨[.program], .notJson fault⟩ := by
  refine ⟨?_, fun place _ => Json.faults_eq_nil_iff place, ?_, fun _ _ => ofBytes_of_document,
    fun _ => ofBytes_of_no_document⟩
  · intro j hj
    have hdecides := decides_ofJson hj
    exact ⟨fun _ => hdecides.ok_iff, fun _ => hdecides.error_iff,
      fun _ fault hf => hdecides.cause_ne hf fault⟩
  · intro fields items hitems f
    rw [JsonItems.faults_eq]
    exact head?_faultsIn fun _ => items.legal_of_mem_toList hitems

/-- Two branches, a body of an unknown kind in the first one and another kind than that of a
branch for the second one. -/
def faultyBranches : Json :=
  .ofList
    [.node "CaseBranch" [.ofString "C", .null,
        .node "ExprLambda" [.ofString "y", .node "ExprBlock" [.emptyObject []]]],
      .node "Branch" []]

/-- Three definitions. The first one is the number zero under the empty name, both given as
`null`, the second one has the faults of its branches, and the third one is no node. -/
def faultyProgram : Json :=
  .ofList
    [.node "Def" [.null, .node "ExprNumber" [.null]],
      .node "Def" [.ofString "f",
        .node "ExprCase" [.node "ExprVar" [.ofString "x"], faultyBranches]],
      .emptyObject []]

theorem legal_faultyProgram : faultyProgram.Legal := by
  have hnull : Json.Legal .null := trivial
  have hobject : Json.Legal (.emptyObject []) := by simp [Json.Legal, Blank.Legal]
  have hlambda : Json.Legal (.node "ExprLambda"
      [.ofString "y", .node "ExprBlock" [.emptyObject []]]) :=
    Json.legal_node (by simp [Json.legal_node, Json.legal_ofString, hobject])
  have hbranches : faultyBranches.Legal :=
    Json.legal_ofList (by simp [Json.legal_node, Json.legal_ofString, hnull, hlambda])
  have hcase : Json.Legal (.node "ExprCase" [.node "ExprVar" [.ofString "x"], faultyBranches]) :=
    Json.legal_node (by simp [Json.legal_node, Json.legal_ofString, hbranches])
  exact Json.legal_ofList (by simp [Json.legal_node, Json.legal_ofString, hnull, hobject, hcase])

/-- The text of `faultyProgram` is reported with the first of its faults. With a comma behind it,
it is not JSON, and this is reported instead. -/
theorem read_up_to_first_fault_faultyProgram :
    faultyProgram.Legal ∧
    faultyProgram.faults .program =
      [⟨[.definition 1, .body "f", .branch 0, .body "C", .lambda "y"], .unsupported "ExprBlock"⟩,
        ⟨[.definition 1, .body "f", .branch 1], .unsupported "Branch"⟩,
        ⟨[.definition 2], .malformed none (.notArray .object)⟩] ∧
    ofBytes (Utf8.encode faultyProgram.spell) = .error
      ⟨[.definition 1, .body "f", .branch 0, .body "C", .lambda "y"], .unsupported "ExprBlock"⟩ ∧
    ∃ fault, ofBytes (Utf8.encode "[7],".toList) = .error ⟨[.program], .notJson fault⟩ := by
  obtain ⟨hvalue, -, -, hbytes, hnotJson⟩ := read_up_to_first_fault
  have hlegal : Document.Legal ⟨[], faultyProgram, []⟩ :=
    ⟨by simp [Blank.Legal], legal_faultyProgram, by simp [Blank.Legal]⟩
  have hdepth : faultyProgram.depth ≤ 10000 := by decide
  refine ⟨legal_faultyProgram, rfl, ?_, hnotJson _ ?_⟩
  · rw [hbytes _ _ hlegal hdepth]
    · exact ((hvalue _ legal_faultyProgram).2.1 _).mpr rfl
    · rw [Utf8.decode_encode, Document.spell, List.nil_append, List.append_nil]
  · rintro ⟨d, hd⟩
    have hparse := Document.parse_eq_ok_iff.mpr hd
    have herror : Document.parse "[7],".toList = .error (.unexpected ',') := rfl
    rw [Utf8.decode_encode, herror] at hparse
    cases hparse

end Program
end Lowering

import Mathlib.Data.List.Nodup
import Lowering.Expr.NodeForm
import Lowering.Proofs.Words

/-!
# Readers that decide what a value is

A reader `Decides` what a value is read as if it returns the one thing that the value is read as,
or fails with the first of the faults when the value is read as nothing. Readers in a row decide
what their results are made of, and their faults come in the same order.

Names, numbers, lists and nodes have one reader each, `readList` and `readNode` in terms of the
readers of their items and fields.
-/

namespace Lowering

/-- The result is the one thing that is read and there is no fault, or it is the first fault and
nothing is read. -/
inductive Decides {α : Type} (Reads : α → Prop) :
    Except DecodeFailure α → List DecodeFailure → Prop where
  | ok {a : α} (reads : ∀ b, Reads b ↔ b = a) : Decides Reads (.ok a) []
  | error {f : DecodeFailure} {fs : List DecodeFailure} (cause : ∀ fault, f.cause ≠ .notJson fault)
      (none : ∀ b, ¬ Reads b) : Decides Reads (.error f) (f :: fs)

namespace Decides

variable {α β : Type} {R S : α → Prop} {x : Except DecodeFailure α} {fs gs : List DecodeFailure}

theorem ok_iff (h : Decides R x fs) {a : α} : x = .ok a ↔ R a := by
  cases h with
  | ok reads => rw [reads, Except.ok.injEq, eq_comm]
  | error _ none => simp [none]

theorem error_iff (h : Decides R x fs) {f : DecodeFailure} :
    x = .error f ↔ fs.head? = some f := by
  cases h <;> simp

theorem faults_eq_nil_iff (h : Decides R x fs) : fs = [] ↔ ∃ a, R a := by
  cases h with
  | ok reads => simp [reads]
  | error _ none => simp [none]

theorem cause_ne (h : Decides R x fs) {f : DecodeFailure} (hf : x = .error f) (fault : JsonFault) :
    f.cause ≠ .notJson fault := by
  cases h with
  | ok => cases hf
  | error cause _ =>
      cases hf
      exact cause fault

theorem congr (h : Decides R x fs) (hS : ∀ a, S a ↔ R a) : Decides S x fs := by
  cases h with
  | ok reads => exact .ok fun b => (hS b).trans (reads b)
  | error cause none => exact .error cause fun b hb => none b ((hS b).mp hb)

theorem locate (h : Decides R x fs) (place : Place) (step : DecodeStep) :
    Decides R (step.around x) (fs.map (Field.locate ⟨place, [step]⟩)) := by
  cases h with
  | ok reads => exact .ok reads
  | error cause none => exact .error cause none

/-- The second reader only runs on what the first has read. -/
theorem bind {T : α → β → Prop} {k : α → Except DecodeFailure β} (h : Decides R x fs)
    (hk : ∀ a, R a → Decides (T a) (k a) gs) :
    Decides (fun b => ∃ a, R a ∧ T a b) (x >>= k) (fs ++ gs) := by
  cases h with
  | ok reads =>
      rename_i a
      refine (hk a ((reads a).mpr rfl)).congr fun b => ?_
      simp [reads]
  | error cause none => exact .error cause fun b ⟨a, ha, _⟩ => none a ha

theorem map {k : α → β} (h : Decides R x fs) :
    Decides (fun b => ∃ a, R a ∧ b = k a) (x >>= fun a => pure (k a)) fs := by
  rw [← List.append_nil fs]
  exact h.bind fun a _ => .ok fun _ => .rfl

theorem of_option {o : Option α} {f : DecodeFailure} (hcause : ∀ fault, f.cause ≠ .notJson fault)
    (hR : ∀ a, R a ↔ o = some a) (hx : x = o.elim (.error f) .ok) :
    Decides R x (if o.isSome then [] else [f]) := by
  subst hx
  cases o with
  | none => exact .error hcause fun a ha => by cases (hR a).mp ha
  | some a => exact .ok fun b => by rw [hR b, Option.some.injEq, eq_comm]

end Decides

namespace NodeKind

theorem arity_pos (kind : NodeKind) : 0 < kind.arity := by
  cases kind with
  | expr kind => cases kind <;> decide
  | _ => decide

theorem name_injective {a b : NodeKind} (h : a.name = b.name) : a = b := by
  have hmem : ∀ kind, kind ∈ [definition, branch] ++ ExprKind.all.map expr := by
    intro kind
    cases kind with
    | expr kind => cases kind <;> decide
    | _ => decide
  have hnodup : (([definition, branch] ++ ExprKind.all.map expr).map name).Nodup := by decide
  exact List.inj_on_of_nodup_map hnodup (hmem a) (hmem b) h

end NodeKind

namespace Json

variable {kinds : List NodeKind} {k : Json}

theorem kindAmong_eq_ok {kind : NodeKind} (h : k.kindAmong kinds = .ok kind) :
    kind ∈ kinds ∧ k.string? = some kind.name := by
  rw [kindAmong] at h
  split at h
  · cases h
  · rename_i word hword
    split at h
    · cases h
    · rename_i hfind
      cases h
      have hname := List.find?_some hfind
      exact ⟨List.mem_of_find?_eq_some hfind, by rw [hword, eq_of_beq hname]⟩

theorem kindAmong_eq_error {f : DecodeFailure} (h : k.kindAmong kinds = .error f) :
    (∀ fault, f.cause ≠ .notJson fault) ∧ ∀ kind ∈ kinds, k.string? ≠ some kind.name := by
  rw [kindAmong] at h
  split at h
  · rename_i hword
    cases h
    exact ⟨by simp [Failure.here], by simp [hword]⟩
  · rename_i word hword
    split at h
    · rename_i hfind
      cases h
      refine ⟨by simp [Failure.here], fun kind hkind hname => ?_⟩
      rw [hword, Option.some.injEq] at hname
      exact List.find?_eq_none.mp hfind kind hkind (beq_iff_eq.mpr hname.symm)
    · cases h

end Json

namespace Piece

variable {piece : Piece} {pieces : List Piece} {j : Json}

theorem readAs_name_iff {s : String} : (Piece.name s).ReadAs j ↔ j.string? = some s := by
  constructor
  · intro h
    cases h with
    | noName => rfl
    | name => rfl
    | noItems list => cases list
    | items list => cases list
    | node node => cases node
  · intro h
    cases j with
    | null =>
        cases h
        exact .noName
    | string parts =>
        cases h
        exact .name
    | _ => cases h

theorem readAs_word_iff {n : Int64} (hj : j.Legal) :
    (Piece.word n).ReadAs j ↔ j.int64? = some n := by
  constructor
  · intro h
    cases h with
    | noWord => rfl
    | word digits => exact digits.int64?
    | noItems list => cases list
    | items list => cases list
    | node node => cases node
  · intro h
    cases j with
    | null =>
        cases h
        exact .noWord
    | number lexeme =>
        refine .word (Json.isWord_of_integer? ?_ h)
        rwa [Json.Legal] at hj
    | _ => cases h

theorem node?_eq_none (h : piece.items? = some pieces) : piece.node? = none := by
  cases piece with
  | params _ => rfl
  | branches _ => rfl
  | program _ => rfl
  | _ => cases h

theorem readAs_list_iff (hlist : piece.items? = some pieces) :
    piece.ReadAs j ↔ j = .null ∧ pieces = [] ∨
      ∃ values, j.elements? = some values ∧ AllReadAs pieces values := by
  constructor
  · intro h
    cases h with
    | noName => cases hlist
    | name => cases hlist
    | noWord => cases hlist
    | word => cases hlist
    | noItems list =>
        rw [hlist, Option.some.injEq] at list
        exact .inl ⟨rfl, list⟩
    | items list array each =>
        rw [hlist, Option.some.injEq] at list
        exact .inr ⟨_, array, list ▸ each⟩
    | node node => simp [node?_eq_none hlist] at node
  · rintro (⟨rfl, rfl⟩ | ⟨values, hvalues, heach⟩)
    · exact .noItems hlist
    · exact .items hlist hvalues heach

theorem AllReadAs.length_eq {js : List Json} (h : AllReadAs pieces js) :
    pieces.length = js.length := by
  induction pieces generalizing js with
  | nil =>
      cases h
      rfl
  | cons piece pieces ih =>
      cases h with
      | cons _ rest => rw [List.length_cons, List.length_cons, ih rest]

@[simp] theorem allReadAs_nil_iff : AllReadAs pieces [] ↔ pieces = [] := by
  constructor
  · intro h
    simpa using h.length_eq
  · rintro rfl
    exact .nil

@[simp] theorem not_allReadAs_nil_cons {js : List Json} : ¬ AllReadAs [] (j :: js) := by
  intro h
  simpa using h.length_eq

@[simp] theorem allReadAs_cons_iff {js : List Json} :
    AllReadAs (piece :: pieces) (j :: js) ↔ piece.ReadAs j ∧ AllReadAs pieces js := by
  constructor
  · intro h
    cases h with
    | cons first rest => exact ⟨first, rest⟩
  · rintro ⟨first, rest⟩
    exact .cons first rest

theorem length_of_node? {kind : NodeKind} (h : piece.node? = some (kind, pieces)) :
    pieces.length = kind.arity := by
  rw [node?.eq_def] at h
  split at h
  all_goals cases h
  all_goals rfl

end Piece

namespace Place.Holds

variable {place : Place} {piece : Piece} {kinds : List NodeKind} {j : Json}

theorem cases_of_node (h : place.Holds piece) (hshape : place.shape = .node kinds) :
    (∃ e, piece = .expr e ∧ kinds = ExprKind.all.map .expr) ∨
      (∃ b, piece = .branch b ∧ kinds = [.branch]) ∨
      ∃ d, piece = .definition d ∧ kinds = [.definition] := by
  cases place with
  | expr =>
      cases piece with
      | expr e => exact .inl ⟨e, rfl, (Shape.node.inj hshape).symm⟩
      | _ => exact h.elim
  | branch =>
      cases piece with
      | branch b => exact .inr (.inl ⟨b, rfl, (Shape.node.inj hshape).symm⟩)
      | _ => exact h.elim
  | definition =>
      cases piece with
      | definition d => exact .inr (.inr ⟨d, rfl, (Shape.node.inj hshape).symm⟩)
      | _ => exact h.elim
  | _ => cases hshape

theorem mem_of_node? {kind : NodeKind} {pieces : List Piece} (h : place.Holds piece)
    (hshape : place.shape = .node kinds) (hnode : piece.node? = some (kind, pieces)) :
    kind ∈ kinds := by
  obtain ⟨e, rfl, rfl⟩ | ⟨⟨c, xs, body⟩, rfl, rfl⟩ | ⟨d, rfl, rfl⟩ := h.cases_of_node hshape
  · cases e <;> cases hnode <;> decide
  · cases hnode
    decide
  · cases hnode
    decide

/-- Nodes are read from arrays of their kind and their fields, and from nothing else. -/
theorem readAs_node_iff (h : place.Holds piece) (hshape : place.shape = .node kinds) :
    piece.ReadAs j ↔ ∃ kind ∈ kinds, ∃ pieces k fields, piece.node? = some (kind, pieces) ∧
      j.elements? = some (k :: fields) ∧ k.string? = some kind.name ∧
      Piece.AllReadAs pieces fields := by
  have hcases := h.cases_of_node hshape
  constructor
  · intro hread
    cases hread with
    | noName => simp at hcases
    | name => simp at hcases
    | noWord => simp at hcases
    | word _ => simp at hcases
    | noItems list => obtain ⟨_, rfl, -⟩ | ⟨_, rfl, -⟩ | ⟨_, rfl, -⟩ := hcases <;> cases list
    | items list => obtain ⟨_, rfl, -⟩ | ⟨_, rfl, -⟩ | ⟨_, rfl, -⟩ := hcases <;> cases list
    | node node array word each =>
        exact ⟨_, h.mem_of_node? hshape node, _, _, _, node, array,
          Piece.readAs_name_iff.mp word, each⟩
  · rintro ⟨kind, -, pieces, k, fields, hnode, harray, hword, heach⟩
    exact .node hnode harray (Piece.readAs_name_iff.mpr hword) heach

/-- Once the kind of a node is known, only the fields matter. -/
theorem readAs_iff_of_kind (h : place.Holds piece) (hshape : place.shape = .node kinds) {k : Json}
    {fields : List Json} (hj : j.elements? = some (k :: fields)) {kind : NodeKind}
    (hk : k.kindAmong kinds = .ok kind) :
    piece.ReadAs j ↔ ∃ pieces, piece.node? = some (kind, pieces) ∧
      Piece.AllReadAs pieces fields := by
  obtain ⟨hkind, hword⟩ := Json.kindAmong_eq_ok hk
  rw [h.readAs_node_iff hshape]
  constructor
  · rintro ⟨kind', -, pieces, k', fields', hnode, hj', hword', heach⟩
    cases hj.symm.trans hj'
    obtain rfl : kind = kind' := NodeKind.name_injective (Option.some.inj (hword.symm.trans hword'))
    exact ⟨pieces, hnode, heach⟩
  · rintro ⟨pieces, hnode, heach⟩
    exact ⟨kind, hkind, pieces, k, fields, hnode, hj, hword, heach⟩

end Place.Holds

theorem Place.mismatch_ne_notJson (place : Place) (j : Json) (fault : JsonFault) :
    (place.mismatch j).cause ≠ .notJson fault := by
  cases place <;> simp [mismatch, Failure.here]

@[simp] theorem Field.locate_nil (place : Place) : Field.locate ⟨place, []⟩ = id := rfl

/-- The faults of values in their places. -/
def faultsIn : List Field → List Json → List DecodeFailure
  | field :: fields, j :: js => (j.faults field.place).map field.locate ++ faultsIn fields js
  | _, _ => []

/-- The name that the fields of a node start with. -/
def nameIn : List Json → String
  | [] => ""
  | x :: _ => x.string?.getD ""

namespace JsonItems

theorem faults_eq (fields : List Field) (items : JsonItems) :
    items.faults fields = faultsIn fields items.toList := by
  match fields, items with
  | [], _ => rw [faults, faultsIn]; simp
  | field :: _, .last _ j _ =>
      rw [faults, toList, faultsIn, faultsIn, List.append_nil]
      simp
  | field :: fields, .more _ j _ rest => rw [faults, toList, faultsIn, faults_eq fields rest]

theorem name_eq (items : JsonItems) : items.name = nameIn items.toList := by
  cases items <;> rfl

end JsonItems

namespace Json

variable {place : Place} {j : Json}

theorem faults_of_text (h : place.shape = .text) (j : Json) :
    j.faults place = if j.string?.isSome then [] else [place.mismatch j] := by
  cases j <;> simp [faults, Place.faultsWithoutItems, h, string?]

theorem faults_of_number (h : place.shape = .number) (j : Json) :
    j.faults place = if j.int64?.isSome then [] else [place.mismatch j] := by
  cases j <;> simp [faults, Place.faultsWithoutItems, h, int64?]

theorem decides_readName (owner : NodeKind) (j : Json) :
    Decides (fun s => (Piece.name s).ReadAs j) (j.readName owner) (j.faults (.name owner)) := by
  rw [faults_of_text rfl]
  apply Decides.of_option (Place.mismatch_ne_notJson _ j) fun _ => Piece.readAs_name_iff
  rw [readName]
  cases j.string? <;> rfl

theorem decides_readParam (j : Json) :
    Decides (fun s => (Piece.name s).ReadAs j) j.readParam (j.faults .param) := by
  rw [faults_of_text rfl]
  apply Decides.of_option (Place.mismatch_ne_notJson _ j) fun _ => Piece.readAs_name_iff
  rw [readParam]
  cases j.string? <;> rfl

theorem decides_readInt64 (owner : NodeKind) (hj : j.Legal) :
    Decides (fun n => (Piece.word n).ReadAs j) (j.readInt64 owner) (j.faults (.word owner)) := by
  rw [faults_of_number rfl]
  apply Decides.of_option (Place.mismatch_ne_notJson _ j) fun _ => Piece.readAs_word_iff hj
  rw [readInt64]
  cases j.int64? <;> rfl

/-- Read the items of a list, which are numbered from `index` on. -/
def readItemsWith {α : Type} (read : Nat → Json → Except DecodeFailure α) (index : Nat) :
    List Json → Except DecodeFailure (List α)
  | [] => .ok []
  | j :: js => do
    let a ← read index j
    let others ← readItemsWith read (index + 1) js
    return a :: others

/-- Read a list. -/
def readList {α : Type} (place : Place) (read : Nat → Json → Except DecodeFailure α) :
    Json → Except DecodeFailure (List α)
  | .null => .ok []
  | .emptyArray _ => .ok []
  | .array items => readItemsWith read 0 items.toList
  | j => .error (place.mismatch j)

theorem decides_readItemsWith {α : Type} {mk : α → Piece} {item : Nat → Field}
    {read : Nat → Json → Except DecodeFailure α} {js : List Json}
    (h : ∀ index, ∀ j ∈ js, Decides (fun a => (mk a).ReadAs j) (read index j)
      ((j.faults (item index).place).map (item index).locate)) (index : Nat) :
    Decides (fun as => Piece.AllReadAs (as.map mk) js) (readItemsWith read index js)
      (faultsIn ((List.range' index js.length).map item) js) := by
  induction js generalizing index with
  | nil => exact .ok fun as => by rw [Piece.allReadAs_nil_iff, List.map_eq_nil_iff]
  | cons j js ih =>
      have hj := h index j (by simp)
      have hjs := ih (fun i v hv => h i v (by simp [hv])) (index + 1)
      refine (hj.bind fun a _ => hjs.map).congr fun as => ?_
      cases as <;> simp

theorem faults_array_of_list {item : Nat → Field} (hshape : place.shape = .list item)
    (items : JsonItems) :
    (array items).faults place =
      faultsIn ((List.range' 0 items.toList.length).map item) items.toList := by
  rw [faults, hshape, JsonItems.length_toList, ← List.range_eq_range', ← JsonItems.faults_eq]

theorem decides_readList {α : Type} {mk : α → Piece} {wrap : List α → Piece} {item : Nat → Field}
    {read : Nat → Json → Except DecodeFailure α} (hshape : place.shape = .list item)
    (hwrap : ∀ as, (wrap as).items? = some (as.map mk))
    (h : ∀ values, j.elements? = some values → ∀ index, ∀ v ∈ values,
      Decides (fun a => (mk a).ReadAs v) (read index v)
        ((v.faults (item index).place).map (item index).locate)) :
    Decides (fun as => (wrap as).ReadAs j) (readList place read j) (j.faults place) := by
  simp only [fun as => Piece.readAs_list_iff (hwrap as) (j := j)]
  cases j with
  | array items =>
      rw [faults_array_of_list hshape]
      exact (decides_readItemsWith (h _ rfl) 0).congr fun as => by simp [elements?]
  | null =>
      simp only [faults, Place.faultsWithoutItems, hshape]
      exact .ok fun as => by simp [elements?]
  | emptyArray blank =>
      simp only [faults, Place.faultsWithoutItems, hshape]
      exact .ok fun as => by simp [elements?]
  | _ =>
      simp only [faults, Place.faultsWithoutItems, hshape]
      exact .error (place.mismatch_ne_notJson _) fun as => by simp [elements?]

/-- Read a node of one of the given kinds. -/
def readNode {α : Type} (kinds : List NodeKind)
    (body : NodeKind → List Json → Except DecodeFailure α) (j : Json) : Except DecodeFailure α :=
  match j.elements? with
  | some (k :: fields) => do
    let kind ← k.kindAmong kinds
    if fields.length = kind.arity then body kind fields else wrongArity kind fields.length
  | _ => j.noNode

variable {kinds : List NodeKind} {k : Json} {fields : List Json}

theorem faults_of_kindAmong_error (hshape : place.shape = .node kinds)
    (hj : j.elements? = some (k :: fields)) {f : DecodeFailure}
    (hk : k.kindAmong kinds = .error f) : j.faults place = [f] := by
  obtain ⟨_, _, hitems⟩ | ⟨items, rfl, hitems⟩ := eq_of_elements? hj
  · cases hitems
  · rw [faults, hshape]
    cases items with
    | _ =>
        cases hitems
        simp only [JsonItems.nodeFaults, hk]

theorem faults_of_kindAmong_ok (hshape : place.shape = .node kinds)
    (hj : j.elements? = some (k :: fields)) {kind : NodeKind} (hk : k.kindAmong kinds = .ok kind) :
    j.faults place =
      if fields.length = kind.arity then faultsIn (kind.fields (nameIn fields)) fields
      else [.here (.malformed kind (.fieldCount kind.arity fields.length))] := by
  obtain ⟨_, _, hitems⟩ | ⟨items, rfl, hitems⟩ := eq_of_elements? hj
  · cases hitems
  · rw [faults, hshape]
    cases items with
    | last before value after =>
        cases hitems
        simp only [JsonItems.nodeFaults, hk]
        exact (if_neg kind.arity_pos.ne).symm
    | more before value after rest =>
        cases hitems
        simp only [JsonItems.nodeFaults, hk, JsonItems.faults_eq, JsonItems.name_eq,
          JsonItems.length_toList]

/-- A value that is no node has one fault. -/
theorem decides_noNode {α : Type} {R : α → Prop} (hshape : place.shape = .node kinds)
    (hj : ∀ k fields, j.elements? ≠ some (k :: fields)) (hR : ∀ a, ¬ R a) :
    Decides R j.noNode (j.faults place) := by
  have hmismatch : ∀ v : Json, place.mismatch v = .here (.malformed none (.notArray v.kind)) := by
    intro v
    cases place with
    | expr => rfl
    | branch => rfl
    | definition => rfl
    | _ => cases hshape
  cases j with
  | array items => cases items <;> exact absurd rfl (hj _ _)
  | null =>
      simp only [faults, Place.faultsWithoutItems, hshape]
      exact .error (by simp [Failure.here]) hR
  | emptyArray _ =>
      simp only [faults, Place.faultsWithoutItems, hshape]
      exact .error (by simp [Failure.here]) hR
  | _ =>
      simp only [faults, Place.faultsWithoutItems, hshape, hmismatch]
      exact .error (by simp [Failure.here]) hR

theorem decides_readNode {α : Type} {wrap : α → Piece}
    {body : NodeKind → List Json → Except DecodeFailure α} (hshape : place.shape = .node kinds)
    (hwrap : ∀ a, place.Holds (wrap a))
    (h : ∀ k fields, j.elements? = some (k :: fields) → ∀ kind ∈ kinds,
      fields.length = kind.arity →
      Decides (fun a => ∃ pieces, (wrap a).node? = some (kind, pieces) ∧
        Piece.AllReadAs pieces fields) (body kind fields)
        (faultsIn (kind.fields (nameIn fields)) fields)) :
    Decides (fun a => (wrap a).ReadAs j) (readNode kinds body j) (j.faults place) := by
  by_cases hj : ∃ k fields, j.elements? = some (k :: fields)
  · obtain ⟨k, fields, hj⟩ := hj
    simp only [readNode, hj]
    cases hk : k.kindAmong kinds with
    | error f =>
        obtain ⟨hcause, hnone⟩ := kindAmong_eq_error hk
        rw [faults_of_kindAmong_error hshape hj hk]
        refine .error hcause fun a ha => ?_
        obtain ⟨kind, hkind, _, _, _, -, hj', hword, -⟩ := ((hwrap a).readAs_node_iff hshape).mp ha
        cases hj.symm.trans hj'
        exact hnone kind hkind hword
    | ok kind =>
        have hreads := fun a => (hwrap a).readAs_iff_of_kind hshape hj hk
        rw [faults_of_kindAmong_ok hshape hj hk]
        simp only [bind, Except.bind]
        split
        · rename_i harity
          exact (h k fields hj kind (kindAmong_eq_ok hk).1 harity).congr hreads
        · rename_i harity
          refine .error (by simp [Failure.here]) fun a ha => ?_
          obtain ⟨pieces, hnode, heach⟩ := (hreads a).mp ha
          exact harity (heach.length_eq.symm.trans (Piece.length_of_node? hnode))
  · have hnone : ∀ k fields, j.elements? ≠ some (k :: fields) := fun k fields h => hj ⟨k, fields, h⟩
    have hread : readNode kinds body j = j.noNode := by
      rw [readNode]
      split
      · exact absurd ‹_› (hnone _ _)
      · rfl
    rw [hread]
    apply decides_noNode hshape hnone
    intro a ha
    obtain ⟨_, -, _, k, fields, -, hfields, -⟩ := ((hwrap a).readAs_node_iff hshape).mp ha
    exact hnone k fields hfields

end Json
end Lowering

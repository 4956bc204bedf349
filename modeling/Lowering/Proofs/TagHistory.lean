import Lowering.Proofs.Registry

/-!
# The history of a table of tags

Whatever a table is asked, in any order and with any sizes, its tags, its names and its last id
stay in step, and a name keeps the position, the id and the tag that it got first. One request
keeps the three in step (`InStep.step`), so every history does (`InStep.after`), and names are
only ever added at the end (`names_prefix_after`).
-/

namespace Lowering.TagTable

/-- What a table can be asked. -/
inductive Request where
  | tag (name : String) (size : Int)
  | lookup (name : String)
  | names
  deriving DecidableEq, Repr

/-- What a table answers. -/
inductive Answer where
  | tag (tag : Tag) (added : Bool)
  | lookup (found : Option Tag)
  | names (names : List String)
  deriving DecidableEq, Repr

/-- Answer one request. -/
def step (t : TagTable) : Request → Answer × TagTable
  | .tag name size => (.tag (t.tag name size).1.1 (t.tag name size).1.2, (t.tag name size).2)
  | .lookup name => (.lookup (t.lookup? name), t)
  | .names => (.names t.names, t)

/-- The table that a request leaves. -/
def advance (t : TagTable) (q : Request) : TagTable := (t.step q).2

/-- The table after requests in a row. -/
def after (t : TagTable) (qs : List Request) : TagTable := qs.foldl advance t

/-- The answer to a request gives `name` the tag `tag`. -/
inductive Gives (t : TagTable) : Request → String → Tag → Prop where
  | tag {name : String} {size : Int} {tag : Tag} {added : Bool}
      (answer : (t.step (.tag name size)).1 = .tag tag added) : Gives t (.tag name size) name tag
  | lookup {name : String} {tag : Tag} (answer : (t.step (.lookup name)).1 = .lookup (some tag)) :
      Gives t (.lookup name) name tag

variable {t : TagTable} {name : String} {tag : Tag} {size : Int} {q : Request}
  {qs past later : List Request}

theorem after_append : t.after (past ++ later) = (t.after past).after later :=
  List.foldl_append

theorem InStep.step (h : t.InStep) (q : Request) : (t.advance q).InStep := by
  cases q with
  | tag name size => exact h.tag name size
  | lookup name => exact h
  | names => exact h

theorem InStep.after (h : t.InStep) (qs : List Request) : (t.after qs).InStep := by
  induction qs generalizing t with
  | nil => exact h
  | cons q qs ih => exact ih (h.step q)

/-- The tables that can come about. -/
theorem inStep_after (qs : List Request) : (start.after qs).InStep := inStep_start.after qs

theorem names_prefix_advance (t : TagTable) (q : Request) : t.names <+: (t.advance q).names := by
  cases q with
  | tag name size =>
      show t.names <+: (t.tag name size).2.names
      cases hname : t.lookup? name with
      | some tag => rw [tag_of_lookup? hname]
      | none =>
          rw [tag_of_lookup?_eq_none hname]
          exact List.prefix_append t.names [name]
  | lookup name => exact List.prefix_refl t.names
  | names => exact List.prefix_refl t.names

theorem names_prefix_after (t : TagTable) (qs : List Request) :
    t.names <+: (t.after qs).names := by
  induction qs generalizing t with
  | nil => exact List.prefix_refl t.names
  | cons q qs ih => exact (names_prefix_advance t q).trans (ih (t.advance q))

/-- A name of some earlier table is still there. -/
theorem names_after_subset (h : past <+: qs) : (t.after past).names ⊆ (t.after qs).names := by
  obtain ⟨later, rfl⟩ := h
  rw [after_append]
  exact (names_prefix_after (t.after past) later).subset

/-- A tag that is in the table stays there. -/
theorem lookup?_advance (h : t.lookup? name = some tag) (q : Request) :
    (t.advance q).lookup? name = some tag := by
  cases q with
  | tag other size =>
      show (t.tag other size).2.lookup? name = some tag
      cases hother : t.lookup? other with
      | some found => rwa [tag_of_lookup? hother]
      | none =>
          have hne : name ≠ other := by
            rintro rfl
            rw [hother] at h
            cases h
          rw [tag_of_lookup?_eq_none hother]
          exact (NameMap.lookup?_insert_of_ne hne _ t.tags).trans h
  | lookup _ => exact h
  | names => exact h

theorem lookup?_after (h : t.lookup? name = some tag) (qs : List Request) :
    (t.after qs).lookup? name = some tag := by
  induction qs generalizing t with
  | nil => exact h
  | cons q qs ih => exact ih (lookup?_advance h q)

/-- A tag that was given to a name is in the table from then on. -/
theorem Gives.lookup?_advance (h : t.Gives q name tag) :
    (t.advance q).lookup? name = some tag := by
  cases h with
  | @tag _ size _ added answer =>
      obtain ⟨htag, -⟩ := Answer.tag.inj answer
      show (t.tag name size).2.lookup? name = some tag
      rw [← htag]
      cases hname : t.lookup? name with
      | some found => rwa [tag_of_lookup? hname]
      | none =>
          rw [tag_of_lookup?_eq_none hname]
          exact t.tags.lookup?_insert_self _ _
  | lookup answer => exact Answer.lookup.inj answer

/-- The name at a position is the one whose id counts the position. -/
theorem InStep.getElem?_names (h : t.InStep) (i : Nat) (name : String) :
    t.names[i]? = some name ↔ ∃ tag, t.lookup? name = some tag ∧ tag.id = i + 1 := by
  refine ⟨h.id_eq i name, ?_⟩
  rintro ⟨tag, htag, hid⟩
  obtain ⟨j, hj⟩ := List.mem_iff_getElem?.mp (h.mem_names name tag htag)
  obtain ⟨tag', htag', hid'⟩ := h.id_eq j name hj
  obtain rfl : tag = tag' := Option.some.inj (htag.symm.trans htag')
  have hij : j = i := by omega
  exact hij ▸ hj

theorem InStep.isSome_lookup?_iff (h : t.InStep) : (t.lookup? name).isSome ↔ name ∈ t.names := by
  rw [Option.isSome_iff_ne_none, ne_eq, h.lookup?_eq_none_iff, not_not]

/-- A name is new at the end of a history when no table of the history has it. -/
theorem new_iff (t : TagTable) (qs : List Request) (name : String) :
    name ∉ (t.after qs).names ↔ ∀ past, past <+: qs → name ∉ (t.after past).names := by
  constructor
  · intro hnew past hpast hmem
    exact hnew (names_after_subset hpast hmem)
  · intro h
    exact h qs (List.prefix_refl qs)

theorem InStep.tag_added_iff (h : t.InStep) : (t.tag name size).1.2 = true ↔ name ∉ t.names := by
  rw [← h.lookup?_eq_none_iff]
  cases hname : t.lookup? name with
  | some tag => simp [tag_of_lookup? hname]
  | none => simp [tag_of_lookup?_eq_none hname]

/-- What a table has and what it answers, after the requests `qs`. -/
structure Permanent (qs : List Request) : Prop where
  nodup : (start.after qs).names.Nodup
  starts : builtins.map Prod.fst <+: (start.after qs).names
  /-- Ids count the positions of the names. -/
  id_iff : ∀ (i : Nat) name, (start.after qs).names[i]? = some name ↔
    ∃ tag, (start.after qs).lookup? name = some tag ∧ tag.id = i + 1
  found_iff : ∀ name, ((start.after qs).lookup? name).isSome ↔ name ∈ (start.after qs).names
  last_eq : (start.after qs).last = (start.after qs).names.length
  /-- A tag is added when no table so far had the name. -/
  added_iff : ∀ name size, ((start.after qs).tag name size).1.2 = true ↔
    ∀ past, past <+: qs → name ∉ (start.after past).names
  /-- It gets the next id and the size that was asked for, and its name comes last. -/
  added : ∀ name size, ((start.after qs).tag name size).1.2 = true →
    ((start.after qs).tag name size).1.1 = ⟨(start.after qs).names.length + 1, size⟩ ∧
      ((start.after qs).tag name size).2.names = (start.after qs).names ++ [name] ∧
      ∀ other, ((start.after qs).tag name size).2.lookup? other =
        if other = name then some ((start.after qs).tag name size).1.1
        else (start.after qs).lookup? other
  not_added : ∀ name size, ((start.after qs).tag name size).1.2 = false →
    ((start.after qs).tag name size).2 = start.after qs
  /-- A tag that was given to a name is given to it whatever is asked in between. -/
  kept : ∀ q name tag, (start.after qs).Gives q name tag → ∀ later size,
    (((start.after qs).advance q).after later).lookup? name = some tag ∧
      (((start.after qs).advance q).after later).tag name size =
        ((tag, false), ((start.after qs).advance q).after later)
  lookup_changes_nothing : ∀ name, (start.after qs).step (.lookup name) =
    (.lookup ((start.after qs).lookup? name), start.after qs)
  names_changes_nothing :
    (start.after qs).step .names = (.names (start.after qs).names, start.after qs)

/-- A tag once given never changes, and ids count the names, whatever a table is asked. -/
theorem tag_permanent (qs : List Request) : Permanent qs := by
  have h := inStep_after qs
  refine
    { nodup := h.nodup
      starts := names_prefix_after start qs
      id_iff := h.getElem?_names
      found_iff := fun _ => h.isSome_lookup?_iff
      last_eq := h.last_eq
      added_iff := fun name size => h.tag_added_iff.trans (new_iff start qs name)
      added := fun name size hadded => ?_
      not_added := fun name size hold => ?_
      kept := fun q name tag hgives later size => ?_
      lookup_changes_nothing := fun _ => rfl
      names_changes_nothing := rfl }
  · have hname := h.lookup?_eq_none_iff.mpr (h.tag_added_iff.mp hadded)
    rw [tag_of_lookup?_eq_none hname]
    refine ⟨by rw [h.last_eq], rfl, fun other => ?_⟩
    split_ifs with hother
    · rw [hother]
      exact NameMap.lookup?_insert_self _ _ _
    · exact NameMap.lookup?_insert_of_ne hother _ _
  · cases hname : (start.after qs).lookup? name with
    | some tag => rw [tag_of_lookup? hname]
    | none =>
        rw [tag_of_lookup?_eq_none hname] at hold
        cases hold
  · have htag := lookup?_after hgives.lookup?_advance later
    exact ⟨htag, tag_of_lookup? htag size⟩

/-- `Pair` keeps the tag that it got first, and a built-in shape the one that it started with,
although other sizes are asked for later. -/
theorem tag_permanent_pair :
    ∃ t, t = start.after [.tag "Pair" 3, .tag "Leaf" 0, .tag "Pair" 5] ∧ t.last = 9 ∧
      t.Gives (.tag "Pair" 7) "Pair" ⟨8, 3⟩ ∧ t.Gives (.tag "Cons" 9) "Cons" ⟨7, 3⟩ ∧
      (∀ later, ((t.advance (.tag "Pair" 7)).after later).lookup? "Pair" = some ⟨8, 3⟩) ∧
      ∀ later size, (((t.advance (.tag "Cons" 9)).after later).tag "Cons" size).1 =
        (⟨7, 3⟩, false) := by
  have h := tag_permanent [.tag "Pair" 3, .tag "Leaf" 0, .tag "Pair" 5]
  have hpair : (start.after [.tag "Pair" 3, .tag "Leaf" 0, .tag "Pair" 5]).Gives (.tag "Pair" 7)
      "Pair" ⟨8, 3⟩ := .tag (rfl : _ = Answer.tag ⟨8, 3⟩ false)
  have hcons : (start.after [.tag "Pair" 3, .tag "Leaf" 0, .tag "Pair" 5]).Gives (.tag "Cons" 9)
      "Cons" ⟨7, 3⟩ := .tag (rfl : _ = Answer.tag ⟨7, 3⟩ false)
  refine ⟨_, rfl, h.last_eq.trans (by decide), hpair, hcons, fun later => ?_, fun later size => ?_⟩
  · exact (h.kept _ _ _ hpair later 0).1
  · rw [(h.kept _ _ _ hcons later size).2]

end Lowering.TagTable

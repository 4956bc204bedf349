import Lowering.NameMap
import Lowering.Wire

/-!
# Constructor tags

The first word of a heap object is the id of its shape. A `TagTable` hands out
ids: seven shapes are built in, and every other constructor gets the next free id
the first time it is met. The size recorded with a name is that of the first
request; later requests do not revise it.

A table has the tags by name, the list of names and the last id. They say the same
thing three times, and that they agree is part of a `Registry` (`TagTable.InStep`).
-/

namespace Lowering

/-- The id of a shape and the number of words of its objects, the id's own word
included. -/
structure Tag where
  id : Int
  size : Int
  deriving DecidableEq, Repr

namespace Tag

/-- What is written of a tag. Its numbers are written as 64-bit words. -/
def fields (t : Tag) : List (String × Wire.Item) :=
  [("id", .int (Int64.ofInt t.id)), ("size", .int (Int64.ofInt t.size))]

/-- Write a tag at the end of `buffer`. -/
def append (buffer : Wire.Bytes) (t : Tag) : Wire.Bytes := Wire.appendMap buffer t.fields

/-- The wire form of a tag. -/
def wire (t : Tag) : Wire.Bytes := t.append []

end Tag

/-- The shapes that have a tag: their tags by name, their names in order of registration,
and the id that was handed out last. -/
structure TagTable where
  tags : NameMap Tag
  names : List String
  last : Int
  deriving DecidableEq, Repr

namespace TagTable

/-- The shapes that every program starts with. -/
def builtins : List (String × Tag) :=
  [("Num", ⟨1, 2⟩), ("Char", ⟨2, 2⟩), ("Closure", ⟨3, 1⟩), ("True", ⟨4, 1⟩), ("False", ⟨5, 1⟩),
    ("Nil", ⟨6, 1⟩), ("Cons", ⟨7, 3⟩)]

/-- The id that the first other shape gets. -/
def firstFreeId : Int := 8

/-- The table with just the built-in shapes. -/
def start : TagTable where
  tags := builtins.foldl (fun tags b => tags.insert b.1 b.2) ∅
  names := builtins.foldl (fun names b => names ++ [b.1]) []
  last := firstFreeId - 1

def lookup? (t : TagTable) (name : String) : Option Tag := t.tags.lookup? name

/-- The tag of `name`, which is registered with `size` words if it is new, and
whether it was new. -/
def tag (t : TagTable) (name : String) (size : Int) : (Tag × Bool) × TagTable :=
  match t.lookup? name with
  | some tag => ((tag, false), t)
  | none =>
    let tag : Tag := ⟨t.last + 1, size⟩
    ((tag, true), ⟨t.tags.insert name tag, t.names ++ [name], t.last + 1⟩)

/-- The names with their tags, in order of registration. -/
def entries (t : TagTable) : List (String × Tag) :=
  t.names.filterMap fun name => (t.lookup? name).map (name, ·)

/-- No name is listed twice, the name at a position has the id that counts the position,
no other name has a tag, and the last id is the number of names. -/
structure InStep (t : TagTable) : Prop where
  nodup : t.names.Nodup
  id_eq : ∀ (i : Nat) name, t.names[i]? = some name →
    ∃ tag, t.lookup? name = some tag ∧ tag.id = i + 1
  mem_names : ∀ name tag, t.lookup? name = some tag → name ∈ t.names
  last_eq : t.last = t.names.length

theorem inStep_start : start.InStep where
  nodup := by decide
  id_eq := by
    intro i name h
    have hall : ∀ i : Nat, i < 7 →
        (start.names[i]?.bind start.lookup?).map Tag.id = some (i + 1 : Int) := by
      decide
    have hi : i < 7 := (List.getElem?_eq_some_iff.mp h).1
    have hid := hall i hi
    rw [h] at hid
    exact Option.map_eq_some_iff.mp hid
  mem_names := by
    intro name tag h
    refine Decidable.byContradiction fun hname => ?_
    rw [lookup?, NameMap.lookup?, Entries.lookup_eq_none_iff.mpr hname] at h
    cases h
  last_eq := rfl

variable {t : TagTable} {name : String} {found : Tag}

theorem tag_of_lookup? (h : t.lookup? name = some found) (size : Int) :
    t.tag name size = ((found, false), t) := by
  simp only [tag, h]

theorem tag_of_lookup?_eq_none (h : t.lookup? name = none) (size : Int) :
    t.tag name size = ((⟨t.last + 1, size⟩, true),
      ⟨t.tags.insert name ⟨t.last + 1, size⟩, t.names ++ [name], t.last + 1⟩) := by
  simp only [tag, h]

namespace InStep

/-- A name has a tag just when it is listed. -/
theorem lookup?_eq_none_iff (h : t.InStep) : t.lookup? name = none ↔ name ∉ t.names := by
  constructor
  · intro hname hmem
    obtain ⟨i, hi⟩ := List.mem_iff_getElem?.mp hmem
    obtain ⟨tag, htag, -⟩ := h.id_eq i name hi
    rw [hname] at htag
    cases htag
  · intro hname
    cases htag : t.lookup? name with
    | none => rfl
    | some tag => exact absurd (h.mem_names name tag htag) hname

/-- A name that is added keeps the table in step: it comes last in the list, with the id that
is next. -/
theorem add (h : t.InStep) (hname : t.lookup? name = none) (size : Int) :
    InStep ⟨t.tags.insert name ⟨t.last + 1, size⟩, t.names ++ [name], t.last + 1⟩ where
  nodup := by
    rw [List.nodup_append]
    refine ⟨h.nodup, by simp, ?_⟩
    rintro a ha _ hc rfl
    have ha' : a = name := List.mem_singleton.mp hc
    exact h.lookup?_eq_none_iff.mp hname (ha' ▸ ha)
  id_eq := by
    intro i other hi
    rcases Nat.lt_trichotomy i t.names.length with hlt | rfl | hlt
    · rw [List.getElem?_append_left hlt] at hi
      obtain ⟨tag, htag, hid⟩ := h.id_eq i other hi
      have hne : other ≠ name := by
        rintro rfl
        rw [hname] at htag
        cases htag
      exact ⟨tag, (NameMap.lookup?_insert_of_ne hne _ t.tags).trans htag, hid⟩
    · rw [List.getElem?_concat_length] at hi
      obtain rfl := Option.some.inj hi
      exact ⟨⟨t.last + 1, size⟩, t.tags.lookup?_insert_self _ _, by rw [h.last_eq]⟩
    · rw [List.getElem?_eq_none (by rw [List.length_append]; exact hlt)] at hi
      cases hi
  mem_names := by
    intro other tag htag
    by_cases hne : other = name
    · rw [hne]
      exact List.mem_append_right _ (List.mem_singleton_self name)
    · exact List.mem_append_left _
        (h.mem_names other tag ((NameMap.lookup?_insert_of_ne hne _ t.tags).symm.trans htag))
  last_eq := by
    rw [h.last_eq, List.length_append]
    rfl

/-- To ask for a tag keeps the table in step. -/
theorem tag (h : t.InStep) (name : String) (size : Int) : (t.tag name size).2.InStep := by
  cases hname : t.lookup? name with
  | some tag => rwa [tag_of_lookup? hname]
  | none =>
      rw [tag_of_lookup?_eq_none hname]
      exact h.add hname size

end InStep
end TagTable

/-- A table of tags whose parts agree. -/
structure Registry extends TagTable where
  inStep : toTagTable.InStep
  deriving DecidableEq, Repr

namespace Registry

def builtin : Registry := ⟨TagTable.start, TagTable.inStep_start⟩

instance : Inhabited Registry := ⟨builtin⟩

/-- The entries beyond the built-in ones. -/
def added (r : Registry) : List (String × Tag) := r.entries.drop builtin.entries.length

/-- The tag of `name`, which is registered with `size` words if it is new, and
whether it was new. -/
def tag (r : Registry) (name : String) (size : Int) : (Tag × Bool) × Registry :=
  ((r.toTagTable.tag name size).1, ⟨(r.toTagTable.tag name size).2, r.inStep.tag name size⟩)

theorem tag_of_lookup? {r : Registry} {name : String} {t : Tag} (h : r.lookup? name = some t)
    (size : Int) : r.tag name size = ((t, false), r) := by
  simp only [tag, TagTable.tag_of_lookup? h]

end Registry
end Lowering

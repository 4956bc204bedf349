/-!
# Sets that remember the order of insertion

The elements of an `OrderedSet` are listed in the order in which they were first
added; adding an element again changes nothing. Declared names are reported in
this order, and the slots of a closure are numbered by it.

A set is kept in two forms: the list of its keys, and an index of their positions.
Elements are looked up in the index, and new ones are added to both. That the two
agree is part of the set (`KeyTable.Indexed`).
-/

namespace Lowering

/-- Keys in the order in which they were added, and an index of their positions. -/
structure KeyTable (α : Type) where
  keys : List α
  index : List (α × Nat)
  deriving DecidableEq, Repr

namespace KeyTable

variable {α : Type}

def empty : KeyTable α := ⟨[], []⟩

/-- No key is listed twice, and the index has each key with its position and no
other key. -/
structure Indexed (t : KeyTable α) : Prop where
  nodup : t.keys.Nodup
  mem_index : ∀ a i, (a, i) ∈ t.index ↔ t.keys[i]? = some a

theorem indexed_empty : (empty : KeyTable α).Indexed where
  nodup := List.nodup_nil
  mem_index := by simp [empty]

variable [DecidableEq α]

/-- The position of a key, from the index. -/
def position? (t : KeyTable α) (a : α) : Option Nat := t.index.lookup a

def contains (t : KeyTable α) (a : α) : Bool := (t.position? a).isSome

/-- Add a key behind the others, with its position, unless the index has it. Tell
whether it was new. -/
def add (t : KeyTable α) (a : α) : Bool × KeyTable α :=
  if t.contains a then (false, t)
  else (true, ⟨t.keys ++ [a], (a, t.keys.length) :: t.index⟩)

variable {t : KeyTable α} {a : α}

theorem add_of_contains (h : t.contains a = true) : t.add a = (false, t) := by
  rw [add, if_pos h]

theorem add_of_not_contains (h : t.contains a = false) :
    t.add a = (true, ⟨t.keys ++ [a], (a, t.keys.length) :: t.index⟩) := by
  rw [add, if_neg (by simp [h])]

theorem add_fst (t : KeyTable α) (a : α) : (t.add a).1 = !t.contains a := by
  cases h : t.contains a with
  | true => rw [add_of_contains h]; rfl
  | false => rw [add_of_not_contains h]; rfl

namespace Indexed

/-- The index finds just the keys, and each of them where it stands. -/
theorem position?_eq_some_iff (h : t.Indexed) {i : Nat} :
    t.position? a = some i ↔ t.keys[i]? = some a := by
  rw [← h.mem_index]
  constructor
  · intro hi
    obtain ⟨before, after, hindex, -⟩ := List.lookup_eq_some_iff.mp hi
    rw [hindex]
    simp
  · intro hi
    cases hj : t.position? a with
    | none =>
        have hne := List.lookup_eq_none_iff.mp hj (a, i) hi
        simp at hne
    | some j =>
        obtain ⟨before, after, hindex, -⟩ := List.lookup_eq_some_iff.mp hj
        have hj' : t.keys[j]? = some a := (h.mem_index a j).mp (by rw [hindex]; simp)
        have hi' : t.keys[i]? = some a := (h.mem_index a i).mp hi
        obtain ⟨hlt, -⟩ := List.getElem?_eq_some_iff.mp hj'
        rw [(List.getElem?_inj hlt h.nodup).mp (hj'.trans hi'.symm)]

theorem contains_iff (h : t.Indexed) : t.contains a = true ↔ a ∈ t.keys := by
  simp only [contains, Option.isSome_iff_exists, h.position?_eq_some_iff, List.mem_iff_getElem?]

theorem not_contains_iff (h : t.Indexed) : t.contains a = false ↔ a ∉ t.keys := by
  rw [← h.contains_iff, Bool.not_eq_true]

/-- Adding a key keeps the list and the index in agreement. -/
theorem add (h : t.Indexed) (a : α) : (t.add a).2.Indexed := by
  cases hnew : t.contains a with
  | true => rwa [add_of_contains hnew]
  | false =>
      have hmem : a ∉ t.keys := h.not_contains_iff.mp hnew
      rw [add_of_not_contains hnew]
      constructor
      · rw [List.nodup_append]
        refine ⟨h.nodup, by simp, ?_⟩
        intro b hb c hc hbc
        rw [List.mem_singleton.mp hc] at hbc
        exact hmem (hbc ▸ hb)
      · intro b i
        rw [List.mem_cons, h.mem_index]
        rcases Nat.lt_trichotomy i t.keys.length with hi | rfl | hi
        · simp [List.getElem?_append_left hi, Nat.ne_of_lt hi]
        · simp [eq_comm]
        · have hnone : (t.keys ++ [a])[i]? = none :=
            List.getElem?_eq_none (by rw [List.length_append]; exact hi)
          simp [hnone, List.getElem?_eq_none (Nat.le_of_lt hi), Nat.ne_of_gt hi]

end Indexed
end KeyTable

/-- A finite set listed by first insertion. -/
structure OrderedSet (α : Type) extends KeyTable α where
  indexed : toKeyTable.Indexed
  deriving DecidableEq, Repr

namespace OrderedSet

variable {α : Type}

def empty : OrderedSet α := ⟨.empty, KeyTable.indexed_empty⟩

instance : EmptyCollection (OrderedSet α) := ⟨empty⟩

instance : Inhabited (OrderedSet α) := ⟨empty⟩

instance : Membership α (OrderedSet α) := ⟨fun s a => a ∈ s.keys⟩

theorem mem_def {a : α} {s : OrderedSet α} : a ∈ s ↔ a ∈ s.keys := Iff.rfl

theorem nodup_keys (s : OrderedSet α) : s.keys.Nodup := s.indexed.nodup

@[simp] theorem keys_empty : (∅ : OrderedSet α).keys = [] := rfl

@[simp] theorem not_mem_empty (a : α) : a ∉ (∅ : OrderedSet α) := by
  simp [mem_def]

variable [DecidableEq α]

instance (a : α) (s : OrderedSet α) : Decidable (a ∈ s) :=
  inferInstanceAs (Decidable (a ∈ s.keys))

def insert (s : OrderedSet α) (a : α) : OrderedSet α :=
  ⟨(s.toKeyTable.add a).2, s.indexed.add a⟩

/-- Insert `a`, and tell whether it was new. -/
def add (s : OrderedSet α) (a : α) : Bool × OrderedSet α :=
  ((s.toKeyTable.add a).1, s.insert a)

/-- The set of the elements of a list, inserted in order. -/
def ofList (xs : List α) : OrderedSet α := xs.foldl insert ∅

variable {s : OrderedSet α} {a b : α}

@[simp] theorem contains_eq_true : s.contains a = true ↔ a ∈ s := s.indexed.contains_iff

@[simp] theorem contains_eq_false : s.contains a = false ↔ a ∉ s := s.indexed.not_contains_iff

theorem toKeyTable_add (s : OrderedSet α) (a : α) :
    s.toKeyTable.add a = (decide (a ∉ s), (s.insert a).toKeyTable) := by
  have hnew : (!s.contains a) = decide (a ∉ s) := by
    rw [Bool.eq_iff_iff]
    simp
  exact Prod.ext ((KeyTable.add_fst s.toKeyTable a).trans hnew) rfl

theorem add_eq (s : OrderedSet α) (a : α) : s.add a = (decide (a ∉ s), s.insert a) := by
  rw [add, toKeyTable_add]

theorem insert_of_mem (h : a ∈ s) : s.insert a = s := by
  have hadd : (s.toKeyTable.add a).2 = s.toKeyTable := by
    rw [KeyTable.add_of_contains (contains_eq_true.mpr h)]
  simp only [insert, hadd]

theorem keys_insert_of_mem (h : a ∈ s) : (s.insert a).keys = s.keys := by
  rw [insert_of_mem h]

theorem keys_insert_of_not_mem (h : a ∉ s) : (s.insert a).keys = s.keys ++ [a] :=
  congrArg (·.2.keys) (KeyTable.add_of_not_contains (contains_eq_false.mpr h))

@[simp] theorem mem_insert : b ∈ s.insert a ↔ b ∈ s ∨ b = a := by
  by_cases h : a ∈ s
  · rw [insert_of_mem h]
    constructor
    · exact Or.inl
    · rintro (hb | rfl)
      · exact hb
      · exact h
  · rw [mem_def, keys_insert_of_not_mem h, List.mem_append, List.mem_singleton, ← mem_def]

/-- Insertions in a row add the elements that are new, each where it comes first. -/
theorem keys_foldl_insert (s : OrderedSet α) (xs : List α) :
    (xs.foldl insert s).keys = s.keys ++ (xs.filter (· ∉ s)).eraseDups := by
  induction xs generalizing s with
  | nil => simp
  | cons x xs ih =>
      rw [List.foldl_cons, ih]
      by_cases hx : x ∈ s
      · rw [List.filter_cons_of_neg (by simpa using hx), insert_of_mem hx]
      · have hfilter : xs.filter (· ∉ s.insert x) =
            (xs.filter (· ∉ s)).filter fun y => !y == x := by
          rw [List.filter_filter]
          refine List.filter_congr fun y _ => ?_
          rw [Bool.eq_iff_iff]
          simp [and_comm]
        rw [List.filter_cons_of_pos (by simpa using hx), List.eraseDups_cons,
          keys_insert_of_not_mem hx, hfilter, List.append_assoc, List.singleton_append]

theorem keys_ofList (xs : List α) : (ofList xs).keys = xs.eraseDups := by
  have hnew : xs.filter (· ∉ (∅ : OrderedSet α)) = xs := List.filter_eq_self.mpr (by simp)
  rw [ofList, keys_foldl_insert, hnew, keys_empty, List.nil_append]

theorem ofList_concat (xs : List α) (a : α) : ofList (xs ++ [a]) = (ofList xs).insert a :=
  List.foldl_append

@[simp] theorem mem_ofList {xs : List α} : a ∈ ofList xs ↔ a ∈ xs := by
  rw [mem_def, keys_ofList, List.mem_eraseDups]

end OrderedSet
end Lowering

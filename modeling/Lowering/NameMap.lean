/-!
# Values by name

A list of entries gives values to names. `Entries.put` changes the value of a name or adds
the name at the end, so the list can be kept without repeats. A `NameMap` is such a list
with the proof that no name is listed twice.
-/

namespace Lowering

namespace Entries

variable {β : Type} {name other : String} {b old : β} {es : List (String × β)}

/-- Give a name a value, in place of the one that it has. -/
def put (name : String) (b : β) : List (String × β) → List (String × β)
  | [] => [(name, b)]
  | (n, old) :: rest => if n = name then (name, b) :: rest else (n, old) :: put name b rest

def erase (name : String) (es : List (String × β)) : List (String × β) := es.filter (·.1 ≠ name)

theorem put_cons_self (rest : List (String × β)) :
    put name b ((name, old) :: rest) = (name, b) :: rest := if_pos rfl

theorem put_cons_of_ne (h : other ≠ name) (rest : List (String × β)) :
    put name b ((other, old) :: rest) = (other, old) :: put name b rest := if_neg h

theorem lookup_cons_of_ne (h : other ≠ name) (rest : List (String × β)) :
    List.lookup name ((other, b) :: rest) = rest.lookup name := by
  have hne : (name == other) = false := by simpa using h.symm
  rw [List.lookup_cons, hne]

@[simp] theorem lookup_put_self (name : String) (b : β) (es : List (String × β)) :
    (put name b es).lookup name = some b := by
  induction es with
  | nil => exact List.lookup_cons_self
  | cons p rest ih =>
      obtain ⟨n, old⟩ := p
      by_cases h : n = name
      · subst h
        rw [put_cons_self, List.lookup_cons_self]
      · rw [put_cons_of_ne h, lookup_cons_of_ne h, ih]

theorem lookup_put_of_ne (h : other ≠ name) (b : β) (es : List (String × β)) :
    (put name b es).lookup other = es.lookup other := by
  induction es with
  | nil => exact lookup_cons_of_ne h.symm []
  | cons p rest ih =>
      obtain ⟨n, old⟩ := p
      by_cases hn : n = name
      · subst hn
        rw [put_cons_self, lookup_cons_of_ne h.symm, lookup_cons_of_ne h.symm]
      · rw [put_cons_of_ne hn, List.lookup_cons, List.lookup_cons, ih]

@[simp] theorem lookup_erase_self (name : String) (es : List (String × β)) :
    (erase name es).lookup name = none := by
  rw [List.lookup_eq_none_iff]
  intro p hp
  have hne : p.1 ≠ name := by simpa using (List.mem_filter.mp hp).2
  simpa using hne.symm

theorem lookup_erase_of_ne (h : other ≠ name) (es : List (String × β)) :
    (erase name es).lookup other = es.lookup other := by
  induction es with
  | nil => rfl
  | cons p rest ih =>
      obtain ⟨n, old⟩ := p
      by_cases hn : n = name
      · subst hn
        have herase : erase n ((n, old) :: rest) = erase n rest := by simp [erase]
        rw [herase, lookup_cons_of_ne h.symm, ih]
      · have herase : erase name ((n, old) :: rest) = (n, old) :: erase name rest := by
          simp [erase, hn]
        rw [herase, List.lookup_cons, List.lookup_cons, ih]

theorem lookup_eq_none_iff : es.lookup name = none ↔ name ∉ es.map Prod.fst := by
  rw [List.lookup_eq_none_iff, List.mem_map]
  constructor
  · rintro h ⟨p, hp, rfl⟩
    simpa using h p hp
  · intro h p hp
    simpa using fun heq => h ⟨p, hp, heq.symm⟩

/-- Putting the old value back in place undoes a change. -/
theorem put_put_of_lookup (b : β) (h : es.lookup name = some old) :
    put name old (put name b es) = es := by
  induction es with
  | nil => cases h
  | cons p rest ih =>
      obtain ⟨n, c⟩ := p
      by_cases hn : n = name
      · subst hn
        rw [List.lookup_cons_self] at h
        rw [put_cons_self, put_cons_self, Option.some.inj h]
      · rw [lookup_cons_of_ne hn] at h
        rw [put_cons_of_ne hn, put_cons_of_ne hn, ih h]

/-- Erasing a name that had no value undoes its addition. -/
theorem erase_put_of_lookup (b : β) (h : es.lookup name = none) :
    erase name (put name b es) = es := by
  induction es with
  | nil => simp [put, erase]
  | cons p rest ih =>
      obtain ⟨n, c⟩ := p
      by_cases hn : n = name
      · subst hn
        rw [List.lookup_cons_self] at h
        cases h
      · rw [lookup_cons_of_ne hn] at h
        have herase : erase name ((n, c) :: put name b rest) =
            (n, c) :: erase name (put name b rest) := by simp [erase, hn]
        rw [put_cons_of_ne hn, herase, ih h]

theorem map_fst_put_of_lookup (b : β) (h : es.lookup name = some old) :
    (put name b es).map Prod.fst = es.map Prod.fst := by
  induction es with
  | nil => cases h
  | cons p rest ih =>
      obtain ⟨n, c⟩ := p
      by_cases hn : n = name
      · subst hn
        rw [put_cons_self]
        rfl
      · rw [lookup_cons_of_ne hn] at h
        rw [put_cons_of_ne hn, List.map_cons, List.map_cons, ih h]

/-- A new name comes last. -/
theorem put_of_lookup_eq_none (b : β) (h : es.lookup name = none) :
    put name b es = es ++ [(name, b)] := by
  induction es with
  | nil => rfl
  | cons p rest ih =>
      obtain ⟨n, c⟩ := p
      by_cases hn : n = name
      · subst hn
        rw [List.lookup_cons_self] at h
        cases h
      · rw [lookup_cons_of_ne hn] at h
        rw [put_cons_of_ne hn, ih h, List.cons_append]

theorem nodup_put (h : (es.map Prod.fst).Nodup) (name : String) (b : β) :
    ((put name b es).map Prod.fst).Nodup := by
  cases hname : es.lookup name with
  | some old => rwa [map_fst_put_of_lookup b hname]
  | none =>
      rw [put_of_lookup_eq_none b hname, List.map_append, List.nodup_append]
      refine ⟨h, by simp, ?_⟩
      rintro a ha _ hc rfl
      have ha' : a = name := List.mem_singleton.mp hc
      exact lookup_eq_none_iff.mp hname (ha' ▸ ha)

theorem nodup_erase (h : (es.map Prod.fst).Nodup) (name : String) :
    ((erase name es).map Prod.fst).Nodup :=
  (List.filter_sublist.map Prod.fst).nodup h

end Entries

/-- Values by name. -/
structure NameMap (β : Type) where
  entries : List (String × β)
  /-- No name is listed twice. -/
  nodup : (entries.map Prod.fst).Nodup
  deriving DecidableEq, Repr

namespace NameMap

variable {β : Type}

def empty : NameMap β := ⟨[], List.nodup_nil⟩

instance : EmptyCollection (NameMap β) := ⟨empty⟩

instance : Inhabited (NameMap β) := ⟨empty⟩

def lookup? (m : NameMap β) (name : String) : Option β := m.entries.lookup name

/-- The number of names that have a value. -/
def size (m : NameMap β) : Nat := m.entries.length

def insert (m : NameMap β) (name : String) (b : β) : NameMap β :=
  ⟨Entries.put name b m.entries, Entries.nodup_put m.nodup name b⟩

def erase (m : NameMap β) (name : String) : NameMap β :=
  ⟨Entries.erase name m.entries, Entries.nodup_erase m.nodup name⟩

variable {m : NameMap β} {name other : String} {b old : β}

@[simp] theorem lookup?_empty (name : String) : (∅ : NameMap β).lookup? name = none := rfl

@[simp] theorem lookup?_insert_self (m : NameMap β) (name : String) (b : β) :
    (m.insert name b).lookup? name = some b :=
  Entries.lookup_put_self name b m.entries

theorem lookup?_insert_of_ne (h : other ≠ name) (b : β) (m : NameMap β) :
    (m.insert name b).lookup? other = m.lookup? other :=
  Entries.lookup_put_of_ne h b m.entries

@[simp] theorem lookup?_erase_self (m : NameMap β) (name : String) :
    (m.erase name).lookup? name = none :=
  Entries.lookup_erase_self name m.entries

theorem lookup?_erase_of_ne (h : other ≠ name) (m : NameMap β) :
    (m.erase name).lookup? other = m.lookup? other :=
  Entries.lookup_erase_of_ne h m.entries

theorem eq_of_entries {m m' : NameMap β} (h : m.entries = m'.entries) : m = m' := by
  cases m
  cases m'
  cases h
  rfl

theorem insert_insert_of_lookup? (b : β) (h : m.lookup? name = some old) :
    (m.insert name b).insert name old = m :=
  eq_of_entries (Entries.put_put_of_lookup b h)

theorem erase_insert_of_lookup? (b : β) (h : m.lookup? name = none) :
    (m.insert name b).erase name = m :=
  eq_of_entries (Entries.erase_put_of_lookup b h)

end NameMap
end Lowering

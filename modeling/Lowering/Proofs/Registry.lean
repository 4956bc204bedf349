import Lowering.Tag
import Mathlib

/-!
# Tags stay what they are

The entries of a registry are its names with their tags. A new name adds one entry at the end
(`entries_tag_of_new`), ids are handed out in order, so different names have different ids, and a
tag that was handed out is the tag of its name in every later registry.
-/

namespace Lowering

namespace TagTable

variable {t : TagTable} {name : String} {tag : Tag}

theorem mem_entries_iff : (name, tag) ∈ t.entries ↔ name ∈ t.names ∧ t.lookup? name = some tag := by
  simp only [entries, List.mem_filterMap, Option.map_eq_some_iff, Prod.mk.injEq]
  constructor
  · rintro ⟨_, hname, _, htag, rfl, rfl⟩
    exact ⟨hname, htag⟩
  · rintro ⟨hname, htag⟩
    exact ⟨name, hname, tag, htag, rfl, rfl⟩

namespace InStep

theorem mem_entries_iff (h : t.InStep) : (name, tag) ∈ t.entries ↔ t.lookup? name = some tag := by
  rw [TagTable.mem_entries_iff]
  exact ⟨And.right, fun htag => ⟨h.mem_names name tag htag, htag⟩⟩

theorem map_fst_entries (h : t.InStep) : t.entries.map Prod.fst = t.names := by
  have hname : ∀ name ∈ t.names, ((t.lookup? name).map (name, ·)).map Prod.fst = some name := by
    intro name hmem
    obtain ⟨tag, htag⟩ :=
      Option.ne_none_iff_exists'.mp (mt h.lookup?_eq_none_iff.mp (not_not.mpr hmem))
    rw [htag]
    rfl
  rw [entries, List.map_filterMap, List.filterMap_congr hname, List.filterMap_some]

theorem length_entries (h : t.InStep) : t.entries.length = t.names.length := by
  rw [← h.map_fst_entries, List.length_map]

/-- A new name adds one entry at the end. -/
theorem entries_add (h : t.InStep) (hname : t.lookup? name = none) (size : Int) :
    entries ⟨t.tags.insert name ⟨t.last + 1, size⟩, t.names ++ [name], t.last + 1⟩ =
      t.entries ++ [(name, ⟨t.names.length + 1, size⟩)] := by
  have hold : ∀ other ∈ t.names,
      ((t.tags.insert name ⟨t.last + 1, size⟩).lookup? other).map (other, ·) =
        (t.lookup? other).map (other, ·) := by
    intro other hmem
    have hne : other ≠ name := by
      rintro rfl
      exact h.lookup?_eq_none_iff.mp hname hmem
    rw [NameMap.lookup?_insert_of_ne hne, lookup?]
  have hnew : List.filterMap (fun other =>
      ((t.tags.insert name ⟨t.last + 1, size⟩).lookup? other).map (other, ·)) [name] =
        [(name, (⟨t.last + 1, size⟩ : Tag))] := by
    simp
  have hentries : entries ⟨t.tags.insert name ⟨t.last + 1, size⟩, t.names ++ [name], t.last + 1⟩ =
      t.entries ++ [(name, ⟨t.last + 1, size⟩)] := by
    simp only [entries, lookup?, List.filterMap_append]
    rw [List.filterMap_congr hold, hnew]
    rfl
  rw [hentries, h.last_eq]

end InStep
end TagTable

namespace Registry

variable {r r' : Registry} {name name' : String} {t t' : Tag}

theorem lookup?_eq_none_iff : r.lookup? name = none ↔ name ∉ r.names :=
  r.inStep.lookup?_eq_none_iff

theorem mem_entries_iff : (name, t) ∈ r.entries ↔ r.lookup? name = some t :=
  r.inStep.mem_entries_iff

theorem map_fst_entries (r : Registry) : r.entries.map Prod.fst = r.names :=
  r.inStep.map_fst_entries

theorem mem_of_lookup? (h : r.lookup? name = some t) : (name, t) ∈ r.entries :=
  mem_entries_iff.mpr h

theorem exists_lookup? (h : name ∈ r.names) : ∃ t, r.lookup? name = some t :=
  Option.ne_none_iff_exists'.mp (mt lookup?_eq_none_iff.mp (not_not.mpr h))

theorem tag_of_mem (h : name ∈ r.names) (size : Int) : (r.tag name size).2 = r := by
  obtain ⟨t, ht⟩ := exists_lookup? h
  rw [tag_of_lookup? ht]

/-- A new name gets the next id. -/
theorem tag_of_new (h : name ∉ r.names) (size : Int) :
    (r.tag name size).1 = (⟨r.names.length + 1, size⟩, true) := by
  have hfst : (r.tag name size).1 = (⟨r.last + 1, size⟩, true) :=
    congrArg Prod.fst (TagTable.tag_of_lookup?_eq_none (lookup?_eq_none_iff.mpr h) size)
  rw [hfst, r.inStep.last_eq]

theorem entries_tag_of_new (h : name ∉ r.names) (size : Int) :
    (r.tag name size).2.entries = r.entries ++ [(name, ⟨r.names.length + 1, size⟩)] := by
  have hname := lookup?_eq_none_iff.mpr h
  exact (congrArg (·.2.entries) (TagTable.tag_of_lookup?_eq_none hname size)).trans
    (r.inStep.entries_add hname size)

theorem names_tag_of_new (h : name ∉ r.names) (size : Int) :
    (r.tag name size).2.names = r.names ++ [name] := by
  rw [← map_fst_entries, entries_tag_of_new h, List.map_append, map_fst_entries]
  rfl

/-- Registration only adds entries at the end. -/
theorem entries_prefix_tag (r : Registry) (name : String) (size : Int) :
    r.entries <+: (r.tag name size).2.entries := by
  by_cases h : name ∈ r.names
  · rw [tag_of_mem h]
  · rw [entries_tag_of_new h]
    exact List.prefix_append _ _

/-- The ids are `1`, `2`, ... in order, and no object is empty. -/
structure Numbered (r : Registry) : Prop where
  ids : r.entries.map (fun e => e.2.id) =
    (List.range r.entries.length).map fun (i : Nat) => (i + 1 : Int)
  sizes : ∀ e ∈ r.entries, 0 < e.2.size

theorem numbered_builtin : builtin.Numbered := ⟨rfl, by decide⟩

theorem Numbered.tag (h : r.Numbered) {size : Int} (hsize : 0 < size) :
    (r.tag name size).2.Numbered := by
  by_cases hname : name ∈ r.names
  · rwa [tag_of_mem hname]
  · have hentries := entries_tag_of_new hname size
    constructor
    · rw [hentries, ← r.inStep.length_entries]
      simp [h.ids, List.range_succ]
    · intro e he
      rw [hentries] at he
      rcases List.mem_append.mp he with he | he
      · exact h.sizes e he
      · rw [List.mem_singleton.mp he]
        exact hsize

/-- Names with the same id are the same. -/
theorem Numbered.eq_of_id_eq (h : r.Numbered) (ht : r.lookup? name = some t)
    (ht' : r.lookup? name' = some t') (hid : t.id = t'.id) : name = name' := by
  have hnodup : (r.entries.map fun e => e.2.id).Nodup := by
    rw [h.ids]
    exact List.nodup_range.map fun i j hij => by simpa using hij
  have heq := List.inj_on_of_nodup_map hnodup (mem_of_lookup? ht) (mem_of_lookup? ht') hid
  exact congrArg Prod.fst heq

theorem lookup?_mono (h : r.lookup? name = some t) (hr : r.entries <+: r'.entries) :
    r'.lookup? name = some t :=
  mem_entries_iff.mp (hr.subset (mem_entries_iff.mpr h))

theorem lookup?_tag (r : Registry) (name : String) (size : Int) :
    (r.tag name size).2.lookup? name = some (r.tag name size).1.1 := by
  by_cases h : name ∈ r.names
  · obtain ⟨t, ht⟩ := exists_lookup? h
    rw [tag_of_lookup? ht, ht]
  · rw [← mem_entries_iff, entries_tag_of_new h, tag_of_new h]
    simp

/-- To ask for the tag of a built-in shape registers nothing. -/
theorem tag_of_builtin (h : builtin.entries <+: r.entries) (hname : name ∈ builtin.names)
    (size : Int) : (r.tag name size).2 = r := by
  refine tag_of_mem ?_ size
  rw [← map_fst_entries] at hname ⊢
  exact List.map_subset Prod.fst h.subset hname

end Registry
end Lowering

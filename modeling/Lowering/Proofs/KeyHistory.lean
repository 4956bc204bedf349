import Lowering.OrderedSet.Memory

/-!
# The history of a set in memory

A memory holds a set (`KeyMemory.Holds`) when the keys and the index in it are those of the set
and the array with the keys was not handed out to anybody. A request keeps this up
(`Holds.advance`), whatever is written into arrays that were handed out, so after any requests the
memory holds the set of the keys that were added (`Holds.after`). What the requests are answered
follows from what is known of the set.
-/

namespace Lowering

/-- The key that a request adds. -/
def KeyRequest.added? {α : Type} : KeyRequest α → Option α
  | .add a _ => some a
  | _ => none

namespace KeyMemory

variable {α : Type}

/-- The memory of an empty set. -/
abbrev start : KeyMemory α := {}

/-- The keys that are added, each time that they are. -/
def added (qs : List (KeyRequest α)) : List α := qs.filterMap KeyRequest.added?

theorem added_cons (q : KeyRequest α) (qs : List (KeyRequest α)) :
    added (q :: qs) = q.added?.toList ++ added qs := by
  rw [added, List.filterMap_cons]
  cases q.added? <;> rfl

/-- The memory has the keys and the index of a set. The keys are in an array that was not handed
out. -/
structure Holds (m : KeyMemory α) (s : OrderedSet α) : Prop where
  table : m.table = s.toKeyTable
  own_lt : m.own < m.next
  given_lt : ∀ n ∈ m.given, n < m.next
  own_not_given : m.own ∉ m.given

variable {m : KeyMemory α} {s : OrderedSet α} {past later : List (KeyRequest α)}

theorem holds_start : (start : KeyMemory α).Holds ∅ where
  table := rfl
  own_lt := Nat.zero_lt_one
  given_lt := by simp
  own_not_given := by simp

theorem Holds.read_own (h : m.Holds s) : m.read m.own = s.keys := congrArg KeyTable.keys h.table

/-- A set that is put into memory is held there, in the old array or in a new one. -/
theorem Holds.store (h : m.Holds s) (t : OrderedSet α) (moves : Bool) :
    (m.store t.toKeyTable moves).Holds t := by
  cases moves with
  | false =>
      exact
        { table := congrArg (KeyTable.mk · t.index) (read_write_self h.own_lt)
          own_lt := Nat.lt_of_lt_of_eq h.own_lt next_write.symm
          given_lt := fun n hn => Nat.lt_of_lt_of_eq (h.given_lt n hn) next_write.symm
          own_not_given := h.own_not_given }
  | true =>
      exact
        { table := congrArg (KeyTable.mk · t.index) read_alloc_self
          own_lt := Nat.lt_of_lt_of_eq (Nat.lt_succ_self m.next) next_alloc.symm
          given_lt := fun n hn =>
            Nat.lt_of_lt_of_eq (Nat.lt_succ_of_lt (h.given_lt n hn)) next_alloc.symm
          own_not_given := fun hn => Nat.lt_irrefl _ (h.given_lt m.next hn) }

variable [DecidableEq α]

/-- The memory that a request leaves. -/
def advance (m : KeyMemory α) (q : KeyRequest α) : KeyMemory α := (m.step q).2

/-- The memory that requests in a row leave. -/
def after (m : KeyMemory α) (qs : List (KeyRequest α)) : KeyMemory α := qs.foldl advance m

/-- The answers to requests in a row. -/
def answers (m : KeyMemory α) : List (KeyRequest α) → List KeyAnswer
  | [] => []
  | q :: qs => (m.step q).1 :: (m.advance q).answers qs

theorem after_concat (q : KeyRequest α) : m.after (past ++ [q]) = (m.after past).advance q :=
  List.foldl_append

/-- The answer to a request is that of the memory it is made in. -/
theorem getElem?_answers (m : KeyMemory α) (past : List (KeyRequest α)) (q : KeyRequest α)
    (later : List (KeyRequest α)) :
    (m.answers (past ++ q :: later))[past.length]? = some ((m.after past).step q).1 := by
  induction past generalizing m with
  | nil => rfl
  | cons p past ih => exact ih (m.advance p)

namespace Holds

/-- A request to add a key is answered as the set answers it. -/
theorem step_add (h : m.Holds s) (a : α) (moves : Bool) :
    (m.step (.add a moves)).1 = .flag (decide (a ∉ s)) ∧
      (m.step (.add a moves)).2.Holds (s.insert a) := by
  simp only [step, h.table, OrderedSet.toKeyTable_add]
  by_cases ha : a ∈ s
  · rw [OrderedSet.insert_of_mem ha]
    simp only [ha, not_true, decide_false]
    exact ⟨trivial, h⟩
  · simp only [ha, not_false_iff, decide_true]
    exact ⟨trivial, h.store (s.insert a) moves⟩

/-- The keys that are handed out are in an array of their own. -/
theorem advance_keys (h : m.Holds s) : (m.advance .keys).Holds s where
  table := (congrArg (KeyTable.mk · m.index) (read_alloc_of_lt h.own_lt)).trans h.table
  own_lt := Nat.lt_of_lt_of_eq (Nat.lt_succ_of_lt h.own_lt) next_alloc.symm
  given_lt := by
    intro n hn
    refine Nat.lt_of_lt_of_eq ?_ next_alloc.symm
    rcases List.mem_append.mp hn with hn | hn
    · exact Nat.lt_succ_of_lt (h.given_lt n hn)
    · exact Nat.lt_succ_of_le (Nat.le_of_eq (List.mem_singleton.mp hn))
  own_not_given := by
    intro hn
    rcases List.mem_append.mp hn with hn | hn
    · exact h.own_not_given hn
    · exact Nat.ne_of_lt h.own_lt (List.mem_singleton.mp hn)

/-- What is written into an array that was handed out leaves the set alone. -/
theorem advance_overwrite (h : m.Holds s) (n i : Nat) (a : α) :
    (m.advance (.overwrite n i a)).Holds s := by
  cases hn : m.given[n]? with
  | none =>
      have hadvance : m.advance (.overwrite n i a) = m := by simp only [advance, step, hn]
      rwa [hadvance]
  | some address =>
      have hadvance : m.advance (.overwrite n i a) =
          m.write address ((m.read address).set i a) := by simp only [advance, step, hn]
      have hne : address ≠ m.own := by
        rintro rfl
        exact h.own_not_given (List.mem_of_getElem? hn)
      rw [hadvance]
      exact
        { table := (congrArg (KeyTable.mk · m.index) (read_write_of_ne hne)).trans h.table
          own_lt := Nat.lt_of_lt_of_eq h.own_lt next_write.symm
          given_lt := fun k hk => Nat.lt_of_lt_of_eq (h.given_lt k hk) next_write.symm
          own_not_given := h.own_not_given }

/-- A request leaves the set that was held, with the key that it adds. -/
theorem advance (h : m.Holds s) (q : KeyRequest α) :
    (m.advance q).Holds (q.added?.toList.foldl OrderedSet.insert s) := by
  cases q with
  | add a moves => exact (h.step_add a moves).2
  | contains a => exact h
  | keys => exact h.advance_keys
  | overwrite n i a => exact h.advance_overwrite n i a

theorem step_contains (h : m.Holds s) (a : α) :
    (m.step (.contains a)).1 = .flag (decide (a ∈ s)) := by
  have hflag : s.contains a = decide (a ∈ s) := by
    rw [Bool.eq_iff_iff]
    simp
  simp only [step, h.table, hflag]

theorem step_keys (h : m.Holds s) :
    ∃ n, (m.step .keys).1 = .address n ∧ (m.advance .keys).read n = s.keys :=
  ⟨m.next, rfl, read_alloc_self.trans h.read_own⟩

/-- After requests the set has the keys that they added besides. -/
theorem after (h : m.Holds s) (qs : List (KeyRequest α)) :
    (m.after qs).Holds ((added qs).foldl OrderedSet.insert s) := by
  induction qs generalizing m s with
  | nil => exact h
  | cons q qs ih =>
      rw [added_cons, List.foldl_append]
      exact ih (h.advance q)

end Holds

theorem holds_after_start (qs : List (KeyRequest α)) :
    (start.after qs).Holds (.ofList (added qs)) :=
  holds_start.after qs

/-- What a set in memory has and what it answers, in terms of the requests so far. -/
structure InStep (qs : List (KeyRequest α)) : Prop where
  /-- The keys are those that were added, each where it was added first. -/
  keys : (start.after qs).table.keys = (added qs).eraseDups
  /-- The index has each key with its position, and no other key. -/
  index : ∀ a i, (start.after qs).index.lookup a = some i ↔
    (start.after qs).table.keys[i]? = some a
  /-- A key is new when no request before was to add it. -/
  answer_add : ∀ past a moves later, qs = past ++ .add a moves :: later →
    (start.answers qs)[past.length]? = some (.flag (decide (a ∉ added past)))
  /-- A key is found when a request before was to add it. -/
  answer_contains : ∀ past a later, qs = past ++ .contains a :: later →
    (start.answers qs)[past.length]? = some (.flag (decide (a ∈ added past)))
  /-- Who asks for the keys gets an array that has them. -/
  answer_keys : ∀ past later, qs = past ++ .keys :: later →
    ∃ n, (start.answers qs)[past.length]? = some (.address n) ∧
      (start.after (past ++ [KeyRequest.keys])).read n = (added past).eraseDups

/-- A set keeps its keys and its index in step, whatever is asked of it and whatever is written
into the arrays of keys that it handed out. -/
theorem keys_and_index_in_step (qs : List (KeyRequest α)) : InStep qs := by
  have hheld := holds_after_start qs
  refine ⟨?_, ?_, ?_, ?_, ?_⟩
  · rw [hheld.table, OrderedSet.keys_ofList]
  · intro a i
    have hindex := (OrderedSet.ofList (added qs)).indexed.position?_eq_some_iff (a := a) (i := i)
    rwa [← hheld.table] at hindex
  · rintro past a moves later rfl
    rw [getElem?_answers, ((holds_after_start past).step_add a moves).1]
    simp
  · rintro past a later rfl
    rw [getElem?_answers, (holds_after_start past).step_contains]
    simp
  · rintro past later rfl
    obtain ⟨n, hanswer, hread⟩ := (holds_after_start past).step_keys
    refine ⟨n, ?_, ?_⟩
    · rw [getElem?_answers, hanswer]
    · rw [after_concat, hread, OrderedSet.keys_ofList]

/-- The first keys that are handed out are overwritten, before the keys of the set move and again
at the end. -/
def overwrittenCopy : List (KeyRequest String) :=
  [.add "b" false, .keys, .overwrite 0 0 "z", .add "a" true, .add "b" false, .contains "z", .keys,
    .overwrite 0 0 "a", .overwrite 1 1 "b"]

theorem keys_and_index_in_step_overwrittenCopy :
    (start.after overwrittenCopy).table.keys = ["b", "a"] ∧
      (start.after overwrittenCopy).index.lookup "a" = some 1 ∧
      (start.answers overwrittenCopy)[4]? = some (.flag false) ∧
      (start.answers overwrittenCopy)[5]? = some (.flag false) ∧
      ∃ n, (start.answers overwrittenCopy)[6]? = some (.address n) ∧
        (start.after (overwrittenCopy.take 7)).read n = ["b", "a"] := by
  have h := keys_and_index_in_step overwrittenCopy
  have hkeys : (start.after overwrittenCopy).table.keys = ["b", "a"] := h.keys.trans (by decide)
  refine ⟨hkeys, ?_, ?_, ?_, ?_⟩
  · rw [h.index, hkeys]
    rfl
  · exact h.answer_add (overwrittenCopy.take 4) "b" false (overwrittenCopy.drop 5) rfl
  · exact h.answer_contains (overwrittenCopy.take 5) "z" (overwrittenCopy.drop 6) rfl
  · obtain ⟨n, hanswer, hread⟩ :=
      h.answer_keys (overwrittenCopy.take 6) (overwrittenCopy.drop 7) rfl
    exact ⟨n, hanswer, hread.trans (by decide)⟩

end KeyMemory
end Lowering

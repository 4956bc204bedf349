import Lowering.Label
import Mathlib

/-!
# The texts of generated labels

`Label.Reserved` says in words which texts belong to the three families of generated
labels, and `Label.isGenerated` decides it. Different generated labels have different
texts: the number in a label ends at an underscore, which is no digit.
-/

namespace Lowering.Label

/-- One or more decimal digits. -/
structure Digits (s : String) : Prop where
  nonempty : s ≠ ""
  isDigit : ∀ c ∈ s.toList, c.isDigit = true

/-- The texts `rtn_N`, `case_N_I` and `case_N_end`, with numbers `N` and `I`. -/
inductive Reserved : String → Prop where
  | routine {n : String} (number : Digits n) : Reserved ("rtn_" ++ n)
  | branch {n i : String} (number : Digits n) (index : Digits i) :
      Reserved ("case_" ++ n ++ "_" ++ i)
  | caseEnd {n : String} (number : Digits n) : Reserved ("case_" ++ n ++ "_end")

theorem digits_toString (n : Nat) : Digits (toString n) := by
  constructor
  · simp
  · intro c hc
    have hdigits : c ∈ Nat.toDigits 10 n := by simpa using hc
    exact Nat.isDigit_of_mem_toDigits (by decide) (by decide) hdigits

theorem isNumber_iff {s : String} : isNumber s.toList = true ↔ Digits s := by
  simp only [isNumber, Bool.and_eq_true, Bool.not_eq_true', List.isEmpty_eq_false_iff,
    List.all_eq_true]
  constructor
  · rintro ⟨hs, hd⟩
    exact ⟨by simpa using hs, hd⟩
  · rintro ⟨hs, hd⟩
    exact ⟨by simpa using hs, hd⟩

theorem Digits.underscore_not_mem {s : String} (h : Digits s) : '_' ∉ s.toList := by
  intro hmem
  have := h.isDigit '_' hmem
  contradiction

theorem Digits.takeWhile_append {s : String} (h : Digits s) (rest : List Char) :
    (s.toList ++ '_' :: rest).takeWhile (· ≠ '_') = s.toList := by
  rw [List.takeWhile_append_of_pos]
  · simp
  · intro c hc
    simpa using fun heq : c = '_' => h.underscore_not_mem (heq ▸ hc)

theorem Digits.dropWhile_append {s : String} (h : Digits s) (rest : List Char) :
    (s.toList ++ '_' :: rest).dropWhile (· ≠ '_') = '_' :: rest := by
  rw [List.dropWhile_append_of_pos]
  · simp
  · intro c hc
    simpa using fun heq : c = '_' => h.underscore_not_mem (heq ▸ hc)

theorem after?_eq_some {lead s rest : List Char} :
    after? lead s = some rest ↔ s = lead ++ rest := by
  induction lead generalizing s with
  | nil => simp [after?, eq_comm]
  | cons a lead ih =>
      cases s with
      | nil => simp [after?]
      | cons b s =>
          by_cases hab : a = b
          · subst hab
            simp [after?, ih]
          · simp [after?, hab, Ne.symm hab]

/-- The number of a case ends at the first underscore. -/
theorem isCaseSuffix_iff {s : List Char} :
    isCaseSuffix s = true ↔ ∃ n i : String, s = n.toList ++ '_' :: i.toList ∧ Digits n ∧
      (i = "end" ∨ Digits i) := by
  constructor
  · intro h
    have hsplit := List.takeWhile_append_dropWhile (p := (· ≠ '_')) (l := s)
    unfold isCaseSuffix at h
    split at h
    · cases h
    · rename_i c rest hdrop
      have hc : c = '_' := by
        have := List.head?_dropWhile_not (· ≠ '_') s
        rw [hdrop] at this
        simpa using this
      subst hc
      rw [hdrop] at hsplit
      rw [Bool.and_eq_true, Bool.or_eq_true, beq_iff_eq] at h
      refine ⟨String.ofList (s.takeWhile (· ≠ '_')), String.ofList rest, ?_, ?_, ?_⟩
      · simpa using hsplit.symm
      · rw [← isNumber_iff]
        simpa using h.1
      · refine h.2.imp (fun hend => ?_) (fun hnum => ?_)
        · rw [hend]
          rfl
        · rw [← isNumber_iff]
          simpa using hnum
  · rintro ⟨n, i, rfl, hn, hi⟩
    simp only [isCaseSuffix, hn.dropWhile_append, hn.takeWhile_append, Bool.and_eq_true,
      Bool.or_eq_true, beq_iff_eq, isNumber_iff]
    exact ⟨hn, hi.imp (congrArg String.toList) id⟩

theorem isGenerated_case_append {s : String} :
    isGenerated ("case_" ++ s) = isCaseSuffix s.toList := by
  have hrtn : after? "rtn_".toList ("case_" ++ s).toList = none := by
    rw [String.toList_append]
    rfl
  have hcase : after? "case_".toList ("case_" ++ s).toList = some s.toList :=
    after?_eq_some.mpr String.toList_append
  simp only [isGenerated, hrtn, hcase]

/-- `isGenerated` decides which texts are reserved. -/
theorem isGenerated_iff {name : String} : isGenerated name = true ↔ Reserved name := by
  constructor
  · intro h
    unfold isGenerated at h
    split at h
    · rename_i s hs
      have hname : name = "rtn_" ++ String.ofList s := by
        rw [← String.toList_inj, after?_eq_some.mp hs]
        simp
      rw [hname]
      exact .routine (isNumber_iff.mp (by simpa using h))
    · split at h
      · rename_i s hs
        obtain ⟨n, i, rfl, hn, hi⟩ := isCaseSuffix_iff.mp h
        have hname : name = "case_" ++ n ++ "_" ++ i := by
          rw [← String.toList_inj, after?_eq_some.mp hs]
          simp
        rcases hi with rfl | hi
        · have htext : name = "case_" ++ n ++ "_end" := by
            rw [hname, String.append_assoc]
            rfl
          rw [htext]
          exact .caseEnd hn
        · rw [hname]
          exact .branch hn hi
      · cases h
  · intro h
    cases h with
    | @routine n hn =>
        have hrtn : after? "rtn_".toList ("rtn_" ++ n).toList = some n.toList :=
          after?_eq_some.mpr String.toList_append
        simpa only [isGenerated, hrtn] using isNumber_iff.mpr hn
    | @branch n i hn hi =>
        rw [String.append_assoc, String.append_assoc, isGenerated_case_append]
        exact isCaseSuffix_iff.mpr ⟨n, i, by simp, hn, .inr hi⟩
    | @caseEnd n hn =>
        rw [String.append_assoc, isGenerated_case_append]
        exact isCaseSuffix_iff.mpr ⟨n, "end", by simp, hn, .inl rfl⟩

instance : DecidablePred Reserved := fun _ => decidable_of_iff _ isGenerated_iff

theorem isGenerated_eq_false_iff {name : String} :
    isGenerated name = false ↔ ¬ Reserved name := by
  rw [← isGenerated_iff, Bool.not_eq_true]

/-- A name without an underscore is free for a definition. -/
theorem Reserved.underscore_mem {name : String} (h : Reserved name) : '_' ∈ name.toList := by
  cases h <;> simp

theorem reserved_routine (n : Nat) : Reserved (routine n).text := .routine (digits_toString n)

theorem reserved_branch (id index : Nat) : Reserved (branch id index).text :=
  .branch (digits_toString id) (digits_toString index)

theorem reserved_caseEnd (id : Nat) : Reserved (caseEnd id).text := .caseEnd (digits_toString id)

theorem toString_injective {m n : Nat} (h : toString m = toString n) : m = n :=
  Nat.repr_injective h

theorem routine_injective {m n : Nat} (h : routine m = routine n) : m = n := by
  have htext : "rtn_" ++ toString m = "rtn_" ++ toString n := congrArg Label.text h
  exact toString_injective ((String.append_right_inj "rtn_").mp htext)

/-- The number of a case and what follows its underscore can be read off the text. -/
theorem case_text_injective {m n : Nat} {r q : String}
    (h : "case_" ++ toString m ++ "_" ++ r = "case_" ++ toString n ++ "_" ++ q) :
    m = n ∧ r = q := by
  have hlist : (toString m).toList ++ '_' :: r.toList = (toString n).toList ++ '_' :: q.toList := by
    have := congrArg String.toList h
    simpa using this
  have hnumber := congrArg (List.takeWhile (· ≠ '_')) hlist
  have hrest := congrArg (List.dropWhile (· ≠ '_')) hlist
  rw [(digits_toString m).takeWhile_append, (digits_toString n).takeWhile_append] at hnumber
  rw [(digits_toString m).dropWhile_append, (digits_toString n).dropWhile_append] at hrest
  exact ⟨toString_injective (String.toList_inj.mp hnumber),
    String.toList_inj.mp (List.cons.inj hrest).2⟩

theorem branch_injective {m n i j : Nat} (h : branch m i = branch n j) : m = n ∧ i = j := by
  obtain ⟨hid, hindex⟩ := case_text_injective (congrArg Label.text h)
  exact ⟨hid, toString_injective hindex⟩

theorem caseEnd_injective {m n : Nat} (h : caseEnd m = caseEnd n) : m = n := by
  have htext : "case_" ++ toString m ++ "_" ++ "end" = "case_" ++ toString n ++ "_" ++ "end" := by
    simpa [caseEnd, String.append_assoc] using congrArg Label.text h
  exact (case_text_injective htext).1

theorem branch_ne_caseEnd (m n i : Nat) : branch m i ≠ caseEnd n := by
  intro h
  have htext : "case_" ++ toString m ++ "_" ++ toString i =
      "case_" ++ toString n ++ "_" ++ "end" := by
    simpa [branch, caseEnd, String.append_assoc] using congrArg Label.text h
  have hdigits := digits_toString i
  rw [(case_text_injective htext).2] at hdigits
  exact absurd (hdigits.isDigit 'e' (by decide)) (by decide)

theorem routine_ne_branch (n m i : Nat) : routine n ≠ branch m i := by
  intro h
  have := congrArg (fun l => l.text.toList.head?) h
  simp [routine, branch] at this

theorem routine_ne_caseEnd (n m : Nat) : routine n ≠ caseEnd m := by
  intro h
  have := congrArg (fun l => l.text.toList.head?) h
  simp [routine, caseEnd] at this

/-- What a generated label is for. -/
inductive Origin where
  | routine (number : Nat)
  | branch (id index : Nat)
  | caseEnd (id : Nat)
  deriving DecidableEq, Repr

def Origin.label : Origin → Label
  | .routine n => Label.routine n
  | .branch id index => Label.branch id index
  | .caseEnd id => Label.caseEnd id

theorem Origin.reserved (o : Origin) : Reserved o.label.text := by
  cases o with
  | routine n => exact reserved_routine n
  | branch id index => exact reserved_branch id index
  | caseEnd id => exact reserved_caseEnd id

theorem Origin.label_injective {o o' : Origin} (h : o.label = o'.label) : o = o' := by
  cases o with
  | routine n =>
      cases o' with
      | routine m => exact congrArg Origin.routine (routine_injective h)
      | branch m i => exact absurd h (routine_ne_branch n m i)
      | caseEnd m => exact absurd h (routine_ne_caseEnd n m)
  | branch n i =>
      cases o' with
      | routine m => exact absurd h.symm (routine_ne_branch m n i)
      | branch m j =>
          obtain ⟨rfl, rfl⟩ := branch_injective h
          rfl
      | caseEnd m => exact absurd h (branch_ne_caseEnd n m i)
  | caseEnd n =>
      cases o' with
      | routine m => exact absurd h.symm (routine_ne_caseEnd m n)
      | branch m i => exact absurd h.symm (branch_ne_caseEnd m n i)
      | caseEnd m => exact congrArg Origin.caseEnd (caseEnd_injective h)

/-- The test for generated labels accepts just the texts that are reserved for them. All labels of
routines and cases are among these, and the text of a label tells what it is for: the routine, or
the case with its branch or its end. -/
theorem generated_reserved_distinct :
    (∀ name : String, isGenerated name = true ↔ Reserved name) ∧
    (∀ o : Origin, isGenerated o.label.text = true) ∧
    ∀ o o' : Origin, o.label = o'.label → o = o' :=
  ⟨fun _ => isGenerated_iff, fun o => isGenerated_iff.mpr o.reserved,
    fun _ _ h => Origin.label_injective h⟩

/-- The numbers of a case and of its branch do not run together. -/
theorem generated_reserved_distinct_twoNumbers :
    Reserved "case_1_10" ∧ ¬ Reserved "case_1_1_0" ∧ ¬ Reserved "case_1_" ∧
      ∀ o : Origin, o.label.text = "case_1_10" → o = .branch 1 10 := by
  obtain ⟨haccepts, hgenerated, hdistinct⟩ := generated_reserved_distinct
  have htext : (Origin.branch 1 10).label.text = "case_1_10" := by decide
  refine ⟨?_, ?_, ?_, ?_⟩
  · exact htext ▸ (haccepts _).mp (hgenerated (.branch 1 10))
  · exact mt (haccepts _).mpr (by decide)
  · exact mt (haccepts _).mpr (by decide)
  · intro o ho
    exact hdistinct o (.branch 1 10) (congrArg Label.mk (ho.trans htext.symm))

end Lowering.Label

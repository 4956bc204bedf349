import Lowering.Instr
import Mathlib

/-!
# The texts of registers

Virtual registers with different numbers differ, and so do the globals of different
definitions. The registers of the calling convention are shared, and no definition has
one of them as its global.
-/

namespace Lowering.Reg

theorem virtual_injective {m n : Nat} (h : virtual m = virtual n) : m = n := by
  have htext : "$r" ++ toString (m : Int) = "$r" ++ toString (n : Int) := congrArg Reg.text h
  have hnumber : toString (m : Int) = toString (n : Int) :=
    (String.append_right_inj "$r").mp htext
  exact Nat.repr_injective hnumber

@[simp] theorem virtual_inj {m n : Nat} : virtual m = virtual n ↔ m = n :=
  ⟨virtual_injective, fun h => by rw [h]⟩

theorem global_injective {x y : String} (h : global x = global y) : x = y :=
  (String.append_right_inj "@G_").mp (congrArg Reg.text h)

@[simp] theorem isVirtual_virtual (n : Int) : (virtual n).isVirtual = true := by
  simp [isVirtual, virtual]

@[simp] theorem isVirtual_global (x : String) : (global x).isVirtual = false := by
  simp only [isVirtual, global, String.toList_append]
  rfl

@[simp] theorem isVirtual_callee : callee.isVirtual = false := by decide

@[simp] theorem isVirtual_argument : argument.isVirtual = false := by decide

@[simp] theorem isVirtual_result : result.isVirtual = false := by decide

theorem ne_of_isVirtual {r q : Reg} (hr : r.isVirtual = true) (hq : q.isVirtual = false) :
    r ≠ q := by
  rintro rfl
  simp [hr] at hq

@[simp] theorem callee_ne_global (x : String) : callee ≠ global x := by
  intro h
  have htext := congrArg (fun r => r.text.toList) h
  simp [callee, global] at htext

@[simp] theorem argument_ne_global (x : String) : argument ≠ global x := by
  intro h
  have htext := congrArg (fun r => r.text.toList) h
  simp [argument, global] at htext

@[simp] theorem result_ne_global (x : String) : result ≠ global x := by
  intro h
  have htext := congrArg (fun r => r.text.toList) h
  simp [result, global] at htext

end Lowering.Reg

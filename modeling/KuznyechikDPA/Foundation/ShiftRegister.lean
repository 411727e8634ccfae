import KuznyechikDPA.Foundation.Xor
import Mathlib.Data.Fin.Basic
import Mathlib.Tactic.Ring.Basic

/-!
# Feedback shift registers over words

`push` moves every cell one place up and feeds `f` of the old register into cell
zero; `pull` moves every cell one place down and feeds `f` of the rotated
register into the last one. When the last cell enters `f` with coefficient one,
each undoes the other.
-/

namespace KuznyechikDPA.ShiftRegister

universe u
variable {α : Type u} {n : Nat}

def push (f : (Fin (n + 1) → α) → α) (s : Fin (n + 1) → α) : Fin (n + 1) → α :=
  fun i => if i = 0 then f s else s (i - 1)

/-- The register read from cell one on, with cell zero moved to the end. -/
def rotate (s : Fin (n + 1) → α) : Fin (n + 1) → α := fun i => s (i + 1)

def pull (f : (Fin (n + 1) → α) → α) (s : Fin (n + 1) → α) : Fin (n + 1) → α :=
  fun i => if i = Fin.last n then f (rotate s) else s (i + 1)

@[simp] theorem push_zero (f : (Fin (n + 1) → α) → α) (s : Fin (n + 1) → α) :
    push f s 0 = f s := rfl

theorem push_of_ne (f : (Fin (n + 1) → α) → α) (s : Fin (n + 1) → α) {i : Fin (n + 1)}
    (h : i ≠ 0) : push f s i = s (i - 1) := if_neg h

theorem rotate_push (f : (Fin (n + 1) → α) → α) (s : Fin (n + 1) → α) :
    rotate (push f s) = Function.update s (Fin.last n) (f s) := by
  funext i
  by_cases hi : i = Fin.last n
  · subst i
    simp [rotate, push]
  · have hne : i + 1 ≠ 0 := by
      intro h
      exact hi (by rw [← Fin.last_add_one n] at h; exact add_right_cancel h)
    simp [rotate, push, hne, hi]

theorem pull_eq_update (f : (Fin (n + 1) → α) → α) (s : Fin (n + 1) → α) :
    pull f s = Function.update (rotate s) (Fin.last n) (f (rotate s)) := by
  funext i
  by_cases hi : i = Fin.last n
  · subst i
    simp [pull]
  · simp [pull, rotate, hi]

/-- A register that `push` leaves as it is holds one word in all cells. -/
theorem push_fixed {f : (Fin (n + 1) → α) → α} {s : Fin (n + 1) → α} (h : push f s = s) :
    s = fun _ => f s := by
  have hcell (i : Fin (n + 1)) : s i = f s := by
    induction i using Fin.induction with
    | zero => exact (congrFun h 0).symm
    | succ i ih =>
      have hprev : i.succ - 1 = i.castSucc := by rw [← Fin.coeSucc_eq_succ, add_sub_cancel_right]
      rw [← ih, ← hprev, ← push_of_ne f s (Fin.succ_ne_zero i), h]
  exact funext hcell

section Inverse
variable [XorOp α] [Zero α] [LawfulXor α]

/-- The last cell enters the feedback with coefficient one. -/
def UnitTail (f : (Fin (n + 1) → α) → α) : Prop :=
  ∀ s a, f (Function.update s (Fin.last n) a) = f s ^^^ s (Fin.last n) ^^^ a

variable {f : (Fin (n + 1) → α) → α}

theorem pull_push (hf : UnitTail f) : Function.LeftInverse (pull f) (push f) := by
  intro s
  rw [pull_eq_update, rotate_push, hf, Function.update_idem]
  simp

theorem push_pull (hf : UnitTail f) : Function.RightInverse (pull f) (push f) := by
  intro s
  funext i
  by_cases hi : i = 0
  · subst i
    rw [push_zero, pull_eq_update, hf]
    simp [rotate]
  · have hne : i - 1 ≠ Fin.last n := by
      intro h
      exact hi (by rw [← sub_add_cancel i 1, h, Fin.last_add_one])
    rw [push_of_ne f _ hi, pull, if_neg hne, sub_add_cancel]

end Inverse

theorem xorHom_push [XorOp α] {f : (Fin (n + 1) → α) → α} (hf : XorHom f) : XorHom (push f) := by
  intro s t
  funext i
  by_cases hi : i = 0
  · subst i
    exact hf s t
  · simp [push, hi]

end KuznyechikDPA.ShiftRegister

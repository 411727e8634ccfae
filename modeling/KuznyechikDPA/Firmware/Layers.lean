import KuznyechikDPA.Firmware.Kuznyechik
import KuznyechikDPA.Foundation.ShiftRegister
import Mathlib.Data.FinEnum

/-!
# The layers of the cipher

Every multiplication table holds the products by one coefficient, so `feedback` is
exclusive-or linear with last coefficient one: `rstep` and `invRstep` are the two
directions of a feedback shift register, and each layer of a round has an inverse.
-/

namespace KuznyechikDPA.Kuznyechik

open ByteField ShiftRegister
set_option maxRecDepth 4000

/-! ## The tables -/

theorem rsbox_sbox : Function.LeftInverse rsbox.get sbox.get :=
  Table.leftInverse_of_map (by decide +kernel)

theorem sbox_rsbox : Function.LeftInverse sbox.get rsbox.get :=
  rsbox_sbox.rightInverse_of_surjective (Finite.injective_iff_surjective.mp rsbox_sbox.injective)

/-- The coefficient whose multiples a row of `mult_mod_poly` holds. -/
def coefficient : Fin 8 → Byte
  | 0 => 1
  | 1 => 16
  | 2 => 32
  | 3 => 133
  | 4 => 148
  | 5 => 192
  | 6 => 194
  | 7 => 251

theorem multModPoly_get (row : Fin 8) (b : Byte) :
    (multModPoly row).get b = mul 0xC3 (coefficient row) b := by
  revert b
  fin_cases row <;> exact Table.get_eq_of_entries (by decide +kernel)

theorem xorHom_multModPoly (row : Fin 8) : XorHom (multModPoly row).get := by
  intro x y
  simp only [multModPoly_get]
  exact xorHom_mul_right 0xC3 (coefficient row) x y

theorem multModPoly_zero_get (b : Byte) : (multModPoly 0).get b = b :=
  Table.get_eq_of_entries (f := id) (by decide +kernel) b

/-! ## The shift register -/

theorem xorHom_feedback : XorHom feedback := by
  have term (row : Fin 8) (i : Fin 16) : XorHom fun s : State => (multModPoly row).get (s i) :=
    (xorHom_multModPoly row).comp (XorHom.apply i)
  unfold feedback
  repeat' apply XorHom.xor
  all_goals exact term _ _

theorem unitTail_feedback : UnitTail feedback := by
  intro s a
  have hlast : Fin.last 15 = (15 : Fin 16) := rfl
  simp only [feedback, hlast, multModPoly_zero_get, Function.update_self]
  simp

theorem rstep_eq_push : rstep = push feedback := rfl

theorem invRstep_eq_pull : invRstep = pull feedback := rfl

theorem xorHom_rstep : XorHom rstep := by
  rw [rstep_eq_push]
  exact xorHom_push xorHom_feedback

theorem invRstep_rstep : Function.LeftInverse invRstep rstep := by
  rw [rstep_eq_push, invRstep_eq_pull]
  exact pull_push unitTail_feedback

theorem rstep_invRstep : Function.LeftInverse rstep invRstep := by
  rw [rstep_eq_push, invRstep_eq_pull]
  exact push_pull unitTail_feedback

/-! ## The linear layer -/

theorem xorHom_lstep : XorHom lstep := xorHom_rstep.iterate 16

theorem invLstep_lstep : Function.LeftInverse invLstep lstep := invRstep_rstep.iterate 16

theorem lstep_invLstep : Function.LeftInverse lstep invLstep := rstep_invRstep.iterate 16

theorem xorHom_invLstep : XorHom invLstep := xorHom_lstep.of_inverse invLstep_lstep lstep_invLstep

theorem lstep_bijective : Function.Bijective lstep :=
  ⟨invLstep_lstep.injective, lstep_invLstep.surjective⟩

/-- On equal cells the products cancel in pairs, up to one and the byte itself. -/
theorem feedback_const (a : Byte) : feedback (fun _ => a) = (multModPoly 7).get a ^^^ a := by
  simp only [feedback, multModPoly_zero_get]
  generalize (multModPoly 1).get a = t1
  generalize (multModPoly 2).get a = t2
  generalize (multModPoly 3).get a = t3
  generalize (multModPoly 4).get a = t4
  generalize (multModPoly 5).get a = t5
  generalize (multModPoly 6).get a = t6
  generalize (multModPoly 7).get a = t7
  calc
    _ = (t1 ^^^ t1) ^^^ (t2 ^^^ t2) ^^^ (t3 ^^^ t3) ^^^ (t4 ^^^ t4) ^^^ (t5 ^^^ t5) ^^^ (t6 ^^^ t6) ^^^
        (a ^^^ a) ^^^ (t7 ^^^ a) := by ac_rfl
    _ = t7 ^^^ a := by simp

/-- The remaining product is by an invertible coefficient. -/
theorem multModPoly_seven_eq_zero {a : Byte} (h : (multModPoly 7).get a = 0) : a = 0 := by
  have hinverse : mul 0xC3 20 251 = 1 := by decide
  have hone : mul 0xC3 1 a = a := (multModPoly_get 0 a).symm.trans (multModPoly_zero_get a)
  rw [multModPoly_get] at h
  have hproduct := congrArg (mul 0xC3 20) h
  rw [← modMul_assoc, coefficient, hinverse, hone] at hproduct
  rw [hproduct]
  decide

/-- A register that a step leaves as it is holds one byte sixteen times, and that is zero. -/
theorem rstep_fixed (s : State) (h : rstep s = s) : s = 0 := by
  rw [rstep_eq_push] at h
  have hcells : s = fun _ => feedback s := push_fixed h
  have hconst : feedback s = (multModPoly 7).get (feedback s) ^^^ feedback s := by
    rw [← feedback_const, ← hcells]
  have hproduct : (multModPoly 7).get (feedback s) = 0 := by
    have hcancel := congrArg (fun b => b ^^^ feedback s) hconst
    rw [BitVec.xor_assoc, BitVec.xor_self, BitVec.xor_zero] at hcancel
    exact hcancel.symm
  rw [hcells, multModPoly_seven_eq_zero hproduct]
  rfl

/-- `lstep` is the sixteenth power of `rstep`, which fixes zero only. -/
theorem change_lstep_injective : Function.Injective (change lstep) :=
  change_iterate_injective xorHom_rstep rstep_fixed 4

/-! ## Substitution and key addition -/

theorem invSstep_sstep : Function.LeftInverse invSstep sstep :=
  fun s => funext fun i => rsbox_sbox (s i)

theorem sstep_invSstep : Function.LeftInverse sstep invSstep :=
  fun s => funext fun i => sbox_rsbox (s i)

theorem addRoundKey_eq_xor (k : Nat → State) (round : Nat) (s : State) :
    addRoundKey k round s = s ^^^ k round := rfl

theorem addRoundKey_addRoundKey (k : Nat → State) (round : Nat) (s : State) :
    addRoundKey k round (addRoundKey k round s) = s := by
  simp [addRoundKey_eq_xor]

/-! ## One round -/

def encRound (k : Nat → State) (s : State) (round : Nat) : State :=
  lstep (sstep (addRoundKey k round s))

def decRound (k : Nat → State) (s : State) (round : Nat) : State :=
  invSstep (invLstep (addRoundKey k round s))

end KuznyechikDPA.Kuznyechik

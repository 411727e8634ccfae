import KuznyechikDPA.Foundation.Xor
import Mathlib.Data.List.GetD
import Mathlib.RingTheory.AdjoinRoot
import Mathlib.Algebra.Field.ZMod
import Mathlib.Algebra.CharP.Two

/-!
# Multiplication of bytes modulo an octic

A byte is a polynomial over the two-element field with bit `i` as the coefficient
of `X^i`. `mul red` multiplies modulo `X^8 + red` by shift and add; it is exclusive-or
linear in both factors, and `toPoly_mul` identifies it with the remainder of the
polynomial product.
-/

namespace KuznyechikDPA

abbrev Byte := BitVec 8

/-- Blocks have sixteen bytes. -/
instance instNeZeroSixteen : NeZero 16 := ⟨by decide⟩

/-- A check that the 256 byte literals pass is passed by every byte. -/
theorem forall_of_allBytes {p : Byte → Bool}
    (h : (List.range 256).all fun n => p (BitVec.ofNat 8 n)) (b : Byte) : p b = true := by
  have hb := List.all_eq_true.mp h b.toNat (List.mem_range.mpr b.isLt)
  rwa [BitVec.ofNat_toNat, BitVec.setWidth_eq] at hb

/-- A byte-indexed lookup table. -/
structure Table where
  entries : List Byte
  size : entries.length = 256

namespace Table

def get (t : Table) (b : Byte) : Byte := t.entries.getD b.toNat 0

theorem get_eq_of_entries {t : Table} {f : Byte → Byte}
    (h : t.entries = (List.range 256).map fun n => f (BitVec.ofNat 8 n)) (b : Byte) :
    t.get b = f b := by
  have hb : b.toNat < 256 := b.isLt
  rw [get, h, List.getD_eq_getElem _ _ (by simpa using hb)]
  simp

/-- A table lists the arguments of another one's successive values. -/
theorem leftInverse_of_map {t u : Table}
    (h : t.entries.map u.get = (List.range 256).map (BitVec.ofNat 8)) :
    Function.LeftInverse u.get t.get := by
  intro b
  have hb : b.toNat < 256 := b.isLt
  have ht : b.toNat < t.entries.length := by rw [t.size]; exact hb
  have hg := congrArg (fun l => l[b.toNat]?) h
  simp only [List.getElem?_map, List.getElem?_range hb, List.getElem?_eq_getElem ht,
    Option.map_some, Option.some.injEq, BitVec.ofNat_toNat, BitVec.setWidth_eq] at hg
  rw [get, get, List.getD_eq_getElem _ _ ht]
  exact hg

end Table

namespace ByteField
open Polynomial

def xtimes (red a : Byte) : Byte := (a <<< 1) ^^^ (if a.msb then red else 0)

/-- The partial product over the `n` low bits of the second factor. -/
def mulBits (red a b : Byte) : Nat → Byte
  | 0 => 0
  | n + 1 => mulBits red a b n ^^^ (if b.getLsbD n then (xtimes red)^[n] a else 0)

def mul (red a b : Byte) : Byte := mulBits red a b 8

theorem xorHom_xtimes (red : Byte) : XorHom (xtimes red) :=
  (xorHom_shiftLeft 1).xor (xorHom_select (fun _ _ => BitVec.msb_xor) red)

theorem xorHom_mulBits_left (red b : Byte) (n : Nat) : XorHom fun a => mulBits red a b n := by
  induction n with
  | zero => exact fun _ _ => (BitVec.xor_self).symm
  | succ n ih =>
    refine ih.xor ?_
    cases b.getLsbD n
    · exact fun _ _ => (BitVec.xor_self).symm
    · exact (xorHom_xtimes red).iterate n

theorem xorHom_mulBits_right (red a : Byte) (n : Nat) : XorHom fun b => mulBits red a b n := by
  induction n with
  | zero => exact fun _ _ => (BitVec.xor_self).symm
  | succ n ih => exact ih.xor (xorHom_select (fun _ _ => BitVec.getLsbD_xor) _)

theorem xorHom_mul_left (red b : Byte) : XorHom fun a => mul red a b := xorHom_mulBits_left red b 8

theorem xorHom_mul_right (red a : Byte) : XorHom (mul red a) := xorHom_mulBits_right red a 8

theorem mulBits_shift (red a b : Byte) (n : Nat) :
    mulBits red a b (n + 1) =
      (if b.getLsbD 0 then a else 0) ^^^ mulBits red (xtimes red a) (b >>> 1) n := by
  induction n with
  | zero => simp [mulBits]
  | succ n ih =>
    have hbit : (b >>> 1).getLsbD n = b.getLsbD (n + 1) := by
      rw [BitVec.getLsbD_ushiftRight, Nat.add_comm]
    rw [mulBits, ih, mulBits, hbit, Function.iterate_succ_apply, LawfulXor.xor_assoc]

/-- The lowest bit of the second factor, and the rest of it. -/
theorem mul_shift (red a b : Byte) :
    mul red a b = (if b.getLsbD 0 then a else 0) ^^^ mul red (xtimes red a) (b >>> 1) := by
  have hlast : (b >>> 1).getLsbD 7 = false := by
    rw [BitVec.getLsbD_ushiftRight]
    exact BitVec.getLsbD_of_ge b 8 le_rfl
  have hmul : mul red (xtimes red a) (b >>> 1) = mulBits red (xtimes red a) (b >>> 1) 7 := by
    rw [mul, mulBits, hlast, if_neg Bool.false_ne_true]
    exact BitVec.xor_zero
  rw [hmul, ← mulBits_shift]
  rfl

/-! ## The polynomial a byte stands for -/

/-- Coefficient `i` of the polynomial of a byte. -/
def coeffBit (b : Byte) (i : Nat) : ZMod 2 := if b.getLsbD i then 1 else 0

noncomputable def lowPoly (b : Byte) (n : Nat) : (ZMod 2)[X] :=
  ∑ i ∈ Finset.range n, C (coeffBit b i) * X ^ i

noncomputable def toPoly (b : Byte) : (ZMod 2)[X] := lowPoly b 8

noncomputable def modulus (red : Byte) : (ZMod 2)[X] := X ^ 8 + toPoly red

theorem coeffBit_xor (a b : Byte) (i : Nat) :
    coeffBit (a ^^^ b) i = coeffBit a i + coeffBit b i := by
  simp only [coeffBit, BitVec.getLsbD_xor]
  cases a.getLsbD i <;> cases b.getLsbD i <;> decide

theorem toPoly_xor (a b : Byte) : toPoly (a ^^^ b) = toPoly a + toPoly b := by
  simp only [toPoly, lowPoly, coeffBit_xor, C_add, add_mul, Finset.sum_add_distrib]

@[simp] theorem toPoly_zero : toPoly 0 = 0 := by
  simp [toPoly, lowPoly, coeffBit]

theorem coeff_toPoly (b : Byte) (n : Nat) :
    (toPoly b).coeff n = if n < 8 then coeffBit b n else 0 := by
  simp [toPoly, lowPoly, coeff_C_mul, coeff_X_pow]

theorem toPoly_injective : Function.Injective toPoly := by
  intro a b h
  apply BitVec.eq_of_getLsbD_eq
  intro i hi
  have hc := congrArg (fun p => p.coeff i) h
  simp only [coeff_toPoly, hi, if_true, coeffBit] at hc
  cases ha : a.getLsbD i <;> cases hb : b.getLsbD i <;> simp [ha, hb] at hc ⊢

theorem degree_toPoly_lt (b : Byte) : (toPoly b).degree < 8 := by
  apply (degree_lt_iff_coeff_zero (toPoly b) 8).mpr
  intro n hn
  rw [coeff_toPoly, if_neg (not_lt.mpr hn)]

theorem modulus_monic (red : Byte) : (modulus red).Monic := monic_X_pow_add (degree_toPoly_lt red)

theorem degree_modulus (red : Byte) : (modulus red).degree = 8 := by
  rw [modulus, degree_add_eq_left_of_degree_lt] <;> rw [degree_X_pow]
  · rfl
  · exact degree_toPoly_lt red

theorem toPoly_modByMonic (red b : Byte) : toPoly b %ₘ modulus red = toPoly b := by
  rw [modByMonic_eq_self_iff (modulus_monic red), degree_modulus]
  exact degree_toPoly_lt b

theorem coeff_toPoly_shiftLeft (a : Byte) (n : Nat) :
    (toPoly (a <<< 1)).coeff (n + 1) = if n < 7 then coeffBit a n else 0 := by
  rw [coeff_toPoly]
  by_cases hn : n < 7
  · have h8 : n + 1 < 8 := by omega
    have hlow : n < 8 := by omega
    simp [coeffBit, hn, h8, BitVec.getLsbD_eq_getElem hlow]
  · rw [if_neg (by omega), if_neg hn]

/-- The bit that falls off the shift is the coefficient of `X^8`. -/
theorem toPoly_shiftLeft (a : Byte) :
    toPoly (a <<< 1) + (if a.msb then X ^ 8 else 0) = X * toPoly a := by
  have hmsb : a.msb = a.getLsbD 7 := BitVec.msb_eq_getLsbD_last a
  ext n
  rcases n with _ | n
  · cases a.msb <;> simp [coeff_toPoly, coeffBit]
  · rw [coeff_X_mul, coeff_add, coeff_toPoly_shiftLeft, coeff_toPoly, hmsb]
    rcases lt_trichotomy n 7 with h | rfl | h
    · have hne : n + 1 ≠ 8 := by omega
      have h8 : n < 8 := by omega
      cases a.getLsbD 7 <;> simp [h, h8, coeff_X_pow, hne]
    · simp only [coeffBit]
      cases a.getLsbD 7 <;> simp
    · have hne : n + 1 ≠ 8 := by omega
      have h7 : ¬ n < 7 := by omega
      have h8 : ¬ n < 8 := by omega
      cases a.getLsbD 7 <;> simp [h7, h8, coeff_X_pow, hne]

section Quotient
variable (red : Byte)

noncomputable def residue (b : Byte) : AdjoinRoot (modulus red) := AdjoinRoot.mk (modulus red) (toPoly b)

theorem residue_zero : residue red 0 = 0 := by rw [residue, toPoly_zero, map_zero]

theorem residue_xor (a b : Byte) : residue red (a ^^^ b) = residue red a + residue red b := by
  simp only [residue, toPoly_xor, map_add]

theorem residue_xtimes (a : Byte) :
    residue red (xtimes red a) = AdjoinRoot.root (modulus red) * residue red a := by
  have hpoly : (X : (ZMod 2)[X]) ^ 8 = modulus red + toPoly red := by
    rw [modulus, add_assoc, CharTwo.add_self_eq_zero, add_zero]
  have hfold : AdjoinRoot.mk (modulus red) (X ^ 8) = residue red red := by
    rw [hpoly, map_add, AdjoinRoot.mk_self, zero_add, residue]
  have hshift := congrArg (AdjoinRoot.mk (modulus red)) (toPoly_shiftLeft a)
  rw [map_add, map_mul, AdjoinRoot.mk_X] at hshift
  change _ = _ * AdjoinRoot.mk (modulus red) (toPoly a)
  rw [← hshift, xtimes, residue_xor]
  refine congrArg₂ (· + ·) rfl ?_
  cases a.msb
  · exact (residue_zero red).trans (map_zero _).symm
  · exact hfold.symm

theorem residue_iterate (a : Byte) (n : Nat) :
    residue red ((xtimes red)^[n] a) = AdjoinRoot.root (modulus red) ^ n * residue red a := by
  induction n with
  | zero => simp
  | succ n ih => rw [Function.iterate_succ_apply', residue_xtimes, ih, pow_succ', mul_assoc]

theorem residue_mulBits (a b : Byte) (n : Nat) :
    residue red (mulBits red a b n) =
      residue red a * AdjoinRoot.mk (modulus red) (lowPoly b n) := by
  induction n with
  | zero => rw [mulBits, residue_zero, lowPoly, Finset.sum_range_zero, map_zero, mul_zero]
  | succ n ih =>
    have hlow : lowPoly b (n + 1) = lowPoly b n + C (coeffBit b n) * X ^ n :=
      Finset.sum_range_succ _ _
    rw [mulBits, residue_xor, ih, hlow, map_add, mul_add]
    refine congrArg₂ (· + ·) rfl ?_
    cases hb : b.getLsbD n
    · have hc : coeffBit b n = 0 := by simp [coeffBit, hb]
      rw [hc, C_0, zero_mul, map_zero, mul_zero]
      exact residue_zero red
    · have hc : coeffBit b n = 1 := by simp [coeffBit, hb]
      rw [hc, C_1, one_mul, map_pow, AdjoinRoot.mk_X, mul_comm]
      exact residue_iterate red a n

theorem residue_mul (a b : Byte) : residue red (mul red a b) = residue red a * residue red b :=
  residue_mulBits red a b 8

theorem residue_injective : Function.Injective (residue red) := by
  intro a b h
  apply toPoly_injective
  have hdvd := AdjoinRoot.mk_eq_mk.mp h
  rw [← toPoly_modByMonic red a, ← toPoly_modByMonic red b]
  exact modByMonic_eq_of_dvd_sub (modulus_monic red) hdvd

theorem modMul_comm (a b : Byte) : mul red a b = mul red b a := by
  apply residue_injective red
  rw [residue_mul, residue_mul, mul_comm]

theorem modMul_assoc (a b c : Byte) : mul red (mul red a b) c = mul red a (mul red b c) := by
  apply residue_injective red
  simp only [residue_mul, mul_assoc]

end Quotient

/-- `mul` is the product of polynomials, reduced modulo `X^8 + red`. -/
theorem toPoly_mul (red a b : Byte) :
    toPoly (mul red a b) = (toPoly a * toPoly b) %ₘ modulus red := by
  have hres : AdjoinRoot.mk (modulus red) (toPoly (mul red a b)) =
      AdjoinRoot.mk (modulus red) (toPoly a * toPoly b) := by
    rw [map_mul]
    exact residue_mul red a b
  have hdvd := AdjoinRoot.mk_eq_mk.mp hres
  rw [← toPoly_modByMonic red]
  exact modByMonic_eq_of_dvd_sub (modulus_monic red) hdvd

end ByteField
end KuznyechikDPA

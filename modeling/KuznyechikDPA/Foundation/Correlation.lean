import Mathlib.Algebra.Order.BigOperators.Ring.Finset
import Mathlib.Algebra.BigOperators.Field
import Mathlib.Tactic.FieldSimp
import Mathlib.Tactic.LinearCombination
import Mathlib.Tactic.Positivity

/-!
# Squared correlation of two samples

Squares avoid the root, so that the samples may come from any ordered field. The squared
correlation is at most 1, and it is 1 exactly for two samples of which one is an affine image
of the other.
-/

namespace KuznyechikDPA.Correlation

universe u v

variable {ι : Type u} {K : Type v} [Field K]

def Affine (f g : ι → K) : Prop := ∃ a c, ∀ i, f i = a * g i + c

theorem Affine.refl (f : ι → K) : Affine f f := ⟨1, 0, fun i => by rw [one_mul, add_zero]⟩

variable [Fintype ι]

def mean (f : ι → K) : K := (∑ i, f i) / Fintype.card ι

/-- The sum of the products of the deviations from the means. -/
def comoment (f g : ι → K) : K := ∑ i, (f i - mean f) * (g i - mean g)

/-- There is none when a sample is constant. -/
def squared [DecidableEq K] (f g : ι → K) : Option K :=
  if comoment f f * comoment g g = 0 then none
  else some (comoment f g * comoment f g / (comoment f f * comoment g g))

/-- The rest that a multiple of the second sample leaves of the first one. -/
theorem sum_residue (f g : ι → K) (a : K) :
    ∑ i, ((f i - mean f) - a * (g i - mean g)) * ((f i - mean f) - a * (g i - mean g)) =
      comoment f f - 2 * a * comoment f g + a * a * comoment g g := by
  rw [comoment, comoment, comoment, Finset.mul_sum, Finset.mul_sum, ← Finset.sum_sub_distrib,
    ← Finset.sum_add_distrib]
  exact Finset.sum_congr rfl fun i _ => by ring

theorem sum_best_residue {f g : ι → K} (hg : comoment g g ≠ 0) :
    ∑ i, ((f i - mean f) - comoment f g / comoment g g * (g i - mean g)) *
      ((f i - mean f) - comoment f g / comoment g g * (g i - mean g)) =
        (comoment f f * comoment g g - comoment f g * comoment f g) / comoment g g := by
  rw [sum_residue]
  field_simp
  ring

variable [LinearOrder K] [IsStrictOrderedRing K] {f g : ι → K}

theorem mean_affine [Nonempty ι] {a c : K} (h : ∀ i, f i = a * g i + c) : mean f = a * mean g + c := by
  have hcard : (Fintype.card ι : K) ≠ 0 := Nat.cast_ne_zero.mpr Fintype.card_ne_zero
  have hsum : ∑ i, f i = a * ∑ i, g i + Fintype.card ι * c := by
    rw [Finset.sum_congr rfl fun i _ => h i, Finset.sum_add_distrib, ← Finset.mul_sum, Finset.sum_const,
      nsmul_eq_mul, Finset.card_univ]
  rw [mean, mean, hsum]
  field_simp

theorem comoment_self_nonneg (f : ι → K) : 0 ≤ comoment f f :=
  Finset.sum_nonneg fun i _ => mul_self_nonneg (f i - mean f)

theorem comoment_self_eq_zero_iff : comoment f f = 0 ↔ ∀ i j, f i = f j := by
  constructor
  · intro h i j
    have hzero := (Finset.sum_eq_zero_iff_of_nonneg fun i _ => mul_self_nonneg (f i - mean f)).mp h
    have hi := mul_self_eq_zero.mp (hzero i (Finset.mem_univ i))
    have hj := mul_self_eq_zero.mp (hzero j (Finset.mem_univ j))
    rw [sub_eq_zero.mp hi, sub_eq_zero.mp hj]
  · intro h
    refine Finset.sum_eq_zero fun i _ => ?_
    have : Nonempty ι := ⟨i⟩
    have hmean : mean f = 0 * mean f + f i := mean_affine fun j => by rw [zero_mul, zero_add, h j i]
    rw [zero_mul, zero_add] at hmean
    rw [hmean, sub_self, zero_mul]

theorem comoment_mul_self_le (hg : comoment g g ≠ 0) :
    comoment f g * comoment f g ≤ comoment f f * comoment g g := by
  have hpos : 0 < comoment g g := lt_of_le_of_ne (comoment_self_nonneg g) (Ne.symm hg)
  have hresidue : 0 ≤ (comoment f f * comoment g g - comoment f g * comoment f g) / comoment g g := by
    rw [← sum_best_residue hg]
    exact Finset.sum_nonneg fun i _ => mul_self_nonneg _
  rw [le_div_iff₀ hpos, zero_mul] at hresidue
  exact sub_nonneg.mp hresidue

theorem comoment_mul_self_eq_iff (hg : comoment g g ≠ 0) :
    comoment f g * comoment f g = comoment f f * comoment g g ↔ Affine f g := by
  constructor
  · intro h
    have hsum := sum_best_residue (f := f) hg
    rw [h, sub_self, zero_div] at hsum
    have hzero := (Finset.sum_eq_zero_iff_of_nonneg fun i _ => mul_self_nonneg _).mp hsum
    refine ⟨comoment f g / comoment g g, mean f - comoment f g / comoment g g * mean g, fun i => ?_⟩
    have hi := mul_self_eq_zero.mp (hzero i (Finset.mem_univ i))
    linear_combination hi
  · rintro ⟨a, c, h⟩
    have hdeviation (i : ι) : f i - mean f = a * (g i - mean g) := by
      have : Nonempty ι := ⟨i⟩
      rw [mean_affine h, h i]
      ring
    have hfg : comoment f g = a * comoment g g := by
      rw [comoment, comoment, Finset.mul_sum]
      exact Finset.sum_congr rfl fun i _ => by rw [hdeviation, mul_assoc]
    have hff : comoment f f = a * a * comoment g g := by
      rw [comoment, comoment, Finset.mul_sum]
      exact Finset.sum_congr rfl fun i _ => by rw [hdeviation]; ring
    rw [hfg, hff]
    ring

/-! ## The correlation of samples that are not constant -/

section Varying
variable (hf : ¬ ∀ i j, f i = f j) (hg : ¬ ∀ i j, g i = g j)
include hf hg

theorem squared_eq : squared f g = some (comoment f g * comoment f g / (comoment f f * comoment g g)) :=
  if_neg (mul_ne_zero (mt comoment_self_eq_zero_iff.mp hf) (mt comoment_self_eq_zero_iff.mp hg))

theorem comoments_pos : 0 < comoment f f * comoment g g :=
  mul_pos (lt_of_le_of_ne (comoment_self_nonneg f) (Ne.symm (mt comoment_self_eq_zero_iff.mp hf)))
    (lt_of_le_of_ne (comoment_self_nonneg g) (Ne.symm (mt comoment_self_eq_zero_iff.mp hg)))

theorem squared_le_one : ∃ r, squared f g = some r ∧ r ≤ 1 ∧ (r = 1 ↔ Affine f g) := by
  have hpos := comoments_pos hf hg
  have hg' : comoment g g ≠ 0 := mt comoment_self_eq_zero_iff.mp hg
  refine ⟨_, squared_eq hf hg, (div_le_one hpos).mpr (comoment_mul_self_le hg'), ?_⟩
  rw [div_eq_one_iff_eq hpos.ne', comoment_mul_self_eq_iff hg']

end Varying
end KuznyechikDPA.Correlation

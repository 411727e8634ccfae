import KuznyechikDPA.Foundation.Xor
import Mathlib.Probability.Distributions.Uniform

/-!
# Distributions over uniform masks

The distribution of an observation is taken over a mask drawn uniformly. A word that is
masked by a bijective image of the mask looks the same for every secret, and so does
everything computed from it; a word that does not depend on the mask has all its weight
on one value.
-/

namespace KuznyechikDPA

universe u v

section Uniform
variable {μ : Type u} {β : Type v} [Fintype μ] [Nonempty μ]

/-- How an observation is distributed when the mask is uniform. -/
noncomputable def distribution (observe : μ → β) : PMF β := (PMF.uniformOfFintype μ).map observe

theorem uniform_map_equiv (e : μ ≃ μ) :
    (PMF.uniformOfFintype μ).map e = PMF.uniformOfFintype μ := by
  ext m
  rw [PMF.map_apply, tsum_eq_single (e.symm m)]
  · simp
  · intro m' hne
    rw [if_neg]
    intro hm
    exact hne (e.symm_apply_eq.mpr hm).symm

/-- Renaming the masks does not change a distribution. -/
theorem distribution_comp (e : μ ≃ μ) (observe : μ → β) :
    distribution (observe ∘ e) = distribution observe := by
  rw [distribution, ← PMF.map_comp, uniform_map_equiv]
  rfl

theorem distribution_const (b : β) : distribution (fun _ : μ => b) = PMF.pure b :=
  PMF.map_const _ b

theorem pure_injective : Function.Injective (PMF.pure (α := β)) := by
  intro a b h
  have hmem : a ∈ (PMF.pure b).support := by
    rw [← h]
    simp
  simpa using hmem

end Uniform

section Masked
variable {α : Type u} {β : Type v} [Fintype α] [Nonempty α] [XorOp α] [Zero α] [LawfulXor α]

/-- What is computed from a masked word has a distribution that the secret does not enter. -/
theorem distribution_masked {move : α → α} (hmove : Function.Bijective move) (observe : α → β)
    (a a' : α) :
    distribution (fun m => observe (a ^^^ move m)) = distribution fun m => observe (a' ^^^ move m) := by
  let e := Equiv.ofBijective move hmove
  -- the mask that makes `a'` look as `m` makes `a`
  have hrename := distribution_comp (e.trans ((Equiv.xor (a' ^^^ a)).trans e.symm))
    fun m => observe (a' ^^^ move m)
  rw [← hrename]
  congr 1
  funext m
  have hback : move (e.symm ((a' ^^^ a) ^^^ move m)) = (a' ^^^ a) ^^^ move m :=
    e.apply_symm_apply _
  change _ = observe (a' ^^^ move (e.symm ((a' ^^^ a) ^^^ move m)))
  rw [hback, ← xor_assoc, xor_cancel_left]

end Masked

end KuznyechikDPA

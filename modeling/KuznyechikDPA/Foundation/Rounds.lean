import KuznyechikDPA.Foundation.Xor

/-!
# Iterated rounds

A cipher folds a list of round indices over its state. Rounds that undo each other
one by one do so as wholes when the indices are taken in the opposite order, and a
map that commutes with every round commutes with the whole fold (`List.foldl_hom`).
-/

namespace KuznyechikDPA.Rounds

universe u v w
variable {σ : Type u} {ρ : Type v} {τ : Type w}

/-- Rounds `g` that work on a transformed state undo the rounds `f` below the transform. -/
theorem foldl_reverse_transform {f : σ → ρ → σ} {g : τ → ρ → τ} (transform : σ → τ)
    (h : ∀ s r, g (transform (f s r)) r = transform s) (rs : List ρ) (s : σ) :
    rs.reverse.foldl g (transform (rs.foldl f s)) = transform s := by
  induction rs generalizing s with
  | nil => rfl
  | cons r rs ih =>
    simp only [List.reverse_cons, List.foldl_append, List.foldl_cons, List.foldl_nil, ih]
    exact h s r

variable {f g : σ → ρ → σ}

theorem foldl_reverse_cancel (h : ∀ s r, g (f s r) r = s) (rs : List ρ) (s : σ) :
    rs.reverse.foldl g (rs.foldl f s) = s :=
  foldl_reverse_transform id h rs s

theorem foldl_cancel_reverse (h : ∀ s r, f (g s r) r = s) (rs : List ρ) (s : σ) :
    rs.foldl f (rs.reverse.foldl g s) = s := by
  have hrev := foldl_reverse_cancel h rs.reverse s
  rwa [List.reverse_reverse] at hrev

end KuznyechikDPA.Rounds

import Mathlib.Order.Basic

/-!
# Runs of a synchronous machine

`step` takes the values sampled at one clock edge and the registers before it to the
registers after it. A run reads one sample from an infinite input at every edge.
-/

namespace KuznyechikDPA.Machine

universe u v w
variable {ι : Type u} {σ : Type v} (step : ι → σ → σ) (s : σ) (input : Nat → ι)

/-- The registers before edge `t`. -/
def run : Nat → σ
  | 0 => s
  | t + 1 => step (input t) (run t)

@[simp] theorem run_zero : run step s input 0 = s := rfl

theorem run_succ (t : Nat) : run step s input (t + 1) = step (input t) (run step s input t) := rfl

theorem run_add (a b : Nat) :
    run step s input (a + b) = run step (run step s input a) (fun t => input (a + t)) b := by
  induction b with
  | zero => rfl
  | succ b ih => rw [← Nat.add_assoc, run_succ, run_succ, ih]

/-- What every step keeps holds along every run. -/
theorem run_invariant {step s} {I : σ → Prop} (h0 : I s) (hstep : ∀ i s, I s → I (step i s))
    (t : Nat) : I (run step s input t) := by
  induction t with
  | zero => exact h0
  | succ t ih => exact hstep (input t) _ ih

/-- A map that commutes with the steps of two machines, on registers that the steps keep,
commutes with their runs. -/
theorem run_hom_on {τ : Type w} {step s} {step' : ι → τ → τ} {f : σ → τ} {I : σ → Prop}
    (h0 : I s) (hstep : ∀ i s, I s → I (step i s)) (h : ∀ i s, I s → f (step i s) = step' i (f s))
    (t : Nat) : f (run step s input t) = run step' (f s) input t := by
  induction t with
  | zero => rfl
  | succ t ih => rw [run_succ, h _ _ (run_invariant input h0 hstep t), ih, run_succ]

theorem run_hom {τ : Type w} {step s} {step' : ι → τ → τ} {f : σ → τ}
    (h : ∀ i s, f (step i s) = step' i (f s)) (t : Nat) :
    f (run step s input t) = run step' (f s) input t :=
  run_hom_on input (I := fun _ => True) trivial (fun _ _ _ => trivial) (fun i s _ => h i s) t

/-! ## Two runs side by side -/

/-- Two traces are related at the start and by every step that keeps them related, and a step that
does not shows at once. Then they show the same exactly as long as every step has kept them. -/
theorem shows_same_iff {ο : Type w} {R K : Nat → Prop} {shown shown' : Nat → ο} (h0 : R 0)
    (hkeep : ∀ t, R t → K t → R (t + 1)) (hsame : ∀ t, R t → shown t = shown' t)
    (hpart : ∀ t, R t → ¬ K t → shown (t + 1) ≠ shown' (t + 1)) (n : Nat) :
    (∀ t ≤ n, shown t = shown' t) ↔ ∀ t < n, K t := by
  constructor
  · intro h t ht
    have hrel : ∀ m ≤ t, R m := by
      intro m hm
      induction m with
      | zero => exact h0
      | succ m ih =>
        have hm' := ih (by omega)
        refine hkeep m hm' (by_contra fun hnot => ?_)
        exact hpart m hm' hnot (h (m + 1) (by omega))
    by_contra hnot
    exact hpart t (hrel t (Nat.le_refl t)) hnot (h (t + 1) ht)
  · intro h t ht
    have hrel : R t := by
      induction t with
      | zero => exact h0
      | succ t ih => exact hkeep t (ih (by omega)) (h t (by omega))
    exact hsame t hrel

end KuznyechikDPA.Machine

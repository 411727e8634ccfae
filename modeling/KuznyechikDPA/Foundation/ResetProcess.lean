import KuznyechikDPA.Foundation.Machine
import Mathlib.Data.Nat.Init

/-!
# Clocked processes with an asynchronous reset

A process samples a reset level, its clock and its data at every instant. A reset wins over
an edge and starts a new run; between edges and resets the registers are held.
-/

namespace KuznyechikDPA

universe u v

structure ResetProcess (ι : Type u) (σ : Type v) where
  init : σ
  reset : σ → σ
  edge : ι → σ → σ

namespace ResetProcess

/-- What a process samples at one instant. -/
structure Sample (ι : Type u) where
  reset : Bool
  rising : Bool
  data : ι

variable {ι : Type u} {σ : Type v} (P : ResetProcess ι σ)

def step (e : Sample ι) (s : σ) : σ :=
  if e.reset then P.reset s else if e.rising then P.edge e.data s else s

/-- The registers before instant `t` of a run from power-up. -/
def run (p : Nat → Sample ι) (t : Nat) : σ := Machine.run P.step P.init p t

/-- The clocked branch is taken at instant `t`. -/
structure Clocked (p : Nat → Sample ι) (t : Nat) : Prop where
  reset : (p t).reset = false
  rising : (p t).rising = true

/-- The instants after `r` and before `e` belong to the run that the reset at `r` starts. -/
structure RunFrom (p : Nat → Sample ι) (r e : Nat) : Prop where
  reset : (p r).reset = true
  quiet : ∀ t, r < t → t < e → (p t).reset = false

variable {P} {p : Nat → Sample ι} {r e t : Nat}

theorem run_reset (h : (p t).reset = true) : P.run p (t + 1) = P.reset (P.run p t) := by
  rw [run, Machine.run_succ, step, if_pos h]
  rfl

theorem run_edge (h : Clocked p t) : P.run p (t + 1) = P.edge (p t).data (P.run p t) := by
  rw [run, Machine.run_succ, step, h.reset, if_neg Bool.false_ne_true, if_pos h.rising]
  rfl

theorem run_hold (hreset : (p t).reset = false) (hrising : (p t).rising = false) :
    P.run p (t + 1) = P.run p t := by
  rw [run, Machine.run_succ, step, hreset, hrising]
  rfl

theorem clocked_or_hold (P : ResetProcess ι σ) (hreset : (p t).reset = false) :
    Clocked p t ∨ P.run p (t + 1) = P.run p t := by
  cases hrising : (p t).rising with
  | true => exact .inl ⟨hreset, hrising⟩
  | false => exact .inr (run_hold hreset hrising)

/-- A signal that resets clear rises at edges only. -/
theorem clocked_of_rise {f : σ → Bool} (hclear : ∀ s, f (P.reset s) = false)
    (hlow : f (P.run p t) = false) (hhigh : f (P.run p (t + 1)) = true) :
    Clocked p t ∧ f (P.edge (p t).data (P.run p t)) = true := by
  cases hreset : (p t).reset with
  | true =>
    rw [run_reset hreset, hclear] at hhigh
    contradiction
  | false =>
    rcases clocked_or_hold P hreset with hclock | hsame
    · rw [run_edge hclock] at hhigh
      exact ⟨hclock, hhigh⟩
    · rw [hsame, hlow] at hhigh
      contradiction

/-- What resets and edges keep holds at every instant. -/
theorem run_invariant {I : σ → Prop} (h0 : I P.init) (hreset : ∀ s, I s → I (P.reset s))
    (hedge : ∀ i s, I s → I (P.edge i s)) (t : Nat) : I (P.run p t) := by
  apply Machine.run_invariant p h0
  intro e s hs
  rw [step]
  cases e.reset with
  | true => exact hreset s hs
  | false =>
    cases e.rising with
    | true => exact hedge e.data s hs
    | false => exact hs

theorem RunFrom.shorten (h : RunFrom p r e) (ht : t ≤ e) : RunFrom p r t :=
  ⟨h.reset, fun u hr hu => h.quiet u hr (by omega)⟩

theorem RunFrom.extend (h : RunFrom p r t) (hreset : (p t).reset = false) : RunFrom p r (t + 1) := by
  refine ⟨h.reset, fun u hr hu => ?_⟩
  obtain hlt | rfl : u < t ∨ u = t := by omega
  · exact h.quiet u hr hlt
  · exact hreset

/-- After a reset the process is in a run that this reset or a later one has started. -/
theorem exists_runFrom_of_reset (hreset : (p r).reset = true) (hr : r < t) :
    ∃ u < t, r ≤ u ∧ RunFrom p u t := by
  induction t, hr using Nat.le_induction with
  | base => exact ⟨r, Nat.lt_succ_self r, Nat.le_refl r, hreset, fun _ _ _ => by omega⟩
  | succ t hr ih =>
    cases hlast : (p t).reset with
    | true => exact ⟨t, Nat.lt_succ_self t, by omega, hlast, fun _ _ _ => by omega⟩
    | false =>
      obtain ⟨u, hu, hru, hrun⟩ := ih
      exact ⟨u, by omega, hru, hrun.extend hlast⟩

/-- What a reset establishes and edges keep holds in the whole run that the reset starts. -/
theorem RunFrom.invariant (h : RunFrom p r e) {I : Nat → σ → Prop}
    (h0 : I (r + 1) (P.reset (P.run p r)))
    (hhold : ∀ t, r < t → t < e → I t (P.run p t) → I (t + 1) (P.run p t))
    (hedge : ∀ t, r < t → t < e → Clocked p t → I t (P.run p t) →
      I (t + 1) (P.edge (p t).data (P.run p t)))
    (hr : r < t) (ht : t ≤ e) : I t (P.run p t) := by
  induction t, hr using Nat.le_induction with
  | base =>
    rw [run_reset h.reset]
    exact h0
  | succ t hr ih =>
    have hrt : r < t := hr
    have hnow := ih (by omega)
    rcases clocked_or_hold P (h.quiet t hrt (by omega)) with hclock | hsame
    · rw [run_edge hclock]
      exact hedge t hrt (by omega) hclock hnow
    · rw [hsame]
      exact hhold t hrt (by omega) hnow

/-- At any instant the process is in a run that a reset has started, or has only seen edges
since power-up. -/
theorem exists_runFrom {I : σ → Prop} (h0 : I P.init) (hedge : ∀ i s, I s → I (P.edge i s)) (t : Nat) :
    I (P.run p t) ∨ ∃ r < t, RunFrom p r t := by
  induction t with
  | zero => exact .inl h0
  | succ t ih =>
    cases hreset : (p t).reset with
    | true => exact .inr ⟨t, by omega, hreset, fun u _ _ => by omega⟩
    | false =>
      rcases ih with hinit | ⟨r, hr, hrun⟩
      · rcases clocked_or_hold P hreset with hclock | hsame
        · rw [run_edge hclock]
          exact .inl (hedge _ _ hinit)
        · rw [hsame]
          exact .inl hinit
      · exact .inr ⟨r, by omega, hrun.extend hreset⟩

end ResetProcess
end KuznyechikDPA

import KuznyechikDPA.Foundation.ResetProcess
import Mathlib.Data.Int.Init
import Mathlib.Tactic.SplitIfs

/-!
# Runs with range checks

A simulator stops when a signal is assigned a value outside its declared range or when an array
is accessed outside its bounds. A checked step returns `none` there; a checked run is the run of
the unchecked machine as long as no step stops.
-/

namespace KuznyechikDPA

universe u v

/-- A value for a signal of the range `lo` to `hi`, or an index of an array with these bounds. -/
def check (lo hi v : Int) : Option Nat := if lo ≤ v ∧ v ≤ hi then some v.toNat else none

/-- A value in the range passes, and is in the range afterwards. -/
theorem check_eq {a b v : Int} {n : Nat} (hv : v = n) (hlow : a ≤ n) (hhigh : (n : Int) ≤ b) :
    check a b v = some n ∧ (n : Int) ≤ b := by
  rw [check, hv, if_pos ⟨hlow, hhigh⟩]
  exact ⟨rfl, hhigh⟩

theorem check_eq_none {lo hi v : Int} (h : hi < v) : check lo hi v = none :=
  if_neg (by omega)

namespace Machine

variable {ι : Type u} {σ : Type v} (step? : ι → σ → Option σ) (step : ι → σ → σ) (init : σ)

/-- The registers before edge `t`, unless the machine has stopped before. -/
def checkedRun (input : Nat → ι) : Nat → Option σ
  | 0 => some init
  | t + 1 => (checkedRun input t).bind (step? (input t))

/-- Along this input the machine never stops, and its signals are in their ranges. -/
def SafeOn (InRange : σ → Prop) (input : Nat → ι) : Prop :=
  ∀ t, checkedRun step? init input t = some (run step init input t) ∧ InRange (run step init input t)

variable {step? step init} {InRange : σ → Prop}

/-- A step that is not admissible stops the machine; the others keep to it and to the ranges. -/
theorem safeOn_iff {Q : ι → σ → Prop} (h0 : InRange init)
    (hok : ∀ i s, InRange s → Q i s → step? i s = some (step i s) ∧ InRange (step i s))
    (hstop : ∀ i s, InRange s → ¬ Q i s → step? i s = none) (input : Nat → ι) :
    SafeOn step? step init InRange input ↔ ∀ t, Q (input t) (run step init input t) := by
  constructor
  · intro h t
    by_contra hnot
    have hnext := (h (t + 1)).1
    rw [checkedRun, (h t).1, Option.bind_some, hstop _ _ (h t).2 hnot] at hnext
    contradiction
  · intro h t
    induction t with
    | zero => exact ⟨rfl, h0⟩
    | succ t ih =>
      obtain ⟨hrun, hrange⟩ := ih
      obtain ⟨hstep, hnext⟩ := hok _ _ hrange (h t)
      refine ⟨?_, hnext⟩
      rw [checkedRun, hrun, Option.bind_some, hstep]
      rfl

/-- A machine all of whose steps are admissible never stops. -/
theorem safeOn_of_steps (h0 : InRange init)
    (h : ∀ i s, InRange s → step? i s = some (step i s) ∧ InRange (step i s)) (input : Nat → ι) :
    SafeOn step? step init InRange input :=
  (safeOn_iff (Q := fun _ _ => True) h0 (fun i s hs _ => h i s hs)
    (fun _ _ _ hnot => absurd trivial hnot) input).mpr fun _ => trivial

end Machine

namespace ResetProcess

variable {ι : Type u} {σ : Type v} (P : ResetProcess ι σ) (edge? : ι → σ → Option σ)

/-- The process with a checked edge; what a reset assigns are constants. -/
def step? (e : Sample ι) (s : σ) : Option σ :=
  if e.reset then some (P.reset s) else if e.rising then edge? e.data s else some s

/-- Along this input the process never stops, and its signals are in their ranges. -/
def SafeOn (InRange : σ → Prop) (p : Nat → Sample ι) : Prop :=
  Machine.SafeOn (P.step? edge?) P.step P.init InRange p

variable {P edge?} {InRange : σ → Prop}

theorem safeOn_iff {Q : ι → σ → Prop} (h0 : InRange P.init)
    (hreset : ∀ s, InRange s → InRange (P.reset s))
    (hok : ∀ i s, InRange s → Q i s → edge? i s = some (P.edge i s) ∧ InRange (P.edge i s))
    (hstop : ∀ i s, InRange s → ¬ Q i s → edge? i s = none) (p : Nat → Sample ι) :
    P.SafeOn edge? InRange p ↔ ∀ t, Clocked p t → Q (p t).data (P.run p t) := by
  have hcheckedStep (e : Sample ι) (s : σ) (hs : InRange s)
      (hnow : e.reset = false → e.rising = true → Q e.data s) :
      P.step? edge? e s = some (P.step e s) ∧ InRange (P.step e s) := by
    rw [step?, step]
    split_ifs with hreset' hrise
    · exact ⟨rfl, hreset s hs⟩
    · exact hok e.data s hs (hnow (Bool.eq_false_iff.mpr hreset') hrise)
    · exact ⟨rfl, hs⟩
  have hcheckedStop (e : Sample ι) (s : σ) (hs : InRange s)
      (hnot : ¬ (e.reset = false → e.rising = true → Q e.data s)) : P.step? edge? e s = none := by
    simp only [Classical.not_imp] at hnot
    obtain ⟨hreset', hrise, hnow⟩ := hnot
    rw [step?, hreset', if_neg Bool.false_ne_true, if_pos hrise]
    exact hstop e.data s hs hnow
  refine (Machine.safeOn_iff h0 hcheckedStep hcheckedStop p).trans (forall_congr' fun t => ?_)
  exact ⟨fun h hclock => h hclock.reset hclock.rising, fun h hreset hrise => h ⟨hreset, hrise⟩⟩

theorem safeOn_of_edges (h0 : InRange P.init) (hreset : ∀ s, InRange s → InRange (P.reset s))
    (h : ∀ i s, InRange s → edge? i s = some (P.edge i s) ∧ InRange (P.edge i s))
    (p : Nat → Sample ι) : P.SafeOn edge? InRange p :=
  (safeOn_iff (Q := fun _ _ => True) h0 hreset (fun i s hs _ => h i s hs)
    (fun _ _ _ hnot => absurd trivial hnot) p).mpr fun _ _ => trivial

end ResetProcess
end KuznyechikDPA

import KuznyechikDPA.Foundation.Machine
import Mathlib.Data.List.Chain
import Mathlib.Data.List.Sublists
import Mathlib.Tactic.Ring.Basic

/-!
# Iterative block engines

An engine loads a datum when it is told to start, works on it for a fixed number of
clock edges, and then publishes a result. The result is announced by one period of
`transmit`, provided the receiver is ready and the mark of the datum differs from the
mark announced last, which is all the engine remembers of earlier blocks.
-/

namespace KuznyechikDPA

universe u v w x

/-- `env` is what the working edges read of a sample; `load` is what the start edge reads. -/
structure BlockEngine (ι : Type u) (ε : Type v) (δ : Type w) (β : Type x) where
  starts : ι → Bool
  ready : ι → Bool
  env : ι → ε
  load : ι → δ
  work : ε → Nat → δ → δ
  tours : Nat
  result : δ → β
  mark : δ → β

namespace BlockEngine
variable {ι : Type u} {ε : Type v} {δ : Type w} {β : Type x}

@[ext] structure Registers (δ : Type w) (β : Type x) where
  tour : Nat
  datum : δ
  memory : β
  output : β
  transmit : Bool

section Edge
variable [DecidableEq β] (e : BlockEngine ι ε δ β)

def publish (i : ι) (s : Registers δ β) : Registers δ β :=
  if e.ready i ∧ s.memory ≠ e.mark s.datum then
    { s with output := e.result s.datum, transmit := true, memory := e.mark s.datum }
  else
    { s with output := e.result s.datum, transmit := false, tour := 0 }

def edge (i : ι) (s : Registers δ β) : Registers δ β :=
  if s.tour = 0 then
    if e.starts i then { s with tour := 1, datum := e.load i, transmit := false } else s
  else if s.tour ≤ e.tours then
    { s with datum := e.work (e.env i) s.tour s.datum, tour := s.tour + 1 }
  else if s.tour = e.tours + 1 then e.publish i s
  else s

end Edge

section Stages
variable (e : BlockEngine ι ε δ β)

/-- The datum after `n` working edges, all in the environment of the starting sample. -/
def stage (i : ι) : Nat → δ
  | 0 => e.load i
  | n + 1 => e.work (e.env i) (n + 1) (stage i n)

def blockResult (i : ι) : β := e.result (e.stage i e.tours)

def blockMark (i : ι) : β := e.mark (e.stage i e.tours)

end Stages

/-! ## One block -/

section Block
variable [DecidableEq β] (e : BlockEngine ι ε δ β) {i : ι} {s : Registers δ β}

theorem edge_start (ht : s.tour = 0) (hs : e.starts i = true) :
    e.edge i s = { s with tour := 1, datum := e.load i, transmit := false } := by
  rw [edge, if_pos ht, if_pos hs]

theorem edge_idle (ht : s.tour = 0) (hs : e.starts i = false) : e.edge i s = s := by
  rw [edge, if_pos ht, if_neg (by simp [hs])]

theorem edge_work (h0 : s.tour ≠ 0) (ht : s.tour ≤ e.tours) :
    e.edge i s = { s with datum := e.work (e.env i) s.tour s.datum, tour := s.tour + 1 } := by
  rw [edge, if_neg h0, if_pos ht]

theorem edge_publish (ht : s.tour = e.tours + 1) : e.edge i s = e.publish i s := by
  rw [edge, if_neg (by omega), if_neg (by omega), if_pos ht]

theorem edge_announce (ht : s.tour = e.tours + 1) (hready : e.ready i = true)
    (hmark : s.memory ≠ e.mark s.datum) :
    e.edge i s =
      { s with output := e.result s.datum, transmit := true, memory := e.mark s.datum } := by
  rw [edge_publish e ht, publish, if_pos ⟨hready, hmark⟩]

/-- A mark that is remembered already ends the block without an announcement. -/
theorem edge_finish (ht : s.tour = e.tours + 1) (hmark : s.memory = e.mark s.datum) :
    e.edge i s = { s with output := e.result s.datum, transmit := false, tour := 0 } := by
  rw [edge_publish e ht, publish, if_neg fun h => h.2 hmark]

/-- The engine is `n` edges into the block that started at the sample `b`. -/
structure Working (b : ι) (n : Nat) (s : Registers δ β) : Prop where
  tour : s.tour = n + 1
  datum : s.datum = e.stage b n
  silent : s.transmit = false

theorem working_start (ht : s.tour = 0) (hs : e.starts i = true) : e.Working i 0 (e.edge i s) := by
  rw [edge_start e ht hs]
  exact ⟨rfl, rfl, rfl⟩

theorem working_step {b : ι} {n : Nat} (h : e.Working b n s) (hn : n < e.tours)
    (henv : e.env i = e.env b) : e.Working b (n + 1) (e.edge i s) := by
  have htour := h.tour
  rw [edge_work e (by omega) (by omega)]
  refine ⟨by rw [htour], ?_, h.silent⟩
  rw [stage, henv, htour, h.datum]

theorem output_of_working {b : ι} (h : e.Working b e.tours s) :
    (e.edge i s).output = e.blockResult b := by
  rw [edge_publish e h.tour, publish]
  split <;> exact congrArg e.result h.datum

end Block

/-! ## A run that starts with a block -/

section Run
variable [DecidableEq β] (e : BlockEngine ι ε δ β) {s : Registers δ β} {input : Nat → ι}
variable (htour : s.tour = 0) (hstart : e.starts (input 0) = true)
variable (henv : ∀ t ≤ e.tours, e.env (input t) = e.env (input 0))
include htour hstart henv

theorem working_run (n : Nat) (hn : n ≤ e.tours) :
    e.Working (input 0) n (Machine.run e.edge s input (n + 1)) := by
  induction n with
  | zero => exact e.working_start htour hstart
  | succ n ih => exact e.working_step (ih (by omega)) (by omega) (henv (n + 1) hn)

theorem run_output :
    (Machine.run e.edge s input (e.tours + 1)).tour = e.tours + 1 ∧
      (Machine.run e.edge s input (e.tours + 2)).output = e.blockResult (input 0) := by
  have hlast := e.working_run htour hstart henv e.tours le_rfl
  exact ⟨hlast.tour, e.output_of_working hlast⟩

/-- Two edges after the last working edge the engine is at rest, announcement or not. -/
theorem run_rest (hidle : e.starts (input (e.tours + 2)) = false) :
    (Machine.run e.edge s input (e.tours + 3)).tour = 0 := by
  have hlast := e.working_run htour hstart henv e.tours le_rfl
  rw [Machine.run_succ, Machine.run_succ]
  generalize Machine.run e.edge s input (e.tours + 1) = r at hlast
  rw [edge_publish e hlast.tour, publish]
  split
  · have hfinish := edge_finish e (i := input (e.tours + 2))
      (s := { r with
        output := e.result r.datum
        transmit := true
        memory := e.mark r.datum }) hlast.tour rfl
    rw [hfinish]
  · rw [edge_idle e rfl hidle]

end Run

end BlockEngine
end KuznyechikDPA

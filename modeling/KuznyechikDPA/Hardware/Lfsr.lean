import KuznyechikDPA.Hardware.Vectors
import Mathlib.Logic.Function.Iterate
import Mathlib.Tactic.SplitIfs

/-!
# The process of `lfsr.vhd`

`MSB` is a register of its own, so the feedback enters `state` one edge late and the
generator has 129 cells: `state` and `MSB`. A start loads the seed and leaves `MSB`. A word
of `outp` takes 128 edges to collect and one to hand over, and what `state` shifts out on
that edge is lost.
-/

namespace KuznyechikDPA.Lfsr

structure Ports where
  seed : Block
  start : Bool

@[ext] structure Registers where
  state : Block
  stateBis : Block
  outp : Block
  MSB : Bool
  index : Nat
  canRun : Bool

/-- `state` and `outp` have no initial value. -/
def Registers.init (state outp : Block) : Registers where
  state := state
  stateBis := 0
  outp := outp
  MSB := false
  index := 0
  canRun := false

/-- The assignment `v(index) <= b`. -/
def assign (v : Block) (index : Nat) (b : Bool) : Block :=
  if b then v ||| BitVec.twoPow 128 index else v &&& ~~~ BitVec.twoPow 128 index

def feedback (state : Block) : Bool :=
  state.getLsbD 127 ^^ state.getLsbD 126 ^^ state.getLsbD 125 ^^ state.getLsbD 120 ^^ state.getLsbD 0

def edge (p : Ports) (s : Registers) : Registers :=
  if p.start then { s with state := p.seed, index := 0, canRun := true }
  else if s.canRun then
    let s' := { s with
      MSB := feedback s.state
      state := BitVec.cons s.MSB (s.state.extractLsb' 1 127) }
    if s.index < 128 then
      { s' with stateBis := assign s.stateBis s.index (s.state.getLsbD 0), index := s.index + 1 }
    else { s' with outp := s.stateBis, index := 0 }
  else s

/-! ## The cells -/

abbrev Cells := Block × Bool

/-- One move of `state` and `MSB`. -/
def advance (x : Cells) : Cells := (BitVec.cons x.2 (x.1.extractLsb' 1 127), feedback x.1)

/-- The cells before a move. -/
def retreat (x : Cells) : Cells :=
  (BitVec.concat (x.1.extractLsb' 0 127)
    (x.2 ^^ x.1.getLsbD 126 ^^ x.1.getLsbD 125 ^^ x.1.getLsbD 124 ^^ x.1.getLsbD 119), x.1.getLsbD 127)

theorem getLsbD_advance (x : Cells) {i : Nat} (hi : i < 127) :
    (advance x).1.getLsbD i = x.1.getLsbD (i + 1) := by
  rw [advance, BitVec.getLsbD_cons, if_neg (by omega), BitVec.getLsbD_extractLsb', decide_eq_true hi,
    Bool.true_and, Nat.add_comm]

theorem getLsbD_advance_last (x : Cells) : (advance x).1.getLsbD 127 = x.2 := by
  rw [advance, BitVec.getLsbD_cons, if_pos rfl]

theorem getLsbD_retreat (x : Cells) {i : Nat} (hi : i < 127) :
    (retreat x).1.getLsbD (i + 1) = x.1.getLsbD i := by
  rw [retreat, BitVec.getLsbD_concat, if_neg (by omega), BitVec.getLsbD_extractLsb']
  simp [hi]

theorem getLsbD_retreat_zero (x : Cells) : (retreat x).1.getLsbD 0 =
    (x.2 ^^ x.1.getLsbD 126 ^^ x.1.getLsbD 125 ^^ x.1.getLsbD 124 ^^ x.1.getLsbD 119) := by
  rw [retreat, BitVec.getLsbD_concat, if_pos rfl]

theorem retreat_advance : Function.LeftInverse retreat advance := by
  intro x
  apply Prod.ext
  · apply BitVec.eq_of_getLsbD_eq
    intro i hi
    rcases i with _ | i
    · rw [getLsbD_retreat_zero]
      have h126 := getLsbD_advance x (i := 126) (by omega)
      have h125 := getLsbD_advance x (i := 125) (by omega)
      have h124 := getLsbD_advance x (i := 124) (by omega)
      have h119 := getLsbD_advance x (i := 119) (by omega)
      rw [h126, h125, h124, h119, advance, feedback]
      cases x.1.getLsbD 127 <;> cases x.1.getLsbD 126 <;> cases x.1.getLsbD 125 <;>
        cases x.1.getLsbD 120 <;> cases x.1.getLsbD 0 <;> rfl
    · rw [getLsbD_retreat _ (by omega), getLsbD_advance x (by omega)]
  · exact getLsbD_advance_last x

theorem advance_retreat : Function.RightInverse retreat advance := by
  intro x
  apply Prod.ext
  · apply BitVec.eq_of_getLsbD_eq
    intro i hi
    obtain hlt | rfl : i < 127 ∨ i = 127 := by omega
    · rw [getLsbD_advance _ hlt, getLsbD_retreat x hlt]
    · rw [getLsbD_advance_last, retreat]
  · have h127 := getLsbD_retreat x (i := 126) (by omega)
    have h126 := getLsbD_retreat x (i := 125) (by omega)
    have h125 := getLsbD_retreat x (i := 124) (by omega)
    have h120 := getLsbD_retreat x (i := 119) (by omega)
    rw [advance, feedback, h127, h126, h125, h120, getLsbD_retreat_zero]
    cases x.2 <;> cases x.1.getLsbD 126 <;> cases x.1.getLsbD 125 <;> cases x.1.getLsbD 124 <;>
      cases x.1.getLsbD 119 <;> rfl

/-- What is shifted out of `state` are its bits from the right. -/
theorem getLsbD_zero_iterate (x : Cells) {i j : Nat} (h : i + j < 128) :
    (advance^[i] x).1.getLsbD j = x.1.getLsbD (i + j) := by
  induction i generalizing j with
  | zero => rw [Function.iterate_zero_apply, Nat.zero_add]
  | succ i ih =>
    rw [Function.iterate_succ_apply', getLsbD_advance _ (by omega), ih (by omega)]
    congr 1
    omega

/-! ## The words -/

/-- The `w`-th word after a start, counted from one. -/
def word (x : Cells) (w : Nat) : Block := (advance^[129 * (w - 1)] x).1

/-- The two contents of the cells whose `w`-th word is zero. -/
def Blank (w : Nat) (x : Cells) : Prop :=
  x = retreat^[129 * (w - 1)] (0, false) ∨ x = retreat^[129 * (w - 1)] (0, true)

theorem word_eq_zero_iff (x : Cells) (w : Nat) : word x w = 0 ↔ Blank w x := by
  have hback (y : Cells) : x = retreat^[129 * (w - 1)] y ↔ advance^[129 * (w - 1)] x = y := by
    constructor
    · rintro rfl
      exact advance_retreat.iterate _ y
    · rintro rfl
      exact (retreat_advance.iterate _ x).symm
  rw [word, Blank, hback, hback, Prod.ext_iff, Prod.ext_iff, ← and_or_left]
  cases (advance^[129 * (w - 1)] x).2 <;> simp

theorem blank_three (x : Cells) : Blank 3 x ↔ x = (0, false) ∨ x = (0x200a8, true) := by
  have hzero : retreat^[129 * (3 - 1)] (0, false) = (0, false) := Function.iterate_fixed (by decide) _
  have hone : retreat^[129 * (3 - 1)] (0, true) = (0x200a8, true) := by decide +kernel
  rw [Blank, hzero, hone]

/-- `n` edges after a start. -/
structure Follows (x : Cells) (n : Nat) (s : Registers) : Prop where
  canRun : s.canRun = true
  cells : (s.state, s.MSB) = advance^[n] x
  index : s.index = n % 129
  stateBis : ∀ i < n % 129, s.stateBis.getLsbD i = (advance^[129 * (n / 129)] x).1.getLsbD i
  outp : 129 ≤ n → s.outp = word x (n / 129)

theorem getLsbD_assign (v : Block) {index : Nat} (b : Bool) {i : Nat} (hi : i < 128) :
    (assign v index b).getLsbD i = if i = index then b else v.getLsbD i := by
  cases b with
  | false =>
    rw [assign, if_neg Bool.false_ne_true, BitVec.getLsbD_and, BitVec.getLsbD_not, BitVec.getLsbD_twoPow]
    split_ifs with heq
    · simp [heq]
    · simp [hi, Ne.symm heq]
  | true =>
    rw [assign, if_pos rfl, BitVec.getLsbD_or, BitVec.getLsbD_twoPow]
    split_ifs with heq
    · simp [← heq, hi]
    · simp [Ne.symm heq]

theorem follows_start {p : Ports} (hstart : p.start = true) (s : Registers) :
    Follows (p.seed, s.MSB) 0 (edge p s) := by
  rw [edge, if_pos hstart]
  exact ⟨rfl, rfl, rfl, fun i hi => absurd hi (Nat.not_lt_zero i), fun h => absurd h (by decide)⟩

theorem edge_idle {p : Ports} (hstart : p.start = false) {s : Registers} (hrun : s.canRun = false) :
    edge p s = s := by
  simp [edge, hstart, hrun]

theorem follows_edge {p : Ports} (hstart : p.start = false) {x : Cells} {n : Nat} {s : Registers}
    (h : Follows x n s) : Follows x (n + 1) (edge p s) := by
  have hcells : (BitVec.cons s.MSB (s.state.extractLsb' 1 127), feedback s.state) = advance^[n + 1] x := by
    rw [Function.iterate_succ_apply', ← h.cells]
    rfl
  have hindex := h.index
  simp only [edge, hstart, h.canRun, Bool.false_eq_true, if_false, if_true]
  split_ifs with hlow
  · have hdiv : (n + 1) / 129 = n / 129 := by omega
    have hmod : (n + 1) % 129 = n % 129 + 1 := by omega
    refine ⟨rfl, hcells, by simp only; omega, fun i hi => ?_, fun hn => ?_⟩
    · rw [hdiv, getLsbD_assign _ _ (by omega)]
      split_ifs with heq
      · have hsplit : n = i + 129 * (n / 129) := by omega
        have hstate : s.state = (advance^[n] x).1 := congrArg Prod.fst h.cells
        rw [hsplit, Function.iterate_add_apply] at hstate
        rw [hstate, getLsbD_zero_iterate _ (by omega), Nat.add_zero]
      · exact h.stateBis i (by omega)
    · rw [hdiv]
      exact h.outp (by omega)
  · have hdiv : (n + 1) / 129 = n / 129 + 1 := by omega
    have hmod : (n + 1) % 129 = 0 := by omega
    refine ⟨rfl, hcells, hmod.symm, fun i hi => ?_, fun _ => ?_⟩
    · rw [hmod] at hi
      exact absurd hi (Nat.not_lt_zero i)
    · rw [hdiv, word, Nat.add_sub_cancel]
      apply BitVec.eq_of_getLsbD_eq
      intro i hi
      exact h.stateBis i (by omega)

end KuznyechikDPA.Lfsr

import KuznyechikDPA.Uart.TUart
import Mathlib.Tactic.Linarith

/-!
# When the transmitter is ready

`Settled` is what `nxt_state_proc` and the registers of `start` establish after every
edge. `ReadyWithin` bounds the time to the next `tx_ready` from above, for a transmitter
that is not sending; `remaining` bounds it from below, whatever the transmitter does.
-/

namespace KuznyechikDPA.TUart

variable {g : UartGenerics} {p : Ports} {s : Registers}

structure Settled (s : Registers) : Prop where
  delay : s.state = .init → s.delayClock = !s.delayClockDone
  done : s.state = .shift → s.doneShifting = true → s.delayClock = true
  lead : s.startCountLead = true → s.txReadyReg = false

theorem settled_init : Settled .init := by
  constructor <;> simp [Registers.init, settle]

theorem settled_edge (g : UartGenerics) (p : Ports) (s : Registers) : Settled (edge g p s) := by
  constructor
  · intro hinit
    have hstate : (if p.reset then State.init else nxtState s) = .init := hinit
    simp only [edge, settle, hstate]
  · intro hshift hdone
    have hstate : (if p.reset then State.init else nxtState s) = .shift := hshift
    have hlast : (countBitsProc p s).doneShifting = true := hdone
    simp only [edge, settle, hstate, hlast, Bool.true_or]
  · intro hlead
    cases hstart : p.start
    · simp [edge, settle, hstart] at hlead
    · simp [edge, settle, hstart]

theorem startTrans_of_lead (h : s.startCountLead = false) : startTrans s = false := by
  simp [startTrans, h]

theorem lead_of_txReady (h : Settled s) (hready : txReady s = true) :
    s.startCountLead = false := by
  by_contra hlead
  have hreg := h.lead (Bool.of_not_eq_false hlead)
  simp [txReady, hreg] at hready

theorem edge_of_init (hinit : s.state = .init) (hstart : startTrans s = false)
    (hreset : p.reset = false) :
    (edge g p s).state = .init ∧ (edge g p s).startCountLead = p.start ∧
      (edge g p s).startCountFollow = s.startCountLead ∧ (edge g p s).txReadyReg = !p.start ∧
      (edge g p s).delayClock = !(clockDelayProc g s).delayClockDone ∧
      (edge g p s).clkDelayCounter = (clockDelayProc g s).clkDelayCounter := by
  simp [edge, settle, nxtState, hinit, hstart, hreset]

/-! ## The upper bound -/

/-- Not sending, and the delay after the last byte ends in fewer than `n` edges. -/
structure ReadyWithin (g : UartGenerics) (n : Nat) (s : Registers) : Prop where
  state : s.state = .init
  lead : s.startCountLead = false
  delay : s.delayClock = true → maxClkCountDelay g - s.clkDelayCounter < n

theorem readyWithin_of_txReady (h : Settled s) (hready : txReady s = true) :
    ReadyWithin g 0 s := by
  have hlead := lead_of_txReady h hready
  simp only [txReady, transmitDone, Bool.and_eq_true, decide_eq_true_eq, Bool.not_eq_true'] at hready
  obtain ⟨⟨hstate, _⟩, hdelay⟩ := hready
  exact ⟨hstate, hlead, fun hon => absurd (hdelay.symm.trans hon) Bool.false_ne_true⟩

theorem readyWithin_edge {n : Nat} (h : Settled s) (hready : ReadyWithin g (n + 1) s)
    (hreset : p.reset = false) (hstart : p.start = false) :
    ReadyWithin g n (edge g p s) ∧ (edge g p s).txReadyReg = true := by
  obtain ⟨hstate, hlead, _, hreg, hdelay, hcount⟩ :=
    edge_of_init (g := g) hready.state (startTrans_of_lead hready.lead) hreset
  refine ⟨⟨hstate, hlead.trans hstart, fun hon => ?_⟩, by rw [hreg, hstart]; rfl⟩
  rw [hdelay, Bool.not_eq_true'] at hon
  rw [hcount]
  unfold clockDelayProc at hon ⊢
  split_ifs at hon ⊢ with hclock hlt
  · have hbound := hready.delay hclock
    simp only
    omega
  · have hsettled := h.delay hready.state
    simp only at hon
    rw [hon] at hsettled
    exact absurd hsettled hclock

theorem txReady_of_readyWithin (h : ReadyWithin g 0 s) (hreg : s.txReadyReg = true) :
    txReady s = true := by
  have hdelay : s.delayClock = false := by
    by_contra hon
    exact absurd (h.delay (Bool.of_not_eq_false hon)) (Nat.not_lt_zero _)
  simp [txReady, transmitDone, h.state, hreg, hdelay]

theorem txReady_edge (h : Settled s) (hready : txReady s = true) (hreset : p.reset = false)
    (hstart : p.start = false) : txReady (edge g p s) = true := by
  have hzero : ReadyWithin g 0 s := readyWithin_of_txReady h hready
  have hone : ReadyWithin g (0 + 1) s :=
    ⟨hzero.state, hzero.lead, fun hon => Nat.lt_succ_of_lt (hzero.delay hon)⟩
  obtain ⟨hnext, hreg⟩ := readyWithin_edge h hone hreset hstart
  exact txReady_of_readyWithin hnext hreg

/-! ## The lower bound -/

/-- The counters of a transmitter that has not been reset: `shift_data` is high only after the bit
counter has wrapped, and the frame ends two edges after its last shift. -/
structure Paced (g : UartGenerics) (s : Registers) : Prop where
  counter : s.clkCounter ≤ maxClkCount g
  wrapped : s.shiftData = true → s.clkCounter = 0
  rest : s.state ≠ .shift → s.numberBits = 0 ∧ s.shiftData = false
  bits : s.numberBits ≤ maxBits
  full : s.numberBits = maxBits → s.clkCounter = 1 ∧ s.shiftData = false
  finish : s.state = .shift → s.doneShifting = true →
    s.numberBits = 0 ∧ s.clkCounter = 2 ∧ s.shiftData = false

theorem paced_init (g : UartGenerics) : Paced g .init := by
  constructor <;> simp [Registers.init, settle, maxBits]

theorem edge_of_rest (h : Paced g s) (hstate : s.state ≠ .shift) (hreset : p.reset = false) :
    (edge g p s).numberBits = 0 ∧ (edge g p s).shiftData = false ∧
      (edge g p s).clkCounter = s.clkCounter := by
  obtain ⟨hbits, hshift⟩ := h.rest hstate
  have hnot : ¬ s.numberBits = maxBits := by rw [hbits]; decide
  have hcount : (countBitsProc p s).numberBits = 0 := by
    rw [countBitsProc, hreset, if_neg Bool.false_ne_true, if_neg hnot, hshift,
      if_neg Bool.false_ne_true]
    split_ifs <;> exact hbits
  have hclock : clockCountProc g s = s := if_neg hstate
  simp only [edge, settle, hcount, hclock, hshift, and_self]

theorem doneShifting_of_load (h : Paced g s) (hstate : s.state ≠ .shift) (hreset : p.reset = false)
    (hnext : (edge g p s).state = .shift) : (edge g p s).doneShifting = false := by
  have hload : s.state = .load := by
    have hnxt : nxtState s = .shift := by
      simpa only [edge, settle, hreset, Bool.false_eq_true, if_false] using hnext
    unfold nxtState at hnxt
    cases hold : s.state
    · rw [hold] at hnxt
      cases hstart : startTrans s <;> simp [hstart] at hnxt
    · rfl
    · exact absurd hold hstate
  have hnot : ¬ s.numberBits = maxBits := by
    rw [(h.rest hstate).1]
    decide
  simp only [edge, settle, countBitsProc, hreset, Bool.false_eq_true, if_false, if_neg hnot,
    loadData, hload, decide_true, if_true]

theorem edge_of_shift (hstate : s.state = .shift) (hreset : p.reset = false) :
    (edge g p s).state = (if s.doneShifting then .init else .shift) ∧
      (edge g p s).numberBits =
        (if s.numberBits = maxBits then 0 else s.numberBits + s.shiftData.toNat) ∧
      (edge g p s).doneShifting = (decide (s.numberBits = maxBits) || s.doneShifting) ∧
      (edge g p s).clkCounter =
        (if s.clkCounter = maxClkCount g then 0 else s.clkCounter + 1) ∧
      (edge g p s).shiftData = decide (s.clkCounter = maxClkCount g) := by
  have hload : loadData s = false := by simp [loadData, hstate]
  refine ⟨?_, ?_, ?_, ?_, ?_⟩
  · simp only [edge, settle, nxtState, hstate, hreset, Bool.false_eq_true, if_false]
  · simp only [edge, settle, countBitsProc, hreset, hload, Bool.false_eq_true, if_false]
    cases s.shiftData <;> split_ifs <;> first | rfl | contradiction
  · simp only [edge, settle, countBitsProc, hreset, hload, Bool.false_eq_true, if_false]
    split_ifs with hfull hshift <;> simp [hfull]
  · simp only [edge, settle, clockCountProc, hstate, if_true]
    split_ifs <;> rfl
  · simp only [edge, settle, clockCountProc, hstate, if_true]
    split_ifs with hwrap <;> simp [hwrap]

theorem paced_edge (hN : 3 ≤ maxClkCount g) (h : Paced g s) (hreset : p.reset = false) :
    Paced g (edge g p s) := by
  by_cases hstate : s.state = .shift
  · obtain ⟨hnext, hbits, hdone, hcount, hshift⟩ := edge_of_shift (g := g) hstate hreset
    have hcounter := h.counter
    have hbound := h.bits
    have hfinish := h.finish hstate
    constructor
    · rw [hcount]
      split_ifs <;> omega
    · intro hhigh
      rw [hshift, decide_eq_true_eq] at hhigh
      rw [hcount, if_pos hhigh]
    · intro hleft
      rw [hnext] at hleft
      split_ifs at hleft with hlast
      · obtain ⟨hzero, htwo, hlow⟩ := hfinish hlast
        rw [hbits, hshift, hzero, htwo, hlow]
        exact ⟨rfl, decide_eq_false (by omega)⟩
      · exact absurd rfl hleft
    · rw [hbits]
      cases s.shiftData <;> simp only [Bool.toNat_false, Bool.toNat_true] <;> split_ifs <;> omega
    · intro hten
      rw [hbits] at hten
      split_ifs at hten with hfull
      · exact absurd hten (by decide)
      cases hhigh : s.shiftData
      · rw [hhigh, Bool.toNat_false, Nat.add_zero] at hten
        exact absurd hten hfull
      · have hzero := h.wrapped hhigh
        rw [hcount, hshift, hzero, if_neg (by omega)]
        exact ⟨rfl, decide_eq_false (by omega)⟩
    · intro hstay hlast
      rw [hnext] at hstay
      split_ifs at hstay with hold
      rw [hdone, Bool.or_eq_true, decide_eq_true_eq] at hlast
      have hfull : s.numberBits = maxBits := hlast.resolve_right hold
      obtain ⟨hone, _⟩ := h.full hfull
      rw [hbits, hcount, hshift, if_pos hfull, hone, if_neg (by omega)]
      exact ⟨rfl, rfl, decide_eq_false (by omega)⟩
  · obtain ⟨hbits, hshift, hcount⟩ := edge_of_rest h hstate hreset
    constructor
    · rw [hcount]
      exact h.counter
    · intro hhigh
      exact absurd (hshift.symm.trans hhigh) Bool.false_ne_true
    · exact fun _ => ⟨hbits, hshift⟩
    · omega
    · intro hfull
      exact absurd (hbits.symm.trans hfull) (by decide)
    · intro hstay hlast
      rw [doneShifting_of_load h hstate hreset hstay] at hlast
      exact absurd hlast Bool.false_ne_true

/-- The number of shifts that a frame still needs, the one that is due counted as done. -/
def shiftsLeft (s : Registers) : Nat := maxBits - s.numberBits - s.shiftData.toNat

/-- What the delay adds to a frame, unless it is already running. -/
def tail (g : UartGenerics) (s : Registers) : Nat :=
  if s.delayClock then 0 else maxClkCountDelay g

/-- At least so many edges pass before `tx_ready` is high. -/
def remaining (g : UartGenerics) (s : Registers) : Nat :=
  match s.state with
  | .init =>
    if startTrans s then 9 * (maxClkCount g + 1) + tail g s
    else if s.delayClock then maxClkCountDelay g - s.clkDelayCounter
    else 0
  | .load => 9 * (maxClkCount g + 1) + tail g s
  | .shift =>
    if s.doneShifting then maxClkCountDelay g - s.clkDelayCounter
    else shiftsLeft s * (maxClkCount g + 1) + tail g s - s.clkCounter

theorem remaining_of_txReady (h : Settled s) (hready : txReady s = true) : remaining g s = 0 := by
  have hzero : ReadyWithin g 0 s := readyWithin_of_txReady h hready
  have hdelay : ¬ s.delayClock = true := fun hon => absurd (hzero.delay hon) (Nat.not_lt_zero _)
  simp only [remaining, hzero.state, startTrans_of_lead hzero.lead, if_neg hdelay,
    Bool.false_eq_true, if_false]

theorem delay_edge (h : s.delayClock = true) :
    maxClkCountDelay g - s.clkDelayCounter ≤
      (if !(clockDelayProc g s).delayClockDone then
        maxClkCountDelay g - (clockDelayProc g s).clkDelayCounter else 0) + 1 := by
  rw [clockDelayProc, if_pos h]
  by_cases hlt : s.clkDelayCounter < maxClkCountDelay g
  · rw [if_pos hlt]
    simp only [Bool.not_false, if_true]
    omega
  · rw [if_neg hlt]
    omega

/-- The least time between two bytes. -/
def byteTime (g : UartGenerics) : Nat := 9 * (maxClkCount g + 1) + maxClkCountDelay g

theorem remaining_of_init (hstate : s.state = .init)
    (hD : maxClkCountDelay g ≤ 9 * (maxClkCount g + 1)) :
    (if s.delayClock then maxClkCountDelay g - s.clkDelayCounter else 0) ≤ remaining g s := by
  simp only [remaining, hstate]
  split_ifs <;> omega

theorem remaining_edge_init (hD : maxClkCountDelay g ≤ 9 * (maxClkCount g + 1))
    (hstate : s.state = .init) (hreset : p.reset = false) :
    remaining g s ≤ remaining g (edge g p s) + 1 := by
  cases hstart : startTrans s
  · obtain ⟨hnext, _, _, _, hdelay, hcount⟩ := edge_of_init (g := g) hstate hstart hreset
    have hafter := remaining_of_init (g := g) hnext hD
    rw [hdelay, hcount] at hafter
    have hnow : remaining g s =
        if s.delayClock then maxClkCountDelay g - s.clkDelayCounter else 0 := by
      simp only [remaining, hstate, hstart, Bool.false_eq_true, if_false]
    rw [hnow]
    split_ifs with hclock
    · have hdown := delay_edge (g := g) hclock
      omega
    · exact Nat.zero_le _
  · have hnext : (edge g p s).state = .load := by
      simp [edge, settle, nxtState, hstate, hstart, hreset]
    have hclock : (edge g p s).delayClock = s.delayClock := by
      simp [edge, settle, nxtState, hstate, hstart, hreset]
    simp only [remaining, hstate, hstart, hnext, tail, hclock, if_true]
    omega

theorem remaining_edge_load (h : Paced g s) (hstate : s.state = .load) (hreset : p.reset = false) :
    remaining g s ≤ remaining g (edge g p s) + 1 := by
  have hne : s.state ≠ .shift := by rw [hstate]; decide
  obtain ⟨hbits, hshift, hcount⟩ := edge_of_rest h hne hreset
  have hnext : (edge g p s).state = .shift := by
    simp [edge, settle, nxtState, hstate, hreset]
  have hdone := doneShifting_of_load h hne hreset hnext
  have hclock : (edge g p s).delayClock = s.delayClock := by
    have hlow : (countBitsProc p s).doneShifting = false := hdone
    simp [edge, settle, nxtState, hstate, hreset, hlow]
  have hcounter := h.counter
  simp only [remaining, hstate, hnext, hdone, shiftsLeft, hbits, hshift, hcount, tail, hclock,
    Bool.false_eq_true, if_false, maxBits, Bool.toNat_false]
  omega

theorem remaining_edge_shift (hN : 3 ≤ maxClkCount g)
    (hD : maxClkCountDelay g ≤ 9 * (maxClkCount g + 1)) (hs : Settled s) (h : Paced g s)
    (hstate : s.state = .shift) (hreset : p.reset = false) :
    remaining g s ≤ remaining g (edge g p s) + 1 := by
  obtain ⟨hnext, hbits, hdone, hcount, hshift⟩ := edge_of_shift (g := g) hstate hreset
  cases hold : s.doneShifting
  · rw [hold, if_neg Bool.false_ne_true] at hnext
    by_cases hfull : s.numberBits = maxBits
    · -- the last shift is over: the delay begins, or has been running
      obtain ⟨hone, hlow⟩ := h.full hfull
      rw [decide_eq_true hfull, Bool.true_or] at hdone
      simp only [remaining, hstate, hold, hnext, hdone, shiftsLeft, hfull, Nat.sub_self, Nat.zero_sub,
        Nat.zero_mul, tail, Bool.false_eq_true, if_false, if_true]
      split_ifs with hclock
      · omega
      · have hzero : (edge g p s).clkDelayCounter = 0 := by
          simp only [edge, settle, clockDelayProc, if_neg hclock]
        omega
    · rw [decide_eq_false hfull, Bool.false_or, hold] at hdone
      rw [if_neg hfull] at hbits
      have hclock : (edge g p s).delayClock = s.delayClock := by
        have hlow : (countBitsProc p s).doneShifting = false := hdone
        simp [edge, settle, nxtState, hstate, hold, hreset, hlow]
      have hcounter := h.counter
      have hbound := h.bits
      have hwrapped := h.wrapped
      have htail : tail g (edge g p s) = tail g s := by rw [tail, tail, hclock]
      simp only [remaining, hstate, hold, hnext, hdone, htail, Bool.false_eq_true, if_false]
      rw [hcount]
      by_cases hwrap : s.clkCounter = maxClkCount g
      · have hlow : s.shiftData = false := by
          by_contra hhigh
          have hzero := hwrapped (Bool.of_not_eq_false hhigh)
          omega
        have hleft : shiftsLeft s = shiftsLeft (edge g p s) + 1 := by
          rw [shiftsLeft, shiftsLeft, hbits, hshift, decide_eq_true hwrap, hlow]
          simp only [Bool.toNat_false, Bool.toNat_true]
          omega
        rw [if_pos hwrap, hleft, Nat.add_mul, Nat.one_mul]
        omega
      · have hleft : shiftsLeft s = shiftsLeft (edge g p s) := by
          rw [shiftsLeft, shiftsLeft, hbits, hshift, decide_eq_false hwrap, Bool.toNat_false]
          omega
        rw [if_neg hwrap, hleft]
        omega
  · rw [hold, if_pos rfl] at hnext
    have hclock := hs.done hstate hold
    have hafter := remaining_of_init (g := g) hnext hD
    have hdelay : (edge g p s).delayClock = !(clockDelayProc g s).delayClockDone := by
      simp [edge, settle, nxtState, hstate, hold, hreset]
    have hcount' : (edge g p s).clkDelayCounter = (clockDelayProc g s).clkDelayCounter := rfl
    have hdown := delay_edge (g := g) hclock
    have hnow : remaining g s = maxClkCountDelay g - s.clkDelayCounter := by
      simp only [remaining, hstate, hold, if_true]
    rw [hdelay, hcount'] at hafter
    omega

theorem remaining_edge (hN : 3 ≤ maxClkCount g)
    (hD : maxClkCountDelay g ≤ 9 * (maxClkCount g + 1)) (hs : Settled s) (h : Paced g s)
    (hreset : p.reset = false) : remaining g s ≤ remaining g (edge g p s) + 1 := by
  cases hstate : s.state
  · exact remaining_edge_init hD hstate hreset
  · exact remaining_edge_load h hstate hreset
  · exact remaining_edge_shift hN hD hs h hstate hreset

/-- A start pulse that finds the transmitter ready keeps it busy for a byte. -/
theorem remaining_start (hs : Settled s) (hready : txReady s = true) (hreset : p.reset = false)
    (hstart : p.start = true) : remaining g (edge g p s) = byteTime g := by
  have hzero : ReadyWithin g 0 s := readyWithin_of_txReady hs hready
  obtain ⟨hnext, hlead, hfollow, _, _, _⟩ :=
    edge_of_init (g := g) hzero.state (startTrans_of_lead hzero.lead) hreset
  have htrans : startTrans (edge g p s) = true := by
    simp [startTrans, hlead, hfollow, hstart, hzero.lead]
  have hidle : (edge g { p with start := false } s).delayClock = false := by
    have hstay := txReady_edge (g := g) (p := { p with start := false }) hs hready hreset rfl
    simp only [txReady, Bool.and_eq_true, Bool.not_eq_true'] at hstay
    exact hstay.2
  have hclock : (edge g p s).delayClock = false := hidle
  simp only [remaining, hnext, htrans, tail, hclock, byteTime, if_true, Bool.false_eq_true, if_false]

end KuznyechikDPA.TUart

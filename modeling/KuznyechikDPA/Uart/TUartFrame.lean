import KuznyechikDPA.Uart.RUartReception
import KuznyechikDPA.Uart.TUartTiming

/-!
# A frame of the transmitter

A bit lasts `max_clk_count + 1` edges. The bit counter is not cleared between two frames:
it rests where the last frame left it, at 3, so all frames but the first have a start bit
that is three edges shorter. `Sends b m` describes the registers when the counter has made `m`
steps from zero in this frame, the ones it begins with included.
-/

namespace KuznyechikDPA.TUart

variable {g : UartGenerics} {p : Ports} {s : Registers} {b : Byte}

/-- Start bit, data bits from the lowest one, stop bit and idle line. -/
def frameBit (b : Byte) (k : Nat) : Bool :=
  if k = 0 then false else if k ≤ 8 then b.getLsbD (k - 1) else true

/-- Not sending, with the bit counter at `c` and a high line. -/
structure Rest (c : Nat) (s : Registers) : Prop where
  state : s.state = .init
  lead : s.startCountLead = false
  counter : s.clkCounter = c
  numberBits : s.numberBits = 0
  shiftData : s.shiftData = false
  dataReg : s.dataReg = BitVec.allOnes 10

/-- One edge after a start pulse. -/
structure Begins (c : Nat) (s : Registers) : Prop where
  state : s.state = .init
  lead : s.startCountLead = true
  follow : s.startCountFollow = false
  ready : s.txReadyReg = false
  counter : s.clkCounter = c
  numberBits : s.numberBits = 0
  shiftData : s.shiftData = false
  dataReg : s.dataReg = BitVec.allOnes 10

/-- Two edges after a start pulse. -/
structure Loading (c : Nat) (s : Registers) : Prop where
  state : s.state = .load
  lead : s.startCountLead = false
  counter : s.clkCounter = c
  numberBits : s.numberBits = 0
  shiftData : s.shiftData = false
  dataReg : s.dataReg = BitVec.allOnes 10

/-- How often the data register has been shifted. -/
def shifts (g : UartGenerics) (m : Nat) : Nat := (m - 1) / (maxClkCount g + 1)

/-- The last position of a frame. -/
def lastPosition (g : UartGenerics) : Nat := 10 * (maxClkCount g + 1) + 2

structure Sends (g : UartGenerics) (b : Byte) (m : Nat) (s : Registers) : Prop where
  state : s.state = .shift
  lead : s.startCountLead = false
  counter : s.clkCounter = m % (maxClkCount g + 1)
  shiftData : s.shiftData = decide (0 < m ∧ m % (maxClkCount g + 1) = 0)
  numberBits : s.numberBits = if m = lastPosition g then 0 else shifts g m
  doneShifting : s.doneShifting = decide (m = lastPosition g)
  dataReg : ∀ i < 10, s.dataReg.getLsbD i = frameBit b (i + shifts g m)

theorem dataOut_of_ones (h : s.dataReg = BitVec.allOnes 10) : dataOut s = true := by
  rw [dataOut, h]
  rfl

theorem Sends.dataOut {m : Nat} (h : Sends g b m s) : dataOut s = frameBit b (shifts g m) := by
  have hbit := h.dataReg 0 (by decide)
  rwa [Nat.zero_add] at hbit

/-! ## Counting -/

theorem getLsbD_frame (b : Byte) {i : Nat} (hi : i < 10) :
    (1#1 ++ (b ++ 0#1) : BitVec 10).getLsbD i = frameBit b i := by
  rw [frameBit, BitVec.getLsbD_append, BitVec.getLsbD_append]
  obtain rfl | ⟨hpos, hle⟩ | rfl : i = 0 ∨ (0 < i ∧ i ≤ 8) ∨ i = 9 := by omega
  · rfl
  · rw [if_pos (by omega), if_neg (by omega), if_neg (by omega), if_pos hle]
  · rfl

theorem getLsbD_shift {v : BitVec 10} {k : Nat} (h : ∀ i < 10, v.getLsbD i = frameBit b (i + k))
    {i : Nat} (hi : i < 10) :
    (1#1 ++ v.extractLsb' 1 9 : BitVec 10).getLsbD i = frameBit b (i + (k + 1)) := by
  rw [BitVec.getLsbD_append]
  split_ifs with hlt
  · have hpos : 1 + i + k = i + (k + 1) := by omega
    rw [BitVec.getLsbD_extractLsb', decide_eq_true hlt, Bool.true_and, h (1 + i) (by omega), hpos]
  · obtain rfl : i = 9 := by omega
    have hstop : frameBit b (9 + (k + 1)) = true := by
      rw [frameBit, if_neg (by omega), if_neg (by omega)]
    rw [hstop]
    rfl

theorem shifts_succ (hN : 20 ≤ maxClkCount g) (m : Nat) : shifts g (m + 1) =
    shifts g m + (decide (0 < m ∧ m % (maxClkCount g + 1) = 0)).toNat := by
  rcases m with _ | m
  · have hnot : ¬ (0 < 0 ∧ 0 % (maxClkCount g + 1) = 0) := by omega
    rw [decide_eq_false hnot]
    rfl
  · have hone : 1 < maxClkCount g + 1 := by omega
    obtain ⟨hmod, hdiv⟩ := RUart.count_mod hone m
    have hpred : shifts g (m + 1) = m / (maxClkCount g + 1) := rfl
    have hnext : shifts g (m + 1 + 1) = (m + 1) / (maxClkCount g + 1) := rfl
    rw [hpred, hnext, hdiv, hmod]
    split_ifs with hwrap
    · rfl
    · simp

theorem shifts_eq_ten {m : Nat} (hm : m < lastPosition g) :
    shifts g m = 10 ↔ m + 1 = lastPosition g := by
  unfold lastPosition at hm ⊢
  constructor
  · intro hten
    have hle := (Nat.le_div_iff_mul_le (Nat.succ_pos (maxClkCount g))).mp (Nat.le_of_eq hten.symm)
    omega
  · intro hlast
    have hpred : m - 1 = 10 * (maxClkCount g + 1) := by omega
    rw [shifts, hpred]
    exact Nat.mul_div_cancel 10 (Nat.succ_pos _)

/-! ## The edges of a frame -/

section Edges
variable (hreset : p.reset = false)
include hreset

theorem rest_edge {c : Nat} (h : Rest c s) (hstart : p.start = false) : Rest c (edge g p s) := by
  have hnone := startTrans_of_lead h.lead
  have hload : loadData s = false := by simp [loadData, h.state]
  constructor <;> simp [edge, settle, nxtState, countBitsProc, clockCountProc, hreset, hstart, hnone,
    hload, maxBits, h.state, h.counter, h.numberBits, h.shiftData, h.dataReg]

theorem begins_edge {c : Nat} (h : Rest c s) (hstart : p.start = true) : Begins c (edge g p s) := by
  have hnone := startTrans_of_lead h.lead
  have hload : loadData s = false := by simp [loadData, h.state]
  constructor <;> simp [edge, settle, nxtState, countBitsProc, clockCountProc, hreset, hstart, hnone,
    hload, maxBits, h.state, h.lead, h.counter, h.numberBits, h.shiftData, h.dataReg]

theorem loading_edge {c : Nat} (h : Begins c s) (hstart : p.start = false) :
    Loading c (edge g p s) := by
  have htrans : startTrans s = true := by simp [startTrans, h.lead, h.follow]
  have hload : loadData s = false := by simp [loadData, h.state]
  constructor <;> simp [edge, settle, nxtState, countBitsProc, clockCountProc, hreset, hstart, htrans,
    hload, maxBits, h.state, h.counter, h.numberBits, h.shiftData, h.dataReg]

/-- The load takes the byte; the frame begins with the counter where it rests. -/
theorem sends_of_loading {c : Nat} (hN : 20 ≤ maxClkCount g) (hc : c ≤ 3) (h : Loading c s)
    (hstart : p.start = false) : Sends g p.dataIn c (edge g p s) := by
  have hload : loadData s = true := by simp [loadData, h.state]
  have hlast : c ≠ lastPosition g := by
    unfold lastPosition
    omega
  have hmod : c % (maxClkCount g + 1) = c := Nat.mod_eq_of_lt (by omega)
  have hshifts : shifts g c = 0 := Nat.div_eq_of_lt (by omega)
  constructor
  · simp [edge, settle, nxtState, hreset, h.state]
  · simp [edge, settle, hreset, hstart]
  · simp [edge, settle, clockCountProc, h.state, h.counter, hmod]
  · have hnot : ¬ (0 < c ∧ c = 0) := by omega
    rw [hmod, decide_eq_false hnot]
    simp [edge, settle, clockCountProc, h.state, h.shiftData]
  · simp [edge, settle, countBitsProc, hreset, hload, h.numberBits, maxBits, hlast, hshifts]
  · simp [edge, settle, countBitsProc, hreset, hload, h.numberBits, maxBits, hlast]
  · intro i hi
    have hdata : (edge g p s).dataReg = 1#1 ++ (p.dataIn ++ 0#1) := by
      simp [edge, settle, countBitsProc, hreset, hload, h.numberBits, maxBits]
    rw [hdata, hshifts]
    exact getLsbD_frame p.dataIn hi

/-- The counter wraps and shifts once in `max_clk_count + 1` edges. -/
theorem sends_edge {m : Nat} (hN : 20 ≤ maxClkCount g) (h : Sends g b m s)
    (hm : m < lastPosition g) (hstart : p.start = false) : Sends g b (m + 1) (edge g p s) := by
  obtain ⟨hstate, hbits, hdone, hcount, hshift⟩ := edge_of_shift (g := g) h.state hreset
  have hone : 1 < maxClkCount g + 1 := by omega
  obtain ⟨hmod, -⟩ := RUart.count_mod hone m
  rw [Nat.add_sub_cancel] at hmod
  have hnot : s.doneShifting = false := h.doneShifting.trans (decide_eq_false (by omega))
  have hnumber : s.numberBits = shifts g m := h.numberBits.trans (if_neg (by omega))
  have hten : s.numberBits = maxBits ↔ m + 1 = lastPosition g := by
    rw [hnumber]
    exact shifts_eq_ten hm
  have hnext := shifts_succ (g := g) hN m
  rw [← h.shiftData] at hnext
  constructor
  · rw [hstate, hnot]
    rfl
  · simp [edge, settle, hreset, hstart]
  · rw [hcount, h.counter, hmod]
  · rw [hshift, h.counter, hmod, decide_eq_decide]
    split_ifs with hwrap <;> simp [hwrap]
  · simp only [hbits, hten]
    split_ifs with hlast
    · rfl
    · rw [hnext, hnumber]
  · rw [hdone, hnot, Bool.or_false, decide_eq_decide]
    exact hten
  · intro i hi
    have hload : loadData s = false := by simp [loadData, h.state]
    have hdata : (edge g p s).dataReg =
        if s.numberBits = maxBits then s.dataReg
        else if s.shiftData then 1#1 ++ s.dataReg.extractLsb' 1 9 else s.dataReg := by
      simp only [edge, settle, countBitsProc, hreset, hload, Bool.false_eq_true, if_false]
      split_ifs <;> rfl
    rw [hdata, hnext]
    split_ifs with hlast hhigh
    · -- the counter has wrapped one edge before
      have hlow : s.shiftData = false := by
        rw [h.shiftData, decide_eq_false]
        rintro ⟨-, hzero⟩
        have hpos : m = 10 * (maxClkCount g + 1) + 1 := by
          have hend := hten.mp hlast
          unfold lastPosition at hend
          omega
        rw [hpos, Nat.mul_add_mod', Nat.mod_eq_of_lt (by omega)] at hzero
        omega
      rw [hlow]
      exact h.dataReg i hi
    · rw [hhigh]
      exact getLsbD_shift h.dataReg hi
    · rw [Bool.eq_false_iff.mpr hhigh]
      exact h.dataReg i hi

/-- At the end of a frame the bit counter stops at 3. -/
theorem rest_of_sends (hN : 20 ≤ maxClkCount g) (h : Sends g b (lastPosition g) s)
    (hstart : p.start = false) : Rest 3 (edge g p s) := by
  obtain ⟨hstate, hbits, -, hcount, hshift⟩ := edge_of_shift (g := g) h.state hreset
  have hdone : s.doneShifting = true := h.doneShifting.trans (decide_eq_true rfl)
  have hnumber : s.numberBits = 0 := h.numberBits.trans (if_pos rfl)
  have hmod : lastPosition g % (maxClkCount g + 1) = 2 := by
    rw [lastPosition, Nat.mul_add_mod', Nat.mod_eq_of_lt (by omega)]
  have hcounter : s.clkCounter = 2 := h.counter.trans hmod
  have hlow : s.shiftData = false := by
    rw [h.shiftData, decide_eq_false]
    omega
  constructor
  · rw [hstate, hdone]
    rfl
  · simp [edge, settle, hreset, hstart]
  · rw [hcount, hcounter, if_neg (by omega)]
  · rw [hbits, hnumber, hlow]
    rfl
  · rw [hshift, hcounter]
    exact decide_eq_false (by omega)
  · have hload : loadData s = false := by simp [loadData, h.state]
    have hdata : (edge g p s).dataReg = s.dataReg := by
      simp [edge, settle, countBitsProc, hreset, hload, hlow, hnumber, maxBits]
    have hshifts : shifts g (lastPosition g) = 10 := by
      have hpred : lastPosition g - 1 = 1 + (maxClkCount g + 1) * 10 := by
        unfold lastPosition
        omega
      rw [shifts, hpred, Nat.add_mul_div_left _ _ (by omega), Nat.div_eq_of_lt (by omega)]
    rw [hdata]
    apply BitVec.eq_of_getLsbD_eq
    intro i hi
    rw [h.dataReg i hi, hshifts, frameBit, if_neg (by omega), if_neg (by omega),
      BitVec.getLsbD_allOnes, decide_eq_true hi]

end Edges
end KuznyechikDPA.TUart

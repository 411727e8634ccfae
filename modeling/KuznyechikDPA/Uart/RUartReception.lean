import KuznyechikDPA.Uart.RUart
import KuznyechikDPA.Foundation.Machine
import Mathlib.Data.Nat.ModEq
import Mathlib.Tactic.IntervalCases

/-!
# Reception of a frame

`Control n` gives state and counters `n` edges after the start bit was noticed, whatever
the line does meanwhile. `Sampled` says which values of the line the data register has
collected. A frame sent at the receiver's own bit length is therefore delivered at a
fixed time, and the receiver is idle again before the next frame can start.
-/

namespace KuznyechikDPA.RUart

section Phases
variable {g : UartGenerics}

/-! ## Control -/

/-- `n` edges after the start bit was noticed, up to the end of the last bit. -/
structure Control (g : UartGenerics) (n : Nat) (s : Registers) : Prop where
  state : s.state = if n < maxStartBitCount g then .readStartBitState else .readBitsState
  startBitCounter : s.startBitCounter = if n < maxStartBitCount g then n else 0
  bitCounter : s.bitCounter = (n - maxStartBitCount g) % maxBitCount g
  numberBits : s.numberBits = (n - maxStartBitCount g) / maxBitCount g

/-- A counter that runs from 0 to `M - 1` and the number of its wraps. -/
theorem count_mod {M : Nat} (hM : 1 < M) (m : Nat) :
    (m + 1) % M = (if m % M = M - 1 then 0 else m % M + 1) ∧
      (m + 1) / M = if m % M = M - 1 then m / M + 1 else m / M := by
  have hone : 1 % M = 1 := Nat.mod_eq_of_lt hM
  have hzero : 1 / M = 0 := Nat.div_eq_of_lt hM
  have hpos : 0 < M := by omega
  have hlt := Nat.mod_lt m hpos
  split_ifs with hlast
  · constructor
    · rw [Nat.add_mod, hlast, hone, Nat.sub_add_cancel (by omega), Nat.mod_self]
    · rw [Nat.add_div_eq_of_le_mod_add_mod (by omega) (by omega), hzero]
  · constructor
    · rw [Nat.add_mod, hone, Nat.mod_eq_of_lt (by omega)]
    · rw [Nat.add_div_eq_of_add_mod_lt (by omega), hzero, Nat.add_zero]

variable {n : Nat} {s : Registers} (hM : 4 ≤ maxBitCount g)
include hM

theorem two_le_maxStartBitCount : 2 ≤ maxStartBitCount g := by
  unfold maxStartBitCount
  omega

/-- The line is sampled in the middle of the start bit and then once in every bit. -/
theorem readBit_iff (h : Control g n s) :
    readBit g s = true ↔
      n + 1 = maxStartBitCount g ∨
        maxStartBitCount g ≤ n ∧
          (n - maxStartBitCount g) % maxBitCount g = maxBitCount g - 1 := by
  have hS := two_le_maxStartBitCount hM
  simp only [readBit, decide_eq_true_eq, h.startBitCounter, h.bitCounter]
  by_cases hn : n < maxStartBitCount g
  · have hzero : n - maxStartBitCount g = 0 := by omega
    rw [if_pos hn, hzero, Nat.zero_mod]
    omega
  · rw [if_neg hn]
    omega

theorem control_edge {p : Ports} (h : Control g n s) (hreset : p.reset = false)
    (hn : n < maxStartBitCount g + 9 * maxBitCount g) : Control g (n + 1) (edge g p s) := by
  have hS := two_le_maxStartBitCount hM
  have hbits : s.numberBits ≠ maxBits - 1 := by
    have hlt : (n - maxStartBitCount g) / maxBitCount g < 9 :=
      (Nat.div_lt_iff_lt_mul (by omega)).mpr (by omega)
    rw [h.numberBits]
    exact hlt.ne
  have hread := readBit_iff hM h
  by_cases hstart : n < maxStartBitCount g
  · have hstate : s.state = .readStartBitState := by rw [h.state, if_pos hstart]
    have hcount : s.startBitCounter = n := by rw [h.startBitCounter, if_pos hstart]
    have hzero : n - maxStartBitCount g = 0 := by omega
    have hzero' : n + 1 - maxStartBitCount g = 0 := by omega
    have hbit : s.bitCounter = 0 := by rw [h.bitCounter, hzero, Nat.zero_mod]
    have hnum : s.numberBits = 0 := by rw [h.numberBits, hzero, Nat.zero_div]
    constructor
    · simp only [edge, hreset, nxtState, hstate, Bool.false_eq_true, if_false, hread]
      split_ifs <;> first | rfl | omega
    · simp only [edge, hreset, hcount, readStart, hstate, decide_true, Bool.false_eq_true,
        false_or, if_true]
      split_ifs <;> omega
    · simp only [edge, hreset, hbit, reading, hstate, hzero', Nat.zero_mod]
      simp
    · simp only [edge, hreset, reading, hstate, hzero', Nat.zero_div]
      simp
  · have hstate : s.state = .readBitsState := by rw [h.state, if_neg hstart]
    have hcount : s.startBitCounter = 0 := by rw [h.startBitCounter, if_neg hstart]
    have hstart' : ¬ n + 1 < maxStartBitCount g := by omega
    have hsucc : n + 1 - maxStartBitCount g = n - maxStartBitCount g + 1 := by omega
    have hone : 1 < maxBitCount g := by omega
    obtain ⟨hmod, hdiv⟩ := count_mod hone (n - maxStartBitCount g)
    constructor
    · have hdone : doneReading s = false := decide_eq_false hbits
      simp only [edge, hreset, nxtState, hstate, hdone, Bool.false_eq_true, if_false, if_neg hstart']
    · simp only [edge, hreset, readStart, hstate, if_neg hstart']
      simp
    · rw [hsucc, hmod, ← h.bitCounter]
      simp only [edge, hreset, reading, hstate, decide_true, Bool.false_eq_true, false_or, if_true]
    · rw [hsucc, hdiv, ← h.bitCounter, ← h.numberBits]
      simp only [edge, hreset, reading, hstate, decide_true, hbits, Bool.false_eq_true,
        Bool.true_eq_false, false_or, if_false]

/-! ## Data -/

omit hM in
/-- The upper `c` bits of the data register are the first `c` values of `line`. -/
def Sampled (line : Nat → Bool) (c : Nat) (dataReg : BitVec 10) : Prop :=
  ∀ j < c, dataReg.getLsbD (10 - c + j) = line j

omit hM in
theorem sampled_shift {line : Nat → Bool} {c : Nat} {dataReg : BitVec 10}
    (h : Sampled line c dataReg) (hc : c < 10) :
    Sampled line (c + 1) (BitVec.ofBool (line c) ++ dataReg.extractLsb' 1 9) := by
  intro j hj
  rw [BitVec.getLsbD_append, BitVec.getLsbD_extractLsb', BitVec.getLsbD_ofBool]
  by_cases hlast : j = c
  · have hidx : 10 - (c + 1) + j = 9 := by omega
    rw [hidx, hlast]
    simp
  · have hidx : 1 + (10 - (c + 1) + j) = 10 - c + j := by omega
    have hlt : 10 - (c + 1) + j < 9 := by omega
    rw [if_pos hlt, decide_eq_true hlt, Bool.true_and, hidx, h j (by omega)]

/-- How many values have been collected after `n` edges. -/
def samples (g : UartGenerics) (n : Nat) : Nat :=
  if n < maxStartBitCount g then 0 else (n - maxStartBitCount g) / maxBitCount g + 1

theorem samples_succ (h : Control g n s) :
    samples g (n + 1) = if readBit g s then samples g n + 1 else samples g n := by
  have hS := two_le_maxStartBitCount hM
  have hread := readBit_iff hM h
  simp only [samples, hread]
  by_cases hn : n < maxStartBitCount g
  · have hzero : n + 1 - maxStartBitCount g = 0 := by omega
    rw [hzero, Nat.zero_div]
    split_ifs <;> omega
  · have hsucc : n + 1 - maxStartBitCount g = n - maxStartBitCount g + 1 := by omega
    have hone : 1 < maxBitCount g := by omega
    have hdiv := (count_mod hone (n - maxStartBitCount g)).2
    rw [hsucc, hdiv]
    split_ifs <;> omega

theorem sample_time (h : Control g n s) (hread : readBit g s = true) :
    n = maxStartBitCount g - 1 + samples g n * maxBitCount g := by
  have hS := two_le_maxStartBitCount hM
  unfold samples
  rcases (readBit_iff hM h).mp hread with hstart | ⟨hn, hlast⟩
  · rw [if_pos (by omega), Nat.zero_mul]
    omega
  · have hdecomp := Nat.div_add_mod (n - maxStartBitCount g) (maxBitCount g)
    rw [if_neg (by omega), Nat.add_mul, Nat.mul_comm _ (maxBitCount g)]
    omega

theorem sampled_edge {p : Ports} {line : Nat → Bool} (h : Control g n s)
    (hdata : Sampled line (samples g n) s.dataReg) (hreset : p.reset = false)
    (hn : n < maxStartBitCount g + 9 * maxBitCount g)
    (hline : readBit g s = true → p.dataIn = line (samples g n)) :
    Sampled line (samples g (n + 1)) (edge g p s).dataReg := by
  rw [samples_succ hM h]
  simp only [edge, hreset, Bool.false_eq_true, if_false]
  split_ifs with hread
  · have hten : samples g n < 10 := by
      have htime := sample_time hM h hread
      by_contra hmany
      have hmul := Nat.mul_le_mul_right (maxBitCount g) (Nat.not_lt.mp hmany)
      omega
    rw [hline hread]
    exact sampled_shift hdata hten
  · exact hdata

/-- While a frame is read, control and data are those of the elapsed time. -/
theorem reading_run (h : Control g 0 s) (ports : Nat → Ports)
    (hreset : ∀ m < maxStartBitCount g + 9 * maxBitCount g, (ports m).reset = false)
    (hn : n ≤ maxStartBitCount g + 9 * maxBitCount g) :
    Control g n (Machine.run (edge g) s ports n) ∧
      Sampled (fun j => (ports (maxStartBitCount g - 1 + j * maxBitCount g)).dataIn) (samples g n)
        (Machine.run (edge g) s ports n).dataReg := by
  induction n with
  | zero =>
    refine ⟨h, fun j hj => ?_⟩
    rw [samples, if_pos (by have := two_le_maxStartBitCount hM; omega)] at hj
    exact absurd hj (Nat.not_lt_zero j)
  | succ n ih =>
    obtain ⟨hcontrol, hdata⟩ := ih (by omega)
    have hquiet := hreset n (by omega)
    refine ⟨control_edge hM hcontrol hquiet (by omega), ?_⟩
    refine sampled_edge hM hcontrol hdata hquiet (by omega) fun hread => ?_
    exact congrArg (fun m => (ports m).dataIn) (sample_time hM hcontrol hread)

/-! ## Between two frames -/

omit hM in
/-- No frame is being read. -/
structure Ready (s : Registers) : Prop where
  state : s.state = .initState
  startBitCounter : s.startBitCounter = 0
  bitCounter : s.bitCounter = 0
  numberBits : s.numberBits = 0

theorem ready_edge {p : Ports} (h : Ready s) (hstart : startProc s = false) :
    Ready (edge g p s) := by
  have hS := two_le_maxStartBitCount hM
  constructor
  · simp [edge, nxtState, h.state, hstart]
  · simp [edge, readStart, h.state]
  · simp [edge, reading, h.state]
  · simp [edge, reading, h.state]

theorem control_of_ready {p : Ports} (h : Ready s) (hreset : p.reset = false)
    (hstart : startProc s = true) : Control g 0 (edge g p s) := by
  have hS := two_le_maxStartBitCount hM
  have hpos : 0 < maxStartBitCount g := by omega
  constructor
  · simp [edge, hreset, nxtState, h.state, hstart, hpos]
  · simp [edge, readStart, h.state]
  · simp [edge, reading, h.state]
  · simp [edge, reading, h.state]

omit hM in
/-- A complete frame is signalled. -/
structure Delivers (b : Byte) (s : Registers) : Prop where
  state : s.state = .doneState
  dataOut : dataOut s = b

omit hM in
theorem ready_of_delivers {p : Ports} {b : Byte} (h : Delivers b s) (hstart : startProc s = false) :
    Ready (edge g p s) := by
  constructor
  · simp [edge, nxtState, h.state, hstart]
  · simp [edge, readStart, h.state]
  · simp [edge, reading, h.state]
  · simp [edge, reading, h.state]

theorem delivers_of_control {p : Ports} {line : Nat → Bool} {b : Byte}
    (h : Control g (maxStartBitCount g + 9 * maxBitCount g) s) (hdata : Sampled line 10 s.dataReg)
    (hreset : p.reset = false) (hbyte : ∀ j < 8, line (j + 1) = b.getLsbD j) :
    Delivers b (edge g p s) := by
  have hS := two_le_maxStartBitCount hM
  have hread : readBit g s = false := by
    rw [Bool.eq_false_iff, ne_eq, readBit_iff hM h, Nat.add_sub_cancel_left,
      Nat.mul_mod_left]
    omega
  have hstate : s.state = .readBitsState := by rw [h.state, if_neg (by omega)]
  have hdone : doneReading s = true := by
    have hnum := h.numberBits
    rw [Nat.add_sub_cancel_left, Nat.mul_div_cancel _ (by omega)] at hnum
    exact decide_eq_true hnum
  constructor
  · simp [edge, hreset, nxtState, hstate, hdone]
  · simp only [dataOut, edge, hreset, hread, Bool.false_eq_true, if_false]
    apply BitVec.eq_of_getLsbD_eq
    intro j hj
    rw [BitVec.getLsbD_extractLsb', ← hbyte j hj, ← hdata (j + 1) (by omega), Nat.add_comm 1 j]
    simp [hj]

/-! ## A frame -/

omit hM in
/-- `duration` edges of a line that carries byte `b`: it falls at the first edge, shows the data
bits in the middle of their intervals, and is high again from the last sample on. -/
structure Frame (g : UartGenerics) (b : Byte) (duration : Nat) (ports : Nat → Ports) : Prop where
  reset : ∀ n < duration, (ports n).reset = false
  start : (ports 0).dataIn = false
  data : ∀ j < 8,
    (ports (maxStartBitCount g + 1 + (j + 1) * maxBitCount g)).dataIn = b.getLsbD j
  stop : ∀ n, maxStartBitCount g + 9 * maxBitCount g + 2 ≤ n → n < duration →
    (ports n).dataIn = true
  long : maxStartBitCount g + 9 * maxBitCount g + 4 ≤ duration

omit hM in
/-- Ready, and the line was high at the last edge. -/
structure Idle (s : Registers) : Prop where
  ready : Ready s
  high : s.startReg0 = false

theorem idle_edge {p : Ports} (h : Idle s) (hline : p.reset = false → p.dataIn = true) :
    Idle (edge g p s) := by
  have hnone : startProc s = false := by simp [startProc, h.high]
  refine ⟨ready_edge hM h.ready hnone, ?_⟩
  simp only [edge]
  split_ifs with hreset
  · rfl
  · rw [hline (Bool.eq_false_iff.mpr hreset)]
    rfl

omit hM in
/-- When the byte of a frame is delivered. -/
def deliveryTime (g : UartGenerics) : Nat := maxStartBitCount g + 9 * maxBitCount g + 3

section Frame
variable {b : Byte} {duration : Nat} {ports : Nat → Ports}

theorem control_of_frame (hframe : Frame g b duration ports) (h : Idle s) :
    Ready (Machine.run (edge g) s ports 1) ∧ Control g 0 (Machine.run (edge g) s ports 2) := by
  have hlong := hframe.long
  have hfirst := hframe.reset 0 (by omega)
  have hnone : startProc s = false := by simp [startProc, h.high]
  have hready : Ready (edge g (ports 0) s) := ready_edge hM h.ready hnone
  have hstart : startProc (edge g (ports 0) s) = true := by
    simp [startProc, edge, hfirst, hframe.start, h.high]
  exact ⟨hready, control_of_ready hM hready (hframe.reset 1 (by omega)) hstart⟩

theorem reading_frame (hframe : Frame g b duration ports) (h : Idle s)
    (hn : n ≤ maxStartBitCount g + 9 * maxBitCount g) :
    Control g n (Machine.run (edge g) s ports (2 + n)) ∧
      Sampled (fun j => (ports (maxStartBitCount g + 1 + j * maxBitCount g)).dataIn) (samples g n)
        (Machine.run (edge g) s ports (2 + n)).dataReg := by
  have hS := two_le_maxStartBitCount hM
  have hlong := hframe.long
  have hrun := reading_run hM (control_of_frame hM hframe h).2 (fun m => ports (2 + m))
    (fun m hm => hframe.reset (2 + m) (by omega)) hn
  have hshift (j : Nat) : 2 + (maxStartBitCount g - 1 + j * maxBitCount g) =
      maxStartBitCount g + 1 + j * maxBitCount g := by omega
  simp only [hshift] at hrun
  rw [Machine.run_add]
  exact hrun

theorem delivers_frame (hframe : Frame g b duration ports) (h : Idle s) :
    Delivers b (Machine.run (edge g) s ports (deliveryTime g)) := by
  have hlong := hframe.long
  obtain ⟨hcontrol, hdata⟩ := reading_frame hM hframe h (n := _) le_rfl
  have hten : samples g (maxStartBitCount g + 9 * maxBitCount g) = 10 := by
    rw [samples, if_neg (by omega), Nat.add_sub_cancel_left, Nat.mul_div_cancel _ (by omega)]
  rw [hten] at hdata
  have htime : deliveryTime g = 2 + (maxStartBitCount g + 9 * maxBitCount g) + 1 := by
    unfold deliveryTime
    omega
  rw [htime, Machine.run_succ]
  exact delivers_of_control hM hcontrol hdata (hframe.reset _ (by omega)) hframe.data

theorem idle_frame (hframe : Frame g b duration ports) (h : Idle s) (hn : deliveryTime g < n)
    (hend : n ≤ duration) : Idle (Machine.run (edge g) s ports n) := by
  induction n, hn using Nat.le_induction with
  | base =>
    have hdelivers := delivers_frame hM hframe h
    have hhigh : (Machine.run (edge g) s ports (deliveryTime g)).startReg0 = false := by
      have hstop := hframe.stop (deliveryTime g - 1) (by unfold deliveryTime; omega)
        (by have := hframe.long; unfold deliveryTime; omega)
      have hpred : deliveryTime g = deliveryTime g - 1 + 1 := by unfold deliveryTime; omega
      rw [hpred, Machine.run_succ]
      simp [edge, hstop]
    have hstop := hframe.stop (deliveryTime g) (by unfold deliveryTime; omega) (by omega)
    refine ⟨ready_of_delivers hdelivers (by simp [startProc, hhigh]), ?_⟩
    simp [Machine.run_succ, edge, hstop]
  | succ n hn ih =>
    obtain ⟨hready, hhigh⟩ := ih (by omega)
    have hstop := hframe.stop n (by unfold deliveryTime at hn; omega) (by omega)
    refine ⟨ready_edge hM hready (by simp [startProc, hhigh]), ?_⟩
    simp [Machine.run_succ, edge, hstop]

/-- Every frame raises `data_valid` exactly once, at a fixed time, with its byte. -/
theorem dataValid_frame (hframe : Frame g b duration ports) (h : Idle s) (hend : n ≤ duration) :
    dataValid (Machine.run (edge g) s ports n) = true ↔ n = deliveryTime g := by
  have hdelivers := delivers_frame hM hframe h
  rw [dataValid, decide_eq_true_eq]
  refine ⟨fun hdone => ?_, fun heq => heq ▸ hdelivers.state⟩
  by_contra hne
  rcases Nat.lt_or_gt_of_ne hne with hbefore | hafter
  · rcases Nat.lt_or_ge n 2 with hearly | hlate
    · interval_cases n
      · simp [h.ready.state] at hdone
      · simp [(control_of_frame hM hframe h).1.state] at hdone
    · obtain ⟨m, rfl⟩ := Nat.exists_eq_add_of_le hlate
      have hm : m ≤ maxStartBitCount g + 9 * maxBitCount g := by
        unfold deliveryTime at hbefore
        omega
      rw [(reading_frame hM hframe h hm).1.state] at hdone
      split_ifs at hdone
  · rw [(idle_frame hM hframe h hafter hend).ready.state] at hdone
    exact absurd hdone (by decide)

/-- The line of a sender that keeps every bit for `max_bit_count` edges: start bit, data bits
from the lowest one, stop bit. -/
def frameLine (g : UartGenerics) (b : Byte) (n : Nat) : Bool :=
  if n < maxBitCount g then false
  else if n < 9 * maxBitCount g then b.getLsbD (n / maxBitCount g - 1)
  else true

theorem frame_frameLine (b : Byte) (hlong : deliveryTime g < duration)
    (hports : ∀ n < duration, ports n = ⟨false, frameLine g b n⟩) : Frame g b duration ports := by
  unfold deliveryTime at hlong
  refine ⟨fun n hn => ?_, ?_, fun j hj => ?_, fun n hn hend => ?_, hlong⟩
  · rw [hports n hn]
  · rw [hports 0 (by omega)]
    exact if_pos (by omega)
  · have hS : maxStartBitCount g + 1 < maxBitCount g := by unfold maxStartBitCount; omega
    have hmul : (j + 1) * maxBitCount g ≤ 8 * maxBitCount g := Nat.mul_le_mul_right _ (by omega)
    have hlow : 1 * maxBitCount g ≤ (j + 1) * maxBitCount g := Nat.mul_le_mul_right _ (by omega)
    have hdiv : (maxStartBitCount g + 1 + (j + 1) * maxBitCount g) / maxBitCount g = j + 1 := by
      rw [Nat.add_mul_div_right _ _ (by omega), Nat.div_eq_of_lt hS, Nat.zero_add]
    rw [hports _ (by omega), frameLine, if_neg (by omega), if_pos (by omega), hdiv,
      Nat.add_sub_cancel]
  · rw [hports n hend, frameLine, if_neg (by omega), if_neg (by omega)]

end Frame
end Phases

/-! ## The distance of two bytes -/

section Distance
variable (g : UartGenerics)

/-- How far the receiver is with a byte, in edges since the end of the start bit. -/
def progress (s : Registers) : Nat :=
  match s.state with
  | .readBitsState => s.numberBits * maxBitCount g + s.bitCounter
  | .doneState => 9 * maxBitCount g
  | _ => 0

/-- On any line and with any resets, an edge gains at most one edge of progress. -/
theorem progress_edge (p : Ports) (s : Registers) (hM : 1 ≤ maxBitCount g) :
    progress g (edge g p s) ≤ progress g s + 1 := by
  cases hreset : p.reset with
  | true => simp [progress, edge, hreset]
  | false =>
    have hnext : (edge g p s).state = nxtState g s := by simp [edge, hreset]
    cases hstate : s.state with
    | initState =>
      simp only [progress, hnext, nxtState, hstate]
      cases startProc s <;> simp
    | doneState =>
      simp only [progress, hnext, nxtState, hstate]
      cases startProc s <;> simp
    | readStartBitState =>
      have hidle : reading s = false := by simp [reading, hstate]
      simp only [progress, hnext, nxtState, hstate]
      cases readBit g s <;> simp [edge, hreset, hidle]
    | readBitsState =>
      have hreading : reading s = true := by simp [reading, hstate]
      by_cases hdone : s.numberBits = maxBits - 1
      · have hnine : s.numberBits * maxBitCount g = 9 * maxBitCount g := by rw [hdone]; rfl
        simp only [progress, hnext, nxtState, hstate, doneReading, decide_eq_true hdone, if_true]
        omega
      · simp only [progress, hnext, nxtState, hstate, doneReading, decide_eq_false hdone,
          Bool.false_eq_true, if_false]
        by_cases hwrap : s.bitCounter = maxBitCount g - 1
        · simp only [edge, hreset, hreading, hdone, hwrap, Bool.false_eq_true, false_or, or_true,
            if_true, if_false, Bool.true_eq_false, Nat.add_mul]
          omega
        · simp only [edge, hreset, hreading, hdone, hwrap, Bool.false_eq_true, false_or, if_true,
            if_false, Bool.true_eq_false]
          omega

theorem progress_of_valid {s : Registers} (h : dataValid s = true) :
    progress g s = 9 * maxBitCount g := by
  rw [dataValid, decide_eq_true_eq] at h
  simp only [progress, h]

/-- After a byte the receiver has to begin anew. -/
theorem progress_after_valid (p : Ports) {s : Registers} (h : dataValid s = true) :
    progress g (edge g p s) = 0 := by
  rw [dataValid, decide_eq_true_eq] at h
  cases hreset : p.reset with
  | true => simp [progress, edge, hreset]
  | false =>
    simp only [progress, edge, hreset, nxtState, h]
    cases startProc s <;> simp

end Distance
end KuznyechikDPA.RUart

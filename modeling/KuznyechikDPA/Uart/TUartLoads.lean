import KuznyechikDPA.Uart.TUartTiming

/-!
# What the transmitter loads

`number_bits = max_bits` comes before `load_data` in `count_bits_proc`, so a byte is lost when
the two coincide. A reset that comes just after a wrap of the bit counter leaves `shift_data`
high, and then `number_bits` runs while the transmitter rests. After any frame it is low.
-/

namespace KuznyechikDPA.TUart

variable {g : UartGenerics} {p : Ports} {s : Registers}

/-- The byte that this edge puts into the data register, if any. -/
def loaded (p : Ports) (s : Registers) : List Byte :=
  if p.reset = false ∧ s.numberBits ≠ maxBits ∧ loadData s = true then [p.dataIn] else []

theorem loaded_of_ne (h : s.state ≠ .load) : loaded p s = [] := by
  have hlow : loadData s = false := decide_eq_false h
  rw [loaded, if_neg fun hall => absurd (hlow.symm.trans hall.2.2) Bool.false_ne_true]

theorem txReady_iff : txReady s = true ↔ s.state = .init ∧ s.txReadyReg = true ∧ s.delayClock = false := by
  simp only [txReady, transmitDone, Bool.and_eq_true, decide_eq_true_eq, Bool.not_eq_true', and_assoc]

/-! ## All states -/

/-- Whatever the resets are, `shift_data` has just been raised by a wrap of the counter. -/
structure Wrapped (g : UartGenerics) (s : Registers) : Prop where
  counter : s.clkCounter ≤ maxClkCount g
  bits : s.numberBits ≤ maxBits
  wrapped : s.shiftData = true → s.clkCounter = 0

theorem wrapped_init (g : UartGenerics) : Wrapped g .init := by
  constructor <;> simp [Registers.init, settle]

theorem clock_edge (g : UartGenerics) (p : Ports) (s : Registers) :
    (edge g p s).clkCounter =
        (if s.state = .shift then if s.clkCounter = maxClkCount g then 0 else s.clkCounter + 1
        else s.clkCounter) ∧
      (edge g p s).shiftData =
        if s.state = .shift then decide (s.clkCounter = maxClkCount g) else s.shiftData := by
  simp only [edge, settle, clockCountProc]
  refine ⟨?_, ?_⟩
  · split_ifs <;> rfl
  · split_ifs with hshift hwrap
    · exact (decide_eq_true hwrap).symm
    · exact (decide_eq_false hwrap).symm
    · rfl

theorem bits_edge (hreset : p.reset = false) : (edge g p s).numberBits =
    if s.numberBits = maxBits then 0
    else if s.state = .load then s.numberBits else s.numberBits + s.shiftData.toNat := by
  simp only [edge, settle, countBitsProc, hreset, Bool.false_eq_true, if_false, loadData, decide_eq_true_eq]
  cases s.shiftData <;> split_ifs <;> first | rfl | contradiction

theorem done_edge (hreset : p.reset = false) : (edge g p s).doneShifting =
    if s.numberBits = maxBits then true else if s.state = .load then false else s.doneShifting := by
  simp only [edge, settle, countBitsProc, hreset, Bool.false_eq_true, if_false, loadData, decide_eq_true_eq]
  cases s.shiftData <;> split_ifs <;> rfl

theorem wrapped_edge (h : Wrapped g s) (p : Ports) : Wrapped g (edge g p s) := by
  obtain ⟨hcounter, hbits, hwrapped⟩ := h
  obtain ⟨hclk, hshift⟩ := clock_edge g p s
  refine ⟨?_, ?_, ?_⟩
  · rw [hclk]
    split_ifs <;> omega
  · cases hreset : p.reset with
    | true =>
      have hzero : (edge g p s).numberBits = 0 := by
        simp only [edge, settle, countBitsProc, hreset, if_true]
      omega
    | false =>
      rw [bits_edge hreset]
      cases s.shiftData <;> simp only [Bool.toNat_false, Bool.toNat_true] <;> split_ifs <;> omega
  · rw [hclk, hshift]
    split_ifs with hstate hlast
    · exact fun _ => rfl
    · rw [decide_eq_false hlast]
      exact fun hon => absurd hon Bool.false_ne_true
    · exact hwrapped

/-! ## From a start pulse to the load -/

/-- One edge of `number_bits` while the transmitter rests. -/
def tick (shiftData : Bool) (bits : Nat) : Nat := if bits = maxBits then 0 else bits + shiftData.toNat

/-- A ready transmitter. -/
structure Ready (g : UartGenerics) (s : Registers) : Prop where
  settled : Settled s
  wrapped : Wrapped g s
  ready : txReady s = true

/-- The edge after a start pulse. -/
structure Launched (g : UartGenerics) (s : Registers) : Prop where
  settled : Settled s
  wrapped : Wrapped g s
  state : s.state = .init
  lead : s.startCountLead = true
  follow : s.startCountFollow = false

structure AtLoad (g : UartGenerics) (s : Registers) : Prop where
  settled : Settled s
  wrapped : Wrapped g s
  state : s.state = .load
  lead : s.startCountLead = false
  full : s.numberBits = maxBits → s.clkCounter = 0

section Start
variable (hreset : p.reset = false)
include hreset

theorem init_edge (hinit : s.state = .init) : (edge g p s).shiftData = s.shiftData ∧
    (edge g p s).numberBits = tick s.shiftData s.numberBits := by
  have hne : ¬ s.state = .shift := by rw [hinit]; decide
  have hne' : ¬ s.state = .load := by rw [hinit]; decide
  refine ⟨by rw [(clock_edge g p s).2, if_neg hne], ?_⟩
  rw [bits_edge hreset, if_neg hne', tick]

theorem Ready.wait (h : Ready g s) (hstart : p.start = false) : Ready g (edge g p s) :=
  ⟨settled_edge g p s, wrapped_edge h.wrapped p, txReady_edge h.settled h.ready hreset hstart⟩

theorem Ready.launch (h : Ready g s) (hstart : p.start = true) :
    Launched g (edge g p s) ∧ txReady (edge g p s) = false := by
  have hlead := lead_of_txReady h.settled h.ready
  obtain ⟨hstate, hnext, hfollow, hreg, -, -⟩ :=
    edge_of_init (g := g) (txReady_iff.mp h.ready).1 (startTrans_of_lead hlead) hreset
  refine ⟨⟨settled_edge g p s, wrapped_edge h.wrapped p, hstate, hnext.trans hstart, hfollow.trans hlead⟩, ?_⟩
  rw [txReady, hreg, hstart]
  simp

theorem Launched.load (h : Launched g s) (hstart : p.start = false) :
    AtLoad g (edge g p s) ∧ txReady (edge g p s) = false := by
  have htrans : startTrans s = true := by rw [startTrans, h.lead, h.follow]; rfl
  have hstate : (edge g p s).state = .load := by
    simp only [edge, settle, nxtState, hreset, h.state, htrans, Bool.false_eq_true, if_false, if_true]
  have hlead : (edge g p s).startCountLead = false := by
    simp only [edge, settle, hreset, hstart, Bool.false_eq_true, if_false]
  have hfull (hten : (edge g p s).numberBits = maxBits) : (edge g p s).clkCounter = 0 := by
    have hne : ¬ s.state = .shift := by rw [h.state]; decide
    rw [(clock_edge g p s).1, if_neg hne]
    rw [(init_edge hreset h.state).2, tick] at hten
    apply h.wrapped.wrapped
    split_ifs at hten with hold
    · exact absurd hten (by decide)
    · cases hshift : s.shiftData with
      | true => rfl
      | false =>
        rw [hshift] at hten
        exact absurd hten hold
  refine ⟨⟨settled_edge g p s, wrapped_edge h.wrapped p, hstate, hlead, hfull⟩, ?_⟩
  rw [txReady, transmitDone, hstate]
  rfl

end Start

/-! ## From the load to the next byte -/

/-- Shifting out a frame, or what `number_bits` has left of it. -/
structure Sending (g : UartGenerics) (s : Registers) : Prop where
  settled : Settled s
  wrapped : Wrapped g s
  state : s.state = .shift
  lead : s.startCountLead = false
  full : s.numberBits = maxBits → s.clkCounter = 1 ∧ s.shiftData = false
  finish : s.doneShifting = true → s.clkCounter ≠ maxClkCount g

/-- So many edges end a frame and the delay after it. -/
def budget (g : UartGenerics) (s : Registers) : Nat :=
  if s.doneShifting then maxClkCountDelay g + 2
  else if s.numberBits = maxBits then maxClkCountDelay g + 3
  else (maxBits + 1 - s.numberBits - s.shiftData.toNat) * (maxClkCount g + 1) - s.clkCounter +
    maxClkCountDelay g + 3

/-- Busy with a byte that has been loaded, and ready again in at most `n` edges. -/
inductive Winding (g : UartGenerics) (n : Nat) (s : Registers) : Prop
  | sending (h : Sending g s) (hn : budget g s ≤ n)
  | waiting (h : ReadyWithin g n s) (settled : Settled s) (wrapped : Wrapped g s)
      (reg : s.txReadyReg = true) (shiftData : s.shiftData = false)

section Busy
variable (hreset : p.reset = false) (hstart : p.start = false)
include hreset hstart

theorem lead_edge : (edge g p s).startCountLead = false ∧ (edge g p s).txReadyReg = true := by
  simp only [edge, settle, hreset, hstart, Bool.false_eq_true, if_false, Bool.not_false, and_self]

theorem AtLoad.send (hN : 3 ≤ maxClkCount g) (h : AtLoad g s) : Sending g (edge g p s) := by
  have hne : ¬ s.state = .shift := by rw [h.state]; decide
  have hstate : (edge g p s).state = .shift := by
    simp only [edge, settle, nxtState, hreset, h.state, Bool.false_eq_true, if_false]
  refine ⟨settled_edge g p s, wrapped_edge h.wrapped p, hstate, (lead_edge hreset hstart).1, ?_, ?_⟩
  · intro hten
    rw [bits_edge hreset, if_pos h.state] at hten
    split_ifs at hten with hold
    · exact absurd hten (by decide)
    · exact absurd hten hold
  · intro hdone
    rw [done_edge hreset, if_pos h.state] at hdone
    rw [(clock_edge g p s).1, if_neg hne]
    split_ifs at hdone with hten
    have hzero := h.full hten
    omega

theorem Sending.stay (h : Sending g s) (hgoing : s.doneShifting = false)
    (hfull : (edge g p s).numberBits = maxBits → (edge g p s).clkCounter = 1 ∧ (edge g p s).shiftData = false)
    (hfinish : (edge g p s).doneShifting = true → (edge g p s).clkCounter ≠ maxClkCount g) :
    Sending g (edge g p s) := by
  have hstate : (edge g p s).state = .shift := by
    simp only [edge, settle, nxtState, hreset, h.state, hgoing, Bool.false_eq_true, if_false]
  exact ⟨settled_edge g p s, wrapped_edge h.wrapped p, hstate, (lead_edge hreset hstart).1, hfull, hfinish⟩

/-- The last shift is over. -/
theorem Sending.last (hN : 3 ≤ maxClkCount g) (h : Sending g s) (hgoing : s.doneShifting = false)
    (hten : s.numberBits = maxBits) :
    Sending g (edge g p s) ∧ budget g (edge g p s) < budget g s := by
  have hbits := bits_edge (g := g) (s := s) hreset
  have hdone := done_edge (g := g) (s := s) hreset
  obtain ⟨hone, -⟩ := h.full hten
  have hclk := (clock_edge g p s).1
  rw [if_pos hten] at hbits hdone
  rw [if_pos h.state, hone, if_neg (by omega)] at hclk
  constructor
  · refine h.stay hreset hstart hgoing (fun hlast => ?_) fun _ => ?_
    · exact absurd (hbits.symm.trans hlast) (by decide)
    · omega
  · rw [budget, budget, hdone, hgoing, if_pos rfl, if_neg Bool.false_ne_true, if_pos hten]
    exact Nat.lt_succ_self _

theorem Sending.shift (hN : 3 ≤ maxClkCount g) (h : Sending g s) (hgoing : s.doneShifting = false) :
    Sending g (edge g p s) ∧ budget g (edge g p s) < budget g s := by
  by_cases hfull : s.numberBits = maxBits
  · exact h.last hreset hstart hN hgoing hfull
  have hload : ¬ s.state = .load := by rw [h.state]; decide
  obtain ⟨hclk, hshift⟩ := clock_edge g p s
  have hbits := bits_edge (g := g) (s := s) hreset
  have hdone := done_edge (g := g) (s := s) hreset
  obtain ⟨hcounter, hbound, hwrapped⟩ := h.wrapped
  rw [if_pos h.state] at hclk hshift
  rw [if_neg hfull, if_neg hload] at hbits hdone
  rw [hgoing] at hdone
  have hnot : ¬ (edge g p s).doneShifting = true := by rw [hdone]; exact Bool.false_ne_true
  rw [budget, budget, hdone, hgoing, if_neg Bool.false_ne_true, if_neg Bool.false_ne_true, if_neg hfull]
  -- a pulse of `shift_data` moves one bit time from the product to the count
  cases hhigh : s.shiftData with
  | true =>
    have hzero := hwrapped hhigh
    rw [hhigh, Bool.toNat_true] at hbits
    rw [hzero, if_neg (by omega)] at hclk
    rw [hzero, decide_eq_false (by omega)] at hshift
    refine ⟨h.stay hreset hstart hgoing (fun _ => ⟨hclk, hshift⟩) fun hon => absurd hon hnot, ?_⟩
    have hleft : maxBits + 1 - s.numberBits - 1 = maxBits - s.numberBits := by omega
    rw [hbits, hclk, hshift, hzero, Bool.toNat_true, Bool.toNat_false, hleft]
    have hpos : maxClkCount g + 1 ≤ (maxBits - s.numberBits) * (maxClkCount g + 1) :=
      Nat.le_mul_of_pos_left _ (by omega)
    split_ifs
    · omega
    · have hnext : maxBits + 1 - (s.numberBits + 1) - 0 = maxBits - s.numberBits := by omega
      rw [hnext]
      omega
  | false =>
    have hsplit : (maxBits + 1 - s.numberBits) * (maxClkCount g + 1) =
        (maxBits - s.numberBits) * (maxClkCount g + 1) + (maxClkCount g + 1) := by
      rw [← Nat.succ_mul]
      congr 1
      omega
    rw [hhigh, Bool.toNat_false, Nat.add_zero] at hbits
    refine ⟨h.stay hreset hstart hgoing (fun hlast => absurd (hbits.symm.trans hlast) hfull)
      fun hon => absurd hon hnot, ?_⟩
    rw [hbits, if_neg hfull, hshift, hclk, Bool.toNat_false, Nat.sub_zero, hsplit]
    by_cases hwrap : s.clkCounter = maxClkCount g
    · have hleft : maxBits + 1 - s.numberBits - 1 = maxBits - s.numberBits := by omega
      rw [decide_eq_true hwrap, if_pos hwrap, Bool.toNat_true, hleft]
      omega
    · rw [decide_eq_false hwrap, if_neg hwrap, Bool.toNat_false, Nat.sub_zero, hsplit]
      omega

omit hstart in
theorem Sending.done (h : Sending g s) (hdone : s.doneShifting = true) :
    (edge g p s).state = .init ∧ (edge g p s).shiftData = false := by
  have hstate : (edge g p s).state = .init := by
    simp only [edge, settle, nxtState, hreset, h.state, hdone, Bool.false_eq_true, if_false, if_true]
  refine ⟨hstate, ?_⟩
  rw [(clock_edge g p s).2, if_pos h.state]
  exact decide_eq_false (h.finish hdone)

theorem Winding.next (hN : 3 ≤ maxClkCount g) {n : Nat} (h : Winding g (n + 1) s) :
    Winding g n (edge g p s) := by
  obtain ⟨hlead, hreg⟩ := lead_edge (g := g) (s := s) hreset hstart
  cases h with
  | sending h hn =>
    cases hdone : s.doneShifting with
    | true =>
      obtain ⟨hstate, hshift⟩ := h.done hreset hdone
      rw [budget, if_pos hdone] at hn
      exact .waiting ⟨hstate, hlead, fun _ => by omega⟩ (settled_edge g p s) (wrapped_edge h.wrapped p)
        hreg hshift
    | false =>
      obtain ⟨hnext, hless⟩ := h.shift hreset hstart hN hdone
      exact .sending hnext (by omega)
  | waiting h settled wrapped _ hshift =>
    exact .waiting (readyWithin_edge settled h hreset hstart).1 (settled_edge g p s)
      (wrapped_edge wrapped p) hreg ((init_edge hreset h.state).1.trans hshift)

end Busy

theorem Winding.loaded {n : Nat} (h : Winding g n s) (p : Ports) : loaded p s = [] := by
  cases h with
  | sending h _ => exact loaded_of_ne (by rw [h.state]; decide)
  | waiting h _ _ _ _ => exact loaded_of_ne (by rw [h.state]; decide)

theorem Winding.ready {n : Nat} (h : Winding g n s) (hready : txReady s = true) :
    Ready g s ∧ s.shiftData = false := by
  cases h with
  | sending h _ =>
    have hinit := (txReady_iff.mp hready).1
    rw [h.state] at hinit
    contradiction
  | waiting _ settled wrapped _ hshift => exact ⟨⟨settled, wrapped, hready⟩, hshift⟩

theorem Winding.of_zero (h : Winding g 0 s) : txReady s = true := by
  cases h with
  | sending _ hn =>
    have hpos : 0 < budget g s := by
      unfold budget
      split_ifs <;> omega
    omega
  | waiting h _ _ reg _ => exact txReady_of_readyWithin h reg

end KuznyechikDPA.TUart

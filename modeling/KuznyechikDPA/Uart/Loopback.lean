import KuznyechikDPA.Foundation.Renewal
import KuznyechikDPA.Uart.TUartFrame

/-!
# Transmitter and receiver on one wire

Both sides read the registers before an edge. The receiver keeps a bit for
`max_bit_count` edges and the transmitter for one edge more, but each frame is sampled from
its own falling edge on: within ten bits the two drift apart by at most ten edges and the
three that the start bit may lack, less than half a bit of twenty edges.
-/

namespace KuznyechikDPA.Loopback

@[ext] structure Registers where
  tx : TUart.Registers
  rx : RUart.Registers

def Registers.init : Registers where
  tx := .init
  rx := .init

def rxPorts (p : TUart.Ports) (s : Registers) : RUart.Ports where
  reset := p.reset
  dataIn := TUart.dataOut s.tx

def step (g : UartGenerics) (p : TUart.Ports) (s : Registers) : Registers where
  tx := TUart.edge g p s.tx
  rx := RUart.edge g (rxPorts p s) s.rx

def run (g : UartGenerics) (input : Nat → TUart.Ports) (t : Nat) : Registers :=
  Machine.run (step g) .init input t

/-- The sender: no reset, a start pulse only while `tx_ready` is high, and the byte held until
it is loaded, two edges later. -/
structure Legal (g : UartGenerics) (input : Nat → TUart.Ports) : Prop where
  reset : ∀ t, (input t).reset = false
  ready : ∀ t, (input t).start = true → TUart.txReady (run g input t).tx = true
  held : ∀ t, (input t).start = true →
    (input (t + 1)).dataIn = (input t).dataIn ∧ (input (t + 2)).dataIn = (input t).dataIn

/-- From a start pulse to `data_valid`. -/
def latency (g : UartGenerics) : Nat := 3 + RUart.deliveryTime g

/-- The bytes handed over before edge `n`. -/
def sent (input : Nat → TUart.Ports) (n : Nat) : List Byte :=
  marked (fun t => (input t).start) (fun t => (input t).dataIn) n

/-- The bytes that the receiver has signalled before edge `n`. -/
def received (g : UartGenerics) (input : Nat → TUart.Ports) (n : Nat) : List Byte :=
  marked (fun t => RUart.dataValid (run g input t).rx) (fun t => RUart.dataOut (run g input t).rx) n

section Run
variable {g : UartGenerics} {input : Nat → TUart.Ports}

theorem rx_run (t n : Nat) : (run g input (t + n)).rx =
    Machine.run (RUart.edge g) (run g input t).rx
      (fun m => rxPorts (input (t + m)) (run g input (t + m))) n := by
  induction n with
  | zero => rfl
  | succ n ih => rw [Machine.run_succ, ← ih]; rfl

/-- Nothing is being sent or received. -/
structure Rests (s : Registers) : Prop where
  tx : ∃ c ≤ 3, TUart.Rest c s.tx
  rx : RUart.Idle s.rx

theorem rests_init : Rests (run g input 0) :=
  ⟨⟨0, by decide, ⟨rfl, rfl, rfl, rfl, rfl, rfl⟩⟩, ⟨⟨rfl, rfl, rfl, rfl⟩, rfl⟩⟩

/-- A sender that gives a start pulse to a transmitter between two bytes only, whether or not its delay is
over. -/
structure Orderly (g : UartGenerics) (input : Nat → TUart.Ports) : Prop where
  reset : ∀ t, (input t).reset = false
  free : ∀ t, (input t).start = true →
    (run g input t).tx.state = .init ∧ (run g input t).tx.txReadyReg = true
  held : ∀ t, (input t).start = true →
    (input (t + 1)).dataIn = (input t).dataIn ∧ (input (t + 2)).dataIn = (input t).dataIn

theorem Legal.orderly (h : Legal g input) : Orderly g input := by
  refine ⟨h.reset, fun t hstart => ?_, h.held⟩
  have hready := h.ready t hstart
  simp only [TUart.txReady, TUart.transmitDone, Bool.and_eq_true, decide_eq_true_eq] at hready
  exact hready.1

section Orderly
variable (h : Orderly g input)
include h

theorem start_of_just_started {t : Nat} (hreg : (run g input t).tx.txReadyReg = false) :
    (input t).start = false := by
  by_contra hon
  rw [(h.free t (Bool.of_not_eq_false hon)).2] at hreg
  contradiction

theorem start_of_busy {t : Nat} (hstate : (run g input t).tx.state ≠ .init) :
    (input t).start = false := by
  by_contra hon
  exact hstate (h.free t (Bool.of_not_eq_false hon)).1

theorem tx_loading {t c : Nat} (htx : TUart.Rest c (run g input t).tx) (hstart : (input t).start = true) :
    (input (t + 1)).start = false ∧ TUart.Loading c (run g input (t + 2)).tx := by
  have hbegins : TUart.Begins c (run g input (t + 1)).tx := TUart.begins_edge (h.reset t) htx hstart
  have hnone : (input (t + 1)).start = false := start_of_just_started h hbegins.ready
  exact ⟨hnone, TUart.loading_edge (h.reset (t + 1)) hbegins hnone⟩

end Orderly

variable (hN : 20 ≤ TUart.maxClkCount g)
include hN

theorem four_le_maxBitCount : 4 ≤ RUart.maxBitCount g := by
  have hsame : RUart.maxBitCount g = TUart.maxClkCount g := rfl
  omega

theorem idle_next {t : Nat} (hidle : RUart.Idle (run g input t).rx)
    (hline : TUart.dataOut (run g input t).tx = true) : RUart.Idle (run g input (t + 1)).rx :=
  RUart.idle_edge (four_le_maxBitCount hN) hidle fun _ => hline

variable (h : Orderly g input)
include h

theorem rests_wait {t : Nat} (hrests : Rests (run g input t)) (hstart : ¬ (input t).start = true) :
    Rests (run g input (t + 1)) := by
  obtain ⟨⟨c, hc, htx⟩, hrx⟩ := hrests
  refine ⟨⟨c, hc, ?_⟩, idle_next hN hrx (TUart.dataOut_of_ones htx.dataReg)⟩
  exact TUart.rest_edge (h.reset t) htx (Bool.eq_false_iff.mpr hstart)

/-! ## One byte -/

section Job
variable {t c : Nat} (hc : c ≤ 3) (htx : TUart.Rest c (run g input t).tx)
variable (hstart : (input t).start = true)
include hc htx hstart

theorem tx_sends {n : Nat} (hn : c + n ≤ TUart.lastPosition g) :
    TUart.Sends g (input t).dataIn (c + n) (run g input (t + 3 + n)).tx := by
  induction n with
  | zero =>
    obtain ⟨-, hloading⟩ := tx_loading h htx hstart
    have hnone : (input (t + 2)).start = false := start_of_busy h (by rw [hloading.state]; decide)
    have hsends := TUart.sends_of_loading (h.reset (t + 2)) hN hc hloading hnone
    rwa [(h.held t hstart).2] at hsends
  | succ n ih =>
    have hsends := ih (by omega)
    have hnone : (input (t + 3 + n)).start = false := start_of_busy h (by rw [hsends.state]; decide)
    have hnext := TUart.sends_edge (h.reset (t + 3 + n)) hN hsends (by omega) hnone
    exact hnext

theorem tx_rest {n : Nat} (hn : c + n = TUart.lastPosition g) :
    TUart.Rest 3 (run g input (t + 3 + n + 1)).tx := by
  have hsends := tx_sends hN h hc htx hstart (Nat.le_of_eq hn)
  have hnone : (input (t + 3 + n)).start = false := start_of_busy h (by rw [hsends.state]; decide)
  rw [hn] at hsends
  exact TUart.rest_of_sends (h.reset (t + 3 + n)) hN hsends hnone

theorem start_of_job {n k : Nat} (hn : c + n = TUart.lastPosition g) (hpos : 0 < k) (hk : k ≤ 3 + n) :
    (input (t + k)).start = false := by
  obtain ⟨hone, hloading⟩ := tx_loading h htx hstart
  obtain rfl | rfl | ⟨m, rfl⟩ : k = 1 ∨ k = 2 ∨ ∃ m, k = 3 + m := by
    by_cases hlow : k < 3
    · omega
    · exact .inr (.inr ⟨k - 3, by omega⟩)
  · exact hone
  · exact start_of_busy h (by rw [hloading.state]; decide)
  · have hsends := tx_sends hN h hc htx hstart (n := m) (by omega)
    rw [← Nat.add_assoc]
    exact start_of_busy h (by rw [hsends.state]; decide)

/-- What the line carries is a frame for the receiver: every bit is sampled within its own time. -/
theorem frame_of_job {n : Nat} (hn : c + n = TUart.lastPosition g) :
    RUart.Frame g (input t).dataIn (n + 1) fun m =>
      rxPorts (input (t + 3 + m)) (run g input (t + 3 + m)) := by
  have hline (m : Nat) (hm : m ≤ n) : TUart.dataOut (run g input (t + 3 + m)).tx =
      TUart.frameBit (input t).dataIn (TUart.shifts g (c + m)) :=
    (tx_sends hN h hc htx hstart (by omega)).dataOut
  have hsame : RUart.maxBitCount g = TUart.maxClkCount g := rfl
  have hlast : n = 10 * (TUart.maxClkCount g + 1) + 2 - c := by
    unfold TUart.lastPosition at hn
    omega
  have hhalf : RUart.maxStartBitCount g = TUart.maxClkCount g / 2 := rfl
  constructor
  · exact fun m _ => h.reset _
  · have hzero : TUart.shifts g (c + 0) = 0 := Nat.div_eq_of_lt (by omega)
    exact (hline 0 (by omega)).trans (by rw [hzero]; rfl)
  · intro j hj
    have hmul : (j + 1) * TUart.maxClkCount g ≤ 8 * TUart.maxClkCount g :=
      Nat.mul_le_mul_right _ (by omega)
    have hshifts : TUart.shifts g (c + (RUart.maxStartBitCount g + 1 + (j + 1) * RUart.maxBitCount g)) =
        j + 1 := by
      rw [hsame, TUart.shifts]
      apply Nat.div_eq_of_lt_le
      · rw [Nat.mul_add (j + 1)]
        omega
      · rw [Nat.mul_add (j + 1 + 1), Nat.add_mul (j + 1)]
        omega
    have hbit := hline (RUart.maxStartBitCount g + 1 + (j + 1) * RUart.maxBitCount g)
      (by rw [hsame, hhalf]; omega)
    rw [hshifts, TUart.frameBit, if_neg (Nat.succ_ne_zero j), if_pos (by omega)] at hbit
    exact hbit
  · intro m hlow hm
    rw [hsame, hhalf] at hlow
    have hshifts : 9 ≤ TUart.shifts g (c + m) :=
      (Nat.le_div_iff_mul_le (Nat.succ_pos _)).mpr (by omega)
    have hbit := hline m (by omega)
    rw [TUart.frameBit, if_neg (by omega), if_neg (by omega)] at hbit
    exact hbit
  · rw [hsame, hhalf, hlast]
    omega

variable {n : Nat} (hn : c + n = TUart.lastPosition g)

include hn in
theorem deliveryTime_lt : RUart.deliveryTime g < n + 1 := by
  have hlong := (frame_of_job hN h hc htx hstart hn).long
  unfold RUart.deliveryTime
  omega

variable (hrx : RUart.Idle (run g input t).rx)
include hrx

omit hc in
/-- The line is high until the byte is loaded. -/
theorem idle_before {k : Nat} (hk : k ≤ 3) : RUart.Idle (run g input (t + k)).rx := by
  have hbegins : TUart.Begins c (run g input (t + 1)).tx := TUart.begins_edge (h.reset t) htx hstart
  obtain ⟨-, hloading⟩ := tx_loading h htx hstart
  have hone := idle_next hN hrx (TUart.dataOut_of_ones htx.dataReg)
  have htwo := idle_next hN hone (TUart.dataOut_of_ones hbegins.dataReg)
  have hthree := idle_next hN htwo (TUart.dataOut_of_ones hloading.dataReg)
  obtain rfl | rfl | rfl | rfl : k = 0 ∨ k = 1 ∨ k = 2 ∨ k = 3 := by omega
  · exact hrx
  · exact hone
  · exact htwo
  · exact hthree

include hn

theorem rests_after_job : Rests (run g input (t + (3 + (n + 1)))) := by
  have hframe := frame_of_job hN h hc htx hstart hn
  have hidle := RUart.idle_frame (four_le_maxBitCount hN) hframe
    (idle_before hN h htx hstart hrx (Nat.le_refl 3)) (deliveryTime_lt hN h hc htx hstart hn)
    (Nat.le_refl _)
  rw [← rx_run] at hidle
  rw [← Nat.add_assoc]
  exact ⟨⟨3, Nat.le_refl 3, tx_rest hN h hc htx hstart hn⟩, hidle⟩

theorem dataValid_of_job {k : Nat} (hpos : 0 < k) (hk : k < 3 + (n + 1)) :
    RUart.dataValid (run g input (t + k)).rx = true ↔ k = latency g := by
  unfold latency
  by_cases hearly : k < 3
  · have hidle := idle_before hN h htx hstart hrx (k := k) (by omega)
    have hsilent : RUart.dataValid (run g input (t + k)).rx = false := by
      simp [RUart.dataValid, hidle.ready.state]
    rw [hsilent]
    constructor
    · intro hon
      contradiction
    · omega
  · obtain ⟨m, rfl⟩ : ∃ m, k = 3 + m := ⟨k - 3, by omega⟩
    have hvalid := RUart.dataValid_frame (four_le_maxBitCount hN) (frame_of_job hN h hc htx hstart hn)
      (idle_before hN h htx hstart hrx (Nat.le_refl 3)) (n := m) (by omega)
    rw [← rx_run] at hvalid
    rw [← Nat.add_assoc, hvalid]
    omega

theorem delivers_job : RUart.dataOut (run g input (t + latency g)).rx = (input t).dataIn := by
  have hdelivers := RUart.delivers_frame (four_le_maxBitCount hN) (frame_of_job hN h hc htx hstart hn)
    (idle_before hN h htx hstart hrx (Nat.le_refl 3))
  rw [← rx_run] at hdelivers
  rw [latency, ← Nat.add_assoc]
  exact hdelivers.dataOut

end Job

/-! ## The run -/

theorem orderly_renewal : Renewal (latency g) (fun t => Rests (run g input t))
    (fun t => (input t).start = true) fun t => RUart.dataValid (run g input t).rx = true where
  pos := by
    unfold latency
    omega
  silent t hrests hvalid := by
    simp [RUart.dataValid, hrests.rx.ready.state] at hvalid
  wait t hrests hstart := rests_wait hN h hrests hstart
  job t hrests hstart := by
    obtain ⟨⟨c, hc, htx⟩, hrx⟩ := hrests
    have hlong : c ≤ TUart.lastPosition g := by
      unfold TUart.lastPosition
      omega
    obtain ⟨n, hn⟩ := Nat.exists_eq_add_of_le hlong
    have htime := deliveryTime_lt hN h hc htx hstart hn.symm
    refine ⟨3 + (n + 1), by unfold latency; omega, rests_after_job hN h hc htx hstart hn.symm hrx, ?_⟩
    intro k hpos hk
    have hnone := start_of_job hN h hc htx hstart hn.symm hpos (by omega)
    exact ⟨by rw [hnone]; exact Bool.false_ne_true, dataValid_of_job hN h hc htx hstart hn.symm hrx hpos hk⟩

end Run

section Legal
variable {g : UartGenerics} {input : Nat → TUart.Ports} (hN : 20 ≤ TUart.maxClkCount g)
variable (h : Legal g input)
include hN h

theorem renewal : Renewal (latency g) (fun t => Rests (run g input t)) (fun t => (input t).start = true)
    fun t => RUart.dataValid (run g input t).rx = true :=
  orderly_renewal hN h.orderly

theorem dataOut_of_job {t c n : Nat} (hc : c ≤ 3) (htx : TUart.Rest c (run g input t).tx)
    (hstart : (input t).start = true) (hn : c + n = TUart.lastPosition g)
    (hrx : RUart.Idle (run g input t).rx) :
    RUart.dataOut (run g input (t + latency g)).rx = (input t).dataIn :=
  delivers_job hN h.orderly hc htx hstart hn hrx

end Legal

/-- Every byte handed over is signalled once, `latency` edges later and with its value, and nothing
else is signalled: the receiver's bytes are the sender's. -/
theorem loopback {g : UartGenerics} (hN : 20 ≤ g.clkRate / g.baud) {input : Nat → TUart.Ports}
    (h : Legal g input) (t : Nat) :
    (RUart.dataValid (run g input t).rx = true ↔ ∃ u, u + latency g = t ∧ (input u).start = true) ∧
    ((input t).start = true → RUart.dataOut (run g input (t + latency g)).rx = (input t).dataIn) ∧
    received g input (t + latency g) = sent input t := by
  have hrenewal := renewal hN h
  have hvalid := hrenewal.answers_iff rests_init
  have hvalue (u : Nat) (hstart : (input u).start = true) :
      RUart.dataOut (run g input (u + latency g)).rx = (input u).dataIn := by
    have hrests := hrenewal.rests_of_start rests_init u (by rwa [Nat.zero_add])
    rw [Nat.zero_add] at hrests
    obtain ⟨⟨c, hc, htx⟩, hrx⟩ := hrests
    have hlong : c ≤ TUart.lastPosition g := by
      unfold TUart.lastPosition
      omega
    obtain ⟨n, hn⟩ := Nat.exists_eq_add_of_le hlong
    exact dataOut_of_job hN h hc htx hstart hn.symm hrx
  exact ⟨hvalid t, hvalue t, marked_shift hvalid hvalue t⟩

/-- One byte at 20 edges a bit. -/
def oneByte (t : Nat) : TUart.Ports where
  reset := false
  start := t == 1
  dataIn := 0xA5

theorem legal_oneByte : Legal ⟨20, 1⟩ oneByte where
  reset _ := rfl
  ready t h := by
    obtain rfl : t = 1 := beq_iff_eq.mp h
    decide
  held _ _ := ⟨rfl, rfl⟩

theorem loopback_oneByte : received ⟨20, 1⟩ oneByte (2 + latency ⟨20, 1⟩) = [0xA5] :=
  (loopback (by decide) legal_oneByte 2).2.2

end KuznyechikDPA.Loopback

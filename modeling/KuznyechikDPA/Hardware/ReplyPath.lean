import KuznyechikDPA.Foundation.Renewal
import KuznyechikDPA.Hardware.UartMaskedComplete
import KuznyechikDPA.Uart.TUartLoads

/-!
# The way of a reply

`Tx_collecteur` and `tUART` as both designs connect them, with any `cipher` and
`start_transmit`. A byte takes two edges of the collector, and `tUART` loads it two edges after
the start pulse.
-/

namespace KuznyechikDPA

namespace TxCollecteur
variable {p : Ports} {s : Registers}

theorem edge_bounds (p : Ports) (hcpt : s.cpt ≤ 16) : (edge p s).cpt ≤ 16 ∧
    ((edge p s).startTx = true → (edge p s).tempTxReady = true) := by
  have hedge := edge_cases p hcpt
  generalize edge p s = s' at hedge ⊢
  cases hedge with
  | first => exact ⟨hcpt, fun _ => rfl⟩
  | second => exact ⟨Nat.le_trans (Nat.sub_le _ 1) hcpt, fun hon => absurd hon Bool.false_ne_true⟩
  | offer => exact ⟨hcpt, fun _ => rfl⟩
  | next => exact ⟨Nat.le_trans (Nat.sub_le _ 1) hcpt, fun hon => absurd hon Bool.false_ne_true⟩
  | last => exact ⟨Nat.le_refl 16, fun hon => absurd hon Bool.false_ne_true⟩
  | wait => exact ⟨hcpt, fun hon => absurd hon Bool.false_ne_true⟩
  | rest => exact ⟨hcpt, fun hon => absurd hon Bool.false_ne_true⟩

/-- Without a new byte the collector waits; done with the reply, it clears the byte on offer. -/
theorem edge_hold (hcpt : s.cpt ≤ 16) (hdone : s.cpt = 16 → p.startTransmit = false)
    (hbusy : s.cpt ≠ 16 → p.txReady = false) :
    edge p s = { s with
      startTx := false
      dataToTx := if s.cpt = 16 then 0 else s.dataToTx
      doneTransmit := decide (s.cpt = 16) } := by
  by_cases hlast : s.cpt = 16
  · have hstart := hdone hlast
    have hnot : ¬ (p.startTransmit = true ∧ s.cpt = 16) := fun hon =>
      absurd (hstart.symm.trans hon.1) Bool.false_ne_true
    rw [edge, if_neg hnot, if_neg (by omega), if_neg (by omega), if_pos hlast, decide_eq_true hlast]
  · have hready : ¬ p.txReady = true := by
      rw [hbusy hlast]
      exact Bool.false_ne_true
    rw [edge, if_neg (fun hon => hlast hon.2), if_neg hlast, decide_eq_false hlast]
    split_ifs with hmid hzero
    · rfl
    · rfl
    · omega

/-- The next byte is offered. -/
theorem edge_offer (hcpt : s.cpt ≤ 16) (htemp : s.tempTxReady = false)
    (hfirst : s.cpt = 16 → p.startTransmit = true) (hready : p.txReady = true) :
    edge p s = { s with
      doneTransmit := false
      dataToTx := slice p.cipher (s.cpt - 1)
      startTx := true
      tempTxReady := true } := by
  by_cases hstart : s.cpt = 16
  · rw [edge, if_pos ⟨hfirst hstart, hstart⟩, if_pos htemp, hstart]
  · rw [edge, if_neg (fun hon => hstart hon.2), if_pos hready, if_pos htemp]
    split_ifs with hmid hzero
    · rfl
    · rw [hzero]
    · omega

/-- At rest after an edge, the collector says so. -/
theorem doneTransmit_edge (p : Ports) (hcpt : s.cpt ≤ 16) (hrest : (edge p s).cpt = 16)
    (htemp : (edge p s).tempTxReady = false) : (edge p s).doneTransmit = true := by
  have hedge := edge_cases p hcpt
  generalize edge p s = s' at hedge hrest htemp ⊢
  cases hedge with
  | first => exact absurd htemp.symm Bool.false_ne_true
  | second => rfl
  | offer => exact absurd htemp.symm Bool.false_ne_true
  | next _ hlow =>
    have hnext : s.cpt - 1 = 16 := hrest
    omega
  | last => rfl
  | wait hlow =>
    have hsame : s.cpt = 16 := hrest
    omega
  | rest => rfl

/-- The count after a byte. -/
def after (cpt : Nat) : Nat := if cpt = 0 then 16 else cpt - 1

theorem after_bounds {cpt : Nat} (hcpt : cpt ≤ 16) : after cpt ≤ 16 ∧ (after cpt = 16 ↔ cpt = 0) := by
  unfold after
  split_ifs <;> omega

/-- The byte on offer is taken. -/
theorem edge_take (hcpt : s.cpt ≤ 16) (htemp : s.tempTxReady = true)
    (hfirst : s.cpt = 16 → p.startTransmit = true) (hready : p.txReady = true) :
    (edge p s).cpt = after s.cpt ∧ (edge p s).tempTxReady = false ∧ (edge p s).startTx = false ∧
      (edge p s).dataToTx = s.dataToTx := by
  have hnot : ¬ s.tempTxReady = false := by
    rw [htemp]
    decide
  by_cases hstart : s.cpt = 16
  · rw [edge, if_pos ⟨hfirst hstart, hstart⟩, if_neg hnot, after, if_neg (by omega)]
    exact ⟨rfl, rfl, rfl, rfl⟩
  · rw [edge, if_neg (fun hon => hstart hon.2), if_pos hready, if_neg hnot, after]
    split_ifs with hmid hzero hzero
    · omega
    · exact ⟨rfl, rfl, rfl, rfl⟩
    · exact ⟨rfl, rfl, rfl, rfl⟩
    · omega

end TxCollecteur

namespace ReplyPath

open TUart (Ready Launched AtLoad Winding tick maxBits maxClkCount)

structure Input where
  rising : Bool
  reset : Bool
  cipher : Block
  startTransmit : Bool

@[ext] structure Registers where
  txColl : TxCollecteur.Registers
  txComp : TUart.Registers

def Registers.init : Registers where
  txColl := .init
  txComp := .init

def txCollPorts (i : Input) (s : Registers) : TxCollecteur.Ports where
  cipher := i.cipher
  startTransmit := i.startTransmit
  txReady := TUart.txReady s.txComp

def txCompPorts (i : Input) (s : Registers) : TUart.Ports where
  reset := i.reset
  start := s.txColl.startTx
  dataIn := s.txColl.dataToTx

def step (g : UartGenerics) (i : Input) (s : Registers) : Registers where
  txColl :=
    if i.reset then TxCollecteur.reset s.txColl
    else if i.rising then TxCollecteur.edge (txCollPorts i s) s.txColl
    else s.txColl
  txComp := if i.rising then TUart.edge g (txCompPorts i s) s.txComp else s.txComp

variable (g : UartGenerics) (input : Nat → Input)

def run (t : Nat) : Registers := Machine.run (step g) .init input t

/-- What `tUART` loads at instant `t`. -/
def loaded (t : Nat) : List Byte :=
  if (input t).rising then TUart.loaded (txCompPorts (input t) (run g input t)) (run g input t).txComp
  else []

/-! ## Replies -/

/-- The collector has nothing to send and `tx_ready` is high. -/
def Idle (s : Registers) : Prop :=
  s.txColl.cpt = 16 ∧ s.txColl.tempTxReady = false ∧ TUart.txReady s.txComp = true

instance (s : Registers) : Decidable (Idle s) := inferInstanceAs (Decidable (_ ∧ _ ∧ _))

/-- A reset has left `shift_data` high, and `number_bits` will be 10 at the next load. -/
def Stuck (s : Registers) : Prop := s.txComp.shiftData = true ∧ s.txComp.numberBits = 7

/-- From an idle instant on there are edges without resets, and every reply is asked for by a pulse
of two edges or more, which ends before the collector is done, with a stable cipher. -/
structure Session (a : Nat) : Prop where
  idle : Idle (run g input a)
  rising : ∀ t ≥ a, (input t).rising = true
  reset : ∀ t ≥ a, (input t).reset = false
  held : ∀ t ≥ a, Idle (run g input t) → (input t).startTransmit = true →
    (input (t + 1)).startTransmit = true
  released : ∀ t ≥ a, (run g input t).txColl.cpt = 16 → (run g input t).txColl.tempTxReady = false →
    TUart.txReady (run g input t).txComp = false → (input t).startTransmit = false
  stable : ∀ t ≥ a, ¬ Idle (run g input (t + 1)) → (input (t + 1)).cipher = (input t).cipher

/-- The sixteen bytes of `cipher`, the most significant one first, and a zero byte, for a reply that
begins at instant `t`. -/
def due (t : Nat) : List Byte :=
  if Idle (run g input t) ∧ (input t).startTransmit = true then
    List.ofFn (bytes (input t).cipher) ++ [0]
  else []

/-! ## All states -/

structure Invariant (s : Registers) : Prop where
  settled : TUart.Settled s.txComp
  wrapped : TUart.Wrapped g s.txComp
  cpt : s.txColl.cpt ≤ 16
  start : s.txColl.startTx = true → s.txColl.tempTxReady = true

theorem invariant_step {s : Registers} (h : Invariant g s) (i : Input) : Invariant g (step g i s) := by
  have hcomp : TUart.Settled (step g i s).txComp ∧ TUart.Wrapped g (step g i s).txComp := by
    simp only [step]
    split_ifs
    · exact ⟨TUart.settled_edge g _ _, TUart.wrapped_edge h.wrapped _⟩
    · exact ⟨h.settled, h.wrapped⟩
  have hcoll : (step g i s).txColl.cpt ≤ 16 ∧
      ((step g i s).txColl.startTx = true → (step g i s).txColl.tempTxReady = true) := by
    simp only [step]
    split_ifs
    · exact ⟨Nat.le_refl 16, fun hon => absurd hon Bool.false_ne_true⟩
    · exact TxCollecteur.edge_bounds _ h.cpt
    · exact ⟨h.cpt, h.start⟩
  exact ⟨hcomp.1, hcomp.2, hcoll.1, hcoll.2⟩

theorem invariant_run (t : Nat) : Invariant g (run g input t) := by
  have hinit : Invariant g .init :=
    ⟨TUart.settled_init, TUart.wrapped_init g, Nat.le_refl 16, fun hon => absurd hon Bool.false_ne_true⟩
  exact Machine.run_invariant input hinit (fun i _ h => invariant_step g h i) t

theorem Idle.ready {s : Registers} (h : Idle s) (hinv : Invariant g s) :
    Ready g s.txComp ∧ s.txColl.startTx = false := by
  refine ⟨⟨hinv.settled, hinv.wrapped, h.2.2⟩, ?_⟩
  by_contra hon
  have htemp := hinv.start (Bool.of_not_eq_false hon)
  rw [h.2.1] at htemp
  contradiction

/-! ## Edges of a session -/

/-- The collector counts `k` and waits for `tx_ready`. -/
structure Held (k : Nat) (s : Registers) : Prop where
  cpt : s.txColl.cpt = k
  temp : s.txColl.tempTxReady = false
  start : s.txColl.startTx = false

/-- Byte `d` is on offer to a ready transmitter. -/
structure Offered (k : Nat) (d : Byte) (s : Registers) : Prop where
  cpt : s.txColl.cpt = k
  temp : s.txColl.tempTxReady = true
  start : s.txColl.startTx = true
  data : s.txColl.dataToTx = d
  ready : Ready g s.txComp

theorem coll_edge {t : Nat} (hrising : (input t).rising = true) (hreset : (input t).reset = false) :
    (run g input (t + 1)).txColl =
      TxCollecteur.edge (txCollPorts (input t) (run g input t)) (run g input t).txColl := by
  rw [run, Machine.run_succ, step, hreset, hrising, if_neg Bool.false_ne_true, if_pos rfl]
  rfl

theorem comp_edge {t : Nat} (hrising : (input t).rising = true) : (run g input (t + 1)).txComp =
    TUart.edge g (txCompPorts (input t) (run g input t)) (run g input t).txComp := by
  rw [run, Machine.run_succ, step, hrising, if_pos rfl]
  rfl

variable {g input} {a : Nat} (h : Session g input a)
include h

section Edge
variable {t : Nat} (ht : a ≤ t)
include ht

theorem Session.coll : (run g input (t + 1)).txColl =
    TxCollecteur.edge (txCollPorts (input t) (run g input t)) (run g input t).txColl :=
  coll_edge g input (h.rising t ht) (h.reset t ht)

theorem Session.comp : (run g input (t + 1)).txComp =
    TUart.edge g (txCompPorts (input t) (run g input t)) (run g input t).txComp :=
  comp_edge g input (h.rising t ht)

theorem Session.loaded_eq : loaded g input t =
    TUart.loaded (txCompPorts (input t) (run g input t)) (run g input t).txComp := by
  rw [ReplyPath.loaded, h.rising t ht, if_pos rfl]

theorem Session.hold {k : Nat} (hk : k ≤ 16) (hheld : Held k (run g input t))
    (hbusy : TUart.txReady (run g input t).txComp = false) :
    Held k (run g input (t + 1)) ∧
      (run g input (t + 1)).txColl.dataToTx = (if k = 16 then 0 else (run g input t).txColl.dataToTx) := by
  obtain ⟨rfl, htemp, -⟩ := hheld
  have hedge := TxCollecteur.edge_hold (p := txCollPorts (input t) (run g input t)) hk
    (fun hlast => h.released t ht hlast htemp hbusy) (fun _ => hbusy)
  rw [← h.coll ht] at hedge
  refine ⟨⟨?_, ?_, ?_⟩, ?_⟩
  · rw [hedge]
  · rw [hedge]
    exact htemp
  · rw [hedge]
  · rw [hedge]

end Edge

/-- The collector waits until the transmitter is ready again. -/
theorem Session.wait (hN : 3 ≤ maxClkCount g) {k n : Nat} (hk : k ≤ 16) : ∀ {t : Nat}, a ≤ t →
    Held k (run g input t) → Winding g n (run g input t).txComp →
    ∃ m, (Held k (run g input (t + m)) ∧ Ready g (run g input (t + m)).txComp ∧
        (run g input (t + m)).txComp.shiftData = false) ∧
      collected (loaded g input) t m = [] ∧
      ∀ j < m, TUart.txReady (run g input (t + j)).txComp = false := by
  induction n with
  | zero =>
    intro t _ hheld hwind
    obtain ⟨hready, hshift⟩ := hwind.ready hwind.of_zero
    exact ⟨0, ⟨hheld, hready, hshift⟩, rfl, fun j hj => absurd hj (Nat.not_lt_zero j)⟩
  | succ n ih =>
    intro t ht hheld hwind
    cases hnow : TUart.txReady (run g input t).txComp with
    | true =>
      obtain ⟨hready, hshift⟩ := hwind.ready hnow
      exact ⟨0, ⟨hheld, hready, hshift⟩, rfl, fun j hj => absurd hj (Nat.not_lt_zero j)⟩
    | false =>
      obtain ⟨hheld', -⟩ := h.hold ht hk hheld hnow
      have hwind' : Winding g n (run g input (t + 1)).txComp := by
        rw [h.comp ht]
        exact hwind.next (h.reset t ht) hheld.start hN
      obtain ⟨m, hend, hnone, hbusy⟩ := ih (Nat.le_succ_of_le ht) hheld' hwind'
      refine ⟨1 + m, by rwa [← Nat.add_assoc], ?_, fun j hj => ?_⟩
      · rw [collected_add, collected_one, h.loaded_eq ht, hwind.loaded, hnone]
        rfl
      · cases j with
        | zero => exact hnow
        | succ j =>
          have hpos : t + (j + 1) = t + 1 + j := by omega
          rw [hpos]
          exact hbusy j (by omega)

/-- Two edges after a byte has been on offer: it is taken, the start pulse is seen, and the transmitter
loads what the collector shows then. -/
theorem Session.launch {k t : Nat} {d : Byte} (ht : a ≤ t) (hk : k ≤ 16)
    (hoffer : Offered g k d (run g input t)) (hfirst : k = 16 → (input t).startTransmit = true) :
    Held (TxCollecteur.after k) (run g input (t + 2)) ∧ AtLoad g (run g input (t + 2)).txComp ∧
      (run g input (t + 2)).txColl.dataToTx = (if k = 0 then 0 else d) ∧
      (run g input (t + 2)).txComp.numberBits = tick (run g input t).txComp.shiftData
        (tick (run g input t).txComp.shiftData (run g input t).txComp.numberBits) ∧
      collected (loaded g input) t 2 = [] ∧ ∀ j < 3, ¬ Idle (run g input (t + j)) := by
  obtain ⟨rfl, htemp, hstart, rfl, hready⟩ := hoffer
  have hinit := (TUart.txReady_iff.mp hready.ready).1
  obtain ⟨hafter, hlast⟩ := TxCollecteur.after_bounds hk
  have ht1 : a ≤ t + 1 := Nat.le_succ_of_le ht
  have hreset := h.reset t ht
  have hreset1 := h.reset (t + 1) ht1
  -- the byte is taken and the start pulse seen
  obtain ⟨hcpt1, htemp1, hstart1, hdata1⟩ :=
    TxCollecteur.edge_take (p := txCollPorts (input t) (run g input t)) hk htemp hfirst hready.ready
  rw [← h.coll ht] at hcpt1 htemp1 hstart1 hdata1
  obtain ⟨hlaunched, hbusy1⟩ :=
    hready.launch (p := txCompPorts (input t) (run g input t)) hreset hstart
  obtain ⟨hshift1, hbits1⟩ :=
    TUart.init_edge (g := g) (p := txCompPorts (input t) (run g input t)) hreset hinit
  rw [← h.comp ht] at hlaunched hbusy1 hshift1 hbits1
  -- the transmitter goes to load
  obtain ⟨hheld2, hdata2⟩ := h.hold ht1 hafter ⟨hcpt1, htemp1, hstart1⟩ hbusy1
  obtain ⟨hloading, hbusy2⟩ :=
    hlaunched.load (p := txCompPorts (input (t + 1)) (run g input (t + 1))) hreset1 hstart1
  obtain ⟨-, hbits2⟩ := TUart.init_edge (g := g) (p := txCompPorts (input (t + 1)) (run g input (t + 1)))
    hreset1 hlaunched.state
  rw [← h.comp ht1] at hloading hbusy2 hbits2
  rw [hshift1, hbits1] at hbits2
  rw [hdata1] at hdata2
  refine ⟨hheld2, hloading, hdata2.trans ?_, hbits2, ?_, fun j hj hidle => ?_⟩
  · simp only [hlast]
  · have hnone0 : loaded g input t = [] := by
      rw [h.loaded_eq ht]
      exact TUart.loaded_of_ne (by rw [hinit]; decide)
    have hnone1 : loaded g input (t + 1) = [] := by
      rw [h.loaded_eq ht1]
      exact TUart.loaded_of_ne (by rw [hlaunched.state]; decide)
    rw [collected_succ, collected_one, hnone0, hnone1]
    rfl
  · obtain rfl | rfl | rfl : j = 0 ∨ j = 1 ∨ j = 2 := by omega
    · exact absurd (htemp.symm.trans hidle.2.1) (by decide)
    · exact absurd (hbusy1.symm.trans hidle.2.2) Bool.false_ne_true
    · exact absurd (hbusy2.symm.trans hidle.2.2) Bool.false_ne_true

/-- One byte: `tUART` loads it, or a zero byte in the place of the seventeenth, unless `number_bits` is in
the way, and then becomes ready again. -/
theorem Session.byte (hN : 3 ≤ maxClkCount g) {k t : Nat} {d : Byte} (ht : a ≤ t) (hk : k ≤ 16)
    (hoffer : Offered g k d (run g input t)) (hfirst : k = 16 → (input t).startTransmit = true) :
    ∃ m > 0, (Held (TxCollecteur.after k) (run g input (t + m)) ∧ Ready g (run g input (t + m)).txComp ∧
        (run g input (t + m)).txComp.shiftData = false) ∧
      collected (loaded g input) t m =
        (if tick (run g input t).txComp.shiftData
            (tick (run g input t).txComp.shiftData (run g input t).txComp.numberBits) = maxBits then []
        else [if k = 0 then 0 else d]) ∧
      ∀ j < m, ¬ Idle (run g input (t + j)) := by
  obtain ⟨hheld, hloading, hdata, hbits, hnone, hbusy⟩ := h.launch ht hk hoffer hfirst
  obtain ⟨hafter, -⟩ := TxCollecteur.after_bounds hk
  have ht2 : a ≤ t + 2 := Nat.le_add_right_of_le ht
  have hreset := h.reset (t + 2) ht2
  have hload : loaded g input (t + 2) =
      if tick (run g input t).txComp.shiftData
          (tick (run g input t).txComp.shiftData (run g input t).txComp.numberBits) = maxBits then []
      else [if k = 0 then 0 else d] := by
    have hnow : TUart.loadData (run g input (t + 2)).txComp = true := decide_eq_true hloading.state
    have hports : (txCompPorts (input (t + 2)) (run g input (t + 2))).reset = false := hreset
    have hbyte : (txCompPorts (input (t + 2)) (run g input (t + 2))).dataIn = if k = 0 then 0 else d := hdata
    rw [h.loaded_eq ht2, TUart.loaded, hports, hnow, hbits, hbyte]
    simp only [true_and, and_true, ne_eq]
    split_ifs <;> rfl
  have hnotReady : TUart.txReady (run g input (t + 2)).txComp = false := by
    rw [TUart.txReady, TUart.transmitDone, hloading.state]
    rfl
  obtain ⟨hheld3, -⟩ := h.hold ht2 hafter hheld hnotReady
  have hsending := hloading.send (p := txCompPorts (input (t + 2)) (run g input (t + 2))) hreset
    hheld.start hN
  rw [← h.comp ht2] at hsending
  obtain ⟨m, hend, hquiet, hwait⟩ := h.wait hN hafter (Nat.le_succ_of_le ht2) hheld3
    (.sending hsending (Nat.le_refl _))
  refine ⟨3 + m, by omega, ?_, ?_, fun j hj hidle => ?_⟩
  · rwa [← Nat.add_assoc]
  · rw [collected_add, hquiet, List.append_nil, collected_succ, hnone, hload]
    rfl
  · obtain hlow | hhigh : j < 3 ∨ 3 ≤ j := by omega
    · exact hbusy j hlow hidle
    · obtain ⟨i, rfl⟩ := Nat.exists_eq_add_of_le hhigh
      rw [← Nat.add_assoc] at hidle
      exact absurd ((hwait i (by omega)).symm.trans hidle.2.2) Bool.false_ne_true

/-- What is still to be loaded when the collector counts `k`. -/
def rest (cipher : Block) : Nat → List Byte
  | 0 => [0]
  | k + 1 => TxCollecteur.slice cipher k :: rest cipher k

omit h in
theorem rest_eq (cipher : Block) {k : Nat} (hk : k ≤ 16) :
    rest cipher k = (List.ofFn (bytes cipher)).drop (16 - k) ++ [0] := by
  induction k with
  | zero => rfl
  | succ k ih =>
    have hlt : 16 - (k + 1) < (List.ofFn (bytes cipher)).length := by
      rw [List.length_ofFn]
      omega
    have hnext : 16 - (k + 1) + 1 = 16 - k := by omega
    have hslice : TxCollecteur.slice cipher k = (List.ofFn (bytes cipher))[16 - (k + 1)] := by
      rw [TxCollecteur.slice_eq cipher (by omega), List.getElem_ofFn]
      congr 1
      apply Fin.ext
      simp only [Fin.ofNat]
      omega
    rw [rest, ih (by omega), hslice, List.drop_eq_getElem_cons hlt, hnext]
    rfl

omit h in
theorem tick_low (bits : Nat) : tick false (tick false bits) ≠ maxBits := by
  have hten : maxBits = 10 := rfl
  simp only [tick, Bool.toNat_false]
  split_ifs <;> omega

omit h in
theorem tick_eq_iff (shiftData : Bool) {bits : Nat} (hbits : bits ≤ maxBits) :
    tick shiftData (tick shiftData (tick shiftData bits)) = maxBits ↔ shiftData = true ∧ bits = 7 := by
  have hten : maxBits = 10 := rfl
  cases shiftData with
  | false =>
    have hnot := tick_low (tick false bits)
    simp only [hnot, Bool.false_eq_true, false_and]
  | true =>
    have hle : bits ≤ 10 := hbits
    simp only [tick, Bool.toNat_true, true_and]
    split_ifs <;> omega

theorem Session.cipher_eq {t n : Nat} (ht : a ≤ t)
    (hbusy : ∀ j, 0 < j → j ≤ n → ¬ Idle (run g input (t + j))) :
    (input (t + n)).cipher = (input t).cipher := by
  induction n with
  | zero => rfl
  | succ n ih =>
    rw [← Nat.add_assoc, h.stable (t + n) (by omega) (hbusy (n + 1) (by omega) (Nat.le_refl _))]
    exact ih fun j hpos hj => hbusy j hpos (by omega)

/-- A ready transmitter is offered the next byte. -/
theorem Session.offer {k t : Nat} (ht : a ≤ t) (hk : k ≤ 16) (hheld : Held k (run g input t))
    (hready : Ready g (run g input t).txComp) (hfirst : k = 16 → (input t).startTransmit = true) :
    Offered g k (TxCollecteur.slice (input t).cipher (k - 1)) (run g input (t + 1)) ∧
      ((run g input (t + 1)).txComp.shiftData = (run g input t).txComp.shiftData ∧
        (run g input (t + 1)).txComp.numberBits =
          tick (run g input t).txComp.shiftData (run g input t).txComp.numberBits) ∧
      loaded g input t = [] := by
  obtain ⟨rfl, htemp, hstart⟩ := hheld
  have hinit := (TUart.txReady_iff.mp hready.ready).1
  have hedge := TxCollecteur.edge_offer (p := txCollPorts (input t) (run g input t)) hk htemp hfirst
    hready.ready
  rw [← h.coll ht] at hedge
  have hwait := hready.wait (p := txCompPorts (input t) (run g input t)) (h.reset t ht) hstart
  have hbits := TUart.init_edge (g := g) (p := txCompPorts (input t) (run g input t)) (h.reset t ht) hinit
  rw [← h.comp ht] at hwait hbits
  refine ⟨⟨?_, ?_, ?_, ?_, hwait⟩, hbits, ?_⟩
  · rw [hedge]
  · rw [hedge]
  · rw [hedge]
  · rw [hedge]
    rfl
  · rw [h.loaded_eq ht]
    exact TUart.loaded_of_ne (by rw [hinit]; decide)

/-- One byte after the first. -/
theorem Session.next (hN : 3 ≤ maxClkCount g) {k t : Nat} (hk : k ≤ 15) (ht : a ≤ t)
    (hheld : Held k (run g input t)) (hready : Ready g (run g input t).txComp)
    (hshift : (run g input t).txComp.shiftData = false) :
    ∃ m > 0, (Held (TxCollecteur.after k) (run g input (t + m)) ∧ Ready g (run g input (t + m)).txComp ∧
        (run g input (t + m)).txComp.shiftData = false) ∧
      collected (loaded g input) t m =
        [if k = 0 then 0 else TxCollecteur.slice (input t).cipher (k - 1)] ∧
      ∀ j < m, ¬ Idle (run g input (t + j)) := by
  obtain ⟨hoffer, ⟨hlow, -⟩, hnone⟩ := h.offer ht (by omega) hheld hready (by omega)
  obtain ⟨m, -, hend, hload, hbusy⟩ := h.byte hN (Nat.le_succ_of_le ht) (by omega) hoffer (by omega)
  rw [hlow, hshift, if_neg (tick_low _)] at hload
  refine ⟨1 + m, by omega, by rwa [← Nat.add_assoc], ?_, fun j hj hidle => ?_⟩
  · rw [collected_add, collected_one, hnone, hload]
    rfl
  · cases j with
    | zero =>
      have hcpt := hheld.cpt.symm.trans hidle.1
      omega
    | succ j =>
      have hpos : t + (j + 1) = t + 1 + j := by omega
      rw [hpos] at hidle
      exact hbusy j (by omega) hidle

/-- From the byte that the collector counts on, all are loaded once. -/
theorem Session.chain (hN : 3 ≤ maxClkCount g) {k : Nat} (hk : k ≤ 15) : ∀ {t : Nat}, a ≤ t →
    Held k (run g input t) → Ready g (run g input t).txComp →
    (run g input t).txComp.shiftData = false →
    ∃ m > 0, (Idle (run g input (t + m)) ∧ (run g input (t + m)).txComp.shiftData = false) ∧
      collected (loaded g input) t m = rest (input t).cipher k ∧
      ∀ j < m, ¬ Idle (run g input (t + j)) := by
  induction k with
  | zero =>
    intro t ht hheld hready hshift
    obtain ⟨m, hm, ⟨hend, hready', hlow⟩, hload, hbusy⟩ := h.next hN hk ht hheld hready hshift
    exact ⟨m, hm, ⟨⟨hend.cpt, hend.temp, hready'.ready⟩, hlow⟩, hload, hbusy⟩
  | succ k ih =>
    intro t ht hheld hready hshift
    obtain ⟨m, hm, ⟨hend, hready', hlow⟩, hload, hbusy⟩ := h.next hN hk ht hheld hready hshift
    obtain ⟨n, hn, hidle, hload', hbusy'⟩ := ih (by omega) (by omega) hend hready' hlow
    have hsame : (input (t + m)).cipher = (input t).cipher := by
      refine h.cipher_eq ht fun j _ hj hat => ?_
      obtain hlt | rfl : j < m ∨ j = m := by omega
      · exact hbusy j hlt hat
      · have hcpt : k = 16 := hend.cpt.symm.trans hat.1
        omega
    refine ⟨m + n, by omega, by rwa [← Nat.add_assoc], ?_, fun j hj hat => ?_⟩
    · rw [collected_add, hload, hload', hsame]
      rfl
    · obtain hlt | ⟨i, rfl⟩ : j < m ∨ ∃ i, j = m + i := by
        obtain hlt | hle : j < m ∨ m ≤ j := by omega
        · exact .inl hlt
        · exact .inr (Nat.exists_eq_add_of_le hle)
      · exact hbusy j hlt hat
      · rw [← Nat.add_assoc] at hat
        exact hbusy' i (by omega) hat

/-- A reply: a transmitter whose `number_bits` is in the way loses the first byte. -/
theorem Session.reply (hN : 3 ≤ maxClkCount g) {t : Nat} (ht : a ≤ t) (hidle : Idle (run g input t))
    (hstart : (input t).startTransmit = true) :
    ∃ m > 0, Idle (run g input (t + m)) ∧
      (∀ j, 0 < j → j < m → ¬ Idle (run g input (t + j))) ∧
      ((Stuck (run g input t) → collected (loaded g input) t m = rest (input t).cipher 15) ∧
        (¬ Stuck (run g input t) → collected (loaded g input) t m = rest (input t).cipher 16)) := by
  obtain ⟨hready, hlow⟩ := hidle.ready g (invariant_run g input t)
  obtain ⟨hoffer, ⟨hshift, hbits⟩, hnone⟩ :=
    h.offer ht (Nat.le_refl 16) ⟨hidle.1, hidle.2.1, hlow⟩ hready fun _ => hstart
  obtain ⟨m, hm, ⟨hend, hready', hlow'⟩, hload, hbusy⟩ := h.byte hN (Nat.le_succ_of_le ht) (Nat.le_refl 16)
    hoffer fun _ => h.held t ht hidle hstart
  obtain ⟨n, hn, ⟨hidle', -⟩, hload', hbusy'⟩ := h.chain hN (Nat.le_refl 15) (by omega) hend hready' hlow'
  rw [hshift, hbits] at hload
  have hfull := tick_eq_iff (run g input t).txComp.shiftData hready.wrapped.bits
  have hsame : (input (t + 1 + m)).cipher = (input t).cipher := by
    rw [Nat.add_assoc]
    refine h.cipher_eq ht fun j hj hle hat => ?_
    obtain ⟨i, rfl⟩ : ∃ i, j = 1 + i := Nat.exists_eq_add_of_le hj
    rw [← Nat.add_assoc] at hat
    obtain hlt | rfl : i < m ∨ i = m := by omega
    · exact hbusy i hlt hat
    · exact absurd (hend.cpt.symm.trans hat.1) (by decide)
  rw [hsame] at hload'
  refine ⟨1 + m + n, by omega, ?_, fun j hj hlt hat => ?_, fun hstuck => ?_, fun hfree => ?_⟩
  · rw [← Nat.add_assoc, ← Nat.add_assoc]
    exact hidle'
  · obtain ⟨i, rfl⟩ : ∃ i, j = 1 + i := Nat.exists_eq_add_of_le hj
    rw [← Nat.add_assoc] at hat
    obtain hlow | hhigh : i < m ∨ m ≤ i := by omega
    · exact hbusy i hlow hat
    · obtain ⟨l, rfl⟩ := Nat.exists_eq_add_of_le hhigh
      rw [← Nat.add_assoc] at hat
      exact hbusy' l (by omega) hat
  · rw [collected_add, collected_add, collected_one, hnone, hload, if_pos (hfull.mpr hstuck), ← Nat.add_assoc, hload']
    rfl
  · rw [collected_add, collected_add, collected_one, hnone, hload, if_neg (mt hfull.mp hfree), ← Nat.add_assoc, hload']
    rfl

end ReplyPath
end KuznyechikDPA

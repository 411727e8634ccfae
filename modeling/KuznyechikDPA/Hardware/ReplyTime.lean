import KuznyechikDPA.Hardware.ReplyPath
import KuznyechikDPA.Uart.Wire

/-!
# How long a reply takes

The bytes that a reply still owes, and a bound on the edges until the path is free again, follow the
handshake of `Tx_collecteur` and `tUART` edge by edge. A byte takes at most `slot` edges.
-/

namespace KuznyechikDPA.ReplyPath
open TUart

variable {g : UartGenerics} {cipher : Block} {i : Input} {s : Registers} {n : Nat} {bs : List Byte}

/-- From the edge that offers a byte to the one that can offer the next. -/
def slot (g : UartGenerics) : Nat := 11 * (maxClkCount g + 1) + maxClkCountDelay g + 7

/-- A whole reply, from the first edge that sees `start_transmit` on. -/
def replyTime (g : UartGenerics) : Nat := 17 * slot g

/-- Nothing to send, nothing being sent, and no bit count left over. -/
structure Free (g : UartGenerics) (s : Registers) : Prop where
  held : Held 16 s
  ready : Ready g s.txComp
  shiftData : s.txComp.shiftData = false

/-- `bs` is still to be loaded, and the path is free again after at most `n` edges. -/
inductive Owing (g : UartGenerics) (cipher : Block) (n : Nat) : List Byte → Registers → Prop
  | offered {k : Nat} {s : Registers} (hk : k ≤ 16)
      (offer : Offered g k (TxCollecteur.slice cipher (k - 1)) s)
      (low : s.txComp.shiftData = false) (hn : k * slot g + slot g ≤ n + 1) :
      Owing g cipher n (rest cipher k) s
  | launched {k : Nat} {s : Registers} (hk : k ≤ 16) (held : Held (TxCollecteur.after k) s)
      (data : s.txColl.dataToTx = TxCollecteur.slice cipher (k - 1)) (start : Launched g s.txComp)
      (busy : txReady s.txComp = false) (low : s.txComp.shiftData = false)
      (hn : k * slot g + slot g ≤ n + 2) : Owing g cipher n (rest cipher k) s
  | loading {k : Nat} {s : Registers} (hk : k ≤ 16) (held : Held (TxCollecteur.after k) s)
      (data : s.txColl.dataToTx = if k = 0 then 0 else TxCollecteur.slice cipher (k - 1))
      (load : AtLoad g s.txComp) (bits : s.txComp.numberBits ≠ maxBits)
      (hn : k * slot g + slot g ≤ n + 3) : Owing g cipher n (rest cipher k) s
  | waiting {k m : Nat} {s : Registers} (hk : k ≤ 15) (held : Held k s) (wind : Winding g m s.txComp)
      (hn : k * slot g + slot g + m ≤ n) : Owing g cipher n (rest cipher k) s
  | closing {m : Nat} {s : Registers} (held : Held 16 s) (wind : Winding g m s.txComp)
      (busy : txReady s.txComp = false) (hn : m ≤ n) : Owing g cipher n [] s

/-- Nothing to send, and the delay of power-up is over after at most `n` edges. -/
inductive Idling (g : UartGenerics) (n : Nat) (s : Registers) : Prop
  | free (h : Free g s)
  | warming (pos : 0 < n) (held : Held 16 s) (within : ReadyWithin g n s.txComp)
      (settled : Settled s.txComp) (wrapped : Wrapped g s.txComp) (low : s.txComp.shiftData = false)

theorem Idling.mono {m : Nat} (h : Idling g n s) (hnm : n ≤ m) : Idling g m s := by
  cases h with
  | free h => exact .free h
  | warming pos held within settled wrapped low =>
    refine .warming (by omega) held ⟨within.state, within.lead, fun hon => ?_⟩ settled wrapped low
    exact Nat.lt_of_lt_of_le (within.delay hon) hnm

theorem Idling.start (h : Idling g n s) : s.txColl.startTx = false := by
  cases h with
  | free h => exact h.held.start
  | warming _ held _ _ _ _ => exact held.start

theorem idling_init : Idling g (maxClkCountDelay g + 1) .init := by
  refine .warming (Nat.succ_pos _) ⟨rfl, rfl, rfl⟩ ⟨rfl, rfl, ?_⟩ settled_init (wrapped_init g) rfl
  intro _
  exact Nat.lt_succ_of_le (Nat.sub_le _ _)

theorem slot_pos (g : UartGenerics) : 7 ≤ slot g := Nat.le_add_left _ _

theorem Owing.pos (h : Owing g cipher n bs s) : 0 < n := by
  have hslot := slot_pos g
  cases h with
  | offered _ _ _ hn => omega
  | launched _ _ _ _ _ _ hn => omega
  | loading _ _ _ _ _ hn => omega
  | waiting _ _ _ hn => omega
  | @closing m _ _ wind busy hn =>
    rcases m with _ | m
    · rw [wind.of_zero] at busy
      contradiction
    · omega

theorem Owing.mono {m : Nat} (h : Owing g cipher n bs s) (hnm : n ≤ m) : Owing g cipher m bs s := by
  cases h with
  | offered hk offer low hn => exact .offered hk offer low (by omega)
  | launched hk held data start busy low hn => exact .launched hk held data start busy low (by omega)
  | loading hk held data load bits hn => exact .loading hk held data load bits (by omega)
  | waiting hk held wind hn => exact .waiting hk held wind (by omega)
  | closing held wind busy hn => exact .closing held wind busy (by omega)

theorem Owing.range (h : Owing g cipher n bs s) : s.txColl.cpt ≤ 16 := by
  cases h with
  | offered hk offer _ _ => exact offer.cpt.trans_le hk
  | launched hk held _ _ _ _ _ => exact held.cpt.trans_le (TxCollecteur.after_bounds hk).1
  | loading hk held _ _ _ _ => exact held.cpt.trans_le (TxCollecteur.after_bounds hk).1
  | waiting hk held _ _ => exact held.cpt.trans_le (Nat.le_succ_of_le hk)
  | closing held _ _ _ => exact Nat.le_of_eq held.cpt

/-- A byte is offered to a ready transmitter only. -/
theorem Owing.polite (h : Owing g cipher n bs s) (hstart : s.txColl.startTx = true) :
    s.txComp.state = .init ∧ s.txComp.txReadyReg = true := by
  cases h with
  | offered _ offer _ _ =>
    obtain ⟨hstate, hreg, -⟩ := txReady_iff.mp offer.ready.ready
    exact ⟨hstate, hreg⟩
  | launched _ held _ _ _ _ _ => exact absurd (held.start.symm.trans hstart) Bool.false_ne_true
  | loading _ held _ _ _ _ => exact absurd (held.start.symm.trans hstart) Bool.false_ne_true
  | waiting _ held _ _ => exact absurd (held.start.symm.trans hstart) Bool.false_ne_true
  | closing held _ _ _ => exact absurd (held.start.symm.trans hstart) Bool.false_ne_true

theorem budget_le (g : UartGenerics) (s : TUart.Registers) : budget g s + 4 ≤ slot g := by
  have hbits : (maxBits + 1 - s.numberBits - s.shiftData.toNat) * (maxClkCount g + 1) ≤
      11 * (maxClkCount g + 1) := by
    apply Nat.mul_le_mul_right
    have hten : maxBits = 10 := rfl
    omega
  unfold budget slot
  split_ifs <;> omega

theorem tick_false_ne (bits : Nat) : tick false bits ≠ maxBits := by
  have hten : maxBits = 10 := rfl
  rw [tick, Bool.toNat_false]
  split_ifs <;> omega

/-! ## One edge -/

/-- What `tUART` loads at an edge. -/
def loadedAt (i : Input) (s : Registers) : List Byte := TUart.loaded (txCompPorts i s) s.txComp

theorem loadedAt_of_init (i : Input) (h : s.txComp.state = .init) : loadedAt i s = [] := by
  apply loaded_of_ne
  rw [h]
  decide

/-- One edge later: what is loaded is the first part of what was owed. -/
def Advances (g : UartGenerics) (cipher : Block) (n : Nat) (bs : List Byte) (i : Input) (s : Registers) :
    Prop :=
  ∃ bs', bs = loadedAt i s ++ bs' ∧
    (Owing g cipher (n - 1) bs' (step g i s) ∨ bs' = [] ∧ Free g (step g i s))

theorem Owing.advances (hnone : loadedAt i s = []) (h : Owing g cipher (n - 1) bs (step g i s)) :
    Advances g cipher n bs i s := by
  refine ⟨bs, ?_, .inl h⟩
  rw [hnone]
  rfl

section Edge
variable (hrising : i.rising = true) (hreset : i.reset = false)
include hrising hreset

theorem txColl_step : (step g i s).txColl = TxCollecteur.edge (txCollPorts i s) s.txColl := by
  rw [step, hreset, hrising, if_neg Bool.false_ne_true, if_pos rfl]

omit hreset in
theorem txComp_step : (step g i s).txComp = TUart.edge g (txCompPorts i s) s.txComp :=
  if_pos hrising

theorem held_step {k : Nat} (hk : k ≤ 16) (hheld : Held k s) (hlast : k = 16 → i.startTransmit = false)
    (hbusy : k ≠ 16 → txReady s.txComp = false) :
    Held k (step g i s) ∧
      (step g i s).txColl.dataToTx = (if k = 16 then 0 else s.txColl.dataToTx) ∧
      (step g i s).txColl.doneTransmit = decide (k = 16) := by
  obtain ⟨rfl, htemp, -⟩ := hheld
  have hedge := TxCollecteur.edge_hold (p := txCollPorts i s) hk hlast hbusy
  rw [← txColl_step (g := g) hrising hreset] at hedge
  refine ⟨⟨?_, ?_, ?_⟩, ?_, ?_⟩
  · rw [hedge]
  · rw [hedge]
    exact htemp
  · rw [hedge]
  · rw [hedge]
  · rw [hedge]

theorem Free.wait (h : Free g s) (hstart : i.startTransmit = false) :
    Free g (step g i s) ∧ (step g i s).txColl.doneTransmit = true ∧ loadedAt i s = [] := by
  obtain ⟨hheld, -, hdone⟩ := held_step (g := g) hrising hreset (Nat.le_refl 16) h.held
    (fun _ => hstart) (fun hne => absurd rfl hne)
  have hinit := (txReady_iff.mp h.ready.ready).1
  have hready := h.ready.wait (p := txCompPorts i s) hreset h.held.start
  have hshift := (init_edge (g := g) (p := txCompPorts i s) hreset hinit).1
  rw [← txComp_step hrising] at hready hshift
  exact ⟨⟨hheld, hready, hshift.trans h.shiftData⟩, hdone, loadedAt_of_init i hinit⟩

theorem Idling.step (h : Idling g n s) (hstart : i.startTransmit = false) :
    Idling g (n - 1) (step g i s) ∧ (step g i s).txColl.doneTransmit = true ∧ loadedAt i s = [] := by
  cases h with
  | free h =>
    obtain ⟨hfree, hdone, hnone⟩ := h.wait hrising hreset hstart
    exact ⟨.free hfree, hdone, hnone⟩
  | warming pos held within settled wrapped low =>
    obtain ⟨n, rfl⟩ := Nat.exists_eq_add_of_le' pos
    obtain ⟨hheld, -, hdone⟩ := held_step (g := g) hrising hreset (Nat.le_refl 16) held
      (fun _ => hstart) (fun hne => absurd rfl hne)
    refine ⟨?_, hdone, loadedAt_of_init i within.state⟩
    obtain ⟨hwithin, hreg⟩ := readyWithin_edge (p := txCompPorts i s) settled within hreset held.start
    have hsettled := settled_edge g (txCompPorts i s) s.txComp
    have hwrapped := wrapped_edge wrapped (txCompPorts i s)
    have hshift := (init_edge (g := g) (p := txCompPorts i s) hreset within.state).1.trans low
    rw [← txComp_step hrising] at hwithin hreg hsettled hwrapped hshift
    rcases n with _ | n
    · exact .free ⟨hheld, ⟨hsettled, hwrapped, txReady_of_readyWithin hwithin hreg⟩, hshift⟩
    · exact .warming (Nat.succ_pos n) hheld hwithin hsettled hwrapped hshift

/-- A ready transmitter is offered the next byte. -/
theorem offer_step {k : Nat} (hk : k ≤ 16) (hheld : Held k s) (hready : Ready g s.txComp)
    (hlow : s.txComp.shiftData = false) (hfirst : k = 16 → i.startTransmit = true) :
    Offered g k (TxCollecteur.slice i.cipher (k - 1)) (step g i s) ∧
      (step g i s).txComp.shiftData = false := by
  obtain ⟨rfl, htemp, hstart⟩ := hheld
  have hinit := (txReady_iff.mp hready.ready).1
  have hedge := TxCollecteur.edge_offer (p := txCollPorts i s) hk htemp hfirst hready.ready
  rw [← txColl_step (g := g) hrising hreset] at hedge
  have hwait := hready.wait (p := txCompPorts i s) hreset hstart
  have hshift := (init_edge (g := g) (p := txCompPorts i s) hreset hinit).1
  rw [← txComp_step hrising] at hwait hshift
  refine ⟨⟨?_, ?_, ?_, ?_, hwait⟩, hshift.trans hlow⟩
  · rw [hedge]
  · rw [hedge]
  · rw [hedge]
  · rw [hedge]
    rfl

theorem Free.begin (h : Free g s) (hstart : i.startTransmit = true) :
    Owing g i.cipher (replyTime g - 1) (rest i.cipher 16) (step g i s) ∧ loadedAt i s = [] ∧
      (step g i s).txColl.cpt = 16 ∧ (step g i s).txColl.tempTxReady = true := by
  have hslot := slot_pos g
  obtain ⟨hoffer, hlow⟩ := offer_step (g := g) hrising hreset (Nat.le_refl 16) h.held h.ready
    h.shiftData fun _ => hstart
  have hinit := (txReady_iff.mp h.ready.ready).1
  exact ⟨.offered (Nat.le_refl 16) hoffer hlow (by unfold replyTime; omega), loadedAt_of_init i hinit,
    hoffer.cpt, hoffer.temp⟩

/-- The first byte on offer to a transmitter whose delay of power-up is not over. -/
structure Hurried (g : UartGenerics) (cipher : Block) (s : Registers) : Prop where
  cpt : s.txColl.cpt = 16
  temp : s.txColl.tempTxReady = true
  start : s.txColl.startTx = true
  data : s.txColl.dataToTx = TxCollecteur.slice cipher 15
  vacant : Vacant g s.txComp
  low : s.txComp.shiftData = false

/-- The first byte does not wait for `tx_ready`. -/
theorem Idling.begin (h : Idling g n s) (hstart : i.startTransmit = true) :
    (Owing g i.cipher (replyTime g - 1) (rest i.cipher 16) (ReplyPath.step g i s) ∨
        Hurried g i.cipher (ReplyPath.step g i s)) ∧
      loadedAt i s = [] ∧ (ReplyPath.step g i s).txColl.cpt = 16 ∧
      (ReplyPath.step g i s).txColl.tempTxReady = true := by
  cases h with
  | free h =>
    obtain ⟨howing, hnone, hcpt, htemp⟩ := h.begin hrising hreset hstart
    exact ⟨.inl howing, hnone, hcpt, htemp⟩
  | warming pos held within settled wrapped low =>
    obtain ⟨n, rfl⟩ := Nat.exists_eq_add_of_le' pos
    have hcoll := txColl_step (g := g) (s := s) hrising hreset
    rw [TxCollecteur.edge, if_pos ⟨hstart, held.cpt⟩, if_pos held.temp] at hcoll
    obtain ⟨hwithin, hreg⟩ := readyWithin_edge (p := txCompPorts i s) settled within hreset held.start
    have hsettled := settled_edge g (txCompPorts i s) s.txComp
    have hwrapped := wrapped_edge wrapped (txCompPorts i s)
    have hshift := (init_edge (g := g) (p := txCompPorts i s) hreset within.state).1.trans low
    rw [← txComp_step hrising] at hwithin hreg hsettled hwrapped hshift
    have hcpt : (ReplyPath.step g i s).txColl.cpt = 16 := by
      rw [hcoll]
      exact held.cpt
    have htemp : (ReplyPath.step g i s).txColl.tempTxReady = true := by rw [hcoll]
    refine ⟨.inr ⟨hcpt, htemp, ?_, ?_, ⟨hsettled, hwrapped, hwithin.state, hreg⟩, hshift⟩,
      loadedAt_of_init i within.state, hcpt, htemp⟩
    · rw [hcoll]
    · rw [hcoll]
      rfl

theorem Hurried.step {cipher : Block} (h : Hurried g cipher s) (hstart : i.startTransmit = true) :
    Owing g cipher (replyTime g - 2) (rest cipher 16) (ReplyPath.step g i s) ∧ loadedAt i s = [] ∧
      (ReplyPath.step g i s).txColl.cpt = 15 := by
  have hslot := slot_pos g
  have hnot : ¬ s.txColl.tempTxReady = false := by
    rw [h.temp]
    decide
  have hcoll := txColl_step (g := g) (s := s) hrising hreset
  rw [TxCollecteur.edge, if_pos ⟨hstart, h.cpt⟩, if_neg hnot] at hcoll
  obtain ⟨hlaunched, hreg⟩ := h.vacant.launch (p := txCompPorts i s) hreset h.start
  have hshift := (init_edge (g := g) (p := txCompPorts i s) hreset h.vacant.state).1.trans h.low
  rw [← txComp_step hrising] at hlaunched hreg hshift
  have hcpt : (ReplyPath.step g i s).txColl.cpt = 15 := by
    rw [hcoll]
    exact congrArg (· - 1) h.cpt
  have hheld : Held (TxCollecteur.after 16) (ReplyPath.step g i s) := by
    refine ⟨hcpt, ?_, ?_⟩
    · rw [hcoll]
    · rw [hcoll]
  have hdata : (ReplyPath.step g i s).txColl.dataToTx = TxCollecteur.slice cipher (16 - 1) := by
    rw [hcoll]
    exact h.data
  have hbusy : txReady (ReplyPath.step g i s).txComp = false := by
    rw [txReady, hreg, Bool.and_false, Bool.false_and]
  refine ⟨.launched (Nat.le_refl 16) hheld hdata hlaunched hbusy hshift ?_,
    loadedAt_of_init i h.vacant.state, hcpt⟩
  unfold replyTime
  omega

theorem offered_step {k : Nat} (hk : k ≤ 16) (offer : Offered g k (TxCollecteur.slice cipher (k - 1)) s)
    (low : s.txComp.shiftData = false) (hn : k * slot g + slot g ≤ n + 1)
    (hfirst : k = 16 → i.startTransmit = true) : Advances g cipher n (rest cipher k) i s := by
  have hslot := slot_pos g
  obtain ⟨rfl, htemp, hstart, hdata, hready⟩ := offer
  have hinit := (txReady_iff.mp hready.ready).1
  obtain ⟨hcpt', htemp', hstart', hdata'⟩ :=
    TxCollecteur.edge_take (p := txCollPorts i s) hk htemp hfirst hready.ready
  rw [← txColl_step (g := g) hrising hreset] at hcpt' htemp' hstart' hdata'
  obtain ⟨hlaunched, hbusy⟩ := hready.launch (p := txCompPorts i s) hreset hstart
  have hshift := (init_edge (g := g) (p := txCompPorts i s) hreset hinit).1
  rw [← txComp_step hrising] at hlaunched hbusy hshift
  have howing : Owing g cipher (n - 1) (rest cipher s.txColl.cpt) (step g i s) :=
    .launched hk ⟨hcpt', htemp', hstart'⟩ (hdata'.trans hdata) hlaunched hbusy (hshift.trans low) (by omega)
  exact howing.advances (loadedAt_of_init i hinit)

theorem launched_step {k : Nat} (hk : k ≤ 16) (held : Held (TxCollecteur.after k) s)
    (data : s.txColl.dataToTx = TxCollecteur.slice cipher (k - 1)) (start : Launched g s.txComp)
    (busy : txReady s.txComp = false) (low : s.txComp.shiftData = false)
    (hn : k * slot g + slot g ≤ n + 2) (hlast : TxCollecteur.after k = 16 → i.startTransmit = false) :
    Advances g cipher n (rest cipher k) i s := by
  have hslot := slot_pos g
  obtain ⟨hafter, hzero⟩ := TxCollecteur.after_bounds hk
  obtain ⟨hheld, hdata, -⟩ := held_step (g := g) hrising hreset hafter held hlast (fun _ => busy)
  have hdata' : (step g i s).txColl.dataToTx = if k = 0 then 0 else TxCollecteur.slice cipher (k - 1) := by
    rw [hdata, data]
    simp only [hzero]
  obtain ⟨hload, -⟩ := start.load (p := txCompPorts i s) hreset held.start
  have hbits := (init_edge (g := g) (p := txCompPorts i s) hreset start.state).2
  rw [← txComp_step hrising] at hload hbits
  have hcount : (step g i s).txComp.numberBits ≠ maxBits := by
    rw [hbits, low]
    exact tick_false_ne _
  have howing : Owing g cipher (n - 1) (rest cipher k) (step g i s) :=
    .loading hk hheld hdata' hload hcount (by omega)
  exact howing.advances (loadedAt_of_init i start.state)

/-- The edge that loads. -/
theorem loading_step {k : Nat} (hN : 3 ≤ maxClkCount g) (hk : k ≤ 16)
    (held : Held (TxCollecteur.after k) s)
    (data : s.txColl.dataToTx = if k = 0 then 0 else TxCollecteur.slice cipher (k - 1))
    (load : AtLoad g s.txComp) (bits : s.txComp.numberBits ≠ maxBits) (hn : k * slot g + slot g ≤ n + 3)
    (hlast : TxCollecteur.after k = 16 → i.startTransmit = false) :
    Advances g cipher n (rest cipher k) i s := by
  obtain ⟨hafter, -⟩ := TxCollecteur.after_bounds hk
  have hbusy : txReady s.txComp = false := by
    rw [txReady, transmitDone, load.state]
    rfl
  obtain ⟨hheld, -, -⟩ := held_step (g := g) hrising hreset hafter held hlast (fun _ => hbusy)
  have hsending := load.send (p := txCompPorts i s) hreset held.start hN
  rw [← txComp_step hrising] at hsending
  have hbudget := budget_le g (step g i s).txComp
  have hwind : Winding g (budget g (step g i s).txComp) (step g i s).txComp :=
    .sending hsending (Nat.le_refl _)
  have hbyte : loadedAt i s = [if k = 0 then 0 else TxCollecteur.slice cipher (k - 1)] := by
    have hnow : loadData s.txComp = true := decide_eq_true load.state
    rw [loadedAt, TUart.loaded, if_pos ⟨hreset, bits, hnow⟩, ← data]
    rfl
  rcases k with _ | k
  · have hbusy' : txReady (step g i s).txComp = false := by
      rw [txReady, transmitDone, hsending.state]
      rfl
    refine ⟨[], ?_, .inl (.closing hheld hwind hbusy' (by omega))⟩
    rw [hbyte]
    rfl
  · rw [Nat.add_mul] at hn
    refine ⟨rest cipher k, ?_, .inl (.waiting (by omega) hheld hwind (by omega))⟩
    rw [hbyte, if_neg (Nat.succ_ne_zero k)]
    rfl

/-- Between two bytes. -/
theorem waiting_step {k m : Nat} (hN : 3 ≤ maxClkCount g) (hk : k ≤ 15) (held : Held k s)
    (wind : Winding g m s.txComp) (hn : k * slot g + slot g + m ≤ n) (hcipher : i.cipher = cipher) :
    Advances g cipher n (rest cipher k) i s := by
  have hslot := slot_pos g
  refine Owing.advances (wind.loaded _) ?_
  cases hready : txReady s.txComp with
  | true =>
    obtain ⟨hidle, hlow⟩ := wind.ready hready
    obtain ⟨hoffer, hlow'⟩ := offer_step (g := g) hrising hreset (Nat.le_succ_of_le hk) held hidle hlow
      (fun hfull => by omega)
    rw [hcipher] at hoffer
    exact .offered (Nat.le_succ_of_le hk) hoffer hlow' (by omega)
  | false =>
    rcases m with _ | m
    · rw [wind.of_zero] at hready
      contradiction
    obtain ⟨hheld, -, -⟩ := held_step (g := g) hrising hreset (Nat.le_succ_of_le hk) held
      (fun hfull => by omega) (fun _ => hready)
    have hwind := wind.next (p := txCompPorts i s) hreset held.start hN
    rw [← txComp_step hrising] at hwind
    exact .waiting hk hheld hwind (by omega)

/-- After the last byte. -/
theorem closing_step {m : Nat} (hN : 3 ≤ maxClkCount g) (held : Held 16 s) (wind : Winding g m s.txComp)
    (busy : txReady s.txComp = false) (hn : m ≤ n) (hlast : i.startTransmit = false) :
    Advances g cipher n [] i s := by
  have hnone : loadedAt i s = [] := wind.loaded _
  rcases m with _ | m
  · rw [wind.of_zero] at busy
    contradiction
  obtain ⟨hheld, -, -⟩ := held_step (g := g) hrising hreset (Nat.le_refl 16) held
    (fun _ => hlast) (fun _ => busy)
  have hwind := wind.next (p := txCompPorts i s) hreset held.start hN
  rw [← txComp_step hrising] at hwind
  cases hready : txReady (step g i s).txComp with
  | true =>
    obtain ⟨hidle, hlow⟩ := hwind.ready hready
    refine ⟨[], ?_, .inr ⟨rfl, hheld, hidle, hlow⟩⟩
    rw [hnone]
    rfl
  | false =>
    have howing : Owing g cipher (n - 1) [] (step g i s) := .closing hheld hwind hready (by omega)
    exact howing.advances hnone

/-- The bytes loaded are the next ones owed. -/
theorem Owing.step (hN : 3 ≤ maxClkCount g) (h : Owing g cipher n bs s) (hcipher : i.cipher = cipher)
    (hfirst : s.txColl.cpt = 16 → s.txColl.tempTxReady = true → i.startTransmit = true)
    (hlast : s.txColl.cpt = 16 → s.txColl.tempTxReady = false → i.startTransmit = false) :
    Advances g cipher n bs i s := by
  cases h with
  | offered hk offer low hn =>
    exact offered_step hrising hreset hk offer low hn fun hfull =>
      hfirst (offer.cpt.trans hfull) offer.temp
  | launched hk held data start busy low hn =>
    exact launched_step hrising hreset hk held data start busy low hn fun hfull =>
      hlast (held.cpt.trans hfull) held.temp
  | loading hk held data load bits hn =>
    exact loading_step hrising hreset hN hk held data load bits hn fun hfull =>
      hlast (held.cpt.trans hfull) held.temp
  | waiting hk held wind hn => exact waiting_step hrising hreset hN hk held wind hn hcipher
  | closing held wind busy hn =>
    exact closing_step hrising hreset hN held wind busy hn (hlast held.cpt held.temp)

end Edge
end KuznyechikDPA.ReplyPath

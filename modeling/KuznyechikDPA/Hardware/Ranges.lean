import KuznyechikDPA.Foundation.Checked
import KuznyechikDPA.Hardware.ScheduleRestarts
import KuznyechikDPA.Hardware.UartMaskedComplete

/-!
# Declared ranges of the Kuznyechik designs

`checkedEdge` is the edge of a process with every assignment to an integer signal, every index
and every slice bound checked against the declaration. The arithmetic is that of integers, so a
count below zero would be noticed. No process ever fails a check.
-/

namespace KuznyechikDPA

/-! ## The receiver -/

namespace RUart

structure InRange (g : UartGenerics) (s : Registers) : Prop where
  startBitCounter : (s.startBitCounter : Int) ≤ maxStartBitCount g - 1
  bitCounter : (s.bitCounter : Int) ≤ maxBitCount g - 1
  numberBits : (s.numberBits : Int) ≤ maxBits - 1

/-- `start_bit_proc`. -/
def checkedStartBitCounter (g : UartGenerics) (p : Ports) (s : Registers) : Option Nat :=
  if p.reset ∨ (s.startBitCounter : Int) = maxStartBitCount g - 1 then
    check 0 (maxStartBitCount g - 1) 0
  else if readStart s then check 0 (maxStartBitCount g - 1) (s.startBitCounter + 1)
  else check 0 (maxStartBitCount g - 1) 0

/-- `bit_count_proc`. -/
def checkedBitCounter (g : UartGenerics) (p : Ports) (s : Registers) : Option Nat :=
  if p.reset ∨ (s.bitCounter : Int) = maxBitCount g - 1 then check 0 (maxBitCount g - 1) 0
  else if reading s then check 0 (maxBitCount g - 1) (s.bitCounter + 1)
  else check 0 (maxBitCount g - 1) 0

/-- `number_bits_proc`. -/
def checkedNumberBits (g : UartGenerics) (p : Ports) (s : Registers) : Option Nat :=
  if p.reset ∨ (s.numberBits : Int) = maxBits - 1 ∨ reading s = false then check 0 (maxBits - 1) 0
  else if (s.bitCounter : Int) = maxBitCount g - 1 then check 0 (maxBits - 1) (s.numberBits + 1)
  else some s.numberBits

def checkedEdge (g : UartGenerics) (p : Ports) (s : Registers) : Option Registers := do
  let startBitCounter ← checkedStartBitCounter g p s
  let bitCounter ← checkedBitCounter g p s
  let numberBits ← checkedNumberBits g p s
  return { edge g p s with
    startBitCounter := startBitCounter
    bitCounter := bitCounter
    numberBits := numberBits }

section Edge
variable {g : UartGenerics} (p : Ports) {s : Registers} (h : InRange g s)
include h

theorem checkedStartBitCounter_eq (hN : 1 ≤ maxStartBitCount g) :
    checkedStartBitCounter g p s = some (edge g p s).startBitCounter ∧
      ((edge g p s).startBitCounter : Int) ≤ maxStartBitCount g - 1 := by
  have hcount := h.startBitCounter
  have hlast : ((s.startBitCounter : Int) = maxStartBitCount g - 1) ↔
      s.startBitCounter = maxStartBitCount g - 1 := by omega
  simp only [checkedStartBitCounter, edge, hlast]
  split_ifs <;> exact check_eq (by omega) (by omega) (by omega)

theorem checkedBitCounter_eq (hN : 1 ≤ maxBitCount g) :
    checkedBitCounter g p s = some (edge g p s).bitCounter ∧
      ((edge g p s).bitCounter : Int) ≤ maxBitCount g - 1 := by
  have hcount := h.bitCounter
  have hlast : ((s.bitCounter : Int) = maxBitCount g - 1) ↔ s.bitCounter = maxBitCount g - 1 := by omega
  simp only [checkedBitCounter, edge, hlast]
  split_ifs <;> exact check_eq (by omega) (by omega) (by omega)

theorem checkedNumberBits_eq (hN : 1 ≤ maxBitCount g) :
    checkedNumberBits g p s = some (edge g p s).numberBits ∧
      ((edge g p s).numberBits : Int) ≤ maxBits - 1 := by
  have hcount := h.numberBits
  have hbits : maxBits = 10 := rfl
  have hlast : ((s.numberBits : Int) = maxBits - 1) ↔ s.numberBits = maxBits - 1 := by omega
  have hbit : ((s.bitCounter : Int) = maxBitCount g - 1) ↔ s.bitCounter = maxBitCount g - 1 := by omega
  simp only [checkedNumberBits, edge, hlast, hbit]
  split_ifs
  · exact check_eq (by omega) (by omega) (by omega)
  · exact check_eq (by omega) (by omega) (by omega)
  · exact ⟨rfl, hcount⟩

theorem checkedEdge_eq (hN : 2 ≤ maxBitCount g) :
    checkedEdge g p s = some (edge g p s) ∧ InRange g (edge g p s) := by
  have hhalf : 1 ≤ maxStartBitCount g := by
    unfold maxStartBitCount
    omega
  obtain ⟨hstart, hstart'⟩ := checkedStartBitCounter_eq p h hhalf
  obtain ⟨hbit, hbit'⟩ := checkedBitCounter_eq p h (by omega)
  obtain ⟨hnumber, hnumber'⟩ := checkedNumberBits_eq p h (by omega)
  refine ⟨?_, hstart', hbit', hnumber'⟩
  rw [checkedEdge, hstart, hbit, hnumber]
  rfl

end Edge

theorem inRange_init {g : UartGenerics} (hN : 2 ≤ maxBitCount g) : InRange g .init := by
  have hhalf : 1 ≤ maxStartBitCount g := by
    unfold maxStartBitCount
    omega
  have hcounter : Registers.init.startBitCounter = 0 := rfl
  have hbit : Registers.init.bitCounter = 0 := rfl
  exact ⟨by omega, by omega, by decide⟩

end RUart

/-! ## The transmitter -/

namespace TUart

structure InRange (g : UartGenerics) (s : Registers) : Prop where
  clkCounter : (s.clkCounter : Int) ≤ maxClkCount g
  clkDelayCounter : (s.clkDelayCounter : Int) ≤ maxClkCountDelay g
  numberBits : (s.numberBits : Int) ≤ maxBits

/-- `count_bits_proc`. -/
def checkedNumberBits (p : Ports) (s : Registers) : Option Nat :=
  if p.reset then check 0 maxBits 0
  else if s.numberBits = maxBits then check 0 maxBits 0
  else if loadData s then some s.numberBits
  else if s.shiftData then check 0 maxBits (s.numberBits + 1)
  else some s.numberBits

/-- `clock_count_proc`. -/
def checkedClkCounter (g : UartGenerics) (s : Registers) : Option Nat :=
  if s.state = .shift then
    if s.clkCounter = maxClkCount g then check 0 (maxClkCount g) 0
    else check 0 (maxClkCount g) (s.clkCounter + 1)
  else some s.clkCounter

/-- `clock_delay_proc`. -/
def checkedClkDelayCounter (g : UartGenerics) (s : Registers) : Option Nat :=
  if s.delayClock then
    if s.clkDelayCounter < maxClkCountDelay g then
      check 0 (maxClkCountDelay g) (s.clkDelayCounter + 1)
    else some s.clkDelayCounter
  else check 0 (maxClkCountDelay g) 0

def checkedEdge (g : UartGenerics) (p : Ports) (s : Registers) : Option Registers := do
  let numberBits ← checkedNumberBits p s
  let clkCounter ← checkedClkCounter g s
  let clkDelayCounter ← checkedClkDelayCounter g s
  return { edge g p s with
    numberBits := numberBits
    clkCounter := clkCounter
    clkDelayCounter := clkDelayCounter }

section Edge
variable {g : UartGenerics} (p : Ports) {s : Registers} (h : InRange g s)
include h

theorem checkedNumberBits_eq : checkedNumberBits p s = some (edge g p s).numberBits ∧
    ((edge g p s).numberBits : Int) ≤ maxBits := by
  have hcount := h.numberBits
  simp only [checkedNumberBits, edge, settle, countBitsProc]
  split_ifs
  · exact check_eq (n := 0) rfl (by omega) (by omega)
  · exact check_eq (n := 0) rfl (by omega) (by omega)
  · exact ⟨rfl, hcount⟩
  · exact check_eq (n := s.numberBits + 1) rfl (by omega) (by omega)
  · exact ⟨rfl, hcount⟩

theorem checkedClkCounter_eq : checkedClkCounter g s = some (edge g p s).clkCounter ∧
    ((edge g p s).clkCounter : Int) ≤ maxClkCount g := by
  have hcount := h.clkCounter
  simp only [checkedClkCounter, edge, settle, clockCountProc]
  split_ifs
  · exact check_eq (n := 0) rfl (by omega) (by omega)
  · exact check_eq (n := s.clkCounter + 1) rfl (by omega) (by omega)
  · exact ⟨rfl, hcount⟩

theorem checkedClkDelayCounter_eq : checkedClkDelayCounter g s = some (edge g p s).clkDelayCounter ∧
    ((edge g p s).clkDelayCounter : Int) ≤ maxClkCountDelay g := by
  have hcount := h.clkDelayCounter
  simp only [checkedClkDelayCounter, edge, settle, clockDelayProc]
  split_ifs
  · exact check_eq (n := s.clkDelayCounter + 1) rfl (by omega) (by omega)
  · exact ⟨rfl, hcount⟩
  · exact check_eq (n := 0) rfl (by omega) (by omega)

theorem checkedEdge_eq : checkedEdge g p s = some (edge g p s) ∧ InRange g (edge g p s) := by
  obtain ⟨hnumber, hnumber'⟩ := checkedNumberBits_eq p h
  obtain ⟨hclk, hclk'⟩ := checkedClkCounter_eq p h
  obtain ⟨hdelay, hdelay'⟩ := checkedClkDelayCounter_eq p h
  refine ⟨?_, hclk', hdelay', hnumber'⟩
  rw [checkedEdge, hnumber, hclk, hdelay]
  rfl

end Edge

theorem inRange_init (g : UartGenerics) : InRange g .init where
  clkCounter := Int.natCast_nonneg _
  clkDelayCounter := Int.natCast_nonneg _
  numberBits := by decide

end TUart

/-! ## The collectors -/

namespace RxCollecteur

/-- The data of an edge are `data_in` and `data_tick`. -/
def process : ResetProcess (Byte × Bool) Registers where
  init := .init
  reset := reset
  edge i := edge i.1 i.2

def InRange (s : Registers) : Prop := (s.cpt : Int) ≤ 15

def checkedEdge (i : Byte × Bool) (s : Registers) : Option Registers :=
  if i.2 then do
    let _ ← check 0 127 (8 * s.cpt + 7)
    let _ ← check 0 127 (8 * s.cpt)
    if s.cpt ≠ 0 then
      let cpt ← check 0 15 (s.cpt - 1)
      return { plain := store s.plain s.cpt i.1, cpt := cpt, fullData := false }
    else return { plain := store s.plain s.cpt i.1, cpt := 15, fullData := true }
  else return { s with fullData := false }

theorem checkedEdge_eq (i : Byte × Bool) {s : Registers} (h : InRange s) :
    checkedEdge i s = some (process.edge i s) ∧ InRange (process.edge i s) := by
  unfold InRange at h
  obtain ⟨hhigh, -⟩ := check_eq (a := 0) (b := 127) (v := 8 * s.cpt + 7) (n := 8 * s.cpt + 7)
    (by omega) (by omega) (by omega)
  obtain ⟨hlow, -⟩ := check_eq (a := 0) (b := 127) (v := 8 * s.cpt) (n := 8 * s.cpt)
    (by omega) (by omega) (by omega)
  simp only [checkedEdge, process, edge, hhigh, hlow, Option.bind_eq_bind, Option.bind_some]
  split_ifs with htick hcpt
  · obtain ⟨hnext, hrange⟩ := check_eq (a := 0) (b := 15) (v := s.cpt - 1) (n := s.cpt - 1)
      (by omega) (by omega) (by omega)
    rw [hnext]
    exact ⟨rfl, hrange⟩
  · exact ⟨rfl, le_rfl⟩
  · exact ⟨rfl, h⟩

end RxCollecteur

namespace TxCollecteur

def process : ResetProcess Ports Registers where
  init := .init
  reset := reset
  edge := edge

def InRange (s : Registers) : Prop := (s.cpt : Int) ≤ 16

def checkedEdge (p : Ports) (s : Registers) : Option Registers :=
  if p.startTransmit = true ∧ s.cpt = 16 then
    if s.tempTxReady = false then return edge p s
    else do
      let cpt ← check 0 16 (s.cpt - 1)
      return { edge p s with cpt := cpt }
  else if s.cpt < 16 ∧ s.cpt > 0 then
    if p.txReady then
      if s.tempTxReady = false then do
        let _ ← check 0 127 (8 * (s.cpt - 1) + 7)
        let _ ← check 0 127 (8 * (s.cpt - 1))
        return edge p s
      else do
        let cpt ← check 0 16 (s.cpt - 1)
        return { edge p s with cpt := cpt }
    else return edge p s
  else if s.cpt = 0 then
    if p.txReady then
      if s.tempTxReady = false then do
        let _ ← check 0 127 (8 * s.cpt + 7)
        let _ ← check 0 127 (8 * s.cpt)
        return edge p s
      else return edge p s
    else return edge p s
  else return edge p s

/-- One byte down, when there is one. -/
theorem check_pred {s : Registers} (h : InRange s) (hpos : 0 < s.cpt) :
    check 0 16 (s.cpt - 1) = some (s.cpt - 1) ∧ ((s.cpt - 1 : Nat) : Int) ≤ 16 := by
  unfold InRange at h
  exact check_eq (by omega) (by omega) (by omega)

theorem check_slice {i : Nat} (hi : i ≤ 15) : check 0 127 (8 * i + 7) = some (8 * i + 7) ∧
    check 0 127 (8 * i) = some (8 * i) :=
  ⟨(check_eq (by omega) (by omega) (by omega)).1, (check_eq (by omega) (by omega) (by omega)).1⟩

theorem checkedEdge_eq (p : Ports) {s : Registers} (h : InRange s) :
    checkedEdge p s = some (edge p s) ∧ InRange (edge p s) := by
  unfold checkedEdge
  split_ifs with hfirst htemp hmid hready htemp hlast hready htemp
  · refine ⟨rfl, ?_⟩
    rw [edge, if_pos hfirst, if_pos htemp]
    exact h
  · obtain ⟨hpred, hrange⟩ := check_pred h (by omega)
    rw [hpred, edge, if_pos hfirst, if_neg htemp]
    exact ⟨rfl, hrange⟩
  · obtain ⟨hhigh, hlow⟩ := check_slice (i := s.cpt - 1) (by omega)
    have hcast : ((s.cpt - 1 : Nat) : Int) = s.cpt - 1 := by omega
    rw [hcast] at hhigh hlow
    rw [hhigh, hlow, edge, if_neg hfirst, if_pos hmid, if_pos hready, if_pos htemp]
    exact ⟨rfl, h⟩
  · obtain ⟨hpred, hrange⟩ := check_pred h hmid.2
    rw [hpred, edge, if_neg hfirst, if_pos hmid, if_pos hready, if_neg htemp]
    exact ⟨rfl, hrange⟩
  · refine ⟨rfl, ?_⟩
    rw [edge, if_neg hfirst, if_pos hmid, if_neg hready]
    exact h
  · obtain ⟨hhigh, hlow⟩ := check_slice (i := s.cpt) (by omega)
    rw [hhigh, hlow, edge, if_neg hfirst, if_neg hmid, if_pos hlast, if_pos hready, if_pos htemp]
    exact ⟨rfl, h⟩
  · refine ⟨rfl, ?_⟩
    rw [edge, if_neg hfirst, if_neg hmid, if_pos hlast, if_pos hready, if_neg htemp]
    exact le_rfl
  · refine ⟨rfl, ?_⟩
    rw [edge, if_neg hfirst, if_neg hmid, if_pos hlast, if_neg hready]
    exact h
  · refine ⟨rfl, ?_⟩
    rw [edge, if_neg hfirst, if_neg hmid, if_neg hlast]
    exact h

end TxCollecteur

/-! ## The key schedule -/

namespace SubKeySchedule

open GrasshopperPkg

def checkedEdge (masterkey : BitVec 256) (s : Registers) : Option Registers :=
  if s.index < 34 then
    if s.index = 0 then do
      let index ← check 0 35 (s.index + 1)
      return { edge masterkey s with index := index }
    else do
      let i ← check 1 33 s.index
      let index ← check 0 35 (s.index + 1)
      return { edge masterkey s with
        tupleInter := fStep s.tupleInter.1 s.tupleInter.2 (subKeysCi.getD (i - 1) 0)
        index := index }
  else if s.index = 34 then do
    let index ← check 0 35 (s.index + 1)
    return { edge masterkey s with index := index }
  else return edge masterkey s

theorem checkedEdge_eq (masterkey : BitVec 256) {s : Registers} (h : InRange s) :
    checkedEdge masterkey s = some (edge masterkey s) ∧ InRange (edge masterkey s) := by
  refine ⟨?_, inRange_edge masterkey h⟩
  unfold checkedEdge
  split_ifs with hlow hzero hlast
  · obtain ⟨hnext, -⟩ := check_eq (a := 0) (b := 35) (v := s.index + 1) (n := s.index + 1)
      rfl (by omega) (by omega)
    rw [hnext, edge, if_pos hlow, if_pos hzero]
    rfl
  · obtain ⟨hnext, -⟩ := check_eq (a := 0) (b := 35) (v := s.index + 1) (n := s.index + 1)
      rfl (by omega) (by omega)
    obtain ⟨hindex, -⟩ := check_eq (a := 1) (b := 33) (v := s.index) (n := s.index)
      rfl (by omega) (by omega)
    rw [hnext, hindex, edge, if_pos hlow, if_neg hzero]
    rfl
  · obtain ⟨hnext, -⟩ := check_eq (a := 0) (b := 35) (v := s.index + 1) (n := s.index + 1)
      rfl (by omega) (by omega)
    rw [hnext, edge, if_neg hlow, if_pos hlast]
    rfl
  · rfl

end SubKeySchedule

/-! ## The encryptions -/

namespace CompleteEncryption

open GrasshopperPkg

def process : ResetProcess Ports Registers where
  init := .init
  reset := reset
  edge := edge

def InRange (s : Registers) : Prop := (s.tour : Int) ≤ 12

def checkedEdge (p : Ports) (s : Registers) : Option Registers :=
  if p.encDecSel = false then
    if s.tour = 0 then return edge p s
    else if s.tour < 10 then do
      let i ← check 1 10 s.tour
      let tour ← check 0 12 (s.tour + 1)
      return { s with interState := GrasshopperPkg.round s.interState (p.subKeys i), tour := tour }
    else if s.tour = 10 then do
      let i ← check 1 10 s.tour
      let tour ← check 0 12 (s.tour + 1)
      return { s with interState := ARK s.interState (p.subKeys i), tour := tour }
    else return edge p s
  else
    if s.tour = 0 then return edge p s
    else if s.tour < 10 then do
      let i ← check 1 10 (11 - s.tour)
      let tour ← check 0 12 (s.tour + 1)
      return { s with interState := invRound s.interState (p.subKeys i), tour := tour }
    else if s.tour = 10 then do
      let tour ← check 0 12 (s.tour + 1)
      return { s with interState := ARK s.interState (p.subKeys 1), tour := tour }
    else return edge p s

theorem inRange_edge (p : Ports) {s : Registers} (h : InRange s) : InRange (edge p s) := by
  unfold InRange at h ⊢
  rw [edge_eq]
  split_ifs
  · exact Int.ofNat_le.mpr (by decide : 1 ≤ 12)
  · exact h
  · simp only
    omega
  · unfold finish
    split_ifs
    · exact h
    · exact Int.ofNat_le.mpr (Nat.zero_le 12)
  · exact h

/-- The next tour, before tour 11. -/
theorem check_tour {tour : Nat} (h : tour ≤ 10) : check 0 12 (tour + 1) = some (tour + 1) :=
  (check_eq (n := tour + 1) rfl (by omega) (by omega)).1

/-- The round key of a working tour, counted from either end. -/
theorem check_key {tour : Nat} (hpos : tour ≠ 0) (h : tour ≤ 10) :
    check 1 10 tour = some tour ∧ check 1 10 (11 - tour) = some (11 - tour) :=
  ⟨(check_eq rfl (by omega) (by omega)).1, (check_eq (by omega) (by omega) (by omega)).1⟩

theorem checkedEdge_eq (p : Ports) {s : Registers} (h : InRange s) :
    checkedEdge p s = some (edge p s) ∧ InRange (edge p s) := by
  refine ⟨?_, inRange_edge p h⟩
  unfold checkedEdge
  split_ifs with hmode hzero hlow hten hzero hlow hten
  · rfl
  · rw [(check_key hzero (by omega)).1, check_tour (by omega), edge, if_pos hmode, if_neg hzero, if_pos hlow]
    rfl
  · rw [(check_key hzero (by omega)).1, check_tour (by omega), edge, if_pos hmode, if_neg hzero,
      if_neg hlow, if_pos hten]
    rfl
  · rfl
  · rfl
  · rw [(check_key hzero (by omega)).2, check_tour (by omega), edge, if_neg hmode, if_neg hzero, if_pos hlow]
    rfl
  · rw [check_tour (by omega), edge, if_neg hmode, if_neg hzero, if_neg hlow, if_pos hten]
    rfl
  · rfl

end CompleteEncryption

namespace MaskedCompleteEncryption

open GrasshopperPkg
open CompleteEncryption (check_tour check_key)

def process : ResetProcess Ports Registers where
  init := .init
  reset := reset
  edge := edge

def InRange (s : Registers) : Prop := (s.tour : Int) ≤ 12

def checkedEdge (p : Ports) (s : Registers) : Option Registers :=
  if p.encDecSel = false then
    if s.tour = 0 then return edge p s
    else if s.tour < 10 then do
      let i ← check 1 10 s.tour
      let tour ← check 0 12 (s.tour + 1)
      return { s with
        interState := maskedRound s.interState (p.subKeys i) s.interMask
        interMask := lStep s.interMask
        tour := tour }
    else if s.tour = 10 then do
      let i ← check 1 10 s.tour
      let tour ← check 0 12 (s.tour + 1)
      return { s with interState := ARK s.interState (p.subKeys i), tour := tour }
    else return edge p s
  else
    if s.tour = 0 then return edge p s
    else if s.tour < 10 then do
      let i ← check 1 10 (11 - s.tour)
      let tour ← check 0 12 (s.tour + 1)
      return { s with
        interState := invMaskedRound s.interState (p.subKeys i) s.interMask
        interMask := invLStep s.interMask
        tour := tour }
    else if s.tour = 10 then do
      let tour ← check 0 12 (s.tour + 1)
      return { s with interState := ARK s.interState (p.subKeys 1), tour := tour }
    else return edge p s

theorem inRange_edge (p : Ports) {s : Registers} (h : InRange s) : InRange (edge p s) := by
  unfold InRange at h ⊢
  rw [edge_eq]
  split_ifs
  · exact Int.ofNat_le.mpr (by decide : 1 ≤ 12)
  · exact h
  · simp only
    omega
  · unfold finish
    split_ifs
    · exact h
    · exact Int.ofNat_le.mpr (Nat.zero_le 12)
  · exact h

theorem checkedEdge_eq (p : Ports) {s : Registers} (h : InRange s) :
    checkedEdge p s = some (edge p s) ∧ InRange (edge p s) := by
  refine ⟨?_, inRange_edge p h⟩
  unfold checkedEdge
  split_ifs with hmode hzero hlow hten hzero hlow hten
  · rfl
  · rw [(check_key hzero (by omega)).1, check_tour (by omega), edge, if_pos hmode, if_neg hzero, if_pos hlow]
    rfl
  · rw [(check_key hzero (by omega)).1, check_tour (by omega), edge, if_pos hmode, if_neg hzero,
      if_neg hlow, if_pos hten]
    rfl
  · rfl
  · rfl
  · rw [(check_key hzero (by omega)).2, check_tour (by omega), edge, if_neg hmode, if_neg hzero, if_pos hlow]
    rfl
  · rw [check_tour (by omega), edge, if_neg hmode, if_neg hzero, if_neg hlow, if_pos hten]
    rfl
  · rfl

end MaskedCompleteEncryption

/-! ## The generator -/

namespace Lfsr

def InRange (s : Registers) : Prop := (s.index : Int) ≤ 128

def checkedEdge (p : Ports) (s : Registers) : Option Registers :=
  if p.start then return edge p s
  else if s.canRun then
    if s.index < 128 then do
      let i ← check 0 127 s.index
      let index ← check 0 128 (s.index + 1)
      return { edge p s with stateBis := assign s.stateBis i (s.state.getLsbD 0), index := index }
    else return edge p s
  else return edge p s

theorem checkedEdge_eq (p : Ports) {s : Registers} (h : InRange s) :
    checkedEdge p s = some (edge p s) ∧ InRange (edge p s) := by
  unfold InRange at h ⊢
  unfold checkedEdge
  split_ifs with hstart hrun hlow
  · refine ⟨rfl, ?_⟩
    rw [edge, if_pos hstart]
    exact Int.ofNat_le.mpr (Nat.zero_le 128)
  · obtain ⟨hindex, -⟩ := check_eq (a := 0) (b := 127) (v := s.index) (n := s.index) rfl (by omega) (by omega)
    obtain ⟨hnext, hrange⟩ := check_eq (a := 0) (b := 128) (v := s.index + 1) (n := s.index + 1)
      rfl (by omega) (by omega)
    rw [hindex, hnext]
    simp only [edge, hstart, hrun, hlow, Bool.false_eq_true, if_false, if_true]
    exact ⟨rfl, hrange⟩
  · refine ⟨rfl, ?_⟩
    simp only [edge, hstart, hrun, hlow, Bool.false_eq_true, if_false, if_true]
    decide
  · refine ⟨rfl, ?_⟩
    simp only [edge, hstart, hrun, Bool.false_eq_true, if_false]
    exact h

end Lfsr

/-! ## All processes -/

/-- Whatever the inputs, the resets and the mode are at every instant, no integer signal leaves its
declared range and no access is out of bounds. -/
theorem ranges_safe (g : UartGenerics) (hN : 2 ≤ g.clkRate / g.baud) (state outp : Block) :
    (∀ p, Machine.SafeOn (RUart.checkedEdge g) (RUart.edge g) .init (RUart.InRange g) p) ∧
    (∀ p, Machine.SafeOn (TUart.checkedEdge g) (TUart.edge g) .init (TUart.InRange g) p) ∧
    (∀ p, RxCollecteur.process.SafeOn RxCollecteur.checkedEdge RxCollecteur.InRange p) ∧
    (∀ p, TxCollecteur.process.SafeOn TxCollecteur.checkedEdge TxCollecteur.InRange p) ∧
    (∀ p, SubKeySchedule.process.SafeOn SubKeySchedule.checkedEdge SubKeySchedule.InRange p) ∧
    (∀ p, CompleteEncryption.process.SafeOn CompleteEncryption.checkedEdge CompleteEncryption.InRange p) ∧
    (∀ p, MaskedCompleteEncryption.process.SafeOn MaskedCompleteEncryption.checkedEdge
      MaskedCompleteEncryption.InRange p) ∧
    ∀ p, Machine.SafeOn Lfsr.checkedEdge Lfsr.edge (.init state outp) Lfsr.InRange p := by
  refine ⟨?_, ?_, ?_, ?_, ?_, ?_, ?_, ?_⟩
  · exact Machine.safeOn_of_steps (RUart.inRange_init hN) fun p _ h => RUart.checkedEdge_eq p h hN
  · exact Machine.safeOn_of_steps (TUart.inRange_init g) fun p _ h => TUart.checkedEdge_eq p h
  · exact ResetProcess.safeOn_of_edges (P := RxCollecteur.process) le_rfl (fun _ h => h)
      fun i _ h => RxCollecteur.checkedEdge_eq i h
  · exact ResetProcess.safeOn_of_edges (P := TxCollecteur.process) le_rfl (fun _ _ => le_rfl)
      fun p _ h => TxCollecteur.checkedEdge_eq p h
  · exact ResetProcess.safeOn_of_edges (P := SubKeySchedule.process)
      ⟨le_rfl, fun h => absurd h Bool.false_ne_true⟩
      (fun _ _ => ⟨Nat.zero_le 35, fun h => absurd h Bool.false_ne_true⟩)
      fun key _ h => SubKeySchedule.checkedEdge_eq key h
  · exact ResetProcess.safeOn_of_edges (P := CompleteEncryption.process)
      (Int.ofNat_le.mpr (Nat.zero_le 12)) (fun _ _ => Int.ofNat_le.mpr (Nat.zero_le 12))
      fun p _ h => CompleteEncryption.checkedEdge_eq p h
  · exact ResetProcess.safeOn_of_edges (P := MaskedCompleteEncryption.process)
      (Int.ofNat_le.mpr (Nat.zero_le 12)) (fun _ _ => Int.ofNat_le.mpr (Nat.zero_le 12))
      fun p _ h => MaskedCompleteEncryption.checkedEdge_eq p h
  · exact Machine.safeOn_of_steps (Int.ofNat_le.mpr (Nat.zero_le 128)) fun p _ h => Lfsr.checkedEdge_eq p h

/-- The board: 100 MHz and 115200 baud. -/
theorem ranges_safe_board :
    2 ≤ (100000000 : Nat) / 115200 ∧
      ∀ p, RxCollecteur.process.SafeOn RxCollecteur.checkedEdge RxCollecteur.InRange p :=
  ⟨by decide, (ranges_safe ⟨100000000, 115200⟩ (by decide) 0 0).2.2.1⟩

end KuznyechikDPA

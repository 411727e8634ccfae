import KuznyechikDPA.Hardware.Vectors
import Mathlib.Tactic.SplitIfs

/-!
# The 128-bit buffers `Rx_collecteur.vhd` and `Tx_collecteur.vhd`

`reset` is the asynchronous branch of each process; it clears neither `cpt` of the
receiving side nor `done_transmit` of the transmitting side.
-/

namespace KuznyechikDPA

namespace RxCollecteur

@[ext] structure Registers where
  cpt : Nat
  plain : Block
  fullData : Bool

def Registers.init : Registers where
  cpt := 15
  plain := 0
  fullData := false

def reset (s : Registers) : Registers := { s with fullData := false, plain := 0 }

/-- The assignment `plain(8*cpt+7 downto 8*cpt) <= data_in`. -/
def store (plain : Block) (cpt : Nat) (data_in : Byte) : Block :=
  block (Function.update (bytes plain) (Fin.ofNat 16 (15 - cpt)) data_in)

def edge (data_in : Byte) (data_tick : Bool) (s : Registers) : Registers :=
  if data_tick then
    if s.cpt ≠ 0 then
      { plain := store s.plain s.cpt data_in, cpt := s.cpt - 1, fullData := false }
    else { plain := store s.plain s.cpt data_in, cpt := 15, fullData := true }
  else { s with fullData := false }

end RxCollecteur

namespace TxCollecteur

@[ext] structure Registers where
  cpt : Nat
  tempTxReady : Bool
  dataToTx : Byte
  startTx : Bool
  doneTransmit : Bool

def Registers.init : Registers where
  cpt := 16
  tempTxReady := false
  dataToTx := 0
  startTx := false
  doneTransmit := false

structure Ports where
  cipher : Block
  startTransmit : Bool
  txReady : Bool

def reset (s : Registers) : Registers :=
  { s with startTx := false, dataToTx := 0, tempTxReady := false, cpt := 16 }

/-- `cipher(8*i+7 downto 8*i)`. -/
def slice (cipher : Block) (i : Nat) : Byte := cipher.extractLsb' (8 * i) 8

theorem slice_eq (cipher : Block) {k : Nat} (hk : k ≤ 15) :
    slice cipher k = bytes cipher (Fin.ofNat 16 (15 - k)) := by
  have hidx : 16 - 1 - (15 - k) % 16 = k := by omega
  simp only [slice, bytes, toBytes, Fin.ofNat, hidx]

/-- `start_tx` and `done_transmit` have the defaults '0' and '1' in every branch. -/
def edge (p : Ports) (s : Registers) : Registers :=
  if p.startTransmit = true ∧ s.cpt = 16 then
    if s.tempTxReady = false then
      { s with
        doneTransmit := false
        dataToTx := slice p.cipher 15
        startTx := true
        tempTxReady := true }
    else { s with startTx := false, doneTransmit := true, tempTxReady := false, cpt := s.cpt - 1 }
  else if s.cpt < 16 ∧ s.cpt > 0 then
    if p.txReady then
      if s.tempTxReady = false then
        { s with
          doneTransmit := false
          dataToTx := slice p.cipher (s.cpt - 1)
          startTx := true
          tempTxReady := true }
      else { s with startTx := false, doneTransmit := false, tempTxReady := false, cpt := s.cpt - 1 }
    else { s with startTx := false, doneTransmit := false }
  else if s.cpt = 0 then
    if p.txReady then
      if s.tempTxReady = false then
        { s with
          doneTransmit := false
          dataToTx := slice p.cipher s.cpt
          startTx := true
          tempTxReady := true }
      else { s with startTx := false, doneTransmit := true, tempTxReady := false, cpt := 16 }
    else { s with startTx := false, doneTransmit := false }
  else { s with startTx := false, doneTransmit := true, dataToTx := 0 }

/-! ## What an edge can do -/

inductive Edge (p : Ports) (s : Registers) : Registers → Prop where
  | first (start : p.startTransmit = true) (cpt : s.cpt = 16) (temp : s.tempTxReady = false) :
      Edge p s
        { s with
          doneTransmit := false
          dataToTx := slice p.cipher (s.cpt - 1)
          startTx := true
          tempTxReady := true }
  | second (start : p.startTransmit = true) (cpt : s.cpt = 16) (temp : s.tempTxReady = true) :
      Edge p s
        { s with startTx := false, doneTransmit := true, tempTxReady := false, cpt := s.cpt - 1 }
  | offer (cpt : s.cpt ≤ 15) (ready : p.txReady = true) (temp : s.tempTxReady = false) :
      Edge p s
        { s with
          doneTransmit := false
          dataToTx := slice p.cipher (s.cpt - 1)
          startTx := true
          tempTxReady := true }
  | next (pos : 1 ≤ s.cpt) (cpt : s.cpt ≤ 15) (ready : p.txReady = true)
      (temp : s.tempTxReady = true) :
      Edge p s
        { s with startTx := false, doneTransmit := false, tempTxReady := false, cpt := s.cpt - 1 }
  | last (cpt : s.cpt = 0) (ready : p.txReady = true) (temp : s.tempTxReady = true) :
      Edge p s { s with startTx := false, doneTransmit := true, tempTxReady := false, cpt := 16 }
  | wait (cpt : s.cpt ≤ 15) (ready : p.txReady = false) :
      Edge p s { s with startTx := false, doneTransmit := false }
  | rest (start : p.startTransmit = false) (cpt : s.cpt = 16) :
      Edge p s { s with startTx := false, doneTransmit := true, dataToTx := 0 }

theorem edge_cases (p : Ports) {s : Registers} (hcpt : s.cpt ≤ 16) : Edge p s (edge p s) := by
  unfold edge
  split_ifs with hstart htemp hmid hready htemp hzero hready htemp
  · have hfirst : s.cpt - 1 = 15 := by omega
    have h := Edge.first hstart.1 hstart.2 htemp
    rwa [hfirst] at h
  · exact .second hstart.1 hstart.2 (Bool.of_not_eq_false htemp)
  · exact .offer (by omega) hready htemp
  · exact .next (by omega) (by omega) hready (Bool.of_not_eq_false htemp)
  · exact .wait (by omega) (Bool.eq_false_iff.mpr hready)
  · have h := Edge.offer (by omega) hready htemp
    have hlow : s.cpt - 1 = s.cpt := by omega
    rwa [hlow] at h
  · exact .last hzero hready (Bool.of_not_eq_false htemp)
  · exact .wait (by omega) (Bool.eq_false_iff.mpr hready)
  · have hrest : s.cpt = 16 := by omega
    exact .rest (Bool.eq_false_iff.mpr fun hon => hstart ⟨hon, hrest⟩) hrest

end TxCollecteur

end KuznyechikDPA

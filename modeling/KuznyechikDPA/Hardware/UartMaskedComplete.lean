import KuznyechikDPA.Hardware.Lfsr
import KuznyechikDPA.Hardware.MaskedCompleteEncryption
import KuznyechikDPA.Hardware.UartStandardComplete

/-!
# The design `UART_MASKED_COMPLETE.vhd`

The components of the unmasked design around `masked_complete_encryption`, and `lfsr` on
the fast clock. As there, one step is one instant, and what `LOWclk` clocks follows within
the same instant on the new outputs of what `clk` clocks. `full_data` is high between two
edges of `clk`: the key schedule is reset by its level, the generator reads it at the second
of these edges.
-/

namespace KuznyechikDPA.UartMaskedComplete
open UartStandardComplete (Input generics rxCompPorts)

@[ext] structure Registers where
  clkCounter : Nat
  lowClk : Bool
  rxComp : RUart.Registers
  rxColl : RxCollecteur.Registers
  sks : SubKeySchedule.Registers
  encrypt : MaskedCompleteEncryption.Registers
  prng : Lfsr.Registers
  txColl : TxCollecteur.Registers
  txComp : TUart.Registers

/-- Power-up, with what the generator holds in the signals that have no initial value. -/
def Registers.init (state outp : Block) : Registers where
  clkCounter := 0
  lowClk := false
  rxComp := .init
  rxColl := .init
  sks := .init
  encrypt := .init
  prng := .init state outp
  txColl := .init
  txComp := .init

/-! ## Port maps -/

def txCollPorts (s : Registers) : TxCollecteur.Ports where
  cipher := s.encrypt.cipher
  startTransmit := s.encrypt.canTransmit
  txReady := TUart.txReady s.txComp

def txCompPorts (i : Input) (s : Registers) : TUart.Ports where
  reset := i.reset
  start := s.txColl.startTx
  dataIn := s.txColl.dataToTx

def prngPorts (s : Registers) : Lfsr.Ports where
  seed := s.rxColl.plain
  start := s.rxColl.fullData

/-! ## One instant -/

def lowClkRises (i : Input) (s : Registers) : Bool :=
  i.rising && s.clkCounter == 5 && !s.lowClk

def rxCollStep (i : Input) (s : Registers) : RxCollecteur.Registers :=
  if i.reset then RxCollecteur.reset s.rxColl
  else if i.rising then
    RxCollecteur.edge (RUart.dataOut s.rxComp) (RUart.dataValid s.rxComp) s.rxColl
  else s.rxColl

def txCollStep (i : Input) (s : Registers) : TxCollecteur.Registers :=
  if i.reset then TxCollecteur.reset s.txColl
  else if i.rising then TxCollecteur.edge (txCollPorts s) s.txColl
  else s.txColl

/-- The generator is not connected to `reset`. -/
def prngStep (i : Input) (s : Registers) : Lfsr.Registers :=
  if i.rising then Lfsr.edge (prngPorts s) s.prng else s.prng

def encryptPorts (i : Input) (s : Registers) : MaskedCompleteEncryption.Ports where
  plain := (rxCollStep i s).plain
  subKeys := s.sks.k
  canStart := s.sks.terminated
  transmitBefore := (txCollStep i s).doneTransmit
  encDecSel := i.encDecSel
  mask := (prngStep i s).outp

def step (i : Input) (s : Registers) : Registers where
  clkCounter := if i.rising then if s.clkCounter = 5 then 0 else s.clkCounter + 1 else s.clkCounter
  lowClk := if i.rising ∧ s.clkCounter = 5 then !s.lowClk else s.lowClk
  rxComp := if i.rising then RUart.edge generics (rxCompPorts i) s.rxComp else s.rxComp
  rxColl := rxCollStep i s
  sks :=
    if (rxCollStep i s).fullData then SubKeySchedule.reset s.sks
    else if lowClkRises i s then SubKeySchedule.edge Core.masterkey s.sks
    else s.sks
  encrypt :=
    if i.reset then MaskedCompleteEncryption.reset s.encrypt
    else if lowClkRises i s then MaskedCompleteEncryption.edge (encryptPorts i s) s.encrypt
    else s.encrypt
  prng := prngStep i s
  txColl := txCollStep i s
  txComp := if i.rising then TUart.edge generics (txCompPorts i s) s.txComp else s.txComp

/-- The design after `t` instants from power-up. -/
def run (state outp : Block) (input : Nat → Input) (t : Nat) : Registers :=
  Machine.run step (.init state outp) input t

/-! ## The loading of a block -/

/-- The instants at which the encryption takes a block, at an edge of `LOWclk` in tour 0. -/
structure Loads (i : Input) (s : Registers) : Prop where
  reset : i.reset = false
  rising : lowClkRises i s = true
  rest : s.encrypt.tour = 0
  terminated : s.sks.terminated = true

/-- The mask is what the generator puts out at the same instant. -/
theorem encrypt_load {i : Input} {s : Registers} (h : Loads i s) :
    (step i s).encrypt.interState = (encryptPorts i s).plain ^^^ (encryptPorts i s).mask ∧
      (step i s).encrypt.interMask = (encryptPorts i s).mask := by
  have hstart : (encryptPorts i s).canStart = true := h.terminated
  simp only [step, h.reset, h.rising, Bool.false_eq_true, if_false, if_true]
  rw [MaskedCompleteEncryption.edge_eq, if_pos h.rest, if_pos hstart]
  exact ⟨rfl, rfl⟩

end KuznyechikDPA.UartMaskedComplete

import KuznyechikDPA.Hardware.Collectors
import KuznyechikDPA.Hardware.Core
import KuznyechikDPA.Uart.RUart

/-!
# The design `UART_STANDARD_COMPLETE.vhd`

One step is one instant at which `clk` may rise and at which the level of `reset` is
sampled; a step without an edge is a reset between two edges. The registers clocked by
`clk` change first. When `LOWclk` rises with them, key schedule and encryption follow
within the same instant: they read the new outputs of the two collectors, and each
other's old ones.
-/

namespace KuznyechikDPA.UartStandardComplete

/-- The generic map of `tx_comp` and `rx_comp`. -/
def generics : UartGenerics where
  clkRate := 100000000
  baud := 115200

structure Input where
  rising : Bool
  reset : Bool
  rx : Bool
  encDecSel : Bool

@[ext] structure Registers where
  clkCounter : Nat
  lowClk : Bool
  rxComp : RUart.Registers
  rxColl : RxCollecteur.Registers
  core : Core.Registers
  txColl : TxCollecteur.Registers
  txComp : TUart.Registers

def Registers.init : Registers where
  clkCounter := 0
  lowClk := false
  rxComp := .init
  rxColl := .init
  core := .init
  txColl := .init
  txComp := .init

/-! ## Port maps -/

def rxCompPorts (i : Input) : RUart.Ports where
  reset := i.reset
  dataIn := i.rx

def txCollPorts (s : Registers) : TxCollecteur.Ports where
  cipher := s.core.encrypt.cipher
  startTransmit := s.core.encrypt.canTransmit
  txReady := TUart.txReady s.txComp

def txCompPorts (i : Input) (s : Registers) : TUart.Ports where
  reset := i.reset
  start := s.txColl.startTx
  dataIn := s.txColl.dataToTx

/-! ## One instant -/

/-- `LOWclk_proc` toggles the slow clock on every sixth edge. -/
def lowClkRises (i : Input) (s : Registers) : Bool :=
  i.rising && s.clkCounter == 5 && !s.lowClk

def rxCollStep (i : Input) (s : Registers) : RxCollecteur.Registers :=
  if i.reset then RxCollecteur.reset s.rxColl
  else if i.rising then
    RxCollecteur.edge (RUart.dataOut s.rxComp) (RUart.dataValid s.rxComp) s.rxColl
  else s.rxColl

def txCollStep (i : Input) (s : Registers) : TxCollecteur.Registers :=
  if i.reset then TxCollecteur.reset s.txColl
  else if i.rising then TxCollecteur.edge (txCollPorts s) s.txColl
  else s.txColl

/-- What key schedule and encryption sample at this instant. -/
def coreSample (i : Input) (s : Registers) : Core.Sample where
  rising := lowClkRises i s
  fullData := (rxCollStep i s).fullData
  reset := i.reset
  plain := (rxCollStep i s).plain
  transmitBefore := (txCollStep i s).doneTransmit
  encDecSel := i.encDecSel

def step (i : Input) (s : Registers) : Registers where
  clkCounter := if i.rising then if s.clkCounter = 5 then 0 else s.clkCounter + 1 else s.clkCounter
  lowClk := if i.rising ∧ s.clkCounter = 5 then !s.lowClk else s.lowClk
  rxComp := if i.rising then RUart.edge generics (rxCompPorts i) s.rxComp else s.rxComp
  rxColl := rxCollStep i s
  core := Core.step Core.masterkey (coreSample i s) s.core
  txColl := txCollStep i s
  txComp := if i.rising then TUart.edge generics (txCompPorts i s) s.txComp else s.txComp

/-- The design after `t` instants from power-up. -/
def run (input : Nat → Input) (t : Nat) : Registers := Machine.run step .init input t

end KuznyechikDPA.UartStandardComplete

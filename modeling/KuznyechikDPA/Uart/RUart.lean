import KuznyechikDPA.Uart.TUart

/-!
# The receiver `rUART.vhd`

`edge` is a rising edge of `clk`. `start_reg` is kept bit by bit.
-/

namespace KuznyechikDPA.RUart

/-- `max_bit_count`. -/
def maxBitCount (g : UartGenerics) : Nat := g.clkRate / g.baud

/-- `max_start_bit_count`. -/
def maxStartBitCount (g : UartGenerics) : Nat := maxBitCount g / 2

def maxBits : Nat := 10

inductive State where
  | initState
  | readStartBitState
  | readBitsState
  | doneState
deriving DecidableEq

@[ext] structure Registers where
  state : State
  startReg0 : Bool
  startReg1 : Bool
  startBitCounter : Nat
  bitCounter : Nat
  numberBits : Nat
  dataReg : BitVec 10

def Registers.init : Registers where
  state := .initState
  startReg0 := false
  startReg1 := false
  startBitCounter := 0
  bitCounter := 0
  numberBits := 0
  dataReg := 0

structure Ports where
  reset : Bool
  dataIn : Bool

/-! ## Combinational signals -/

def startProc (s : Registers) : Bool := s.startReg1 && s.startReg0

def readStart (s : Registers) : Bool := s.state = .readStartBitState

def reading (s : Registers) : Bool := s.state = .readBitsState

def dataValid (s : Registers) : Bool := s.state = .doneState

def readBit (g : UartGenerics) (s : Registers) : Bool :=
  s.startBitCounter = maxStartBitCount g - 1 ∨ s.bitCounter = maxBitCount g - 1

def doneReading (s : Registers) : Bool := s.numberBits = maxBits - 1

def dataOut (s : Registers) : Byte := s.dataReg.extractLsb' 1 8

def nxtState (g : UartGenerics) (s : Registers) : State :=
  match s.state with
  | .initState => if startProc s then .readStartBitState else .initState
  | .readStartBitState => if readBit g s then .readBitsState else .readStartBitState
  | .readBitsState => if doneReading s then .doneState else .readBitsState
  | .doneState => if startProc s then .readStartBitState else .initState

/-! ## Clocked processes -/

def edge (g : UartGenerics) (p : Ports) (s : Registers) : Registers where
  state := if p.reset then .initState else nxtState g s
  startReg0 := if p.reset then false else !p.dataIn
  startReg1 := if p.reset then false else !s.startReg0
  startBitCounter :=
    if p.reset ∨ s.startBitCounter = maxStartBitCount g - 1 then 0
    else if readStart s then s.startBitCounter + 1
    else 0
  bitCounter :=
    if p.reset ∨ s.bitCounter = maxBitCount g - 1 then 0
    else if reading s then s.bitCounter + 1
    else 0
  numberBits :=
    if p.reset ∨ s.numberBits = maxBits - 1 ∨ reading s = false then 0
    else if s.bitCounter = maxBitCount g - 1 then s.numberBits + 1
    else s.numberBits
  dataReg :=
    if p.reset then 0
    else if readBit g s then BitVec.ofBool p.dataIn ++ s.dataReg.extractLsb' 1 9
    else s.dataReg

end KuznyechikDPA.RUart

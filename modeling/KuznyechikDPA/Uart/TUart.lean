import KuznyechikDPA.Foundation.ByteField

/-!
# The transmitter `tUART.vhd`

`edge` is a rising edge of `clk`: every process reads the registers before the edge, and
`settle` is the value that the combinational `nxt_state_proc` gives the latch
`delay_clock` afterwards. Signals without an initial value start at the left end of
their type.
-/

namespace KuznyechikDPA

/-- The generics of `tUART` and `rUART`. -/
structure UartGenerics where
  clkRate : Nat
  baud : Nat

namespace TUart

/-- `max_clk_count`. -/
def maxClkCount (g : UartGenerics) : Nat := g.clkRate / g.baud

/-- `max_clk_count_delay`. -/
def maxClkCountDelay (g : UartGenerics) : Nat := g.clkRate / 19200

def maxBits : Nat := 10

inductive State where
  | init
  | load
  | shift
deriving DecidableEq

@[ext] structure Registers where
  state : State
  clkCounter : Nat
  clkDelayCounter : Nat
  numberBits : Nat
  startCountLead : Bool
  startCountFollow : Bool
  dataReg : BitVec 10
  shiftData : Bool
  doneShifting : Bool
  txReadyReg : Bool
  delayClock : Bool
  delayClockDone : Bool

structure Ports where
  reset : Bool
  start : Bool
  dataIn : Byte

/-! ## Combinational signals -/

def startTrans (s : Registers) : Bool := s.startCountLead && !s.startCountFollow

def loadData (s : Registers) : Bool := s.state = .load

def transmitDone (s : Registers) : Bool := s.state = .init

def txReady (s : Registers) : Bool := transmitDone s && s.txReadyReg && !s.delayClock

def dataOut (s : Registers) : Bool := s.dataReg.getLsbD 0

def nxtState (s : Registers) : State :=
  match s.state with
  | .init => if startTrans s then .load else .init
  | .load => .shift
  | .shift => if s.doneShifting then .init else .shift

/-- The assignments of `nxt_state_proc` to `delay_clock`. -/
def settle (s : Registers) : Registers :=
  { s with
    delayClock :=
      match s.state with
      | .init => !s.delayClockDone
      | .load => s.delayClock
      | .shift => s.doneShifting || s.delayClock }

/-- The value after `nxt_state_proc` has run once. -/
def Registers.init : Registers :=
  settle
    { state := .init
      clkCounter := 0
      clkDelayCounter := 0
      numberBits := 0
      startCountLead := false
      startCountFollow := false
      dataReg := BitVec.allOnes 10
      shiftData := false
      doneShifting := false
      txReadyReg := false
      delayClock := false
      delayClockDone := false }

/-! ## Clocked processes -/

def countBitsProc (p : Ports) (s : Registers) : Registers :=
  if p.reset then { s with numberBits := 0 }
  else if s.numberBits = maxBits then { s with doneShifting := true, numberBits := 0 }
  else if loadData s then
    { s with dataReg := 1#1 ++ (p.dataIn ++ 0#1), doneShifting := false }
  else if s.shiftData then
    { s with dataReg := 1#1 ++ s.dataReg.extractLsb' 1 9, numberBits := s.numberBits + 1 }
  else s

def clockCountProc (g : UartGenerics) (s : Registers) : Registers :=
  if s.state = .shift then
    if s.clkCounter = maxClkCount g then { s with shiftData := true, clkCounter := 0 }
    else { s with clkCounter := s.clkCounter + 1, shiftData := false }
  else s

def clockDelayProc (g : UartGenerics) (s : Registers) : Registers :=
  if s.delayClock then
    if s.clkDelayCounter < maxClkCountDelay g then
      { s with clkDelayCounter := s.clkDelayCounter + 1, delayClockDone := false }
    else { s with delayClockDone := true }
  else { s with clkDelayCounter := 0 }

def edge (g : UartGenerics) (p : Ports) (s : Registers) : Registers :=
  settle
    { state := if p.reset then .init else nxtState s
      startCountLead := if p.reset then false else p.start
      startCountFollow := if p.reset then false else s.startCountLead
      numberBits := (countBitsProc p s).numberBits
      dataReg := (countBitsProc p s).dataReg
      doneShifting := (countBitsProc p s).doneShifting
      clkCounter := (clockCountProc g s).clkCounter
      shiftData := (clockCountProc g s).shiftData
      clkDelayCounter := (clockDelayProc g s).clkDelayCounter
      delayClockDone := (clockDelayProc g s).delayClockDone
      txReadyReg := !p.start
      delayClock := s.delayClock }

end TUart
end KuznyechikDPA

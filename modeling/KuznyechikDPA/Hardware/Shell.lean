import KuznyechikDPA.Hardware.Reception
import KuznyechikDPA.Hardware.ReplyTime

/-!
# The shell of the three designs

`UART_STANDARD_COMPLETE`, `UART_MASKED_COMPLETE` and `UART_AES256_MASKED` have different key schedules,
encryptions and generators. What is around them is the same in all three: the divider of the clock, the
two UARTs and the two collectors, which see no more of the rest than `cipher` and `can_transmit`.
-/

namespace KuznyechikDPA
open UartStandardComplete (Input generics rxCompPorts Holds)

@[ext] structure Shell where
  clkCounter : Nat
  lowClk : Bool
  rxComp : RUart.Registers
  rxColl : RxCollecteur.Registers
  txColl : TxCollecteur.Registers
  txComp : TUart.Registers

namespace Shell

def init : Shell where
  clkCounter := 0
  lowClk := false
  rxComp := .init
  rxColl := .init
  txColl := .init
  txComp := .init

def lowClkRises (i : Input) (s : Shell) : Bool := i.rising && s.clkCounter == 5 && !s.lowClk

def rxCollStep (i : Input) (s : Shell) : RxCollecteur.Registers :=
  if i.reset then RxCollecteur.reset s.rxColl
  else if i.rising then
    RxCollecteur.edge (RUart.dataOut s.rxComp) (RUart.dataValid s.rxComp) s.rxColl
  else s.rxColl

def replyPorts (i : Input) (cipher : Block) (canTransmit : Bool) : ReplyPath.Input where
  rising := i.rising
  reset := i.reset
  cipher := cipher
  startTransmit := canTransmit

def replyPath (s : Shell) : ReplyPath.Registers where
  txColl := s.txColl
  txComp := s.txComp

def replyStep (i : Input) (cipher : Block) (canTransmit : Bool) (s : Shell) : ReplyPath.Registers :=
  ReplyPath.step generics (replyPorts i cipher canTransmit) s.replyPath

/-- One instant, with what the encryption puts out before it. -/
def step (i : Input) (cipher : Block) (canTransmit : Bool) (s : Shell) : Shell where
  clkCounter := if i.rising then if s.clkCounter = 5 then 0 else s.clkCounter + 1 else s.clkCounter
  lowClk := if i.rising ∧ s.clkCounter = 5 then !s.lowClk else s.lowClk
  rxComp := if i.rising then RUart.edge generics (rxCompPorts i) s.rxComp else s.rxComp
  rxColl := rxCollStep i s
  txColl := (replyStep i cipher canTransmit s).txColl
  txComp := (replyStep i cipher canTransmit s).txComp

/-- The byte that `rUART` signals. -/
def hears (s : Shell) : List Byte := RUart.signalled s.rxComp

/-- What `tUART` loads at this instant. -/
def loaded (i : Input) (s : Shell) : List Byte :=
  TUart.loaded ⟨i.reset, s.txColl.startTx, s.txColl.dataToTx⟩ s.txComp

/-- `tUART` gets start pulses between two bytes only. -/
def Polite (s : Shell) : Prop :=
  s.txColl.startTx = true → s.txComp.state = .init ∧ s.txComp.txReadyReg = true

/-- An edge of `clk` without a reset, in mode `sel`. -/
structure Ticks (sel : Bool) (i : Input) : Prop where
  rising : i.rising = true
  reset : i.reset = false
  mode : i.encDecSel = sel

variable {sel : Bool} {i : Input} {s : Shell} {cipher : Block} {canTransmit : Bool} {got : List Byte}

/-! ## The slow clock -/

/-- Edges of `clk` since the last rise of `LOWclk`. -/
def phase (s : Shell) : Nat := if s.lowClk then s.clkCounter else s.clkCounter + 6

theorem phase_le (hdiv : s.clkCounter ≤ 5) : s.phase ≤ 11 := by
  unfold phase
  split_ifs <;> omega

theorem clkCounter_step (hdiv : s.clkCounter ≤ 5) : (s.step i cipher canTransmit).clkCounter ≤ 5 := by
  simp only [step]
  split_ifs <;> omega

section Ticks
variable (hticks : Ticks sel i)
include hticks

theorem lowClkRises_iff (hdiv : s.clkCounter ≤ 5) : lowClkRises i s = true ↔ s.phase = 11 := by
  unfold lowClkRises phase
  rw [hticks.rising]
  cases s.lowClk <;> simp
  omega

theorem phase_step (hdiv : s.clkCounter ≤ 5) :
    (s.step i cipher canTransmit).phase = if s.phase = 11 then 0 else s.phase + 1 := by
  by_cases hwrap : s.clkCounter = 5
  · cases hlow : s.lowClk <;> simp [phase, step, hticks.rising, hwrap, hlow]
  · have hne : ¬ s.phase = 11 := by
      unfold phase
      split_ifs <;> omega
    rw [if_neg hne]
    simp only [phase, step, hticks.rising, hwrap, if_true, and_false, if_false]
    split_ifs <;> omega

/-! ## The receiving side -/

theorem rxCollStep_quiet (hnone : s.hears = []) :
    rxCollStep i s = { s.rxColl with fullData := false } := by
  have hvalid : RUart.dataValid s.rxComp = false := by
    by_contra hon
    rw [hears, RUart.signalled, if_pos (Bool.of_not_eq_false hon)] at hnone
    contradiction
  rw [rxCollStep, hticks.reset, hticks.rising, hvalid]
  rfl

theorem rxCollStep_byte {b : Byte} (hbyte : s.hears = [b]) :
    rxCollStep i s = RxCollecteur.edge b true s.rxColl := by
  unfold hears RUart.signalled at hbyte
  split_ifs at hbyte with hvalid
  · rw [rxCollStep, hticks.reset, hticks.rising, hvalid, List.singleton_inj.mp hbyte]
    rfl

omit hticks in
theorem hears_cases (s : Shell) : s.hears = [] ∨ ∃ b, s.hears = [b] := by
  unfold hears RUart.signalled
  split_ifs
  · exact .inr ⟨_, rfl⟩
  · exact .inl rfl

/-- Bytes of an incomplete block. -/
theorem holds_step (h : Holds got s.rxColl) (hshort : (got ++ s.hears).length < 16) :
    Holds (got ++ s.hears) (rxCollStep i s) ∧ (rxCollStep i s).fullData = false := by
  rcases s.hears_cases with hnone | ⟨b, hbyte⟩
  · rw [rxCollStep_quiet hticks hnone, hnone, List.append_nil]
    exact ⟨⟨h.count, h.plain⟩, rfl⟩
  · rw [hbyte, List.length_append, List.length_singleton] at hshort
    rw [rxCollStep_byte hticks hbyte, hbyte]
    exact UartStandardComplete.holds_store h b (by omega)

/-! ## The sending side -/

theorem txColl_cases (hcpt : s.txColl.cpt ≤ 16) :
    TxCollecteur.Edge ⟨cipher, canTransmit, TUart.txReady s.txComp⟩ s.txColl
      (s.step i cipher canTransmit).txColl := by
  have htx : (s.step i cipher canTransmit).txColl =
      TxCollecteur.edge ⟨cipher, canTransmit, TUart.txReady s.txComp⟩ s.txColl := by
    simp only [step, replyStep, ReplyPath.step, replyPorts, hticks.reset, hticks.rising,
      Bool.false_eq_true, if_false, if_true]
    rfl
  rw [htx]
  exact TxCollecteur.edge_cases _ hcpt

end Ticks
end Shell

/-! ## Designs -/

/-- A design in the shell. -/
structure Design (σ : Type) where
  step : Input → σ → σ
  shell : σ → Shell
  cipher : σ → Block
  canTransmit : σ → Bool
  shell_step : ∀ i s, shell (step i s) = (shell s).step i (cipher s) (canTransmit s)

end KuznyechikDPA

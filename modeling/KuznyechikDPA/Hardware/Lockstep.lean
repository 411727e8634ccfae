import KuznyechikDPA.Hardware.Restart
import KuznyechikDPA.Hardware.UartMaskedComplete

/-!
# The two designs side by side

`UART_MASKED_COMPLETE` and `UART_STANDARD_COMPLETE` on one waveform, resets and mode changes
included. The shares of the masked design hold the state of the unmasked one, and every
other register is the same in both, except `mem_cipher`: the masked design remembers the
masked state of the block it announced last. The two designs can therefore be told apart
from outside by their decisions whether to announce a block, and by nothing else.
-/

namespace KuznyechikDPA.UartMaskedComplete
open UartStandardComplete (Input Outputs)

/-- `inter_state` and `inter_mask`. -/
def shares (s : Registers) : Shares Block := ⟨s.encrypt.interState, s.encrypt.interMask⟩

/-- The same outputs and signals as of the unmasked design. -/
def outputs (s : Registers) : Outputs where
  tx := TUart.dataOut s.txComp
  cwTrigger := s.sks.cwTrigger
  fullData := s.rxColl.fullData
  plain := s.rxColl.plain
  canTransmit := s.encrypt.canTransmit
  cipher := s.encrypt.cipher
  startTx := s.txColl.startTx
  dataToTx := s.txColl.dataToTx

/-- The instants at which the encryption compares its state with `mem_cipher`. -/
structure Decides (i : Input) (s : Registers) : Prop where
  reset : i.reset = false
  rising : lowClkRises i s = true
  tour : s.encrypt.tour = 11
  before : (txCollStep i s).doneTransmit = true

instance (i : Input) (s : Registers) : Decidable (Decides i s) :=
  decidable_of_iff
    (i.reset = false ∧ lowClkRises i s = true ∧ s.encrypt.tour = 11 ∧
      (txCollStep i s).doneTransmit = true)
    ⟨fun h => ⟨h.1, h.2.1, h.2.2.1, h.2.2.2⟩, fun h => ⟨h.reset, h.rising, h.tour, h.before⟩⟩

/-- The shares of the block announced last before instant `t`, zero before the first. -/
def announced (state outp : Block) (input : Nat → Input) : Nat → Shares Block
  | 0 => ⟨0, 0⟩
  | t + 1 =>
    let s := run state outp input t
    if Decides (input t) s ∧ s.encrypt.memCipher ≠ s.encrypt.interState then shares s
    else announced state outp input t

/-! ## The simulation -/

/-- The masked encryption `m` against the unmasked one `s`; `last` are the shares announced last. -/
structure SameSecret (last : Shares Block) (m : MaskedCompleteEncryption.Registers)
    (s : CompleteEncryption.Registers) : Prop where
  tour : m.tour = s.tour
  secret : Shares.secret ⟨m.interState, m.interMask⟩ = s.interState
  cipher : m.cipher = s.cipher
  canTransmit : m.canTransmit = s.canTransmit
  memory : m.memCipher = last.state
  memory' : s.memCipher = last.secret

structure Simulates (last : Shares Block) (m : Registers) (s : UartStandardComplete.Registers) :
    Prop where
  clkCounter : m.clkCounter = s.clkCounter
  lowClk : m.lowClk = s.lowClk
  rxComp : m.rxComp = s.rxComp
  rxColl : m.rxColl = s.rxColl
  sks : m.sks = s.core.sks
  encrypt : SameSecret last m.encrypt s.core.encrypt
  txColl : m.txColl = s.txColl
  txComp : m.txComp = s.txComp

theorem Simulates.outputs_eq {last : Shares Block} {m : Registers}
    {s : UartStandardComplete.Registers} (h : Simulates last m s) :
    outputs m = UartStandardComplete.outputs s := by
  rw [outputs, UartStandardComplete.outputs, h.txComp, h.sks, h.rxColl, h.encrypt.canTransmit,
    h.encrypt.cipher, h.txColl]

section Encryption
variable {last : Shares Block} {m : MaskedCompleteEncryption.Registers}
  {s : CompleteEncryption.Registers}

theorem sameSecret_reset (h : SameSecret last m s) :
    SameSecret last (MaskedCompleteEncryption.reset m) (CompleteEncryption.reset s) :=
  ⟨rfl, h.secret, rfl, rfl, h.memory, h.memory'⟩

/-- The two comparisons with `mem_cipher` come out alike. -/
def Alike (last p : Shares Block) : Prop := last.state = p.state ↔ last.secret = p.secret

theorem sameSecret_finish {q : MaskedCompleteEncryption.Ports} (h : SameSecret last m s)
    (halike : q.transmitBefore = true → Alike last ⟨m.interState, m.interMask⟩) :
    SameSecret
      (if q.transmitBefore = true ∧ m.memCipher ≠ m.interState then ⟨m.interState, m.interMask⟩
        else last)
      (MaskedCompleteEncryption.finish q m) (CompleteEncryption.finish q.toPorts s) := by
  have hcipher : m.interState ^^^ m.interMask = s.interState := h.secret
  have hiff : q.transmitBefore = true →
      (m.memCipher ≠ m.interState ↔ s.memCipher ≠ s.interState) := by
    intro hready
    rw [h.memory, h.memory', ← h.secret]
    exact not_congr (halike hready)
  unfold MaskedCompleteEncryption.finish CompleteEncryption.finish
  by_cases hsend : q.transmitBefore = true ∧ m.memCipher ≠ m.interState
  · have hsend' : q.transmitBefore = true ∧ s.memCipher ≠ s.interState :=
      ⟨hsend.1, (hiff hsend.1).mp hsend.2⟩
    rw [if_pos hsend, if_pos hsend, if_pos hsend']
    exact ⟨h.tour, h.secret, hcipher, rfl, rfl, h.secret.symm⟩
  · have hsend' : ¬ (q.transmitBefore = true ∧ s.memCipher ≠ s.interState) :=
      fun hall => hsend ⟨hall.1, (hiff hall.1).mpr hall.2⟩
    rw [if_neg hsend, if_neg hsend, if_neg hsend']
    exact ⟨rfl, h.secret, hcipher, rfl, h.memory, h.memory'⟩

theorem sameSecret_edge {q : MaskedCompleteEncryption.Ports} (h : SameSecret last m s)
    (halike : m.tour = 11 → q.transmitBefore = true → Alike last ⟨m.interState, m.interMask⟩) :
    SameSecret
      (if (m.tour = 11 ∧ q.transmitBefore = true) ∧ m.memCipher ≠ m.interState then
          ⟨m.interState, m.interMask⟩
        else last)
      (MaskedCompleteEncryption.edge q m) (CompleteEncryption.edge q.toPorts s) := by
  rw [MaskedCompleteEncryption.edge_eq, CompleteEncryption.edge_eq, ← h.tour]
  by_cases hlast : m.tour = 11
  · have hfinish := sameSecret_finish (q := q) h (halike hlast)
    simpa [hlast] using hfinish
  · rw [if_neg fun hall => hlast hall.1.1, if_neg hlast, if_neg hlast]
    split_ifs with hrest hstart hwork
    · exact ⟨rfl, Shares.secret_split q.mask q.plain, h.cipher, rfl, h.memory, h.memory'⟩
    · exact h
    · refine ⟨rfl, ?_, h.cipher, h.canTransmit, h.memory, h.memory'⟩
      exact (MaskedCompleteEncryption.secret_work q.env m.tour _).trans (by rw [h.secret])
    · exact h

end Encryption

/-! ## One instant -/

section Step
variable {i : Input} {last : Shares Block} {m : Registers} {s : UartStandardComplete.Registers}

theorem lowClkRises_eq (h : Simulates last m s) :
    lowClkRises i m = UartStandardComplete.lowClkRises i s := by
  rw [lowClkRises, UartStandardComplete.lowClkRises, h.clkCounter, h.lowClk]

theorem rxCollStep_eq (h : Simulates last m s) :
    rxCollStep i m = UartStandardComplete.rxCollStep i s := by
  rw [rxCollStep, UartStandardComplete.rxCollStep, h.rxComp, h.rxColl]

theorem txCollStep_eq (h : Simulates last m s) :
    txCollStep i m = UartStandardComplete.txCollStep i s := by
  rw [txCollStep, UartStandardComplete.txCollStep, txCollPorts, UartStandardComplete.txCollPorts,
    h.txColl, h.encrypt.cipher, h.encrypt.canTransmit, h.txComp]

theorem encryptPorts_eq (h : Simulates last m s) :
    (encryptPorts i m).toPorts = Core.ports (UartStandardComplete.coreSample i s) s.core := by
  simp only [encryptPorts, Core.ports, UartStandardComplete.coreSample, rxCollStep_eq h,
    txCollStep_eq h, h.sks]

theorem encrypt_step (h : Simulates last m s) (hkeep : Decides i m → Alike last (shares m)) :
    SameSecret
      (if Decides i m ∧ m.encrypt.memCipher ≠ m.encrypt.interState then shares m else last)
      (step i m).encrypt (UartStandardComplete.step i s).core.encrypt := by
  simp only [step, UartStandardComplete.step, Core.step]
  cases hreset : i.reset with
  | true =>
    rw [if_neg fun hall => Bool.false_ne_true (hall.1.reset.symm.trans hreset)]
    simpa [UartStandardComplete.coreSample, hreset] using sameSecret_reset h.encrypt
  | false =>
    cases hrise : lowClkRises i m with
    | false =>
      rw [if_neg fun hall => Bool.false_ne_true (hrise.symm.trans hall.1.rising)]
      simpa [UartStandardComplete.coreSample, hreset, ← lowClkRises_eq h, hrise] using h.encrypt
    | true =>
      have hdecides (htour : m.encrypt.tour = 11)
          (hbefore : (encryptPorts i m).transmitBefore = true) : Decides i m :=
        ⟨hreset, hrise, htour, hbefore⟩
      have hiff : Decides i m ↔
          m.encrypt.tour = 11 ∧ (encryptPorts i m).transmitBefore = true :=
        ⟨fun hd => ⟨hd.tour, hd.before⟩, fun hd => hdecides hd.1 hd.2⟩
      have hedge := sameSecret_edge (q := encryptPorts i m) h.encrypt
        fun htour hbefore => hkeep (hdecides htour hbefore)
      simp only [← hiff] at hedge
      simpa [UartStandardComplete.coreSample, hreset, ← lowClkRises_eq h, hrise,
        encryptPorts_eq h, shares] using hedge

theorem simulates_step (h : Simulates last m s) (hkeep : Decides i m → Alike last (shares m)) :
    Simulates
      (if Decides i m ∧ m.encrypt.memCipher ≠ m.encrypt.interState then shares m else last)
      (step i m) (UartStandardComplete.step i s) where
  clkCounter := by simp only [step, UartStandardComplete.step, h.clkCounter]
  lowClk := by simp only [step, UartStandardComplete.step, h.clkCounter, h.lowClk]
  rxComp := by simp only [step, UartStandardComplete.step, h.rxComp]
  rxColl := rxCollStep_eq h
  sks := by
    simp only [step, UartStandardComplete.step, Core.step, UartStandardComplete.coreSample,
      rxCollStep_eq h, lowClkRises_eq h, h.sks]
    rfl
  encrypt := encrypt_step h hkeep
  txColl := txCollStep_eq h
  txComp := by
    simp only [step, UartStandardComplete.step, h.txComp, txCompPorts,
      UartStandardComplete.txCompPorts, h.txColl]

theorem canTransmit_decides (h : Decides i m) :
    (step i m).encrypt.canTransmit = decide (m.encrypt.memCipher ≠ m.encrypt.interState) := by
  have hbefore : (encryptPorts i m).transmitBefore = true := h.before
  simp only [step, h.reset, h.rising, Bool.false_eq_true, if_false, if_true]
  rw [MaskedCompleteEncryption.edge_eq, if_neg (by rw [h.tour]; decide),
    if_neg (by rw [h.tour]; decide), if_pos h.tour, MaskedCompleteEncryption.finish]
  by_cases hnew : m.encrypt.memCipher ≠ m.encrypt.interState
  · rw [if_pos ⟨hbefore, hnew⟩, decide_eq_true hnew]
  · rw [if_neg fun hall => hnew hall.2, decide_eq_false hnew]

theorem canTransmit_decides' (hsim : Simulates last m s) (h : Decides i m) :
    (UartStandardComplete.step i s).core.encrypt.canTransmit =
      decide (s.core.encrypt.memCipher ≠ s.core.encrypt.interState) := by
  have hbefore : (UartStandardComplete.coreSample i s).transmitBefore = true :=
    (congrArg _ (txCollStep_eq hsim)).symm.trans h.before
  have hrise : (UartStandardComplete.coreSample i s).rising = true :=
    (lowClkRises_eq hsim).symm.trans h.rising
  have hreset : (UartStandardComplete.coreSample i s).reset = false := h.reset
  have htour := hsim.encrypt.tour.symm.trans h.tour
  rw [UartStandardComplete.step, Core.encrypt_step hreset, if_pos hrise,
    CompleteEncryption.edge_eq, if_neg (by rw [htour]; decide), if_neg (by rw [htour]; decide),
    if_pos htour, CompleteEncryption.finish]
  by_cases hnew : s.core.encrypt.memCipher ≠ s.core.encrypt.interState
  · rw [if_pos ⟨hbefore, hnew⟩, decide_eq_true hnew]
  · rw [if_neg fun hall => hnew hall.2, decide_eq_false hnew]

/-- Decisions that come out differently show in `can_transmit` at the same instant. -/
theorem outputs_part (hsim : Simulates last m s) (h : Decides i m)
    (hdiff : ¬ Alike last (shares m)) :
    outputs (step i m) ≠ UartStandardComplete.outputs (UartStandardComplete.step i s) := by
  intro heq
  apply hdiff
  have hcan := congrArg Outputs.canTransmit heq
  simp only [outputs, UartStandardComplete.outputs, canTransmit_decides h,
    canTransmit_decides' hsim h, decide_eq_decide, hsim.encrypt.memory, hsim.encrypt.memory',
    ← hsim.encrypt.secret] at hcan
  exact not_iff_not.mp hcan

end Step

/-! ## Whole runs -/

theorem simulates_init (state outp : Block) : Simulates ⟨0, 0⟩ (.init state outp) .init :=
  have hzero : (0 : Block) ^^^ 0 = 0 := by decide
  ⟨rfl, rfl, rfl, rfl, rfl, ⟨rfl, hzero, rfl, rfl, rfl, hzero.symm⟩, rfl, rfl⟩

/-- From power-up on, whatever the generator holds and whatever the waveform, the two designs
show the same through instant `n` if and only if every comparison before `n` comes out on the
masked states as it would on the unmasked ones. -/
theorem outputs_eq_iff (state outp : Block) (input : Nat → Input) (n : Nat) :
    (∀ t ≤ n, outputs (run state outp input t) =
        UartStandardComplete.outputs (UartStandardComplete.run input t)) ↔
      ∀ t < n, Decides (input t) (run state outp input t) →
        ((announced state outp input t).state = (shares (run state outp input t)).state ↔
          (announced state outp input t).secret = (shares (run state outp input t)).secret) := by
  refine Machine.shows_same_iff
    (R := fun t => Simulates (announced state outp input t) (run state outp input t)
      (UartStandardComplete.run input t)) (simulates_init state outp) ?_ ?_ ?_ n
  · exact fun t hsim hkeep => simulates_step hsim hkeep
  · exact fun t hsim => hsim.outputs_eq
  · intro t hsim hnot
    obtain ⟨hdecides, hdiff⟩ := Classical.not_imp.mp hnot
    exact outputs_part hsim hdecides hdiff

end KuznyechikDPA.UartMaskedComplete

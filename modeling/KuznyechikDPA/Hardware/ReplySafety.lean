import KuznyechikDPA.Hardware.UartStandardComplete
import KuznyechikDPA.Uart.TUartTiming

/-!
# Replies that are not mixed

`complete_encryption` loads `cipher` whether or not a reply is under way, and the first
byte of a reply is offered without looking at `tx_ready`. `Calm` excludes the instants at
which that goes wrong. In a run of calm instants `Sound` is an invariant: while
`can_transmit` is high the collector is at a known place of its reply, and every start
pulse finds `tUART` ready.
-/

namespace KuznyechikDPA

namespace TxCollecteur

/-- The reply has begun and its sixteenth byte has not been handed over. -/
def MidReply (s : Registers) : Prop :=
  (1 ≤ s.cpt ∧ s.cpt ≤ 15) ∨ (s.cpt = 16 ∧ s.tempTxReady = true)

/-- No reply is under way, or its last byte is being handed over. -/
def Finished (s : Registers) : Prop := s.cpt = 16 ∨ (s.cpt = 0 ∧ s.tempTxReady = true)

end TxCollecteur

namespace CompleteEncryption
variable {p : Ports} {s : Registers}

/-- Only a finished block with a new result raises `can_transmit`. -/
theorem edge_of_raised (hon : (edge p s).canTransmit = true) (hoff : s.canTransmit = false) :
    s.tour = 11 ∧ p.transmitBefore = true ∧ s.memCipher ≠ s.interState ∧
      edge p s =
        { s with cipher := s.interState, canTransmit := true, memCipher := s.interState } := by
  rw [edge_eq] at hon ⊢
  split_ifs at hon ⊢ with h0 hstart hwork hlast
  · exact absurd (hoff.symm.trans hon) Bool.false_ne_true
  · exact absurd (hoff.symm.trans hon) Bool.false_ne_true
  · unfold finish at hon ⊢
    split_ifs at hon ⊢ with hnew
    · exact ⟨hlast, hnew.1, hnew.2, rfl⟩
  · exact absurd (hoff.symm.trans hon) Bool.false_ne_true

theorem edge_of_announced (htour : s.tour = 11) (hmem : s.memCipher = s.interState) :
    edge p s = { s with cipher := s.interState, canTransmit := false, tour := 0 } := by
  rw [edge_eq, if_neg (by omega), if_neg (by omega), if_pos htour, finish,
    if_neg fun hnew => hnew.2 hmem]

theorem memCipher_edge (hoff : (edge p s).canTransmit = false) :
    (edge p s).memCipher = s.memCipher := by
  rw [edge_eq] at hoff ⊢
  unfold finish at hoff ⊢
  split_ifs at hoff ⊢ <;> rfl

theorem cipher_edge (htour : s.tour ≠ 11) : (edge p s).cipher = s.cipher := by
  rw [edge_eq, if_neg htour]
  split_ifs <;> rfl

theorem cipher_edge_finish (htour : s.tour = 11) : (edge p s).cipher = s.interState := by
  rw [edge_eq, if_neg (by omega), if_neg (by omega), if_pos htour, finish]
  split_ifs <;> rfl

end CompleteEncryption

namespace UartStandardComplete

open TxCollecteur (MidReply Finished)
open TUart (Settled ReadyWithin)

/-! ## The slow clock -/

/-- How many edges of `clk` ago `LOWclk` rose. -/
def phase (s : Registers) : Nat := if s.lowClk then s.clkCounter else s.clkCounter + 6

theorem phase_le {s : Registers} (hdiv : s.clkCounter ≤ 5) : phase s ≤ 11 := by
  unfold phase
  split_ifs <;> omega

theorem lowClkRises_iff {i : Input} {s : Registers} (hdiv : s.clkCounter ≤ 5) :
    lowClkRises i s = true ↔ i.rising = true ∧ phase s = 11 := by
  unfold lowClkRises phase
  cases i.rising <;> cases s.lowClk <;> simp
  omega

theorem phase_step {i : Input} {s : Registers} (hrise : i.rising = true) (hdiv : s.clkCounter ≤ 5) :
    phase (step i s) = if phase s = 11 then 0 else phase s + 1 := by
  by_cases hwrap : s.clkCounter = 5
  · cases hlow : s.lowClk <;> simp [phase, step, hrise, hwrap, hlow]
  · have hne : ¬ phase s = 11 := by
      unfold phase
      split_ifs <;> omega
    rw [if_neg hne]
    simp only [phase, step, hrise, hwrap, if_true, and_false, if_false]
    split_ifs <;> omega

theorem clkCounter_step (i : Input) {s : Registers} (hdiv : s.clkCounter ≤ 5) :
    (step i s).clkCounter ≤ 5 := by
  simp only [step]
  split_ifs <;> omega

/-! ## Calm instants -/

/-- When a block is finished and not yet announced, a reply under way is a reply with the same
result, and if there is none, and the result is new, `tUART` has no byte to send and its delay
ends within two edges. -/
def Calm (i : Input) (s : Registers) : Prop :=
  i.reset = false → lowClkRises i s = true → s.core.encrypt.tour = 11 →
    s.core.encrypt.canTransmit = false →
    (MidReply s.txColl → s.core.encrypt.interState = s.core.encrypt.cipher) ∧
      (Finished s.txColl → s.core.encrypt.memCipher ≠ s.core.encrypt.interState →
        s.txColl.startTx = false ∧ ReadyWithin generics 2 s.txComp)

/-- Where the collector is while `can_transmit` is high, which it is for one period of `LOWclk`. -/
inductive Place (s : Registers) : Prop where
  | raised (phase : phase s = 0) (cpt : s.txColl.cpt = 16) (temp : s.txColl.tempTxReady = false)
      (ready : ReadyWithin generics 1 s.txComp)
  | first (phase : phase s = 1) (cpt : s.txColl.cpt = 16) (temp : s.txColl.tempTxReady = true)
  | sending (phase : 2 ≤ phase s) (cpt : s.txColl.cpt ≤ 15)
      (sent : 17 ≤ s.txColl.cpt + UartStandardComplete.phase s)

structure Announced (s : Registers) : Prop where
  tour : s.core.encrypt.tour = 11
  cipher : s.core.encrypt.cipher = s.core.encrypt.interState
  memory : s.core.encrypt.memCipher = s.core.encrypt.interState
  place : Place s

structure Sound (s : Registers) : Prop where
  divider : s.clkCounter ≤ 5
  settled : Settled s.txComp
  range : s.txColl.cpt ≤ 16
  pulse : s.txColl.startTx = s.txColl.tempTxReady
  ready : s.txColl.startTx = true → TUart.txReady s.txComp = true
  first : s.txColl.cpt = 16 → s.txColl.tempTxReady = true → s.core.encrypt.canTransmit = true
  announced : s.core.encrypt.canTransmit = true → Announced s

theorem sound_init : Sound .init where
  divider := Nat.zero_le _
  settled := TUart.settled_init
  range := le_rfl
  pulse := rfl
  ready hstart := absurd hstart Bool.false_ne_true
  first _ htemp := absurd htemp Bool.false_ne_true
  announced hon := absurd hon Bool.false_ne_true

/-! ## Instants that keep the invariant -/

section Step
variable {i : Input} {s : Registers}

theorem settled_step (h : Settled s.txComp) : Settled (step i s).txComp := by
  simp only [step]
  split_ifs
  · exact TUart.settled_edge _ _ _
  · exact h

theorem sound_reset (h : Sound s) (hreset : i.reset = true) : Sound (step i s) := by
  have htx : (step i s).txColl = TxCollecteur.reset s.txColl := by
    simp only [step, txCollStep, hreset, if_true]
  have hquiet : (step i s).core.encrypt.canTransmit = false := by
    simp only [step, Core.step, coreSample, hreset, if_true, CompleteEncryption.reset]
  constructor
  · exact clkCounter_step i h.divider
  · exact settled_step h.settled
  · rw [htx]
    exact le_rfl
  · rw [htx]
    rfl
  · rw [htx]
    exact fun hstart => absurd hstart Bool.false_ne_true
  · rw [htx]
    exact fun _ htemp => absurd htemp Bool.false_ne_true
  · intro hon
    exact absurd (hquiet.symm.trans hon) Bool.false_ne_true

theorem step_idle (hreset : i.reset = false) (hrise : i.rising = false) :
    (step i s).clkCounter = s.clkCounter ∧ (step i s).lowClk = s.lowClk ∧
      (step i s).txColl = s.txColl ∧ (step i s).txComp = s.txComp ∧
      (step i s).core.encrypt = s.core.encrypt := by
  simp [step, txCollStep, Core.step, coreSample, lowClkRises, hreset, hrise]

theorem sound_idle (h : Sound s) (hreset : i.reset = false) (hrise : i.rising = false) :
    Sound (step i s) := by
  obtain ⟨hclk, hlow, htx, hcomp, henc⟩ := step_idle (s := s) hreset hrise
  have hphase : phase (step i s) = phase s := by rw [phase, phase, hclk, hlow]
  constructor
  · rw [hclk]
    exact h.divider
  · exact settled_step h.settled
  · rw [htx]
    exact h.range
  · rw [htx]
    exact h.pulse
  · rw [htx, hcomp]
    exact h.ready
  · rw [htx, henc]
    exact h.first
  · rw [henc]
    intro hon
    obtain ⟨htour, hcipher, hmem, hplace⟩ := h.announced hon
    refine ⟨henc ▸ htour, henc ▸ hcipher, henc ▸ hmem, ?_⟩
    cases hplace with
    | raised hp hcpt htemp hready =>
      exact .raised (hphase.trans hp) (htx ▸ hcpt) (htx ▸ htemp) (hcomp ▸ hready)
    | first hp hcpt htemp => exact .first (hphase.trans hp) (htx ▸ hcpt) (htx ▸ htemp)
    | sending hp hcpt hsent =>
      exact .sending (hphase ▸ hp) (htx ▸ hcpt) (by rwa [htx, hphase])

/-! ## Edges of the fast clock -/

theorem txColl_edge (h : Sound s) (hreset : i.reset = false) (hrise : i.rising = true) :
    TxCollecteur.Edge (txCollPorts s) s.txColl (step i s).txColl := by
  have htx : (step i s).txColl = TxCollecteur.edge (txCollPorts s) s.txColl := by
    simp only [step, txCollStep, hreset, hrise, Bool.false_eq_true, if_false, if_true]
  rw [htx]
  exact TxCollecteur.edge_cases _ h.range

theorem encrypt_edge (hreset : i.reset = false) :
    (step i s).core.encrypt =
      if lowClkRises i s then
        CompleteEncryption.edge (Core.ports (coreSample i s) s.core) s.core.encrypt
      else s.core.encrypt := by
  simp only [step, Core.step, coreSample, hreset, Bool.false_eq_true, if_false]

theorem txComp_edge (hrise : i.rising = true) :
    (step i s).txComp = TUart.edge generics (txCompPorts i s) s.txComp := by
  simp only [step, hrise, if_true]

/-- When the first start pulse is up, `tUART` has had its two edges. -/
theorem txReady_first (h : Sound s) (hreset : i.reset = false) (hrise : i.rising = true)
    (hon : s.core.encrypt.canTransmit = true) (hcpt : s.txColl.cpt = 16)
    (htemp : s.txColl.tempTxReady = false) :
    phase s = 0 ∧ TUart.txReady (step i s).txComp = true := by
  have hstart : s.txColl.startTx = false := h.pulse.trans htemp
  cases (h.announced hon).place with
  | raised hp _ _ hready =>
    obtain ⟨hzero, hreg⟩ :=
      TUart.readyWithin_edge (p := txCompPorts i s) h.settled hready hreset hstart
    rw [txComp_edge hrise]
    exact ⟨hp, TUart.txReady_of_readyWithin hzero hreg⟩
  | first _ _ htrue => exact absurd (htemp.symm.trans htrue) Bool.false_ne_true
  | sending _ hle _ => omega

theorem handshake_edge (h : Sound s) (hreset : i.reset = false) (hrise : i.rising = true) :
    (step i s).txColl.cpt ≤ 16 ∧
      (step i s).txColl.startTx = (step i s).txColl.tempTxReady ∧
      ((step i s).txColl.startTx = true → TUart.txReady (step i s).txComp = true) := by
  have hrange := h.range
  generalize hnext : (step i s).txColl = next
  have hedge := txColl_edge h hreset hrise
  rw [hnext] at hedge
  cases hedge with
  | first hon hcpt htemp =>
    exact ⟨hrange, rfl, fun _ => (txReady_first h hreset hrise hon hcpt htemp).2⟩
  | second => exact ⟨by simp only; omega, rfl, fun hup => absurd hup Bool.false_ne_true⟩
  | offer hcpt hready htemp =>
    refine ⟨hrange, rfl, fun _ => ?_⟩
    rw [txComp_edge hrise]
    exact TUart.txReady_edge h.settled hready hreset (h.pulse.trans htemp)
  | next => exact ⟨by simp only; omega, rfl, fun hup => absurd hup Bool.false_ne_true⟩
  | last => exact ⟨le_rfl, rfl, fun hup => absurd hup Bool.false_ne_true⟩
  | wait hcpt hready =>
    refine ⟨hrange, ?_, fun hup => absurd hup Bool.false_ne_true⟩
    by_contra htemp
    have hup : s.txColl.startTx = true := by
      rw [h.pulse]
      exact Bool.of_not_eq_false (Ne.symm htemp)
    exact absurd (hready.symm.trans (h.ready hup)) Bool.false_ne_true
  | rest hoff hcpt =>
    refine ⟨hrange, ?_, fun hup => absurd hup Bool.false_ne_true⟩
    by_contra htemp
    have hon := h.first hcpt (Bool.of_not_eq_false (Ne.symm htemp))
    exact absurd (hoff.symm.trans hon) Bool.false_ne_true

theorem encrypt_between (h : Sound s) (hreset : i.reset = false) (hphase : phase s ≠ 11) :
    (step i s).core.encrypt = s.core.encrypt := by
  rw [encrypt_edge hreset, if_neg fun hlow => hphase ((lowClkRises_iff h.divider).mp hlow).2]

/-- A block is announced at this instant. -/
structure Publishes (i : Input) (s : Registers) : Prop where
  reset : i.reset = false
  tour : s.core.encrypt.tour = 11
  fresh : s.core.encrypt.memCipher ≠ s.core.encrypt.interState
  before : s.core.encrypt.canTransmit = false
  after : (step i s).core.encrypt.canTransmit = true

theorem publishes_of_raised (hreset : i.reset = false)
    (hoff : s.core.encrypt.canTransmit = false)
    (hon : (step i s).core.encrypt.canTransmit = true) :
    Publishes i s ∧ lowClkRises i s = true ∧ (step i s).txColl.doneTransmit = true ∧
      (step i s).core.encrypt =
        { s.core.encrypt with
          cipher := s.core.encrypt.interState
          canTransmit := true
          memCipher := s.core.encrypt.interState } := by
  have hon' := hon
  rw [encrypt_edge hreset] at hon' ⊢
  split_ifs at hon' ⊢ with hlow
  · obtain ⟨htour, hdone, hnew, hedge⟩ := CompleteEncryption.edge_of_raised hon' hoff
    exact ⟨⟨hreset, htour, hnew, hoff, hon⟩, hlow, hdone, hedge⟩
  · exact absurd (hoff.symm.trans hon') Bool.false_ne_true

/-- An announced block finds the collector at rest and `tUART` ready in time. -/
theorem announced_publish (h : Sound s) (hcalm : Calm i s) (hreset : i.reset = false)
    (hoff : s.core.encrypt.canTransmit = false)
    (hon : (step i s).core.encrypt.canTransmit = true) : Announced (step i s) := by
  obtain ⟨hpub, hlow, hdone, henc⟩ := publishes_of_raised hreset hoff hon
  obtain ⟨hrise, hphase⟩ := (lowClkRises_iff h.divider).mp hlow
  have hcalm' := (hcalm hreset hlow hpub.tour hoff).2
  refine ⟨henc ▸ hpub.tour, henc ▸ rfl, henc ▸ rfl, ?_⟩
  have hzero : phase (step i s) = 0 := by rw [phase_step hrise h.divider, if_pos hphase]
  generalize hnext : (step i s).txColl = next at hdone
  have hedge := txColl_edge h hreset hrise
  rw [hnext] at hedge
  cases hedge with
  | first hup => exact absurd (hoff.symm.trans hup) Bool.false_ne_true
  | second hup => exact absurd (hoff.symm.trans hup) Bool.false_ne_true
  | offer => exact absurd hdone Bool.false_ne_true
  | next => exact absurd hdone Bool.false_ne_true
  | last hcpt _ htemp =>
    obtain ⟨hlow', _⟩ := hcalm' (.inr ⟨hcpt, htemp⟩) hpub.fresh
    exact absurd (hlow'.symm.trans (h.pulse.trans htemp)) Bool.false_ne_true
  | wait => exact absurd hdone Bool.false_ne_true
  | rest _ hcpt =>
    obtain ⟨hstart, hready⟩ := hcalm' (.inl hcpt) hpub.fresh
    have hone := (TUart.readyWithin_edge (p := txCompPorts i s) h.settled hready hreset hstart).1
    have htemp := h.pulse.symm.trans hstart
    rw [← txComp_edge hrise] at hone
    refine .raised hzero ?_ ?_ hone
    · rw [hnext]
      exact hcpt
    · rw [hnext]
      exact htemp

theorem announced_stay (h : Sound s) (hreset : i.reset = false) (hrise : i.rising = true)
    (hann : Announced s) (hon : s.core.encrypt.canTransmit = true) (hphase : phase s ≠ 11) :
    Announced (step i s) := by
  have henc := encrypt_between (i := i) h hreset hphase
  have hnext : phase (step i s) = phase s + 1 := by
    rw [phase_step hrise h.divider, if_neg hphase]
  obtain ⟨htour, hcipher, hmem, hplace⟩ := hann
  refine ⟨henc ▸ htour, henc ▸ hcipher, henc ▸ hmem, ?_⟩
  have hedge := txColl_edge h hreset hrise
  generalize htx : (step i s).txColl = next at hedge
  cases hplace with
  | raised hp hcpt htemp _ =>
    cases hedge with
    | first =>
      refine .first (by omega) ?_ ?_
      · rw [htx]
        exact hcpt
      · rw [htx]
    | second _ _ htrue => exact absurd (htemp.symm.trans htrue) Bool.false_ne_true
    | rest hoff => exact absurd (hoff.symm.trans hon) Bool.false_ne_true
    | _ => omega
  | first hp hcpt htemp =>
    cases hedge with
    | first _ _ hfalse => exact absurd (hfalse.symm.trans htemp) Bool.false_ne_true
    | second =>
      refine .sending (by omega) ?_ ?_
      · rw [htx]
        simp only
        omega
      · rw [htx, hnext]
        simp only
        omega
    | rest hoff => exact absurd (hoff.symm.trans hon) Bool.false_ne_true
    | _ => omega
  | sending hp hcpt hsent =>
    have hle := phase_le h.divider
    have hstep : next.cpt ≤ 15 ∧ s.txColl.cpt ≤ next.cpt + 1 := by
      cases hedge <;> simp only <;> omega
    refine .sending (by omega) ?_ ?_
    · rw [htx]
      exact hstep.1
    · rw [htx, hnext]
      omega

theorem sound_edge (h : Sound s) (hcalm : Calm i s) (hreset : i.reset = false)
    (hrise : i.rising = true) : Sound (step i s) := by
  obtain ⟨hrange, hpulse, hready⟩ := handshake_edge h hreset hrise
  refine ⟨clkCounter_step i h.divider, settled_step h.settled, hrange, hpulse, hready, ?_, ?_⟩
  · intro hcpt htemp
    have hedge := txColl_edge h hreset hrise
    generalize (step i s).txColl = next at hedge hcpt htemp hpulse
    cases hedge with
    | first hon hold hfalse =>
      have hzero := (txReady_first h hreset hrise hon hold hfalse).1
      rw [encrypt_between h hreset (by omega)]
      exact hon
    | second => exact absurd htemp Bool.false_ne_true
    | offer => simp only at hcpt; omega
    | next => exact absurd htemp Bool.false_ne_true
    | last => exact absurd htemp Bool.false_ne_true
    | wait => exact absurd (hpulse.trans htemp) Bool.false_ne_true
    | rest => exact absurd (hpulse.trans htemp) Bool.false_ne_true
  · intro hon
    by_cases hold : s.core.encrypt.canTransmit = true
    · have hann := h.announced hold
      refine announced_stay h hreset hrise hann hold fun hphase => ?_
      -- the next edge of `LOWclk` takes `can_transmit` back
      have hlow := (lowClkRises_iff h.divider).mpr ⟨hrise, hphase⟩
      rw [encrypt_edge hreset, if_pos hlow,
        CompleteEncryption.edge_of_announced hann.tour hann.memory] at hon
      exact absurd hon Bool.false_ne_true
    · exact announced_publish h hcalm hreset (Bool.eq_false_iff.mpr hold) hon

theorem sound_step (h : Sound s) (hcalm : Calm i s) : Sound (step i s) := by
  cases hreset : i.reset
  · cases hrise : i.rising
    · exact sound_idle h hreset hrise
    · exact sound_edge h hcalm hreset hrise
  · exact sound_reset h hreset

end Step

theorem sound_run {input : Nat → Input} (hcalm : ∀ t, Calm (input t) (run input t)) (t : Nat) :
    Sound (run input t) := by
  induction t with
  | zero => exact sound_init
  | succ t ih => exact sound_step ih (hcalm t)

end UartStandardComplete
end KuznyechikDPA

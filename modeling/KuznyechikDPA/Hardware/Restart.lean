import KuznyechikDPA.Hardware.Reception

/-!
# What a reset leaves behind

Each component clears only some of its registers on `reset`, and the key schedule is
reset by `full_data` instead. `Agree` relates two designs whose remaining differences
nobody will read: it is kept by every instant under equal inputs, and agreeing designs
show the same outputs. A reset therefore restarts the design as it was after power-up
when the registers it leaves alone hold what they hold in a design that has received
nothing yet.
-/

namespace KuznyechikDPA

/-! ## Key schedule and encryption -/

namespace Core

/-- The control registers of the schedule do not depend on its keys. -/
structure SameSchedule (s s' : SubKeySchedule.Registers) : Prop where
  index : s.index = s'.index
  terminated : s.terminated = s'.terminated
  cwTrigger : s.cwTrigger = s'.cwTrigger

theorem sameSchedule_reset (s s' : SubKeySchedule.Registers) :
    SameSchedule (SubKeySchedule.reset s) (SubKeySchedule.reset s') := ⟨rfl, rfl, rfl⟩

theorem sameSchedule_edge (masterkey : BitVec 256) {s s' : SubKeySchedule.Registers}
    (h : SameSchedule s s') :
    SameSchedule (SubKeySchedule.edge masterkey s) (SubKeySchedule.edge masterkey s') := by
  unfold SubKeySchedule.edge
  rw [← h.index]
  split_ifs <;> exact ⟨rfl, rfl, rfl⟩

/-- `inter_state` counts only while a block is under way. -/
structure SameBlock (s s' : CompleteEncryption.Registers) : Prop where
  tour : s.tour = s'.tour
  memCipher : s.memCipher = s'.memCipher
  cipher : s.cipher = s'.cipher
  canTransmit : s.canTransmit = s'.canTransmit
  interState : s.tour ≠ 0 → s.interState = s'.interState

theorem sameBlock_reset {s s' : CompleteEncryption.Registers} (h : s.memCipher = s'.memCipher) :
    SameBlock (CompleteEncryption.reset s) (CompleteEncryption.reset s') :=
  ⟨rfl, h, rfl, rfl, fun h0 => absurd rfl h0⟩

theorem sameBlock_edge {p p' : CompleteEncryption.Ports} {s s' : CompleteEncryption.Registers}
    (h : SameBlock s s') (hplain : p.plain = p'.plain) (hstart : p.canStart = p'.canStart)
    (hbefore : p.transmitBefore = p'.transmitBefore) (henv : s.tour ≠ 0 → p.env = p'.env) :
    SameBlock (CompleteEncryption.edge p s) (CompleteEncryption.edge p' s') := by
  rw [CompleteEncryption.edge_eq, CompleteEncryption.edge_eq, ← h.tour, ← hplain, ← hstart]
  split_ifs with h0 hs hwork hlast
  · exact ⟨rfl, h.memCipher, h.cipher, rfl, fun _ => rfl⟩
  · exact h
  · refine ⟨rfl, h.memCipher, h.cipher, h.canTransmit, fun _ => ?_⟩
    simp only [henv h0, h.interState h0]
  · unfold CompleteEncryption.finish
    rw [← hbefore, ← h.memCipher, ← h.interState h0]
    split_ifs
    · exact ⟨h.tour, rfl, rfl, rfl, fun _ => rfl⟩
    · exact ⟨rfl, rfl, rfl, rfl, fun hne => absurd rfl hne⟩
  · exact h

/-- Two runs of schedule and encryption that look alike from now on: while a block is under way
both key sets are complete. -/
structure Agree (masterkey : BitVec 256) (s s' : Registers) : Prop where
  sks : SameSchedule s.sks s'.sks
  encrypt : SameBlock s.encrypt s'.encrypt
  valid : SubKeySchedule.Valid masterkey s.sks
  valid' : SubKeySchedule.Valid masterkey s'.sks
  keys : s.encrypt.tour ≠ 0 → s.sks.k = SubKeySchedule.roundKeys masterkey
  keys' : s.encrypt.tour ≠ 0 → s'.sks.k = SubKeySchedule.roundKeys masterkey

/-- Equal samples, except that `transmitBefore` counts at edges only. -/
structure SameSample (e e' : Sample) : Prop where
  rising : e.rising = e'.rising
  fullData : e.fullData = e'.fullData
  reset : e.reset = e'.reset
  plain : e.plain = e'.plain
  encDecSel : e.encDecSel = e'.encDecSel
  transmitBefore : e.rising = true → e.reset = false → e.transmitBefore = e'.transmitBefore

/-- A block that is under way after a step was so before, or the schedule had just finished. -/
theorem tour_ne_zero_of_step {masterkey : BitVec 256} {e : Sample} {s : Registers}
    (h : (step masterkey e s).encrypt.tour ≠ 0) :
    s.encrypt.tour ≠ 0 ∨ s.sks.terminated = true := by
  by_contra hnone
  rw [not_or, not_not, Bool.not_eq_true] at hnone
  obtain ⟨htour, hterm⟩ := hnone
  apply h
  unfold step
  have hports : (ports e s).canStart = false := hterm
  cases e.reset
  · cases e.rising
    · exact htour
    · simp [CompleteEncryption.edge_eq, htour, hports]
  · rfl

theorem keys_step {masterkey : BitVec 256} {e : Sample} {s : Registers}
    (hvalid : SubKeySchedule.Valid masterkey s.sks)
    (hkeys : s.encrypt.tour ≠ 0 → s.sks.k = SubKeySchedule.roundKeys masterkey)
    (h : (step masterkey e s).encrypt.tour ≠ 0) :
    (step masterkey e s).sks.k = SubKeySchedule.roundKeys masterkey := by
  apply ready_step masterkey e hvalid
  rcases tour_ne_zero_of_step h with htour | hterm
  · exact hkeys htour
  · exact hvalid.done hterm

theorem sameSchedule_step {masterkey : BitVec 256} {e e' : Sample} (he : SameSample e e')
    {s s' : Registers} (h : SameSchedule s.sks s'.sks) :
    SameSchedule (step masterkey e s).sks (step masterkey e' s').sks := by
  simp only [step, ← he.fullData, ← he.rising]
  cases e.fullData
  · cases e.rising
    · exact h
    · exact sameSchedule_edge masterkey h
  · exact sameSchedule_reset _ _

theorem sameBlock_step {masterkey : BitVec 256} {e e' : Sample} (he : SameSample e e')
    {s s' : Registers} (h : Agree masterkey s s') :
    SameBlock (step masterkey e s).encrypt (step masterkey e' s').encrypt := by
  have hedge (hrise : e.rising = true) (hreset : e.reset = false) :
      SameBlock (CompleteEncryption.edge (ports e s) s.encrypt)
        (CompleteEncryption.edge (ports e' s') s'.encrypt) := by
    refine sameBlock_edge h.encrypt he.plain h.sks.terminated ?_ fun hbusy => ?_
    · exact he.transmitBefore hrise hreset
    · rw [CompleteEncryption.Ports.env, CompleteEncryption.Ports.env, ports, ports, he.encDecSel,
        h.keys hbusy, h.keys' hbusy]
  simp only [step, ← he.reset, ← he.rising]
  cases hreset : e.reset
  · cases hrise : e.rising
    · exact h.encrypt
    · exact hedge hrise hreset
  · exact sameBlock_reset h.encrypt.memCipher

theorem agree_step {masterkey : BitVec 256} {e e' : Sample} (he : SameSample e e')
    {s s' : Registers} (h : Agree masterkey s s') :
    Agree masterkey (step masterkey e s) (step masterkey e' s') := by
  have hencrypt := sameBlock_step he h
  refine ⟨sameSchedule_step he h.sks, hencrypt, valid_step masterkey e s h.valid,
    valid_step masterkey e' s' h.valid', keys_step h.valid h.keys, fun hbusy => ?_⟩
  rw [hencrypt.tour] at hbusy
  refine keys_step h.valid' (fun htour => ?_) hbusy
  rw [← h.encrypt.tour] at htour
  exact h.keys' htour

end Core

/-! ## The whole design -/

namespace UartStandardComplete

/-- `done_transmit` is assigned anew before it is read. -/
structure SameReply (s s' : TxCollecteur.Registers) : Prop where
  cpt : s.cpt = s'.cpt
  tempTxReady : s.tempTxReady = s'.tempTxReady
  dataToTx : s.dataToTx = s'.dataToTx
  startTx : s.startTx = s'.startTx

/-- Two designs whose differences nobody will read. -/
structure Agree (s s' : Registers) : Prop where
  clkCounter : s.clkCounter = s'.clkCounter
  lowClk : s.lowClk = s'.lowClk
  rxComp : s.rxComp = s'.rxComp
  rxColl : s.rxColl = s'.rxColl
  core : Core.Agree Core.masterkey s.core s'.core
  txColl : SameReply s.txColl s'.txColl
  txComp : s.txComp = s'.txComp

theorem edge_txColl_eq {p : TxCollecteur.Ports} {s s' : TxCollecteur.Registers}
    (h : SameReply s s') : TxCollecteur.edge p s = TxCollecteur.edge p s' := by
  unfold TxCollecteur.edge
  rw [← h.cpt, ← h.tempTxReady]
  split_ifs <;>
    (apply TxCollecteur.Registers.ext) <;>
    first | rfl | exact h.cpt | exact h.dataToTx

theorem agree_step (i : Input) {s s' : Registers} (h : Agree s s') :
    Agree (step i s) (step i s') := by
  have hports : txCollPorts s = txCollPorts s' := by
    rw [txCollPorts, txCollPorts, h.core.encrypt.cipher, h.core.encrypt.canTransmit, h.txComp]
  have hrx : rxCollStep i s = rxCollStep i s' := by
    rw [rxCollStep, rxCollStep, h.rxComp, h.rxColl]
  have htx : SameReply (txCollStep i s) (txCollStep i s') := by
    unfold txCollStep
    split_ifs
    · exact ⟨rfl, rfl, rfl, rfl⟩
    · rw [hports, edge_txColl_eq h.txColl]
      exact ⟨rfl, rfl, rfl, rfl⟩
    · exact h.txColl
  have hsample : Core.SameSample (coreSample i s) (coreSample i s') := by
    refine ⟨?_, ?_, rfl, ?_, rfl, ?_⟩
    · simp only [coreSample, lowClkRises, h.clkCounter, h.lowClk]
    · simp only [coreSample, hrx]
    · simp only [coreSample, hrx]
    · intro hrise hreset
      have hrising : i.rising = true := by
        simp only [coreSample, lowClkRises, Bool.and_eq_true] at hrise
        exact hrise.1.1
      have hreset' : i.reset = false := hreset
      simp only [coreSample, txCollStep, hrising, hreset', hports, edge_txColl_eq h.txColl,
        Bool.false_eq_true, if_false, if_true]
  have htxPorts : txCompPorts i s = txCompPorts i s' := by
    rw [txCompPorts, txCompPorts, h.txColl.startTx, h.txColl.dataToTx]
  refine ⟨?_, ?_, ?_, hrx, Core.agree_step hsample h.core, htx, ?_⟩
  · simp only [step, h.clkCounter]
  · simp only [step, h.clkCounter, h.lowClk]
  · simp only [step, h.rxComp]
  · simp only [step, h.txComp, htxPorts]

/-- What can be seen of the design: its outputs, and the signals between its components that
belong to the reception of a block and to a reply. -/
structure Outputs where
  tx : Bool
  cwTrigger : Bool
  fullData : Bool
  plain : Block
  canTransmit : Bool
  cipher : Block
  startTx : Bool
  dataToTx : Byte

def outputs (s : Registers) : Outputs where
  tx := TUart.dataOut s.txComp
  cwTrigger := s.core.sks.cwTrigger
  fullData := s.rxColl.fullData
  plain := s.rxColl.plain
  canTransmit := s.core.encrypt.canTransmit
  cipher := s.core.encrypt.cipher
  startTx := s.txColl.startTx
  dataToTx := s.txColl.dataToTx

theorem Agree.outputs_eq {s s' : Registers} (h : Agree s s') : outputs s = outputs s' := by
  rw [outputs, outputs, h.txComp, h.core.sks.cwTrigger, h.rxColl, h.core.encrypt.canTransmit,
    h.core.encrypt.cipher, h.txColl.startTx, h.txColl.dataToTx]

theorem Agree.run {s s' : Registers} (h : Agree s s') (later : Nat → Input) (n : Nat) :
    Agree (Machine.run step s later n) (Machine.run step s' later n) := by
  induction n with
  | zero => exact h
  | succ n ih => exact agree_step (later n) ih

/-! ## A clean restart -/

/-- The states of a design that has received no byte since power-up. -/
def Fresh (s : Registers) : Prop :=
  ∃ input n, received .init input n = [] ∧ run input n = s

/-- Equal contents of the registers that a reset may leave alone: no branch `reset = '1'` assigns
them, or only one that waits for an edge of `clk`, or `reset` is not wired to them. -/
structure SameLeftovers (s s' : Registers) : Prop where
  clkCounter : s.clkCounter = s'.clkCounter
  lowClk : s.lowClk = s'.lowClk
  rxComp : s.rxComp = s'.rxComp
  cpt : s.rxColl.cpt = s'.rxColl.cpt
  schedule : Core.SameSchedule s.core.sks s'.core.sks
  memCipher : s.core.encrypt.memCipher = s'.core.encrypt.memCipher
  txComp : s.txComp = s'.txComp

/-- What the reset leaves alone is as some run without a received byte would have it. -/
def Restartable (s : Registers) : Prop := ∃ fresh, Fresh fresh ∧ SameLeftovers s fresh

/-- From `s` on the design works as after power-up, as long as there is no new reset. -/
structure RestartsCleanly (s : Registers) : Prop where
  silent : ∀ later n, (∀ m < n, (later m).reset = false) → (received s later n).length < 16 →
    (Machine.run step s later n).rxColl.fullData = false ∧
      (Machine.run step s later n).core.encrypt.canTransmit = false ∧
      (Machine.run step s later n).txColl.startTx = false
  full : ∀ later n, (∀ m < n, (later m).reset = false) → (received s later n).length = 15 →
    arrived (later n) (Machine.run step s later n) ≠ [] →
    (Machine.run step s later (n + 1)).rxColl.fullData = true ∧
      List.ofFn (bytes (Machine.run step s later (n + 1)).rxColl.plain) =
        received s later (n + 1)
  independent : ∃ fresh, Fresh fresh ∧ ∀ later n,
    outputs (Machine.run step s later n) = outputs (Machine.run step fresh later n)

theorem plain_step {i : Input} {s : Registers} (harrived : arrived i s = [])
    (h : s.rxColl.plain = 0) : (step i s).rxColl.plain = 0 := by
  cases hreset : i.reset with
  | true => simp [step, rxCollStep, hreset, RxCollecteur.reset]
  | false =>
    cases hrise : i.rising with
    | true =>
      rw [rxColl_quiet hrise hreset harrived]
      exact h
    | false => simpa [step, rxCollStep, hreset, hrise] using h

theorem waiting_fresh {s : Registers} (h : Fresh s) : Waiting [] s ∧ s.rxColl.plain = 0 := by
  obtain ⟨input, n, hnone, rfl⟩ := h
  induction n with
  | zero => exact ⟨waiting_init, rfl⟩
  | succ n ih =>
    obtain ⟨hbefore, hlast⟩ := List.append_eq_nil_iff.mp hnone
    obtain ⟨hwait, hplain⟩ := ih hbefore
    have hstep := waiting_step (i := input n) hwait (fun _ => rfl) (by simp [run, hlast])
    rw [run, hlast, List.append_nil] at hstep
    exact ⟨hstep, plain_step hlast hplain⟩

theorem valid_run (input : Nat → Input) (t : Nat) :
    SubKeySchedule.Valid Core.masterkey (run input t).core.sks :=
  Machine.run_invariant
    (I := fun s : Registers => SubKeySchedule.Valid Core.masterkey s.core.sks) input
    (SubKeySchedule.valid_init Core.masterkey)
    (fun i s => Core.valid_step Core.masterkey (coreSample i s) s.core) t

theorem waiting_reset {i : Input} {s fresh : Registers} (hreset : i.reset = true)
    (hfresh : Waiting [] fresh) (h : SameLeftovers (step i s) fresh) : Waiting [] (step i s) where
  rxColl := holds_nil (h.cpt.trans hfresh.rxColl.count)
  fullData := by simp only [step, rxCollStep, hreset, if_true, RxCollecteur.reset]
  sks := ⟨h.schedule.index.trans hfresh.sks.index,
    h.schedule.terminated.trans hfresh.sks.terminated,
    h.schedule.cwTrigger.trans hfresh.sks.cwTrigger⟩
  encrypt := by
    have hmem := h.memCipher.trans hfresh.encrypt.memCipher
    simp only [step, Core.step, coreSample, hreset, if_true] at hmem ⊢
    exact blockRests_reset hmem
  txColl := by
    simp only [step, txCollStep, hreset, if_true]
    exact replyRests_reset _

/-- Waiting designs that agree in the leftovers agree in everything that counts. -/
theorem agree_of_waiting {s s' : Registers} (h : Waiting [] s) (h' : Waiting [] s')
    (hplain : s.rxColl.plain = s'.rxColl.plain) (hleft : SameLeftovers s s')
    (hvalid : SubKeySchedule.Valid Core.masterkey s.core.sks)
    (hvalid' : SubKeySchedule.Valid Core.masterkey s'.core.sks) : Agree s s' where
  clkCounter := hleft.clkCounter
  lowClk := hleft.lowClk
  rxComp := hleft.rxComp
  rxColl := RxCollecteur.Registers.ext hleft.cpt hplain (h.fullData.trans h'.fullData.symm)
  core :=
    { sks := hleft.schedule
      encrypt :=
        { tour := h.encrypt.tour.trans h'.encrypt.tour.symm
          memCipher := hleft.memCipher
          cipher := h.encrypt.cipher.trans h'.encrypt.cipher.symm
          canTransmit := h.encrypt.canTransmit.trans h'.encrypt.canTransmit.symm
          interState := fun hbusy => absurd h.encrypt.tour hbusy }
      valid := hvalid
      valid' := hvalid'
      keys := fun hbusy => absurd h.encrypt.tour hbusy
      keys' := fun hbusy => absurd h.encrypt.tour hbusy }
  txColl :=
    { cpt := h.txColl.cpt.trans h'.txColl.cpt.symm
      tempTxReady := h.txColl.tempTxReady.trans h'.txColl.tempTxReady.symm
      dataToTx := h.txColl.dataToTx.trans h'.txColl.dataToTx.symm
      startTx := h.txColl.startTx.trans h'.txColl.startTx.symm }
  txComp := hleft.txComp

/-- Zero bytes one after the other, and a reset after the first one. -/
def interrupted (t : Nat) : Input := { lineInput 8700 (fun _ => 0) t with reset := t == 8699 }

/-- The reset clears a zero byte received before it but not the count. -/
theorem holds_reset {i : Input} {s : Registers} (h : Holds [0] s.rxColl) (hrise : i.rising = true)
    (hreset : i.reset = true) :
    Holds [0] (step i s).rxColl ∧ (step i s).rxColl.fullData = false ∧
      RUart.Idle (step i s).rxComp := by
  simp only [step, rxCollStep, hreset, hrise, if_true]
  refine ⟨⟨h.count, fun n hn => ?_⟩, rfl, ⟨?_, ?_, ?_, ?_⟩, ?_⟩
  · rw [List.length_singleton, Nat.lt_one_iff] at hn
    subst hn
    exact (by decide : bytes 0 0 = 0)
  all_goals simp [RUart.edge, rxCompPorts, hreset]

theorem received_interrupted : received .init interrupted 8699 = [0] := by
  have hframe : RUart.Frame generics 0 8699 fun m => rxCompPorts (interrupted m) := by
    refine RUart.frame_frameLine four_le_maxBitCount 0 (by rw [deliveryTime_eq]; decide) fun n hn => ?_
    have hmod : n % 8700 = n := Nat.mod_eq_of_lt (by omega)
    have hlow : (n == 8699) = false := by simp; omega
    simp only [rxCompPorts, interrupted, lineInput, hmod, hlow]
  rw [received_frame hframe (fun _ _ => rfl) idle_init le_rfl, deliveryTime_eq, if_neg (by decide)]

theorem holds_interrupted : Holds [0] (run interrupted (8699 + 1)).rxColl ∧
    (run interrupted (8699 + 1)).rxColl.fullData = false ∧
    RUart.Idle (run interrupted (8699 + 1)).rxComp := by
  have hquiet (m : Nat) (hm : m < 8699) : (interrupted m).reset = false := by
    simp only [interrupted, beq_eq_false_iff_ne]
    omega
  have hwait := waiting_run waiting_init interrupted 8699
    (fun m hm hr => by rw [hquiet m hm] at hr; cases hr) (by rw [received_interrupted]; decide)
  rw [received_interrupted] at hwait
  have hhigh : (interrupted 8699).reset = true := by decide
  exact holds_reset (i := interrupted 8699) hwait.rxColl rfl hhigh

end UartStandardComplete
end KuznyechikDPA

import KuznyechikDPA.Hardware.ReplySafety
import KuznyechikDPA.Hardware.Reception

/-!
# What a reply carries

`handed` lists the bytes handed over to `tUART`. In a run of calm instants the bytes of a
reply are those of the register `cipher`, which does not change before the sixteenth of
them, and they are the result of the block that was announced for it.
-/

namespace KuznyechikDPA

namespace TxCollecteur

/-- The next byte of a reply that has still `cpt` of its sixteen bytes to hand over. -/
theorem take_slice (cipher : Block) {cpt : Nat} (hpos : 1 ≤ cpt) (hcpt : cpt ≤ 16) :
    (List.ofFn (bytes cipher)).take (16 - cpt) ++ [slice cipher (cpt - 1)] =
      (List.ofFn (bytes cipher)).take (16 - (cpt - 1)) := by
  have hnext : 16 - (cpt - 1) = 16 - cpt + 1 := by omega
  have hlt : 16 - cpt < (List.ofFn (bytes cipher)).length := by
    rw [List.length_ofFn]
    omega
  have hslice : slice cipher (cpt - 1) = (List.ofFn (bytes cipher))[16 - cpt] := by
    rw [slice_eq cipher (by omega), List.getElem_ofFn]
    congr 1
    apply Fin.ext
    simp only [Fin.ofNat]
    omega
  rw [hnext, hslice, List.take_append_getElem hlt]

end TxCollecteur

namespace UartStandardComplete

open TxCollecteur (MidReply)

/-- The byte that `tUART` is told to take at this instant. -/
def handedOver (i : Input) (s : Registers) : List Byte :=
  if i.rising = true ∧ i.reset = false ∧ s.txColl.startTx = true then [s.txColl.dataToTx] else []

/-- The bytes handed over in the first `t` instants. -/
def handed (input : Nat → Input) : Nat → List Byte
  | 0 => []
  | t + 1 => handed input t ++ handedOver (input t) (run input t)

/-- The collector has bytes of a reply to hand over, or is about to begin one. -/
def Replying (s : Registers) : Prop :=
  1 ≤ s.txColl.cpt ∧ (s.txColl.cpt = 16 → s.core.encrypt.canTransmit = true)

section Step
variable {i : Input} {s : Registers}

theorem cipher_stable (h : Sound s) (hcalm : Calm i s) (hreset : i.reset = false)
    (hmid : MidReply s.txColl) :
    (step i s).core.encrypt.cipher = s.core.encrypt.cipher := by
  rw [encrypt_edge hreset]
  split_ifs with hlow
  · by_cases htour : s.core.encrypt.tour = 11
    · rw [CompleteEncryption.cipher_edge_finish htour]
      by_cases hon : s.core.encrypt.canTransmit = true
      · exact (h.announced hon).cipher.symm
      · exact (hcalm hreset hlow htour (Bool.eq_false_iff.mpr hon)).1 hmid
    · exact CompleteEncryption.cipher_edge htour
  · rfl

theorem handedOver_of_low (hstart : s.txColl.startTx = false) : handedOver i s = [] := by
  rw [handedOver, if_neg fun hall => ?_]
  exact absurd (hstart.symm.trans hall.2.2) Bool.false_ne_true

/-- A reply in progress: `cipher` holds the result announced for it, and the bytes handed over
last are the first ones of that result. -/
structure Progress (published : Block → Prop) (done : List Byte) (s : Registers) : Prop where
  published : published s.core.encrypt.cipher
  handed : ∃ before,
    done = before ++ (List.ofFn (bytes s.core.encrypt.cipher)).take (16 - s.txColl.cpt)
  offered : s.txColl.tempTxReady = true →
    s.txColl.dataToTx = TxCollecteur.slice s.core.encrypt.cipher (s.txColl.cpt - 1)

variable {published : Block → Prop} {done : List Byte}

theorem progress_publish (h : Sound s) (hcalm : Calm i s) (hreset : i.reset = false)
    (hoff : s.core.encrypt.canTransmit = false)
    (hon : (step i s).core.encrypt.canTransmit = true)
    (hpub : Publishes i s → published s.core.encrypt.interState) :
    Progress published done (step i s) := by
  obtain ⟨hpublishes, hlow, _, henc⟩ := publishes_of_raised hreset hoff hon
  obtain ⟨hrise, hphase⟩ := (lowClkRises_iff h.divider).mp hlow
  have hzero : phase (step i s) = 0 := by rw [phase_step hrise h.divider, if_pos hphase]
  cases (announced_publish h hcalm hreset hoff hon).place with
  | raised _ hcpt htemp _ =>
    refine ⟨?_, ⟨done, ?_⟩, fun htrue => absurd (htemp.symm.trans htrue) Bool.false_ne_true⟩
    · rw [henc]
      exact hpub hpublishes
    · rw [hcpt, Nat.sub_self, List.take_zero, List.append_nil]
  | first hone => omega
  | sending htwo => omega

theorem progress_keep {s' : Registers} (hprog : Progress published done s)
    (hcipher : s'.core.encrypt.cipher = s.core.encrypt.cipher) (hcpt : s'.txColl.cpt = s.txColl.cpt)
    (hoffered : s'.txColl.tempTxReady = true →
      s'.txColl.dataToTx = TxCollecteur.slice s.core.encrypt.cipher (s.txColl.cpt - 1)) :
    Progress published done s' := by
  obtain ⟨hpub, hhanded, _⟩ := hprog
  refine ⟨?_, ?_, ?_⟩
  · rwa [hcipher]
  · rwa [hcipher, hcpt]
  · rwa [hcipher, hcpt]

theorem progress_send {s' : Registers} (hprog : Progress published done s)
    (hcipher : s'.core.encrypt.cipher = s.core.encrypt.cipher) (hpos : 1 ≤ s.txColl.cpt)
    (hrange : s.txColl.cpt ≤ 16) (htemp : s.txColl.tempTxReady = true)
    (hcpt : s'.txColl.cpt = s.txColl.cpt - 1) (htemp' : s'.txColl.tempTxReady = false) :
    Progress published (done ++ [s.txColl.dataToTx]) s' := by
  obtain ⟨hpub, ⟨before, hbefore⟩, hoffered⟩ := hprog
  refine ⟨?_, ⟨before, ?_⟩, fun htrue => absurd (htemp'.symm.trans htrue) Bool.false_ne_true⟩
  · rwa [hcipher]
  · rw [hcipher, hcpt, hbefore, hoffered htemp, List.append_assoc,
      TxCollecteur.take_slice _ hpos hrange]

theorem handedOver_of_high (hreset : i.reset = false) (hrise : i.rising = true)
    (hstart : s.txColl.startTx = true) : handedOver i s = [s.txColl.dataToTx] :=
  if_pos ⟨hrise, hreset, hstart⟩

theorem progress_edge (h : Sound s) (hcalm : Calm i s) (hreset : i.reset = false)
    (hrise : i.rising = true) (hprog : Replying s → Progress published done s)
    (hreply : Replying (step i s))
    (hold : (step i s).core.encrypt.canTransmit = true → s.core.encrypt.canTransmit = true) :
    Progress published (done ++ handedOver i s) (step i s) := by
  have hrange := h.range
  have hpulse := h.pulse
  have hstable := cipher_stable h hcalm hreset
  have hnone (htemp : s.txColl.tempTxReady = false) : done ++ handedOver i s = done := by
    rw [handedOver_of_low (hpulse.trans htemp), List.append_nil]
  have hone (htemp : s.txColl.tempTxReady = true) :
      done ++ handedOver i s = done ++ [s.txColl.dataToTx] := by
    rw [handedOver_of_high hreset hrise (hpulse.trans htemp)]
  obtain ⟨hpos, hlast⟩ := hreply
  have hedge := txColl_edge h hreset hrise
  generalize htx : (step i s).txColl = next at hedge hpos hlast
  cases hedge with
  | first hon hcpt htemp =>
    have hzero := (txReady_first h hreset hrise hon hcpt htemp).1
    have henc := encrypt_between (i := i) h hreset (by omega)
    rw [hnone htemp]
    refine progress_keep (hprog ⟨by omega, fun _ => hon⟩) (by rw [henc]) (by rw [htx]) fun _ => ?_
    rw [htx]
    rfl
  | second hon hcpt htemp =>
    rw [hone htemp]
    refine progress_send (hprog ⟨by omega, fun _ => hon⟩) (hstable (.inr ⟨hcpt, htemp⟩)) (by omega)
      hrange htemp ?_ ?_ <;> rw [htx]
  | offer hcpt _ htemp =>
    simp only at hpos
    rw [hnone htemp]
    refine progress_keep (hprog ⟨hpos, by omega⟩) (hstable (.inl ⟨hpos, hcpt⟩)) (by rw [htx])
      fun _ => ?_
    rw [htx]
    rfl
  | next hge hcpt _ htemp =>
    rw [hone htemp]
    refine progress_send (hprog ⟨hge, by omega⟩) (hstable (.inl ⟨hge, hcpt⟩)) hge hrange htemp ?_ ?_ <;>
      rw [htx]
  | last hcpt =>
    have hann := h.announced (hold (hlast rfl))
    have hle := phase_le h.divider
    cases hann.place <;> omega
  | wait hcpt hready =>
    simp only at hpos
    have htemp : s.txColl.tempTxReady = false := by
      by_contra htrue
      have hup := hpulse.trans (Bool.of_not_eq_false htrue)
      exact absurd (hready.symm.trans (h.ready hup)) Bool.false_ne_true
    rw [hnone htemp]
    refine progress_keep (hprog ⟨hpos, by omega⟩) (hstable (.inl ⟨hpos, hcpt⟩)) (by rw [htx])
      fun htrue => ?_
    rw [htx] at htrue
    exact absurd (htemp.symm.trans htrue) Bool.false_ne_true
  | rest hoff hcpt =>
    exact absurd (hoff.symm.trans (hold (hlast hcpt))) Bool.false_ne_true

theorem progress_step (h : Sound s) (hcalm : Calm i s)
    (hprog : Replying s → Progress published done s)
    (hpub : Publishes i s → published s.core.encrypt.interState) (hreply : Replying (step i s)) :
    Progress published (done ++ handedOver i s) (step i s) := by
  cases hreset : i.reset
  · by_cases hraised : (step i s).core.encrypt.canTransmit = true ∧ s.core.encrypt.canTransmit = false
    · exact progress_publish h hcalm hreset hraised.2 hraised.1 hpub
    · have hold (hon : (step i s).core.encrypt.canTransmit = true) :
          s.core.encrypt.canTransmit = true :=
        Bool.of_not_eq_false fun hoff => hraised ⟨hon, hoff⟩
      cases hrise : i.rising
      · obtain ⟨_, _, htx, _, henc⟩ := step_idle (s := s) hreset hrise
        have hbefore : Replying s := by
          unfold Replying at hreply ⊢
          rwa [htx, henc] at hreply
        rw [handedOver, if_neg fun hall => Bool.false_ne_true (hrise.symm.trans hall.1), List.append_nil]
        refine progress_keep (hprog hbefore) (by rw [henc]) (by rw [htx]) ?_
        rw [htx]
        exact (hprog hbefore).offered
      · exact progress_edge h hcalm hreset hrise hprog hreply hold
  · have htx : (step i s).txColl = TxCollecteur.reset s.txColl := by
      simp only [step, txCollStep, hreset, if_true]
    have hquiet : (step i s).core.encrypt.canTransmit = false := by
      simp only [step, Core.step, coreSample, hreset, if_true, CompleteEncryption.reset]
    have hon := hreply.2 (by rw [htx]; rfl)
    exact absurd (hquiet.symm.trans hon) Bool.false_ne_true

end Step

/-! ## Runs -/

/-- `result` has been announced before instant `t`. -/
def PublishedBefore (input : Nat → Input) (t : Nat) (result : Block) : Prop :=
  ∃ t0 < t, Publishes (input t0) (run input t0) ∧
    (run input t0).core.encrypt.interState = result

theorem progress_run {input : Nat → Input} (hcalm : ∀ t, Calm (input t) (run input t)) (t : Nat)
    (hreply : Replying (run input t)) :
    Progress (PublishedBefore input t) (handed input t) (run input t) := by
  induction t with
  | zero => exact absurd (hreply.2 rfl) Bool.false_ne_true
  | succ t ih =>
    refine progress_step (sound_run hcalm t) (hcalm t) (fun hbefore => ?_) (fun hpub => ?_) hreply
    · obtain ⟨⟨t0, hlt, hpub⟩, hhanded, hoffered⟩ := ih hbefore
      exact ⟨⟨t0, Nat.lt_succ_of_lt hlt, hpub⟩, hhanded, hoffered⟩
    · exact ⟨t, Nat.lt_succ_self t, hpub, rfl⟩

/-- What a host may rely on at instant `t`. A start pulse with a positive `cpt` belongs to one of
the sixteen bytes of a reply. -/
structure Unmixed (input : Nat → Input) (t : Nat) : Prop where
  cipher : (input t).reset = false → MidReply (run input t).txColl →
    (run input (t + 1)).core.encrypt.cipher = (run input t).core.encrypt.cipher
  idle : (input t).reset = false → (run input t).txColl.startTx = true →
    TUart.txReady (run input t).txComp = true
  loads : (∀ j < 2, (input (t + j)).reset = false ∧ (input (t + j)).rising = true) →
    (run input t).txColl.startTx = true → 1 ≤ (run input t).txColl.cpt →
    TUart.loadData (run input (t + 2)).txComp = true ∧
      (run input (t + 2)).txColl.dataToTx = (run input t).txColl.dataToTx
  complete : (input t).reset = false → (input t).rising = true →
    (run input t).txColl.startTx = true → (run input t).txColl.cpt = 1 →
    ∃ result, PublishedBefore input t result ∧
      ∃ before, handed input (t + 1) = before ++ List.ofFn (bytes result)

/-- Two edges after the start pulse `tUART` loads the byte, which the collector still holds. -/
theorem loads_of_sound {i i' : Input} {s : Registers} (h : Sound s) (hreset : i.reset = false)
    (hrise : i.rising = true) (hreset' : i'.reset = false) (hrise' : i'.rising = true)
    (hstart : s.txColl.startTx = true) (hpos : 1 ≤ s.txColl.cpt) :
    TUart.loadData (step i' (step i s)).txComp = true ∧
      (step i' (step i s)).txColl.dataToTx = s.txColl.dataToTx := by
  have hrange := h.range
  have htemp := h.pulse.symm.trans hstart
  have hready := h.ready hstart
  have hzero : TUart.ReadyWithin generics 0 s.txComp :=
    TUart.readyWithin_of_txReady h.settled hready
  obtain ⟨hstate, hlead, hfollow, hreg, _, _⟩ :=
    TUart.edge_of_init (g := generics) (p := txCompPorts i s) hzero.state
      (TUart.startTrans_of_lead hzero.lead) hreset
  rw [← txComp_edge hrise] at hstate hlead hfollow hreg
  have hup : (txCompPorts i s).start = true := hstart
  have hsent : (step i s).txColl.dataToTx = s.txColl.dataToTx ∧ (step i s).txColl.cpt ≤ 15 := by
    have hedge := txColl_edge h hreset hrise
    generalize (step i s).txColl = next at hedge
    cases hedge with
    | first _ _ hfalse => exact absurd (hfalse.symm.trans htemp) Bool.false_ne_true
    | second => exact ⟨rfl, by simp only; omega⟩
    | offer _ _ hfalse => exact absurd (hfalse.symm.trans htemp) Bool.false_ne_true
    | next => exact ⟨rfl, by simp only; omega⟩
    | last => omega
    | wait _ hbusy => exact absurd (hbusy.symm.trans hready) Bool.false_ne_true
    | rest hoff hcpt =>
      exact absurd (hoff.symm.trans (h.first hcpt htemp)) Bool.false_ne_true
  obtain ⟨hdata, hcpt⟩ := hsent
  constructor
  · rw [txComp_edge hrise']
    have htrans : TUart.startTrans (step i s).txComp = true := by
      simp [TUart.startTrans, hlead, hfollow, hup, hzero.lead]
    have hlow : (txCompPorts i' (step i s)).reset = false := hreset'
    simp [TUart.loadData, TUart.edge, TUart.settle, TUart.nxtState, hstate, htrans, hlow]
  · rw [← hdata]
    have hbusy : (txCollPorts (step i s)).txReady = false := by
      simp [txCollPorts, TUart.txReady, hreg, hup]
    have htx : (step i' (step i s)).txColl =
        TxCollecteur.edge (txCollPorts (step i s)) (step i s).txColl := by
      generalize step i s = s'
      simp only [step, txCollStep, hreset', hrise', Bool.false_eq_true, if_false, if_true]
    have hedge := TxCollecteur.edge_cases (txCollPorts (step i s)) (s := (step i s).txColl) (by omega)
    rw [← htx] at hedge
    generalize (step i' (step i s)).txColl = next at hedge
    cases hedge with
    | first _ h16 => omega
    | second _ h16 => omega
    | offer _ hfree => exact absurd (hbusy.symm.trans hfree) Bool.false_ne_true
    | next _ _ hfree => exact absurd (hbusy.symm.trans hfree) Bool.false_ne_true
    | last _ hfree => exact absurd (hbusy.symm.trans hfree) Bool.false_ne_true
    | wait => rfl
    | rest _ h16 => omega

/-- A host that never sends. -/
def silentInput : Nat → Input := fun _ => ⟨true, false, true, false⟩

end UartStandardComplete
end KuznyechikDPA

import KuznyechikDPA.Aes.SubKeysInPlace

/-!
# The pace of the AES design

After `full_data` the schedule takes 165 edges of `LOWclk` and the encryption sixteen more, less
than a byte takes to arrive. So every block finds schedule and encryption at rest.
-/

namespace KuznyechikDPA.UartAes256Masked
open Aes256Pkg
open UartStandardComplete (Input)

/-! ## Every block finds the encryption at rest -/

/-- Schedule, encryption and receiver against each other. -/
structure Paced (s : Registers) : Prop where
  tour : s.encrypt.tour ≤ 15
  announced : s.encrypt.canTransmit = true →
    s.encrypt.tour = 15 ∧ s.encrypt.memCipher = s.encrypt.interState
  busy : s.encrypt.tour ≠ 0 →
    60 < s.sks.index ∧ Within (165 + s.encrypt.tour + s.encrypt.canTransmit.toNat) s
  signal : s.sks.terminated = true → 60 < s.sks.index ∧ s.encrypt.tour = 0 ∧ Within 165 s
  full : s.rxColl.fullData = true → s.encrypt.tour = 0

theorem paced_init (state outp : Block) : Paced (.init state outp) where
  tour := Nat.zero_le 15
  announced hon := absurd hon Bool.false_ne_true
  busy htour := absurd rfl htour
  signal hon := absurd hon Bool.false_ne_true
  full hon := absurd hon Bool.false_ne_true

section Step
variable {i : Input} {s : Registers}

theorem canTransmit_rest (h : Paced s) (htour : s.encrypt.tour = 0) :
    s.encrypt.canTransmit = false := by
  by_contra hon
  have hlast := (h.announced (Bool.of_not_eq_false hon)).1
  omega

theorem rest_of_valid (hplace : InPlace s) (h : Paced s) (hvalid : RUart.dataValid s.rxComp = true) :
    s.encrypt.tour = 0 ∧ s.sks.terminated = false := by
  have hlong {n : Nat} (hwithin : Within n s) : 200 < n := by
    by_contra hn
    have hnone := not_valid_of_within hplace.counter hwithin (by omega)
    exact absurd (hnone.symm.trans hvalid) Bool.false_ne_true
  constructor
  · by_contra htour
    have hlimit := hlong (h.busy htour).2
    have hrange := h.tour
    have hbit := Bool.toNat_le s.encrypt.canTransmit
    omega
  · by_contra hon
    have hlimit := hlong (h.signal (Bool.of_not_eq_false hon)).2.2
    omega

theorem encrypt_step (hreset : i.reset = false) : (step i s).encrypt =
    if lowClkRises i s then Aes256EncryptionMasked.edge (encryptPorts i s) s.encrypt
    else s.encrypt := by
  simp only [step, hreset, Bool.false_eq_true, if_false]

theorem sks_step (hfull : (rxCollStep i s).fullData = false) : (step i s).sks =
    if lowClkRises i s then AesSubKeySchedule.edge masterkey s.sks else s.sks := by
  simp only [step, hfull, Bool.false_eq_true, if_false]

/-- At rest the encryption waits for the signal. -/
theorem encrypt_waits (hreset : i.reset = false) (htour : s.encrypt.tour = 0)
    (hquiet : lowClkRises i s = true → s.sks.terminated = false) :
    (step i s).encrypt = s.encrypt := by
  rw [encrypt_step hreset]
  split_ifs with hrise
  · have hstart : (encryptPorts i s).canStart = false := hquiet hrise
    rw [Aes256EncryptionMasked.edge_eq _ _ (by omega), if_pos htour, if_neg (by simp [hstart])]
  · rfl

theorem paced_full (hplace : InPlace s) (h : Paced s) (hfull : (rxCollStep i s).fullData = true) :
    Paced (step i s) := by
  have hsks : (step i s).sks = AesSubKeySchedule.reset s.sks := by
    simp only [step, hfull, if_true]
  have hrest : (step i s).encrypt.tour = 0 ∧ (step i s).encrypt.canTransmit = false := by
    cases hreset : i.reset with
    | true =>
      simp only [step, hreset, if_true]
      exact ⟨rfl, rfl⟩
    | false =>
      have hkeep : s.encrypt.tour = 0 ∧ (lowClkRises i s = true → s.sks.terminated = false) := by
        rcases fullData_cases hfull with ⟨-, hrise, hvalid⟩ | ⟨hrise, hstill⟩
        · obtain ⟨htour, hterm⟩ := rest_of_valid hplace h hvalid
          exact ⟨htour, fun _ => hterm⟩
        · exact ⟨h.full hstill, fun hlow => by simp [lowClkRises, hrise] at hlow⟩
      rw [encrypt_waits hreset hkeep.1 hkeep.2]
      exact ⟨hkeep.1, canTransmit_rest h hkeep.1⟩
  refine ⟨by omega, fun hon => ?_, fun htour => absurd hrest.1 htour, fun hon => ?_, fun _ => hrest.1⟩
  · exact absurd (hrest.2.symm.trans hon) Bool.false_ne_true
  · rw [hsks] at hon
    exact absurd hon Bool.false_ne_true

/-- The signal is given by the edge that finds `index = 60`, and lasts until the next edge. -/
theorem signal_edge {s : AesSubKeySchedule.Registers} (hlow : s.terminated = true → 60 < s.index)
    (hon : (AesSubKeySchedule.edge masterkey s).terminated = true) :
    s.index = 60 ∧ (AesSubKeySchedule.edge masterkey s).index = 61 := by
  rcases AesSubKeySchedule.edge_terminated hon with h60 | ⟨h60, hterm⟩
  · refine ⟨h60, ?_⟩
    simp [AesSubKeySchedule.edge, h60]
  · have hlate := hlow hterm
    omega

theorem index_edge {s : AesSubKeySchedule.Registers} (h : 60 < s.index) :
    (AesSubKeySchedule.edge masterkey s).index = s.index := by
  have h8 : ¬ s.index < 8 := by omega
  have h60 : ¬ s.index < 60 := by omega
  rw [AesSubKeySchedule.edge, if_neg h8, if_neg h60, if_neg (by omega)]

theorem done_sixty (hplace : InPlace s) (h : s.sks.index = 60) : done s.sks = 164 := by
  have hone := hplace.between (.inr h.ge)
  rw [done, h, hone, if_neg (by omega)]

/-- What an edge of `LOWclk` makes of the encryption, as far as its pace is concerned. -/
theorem paced_edge (h : Paced s) (p : Aes256EncryptionMasked.Ports)
    (hstart : p.canStart = s.sks.terminated) :
    let e := Aes256EncryptionMasked.edge p s.encrypt
    e.tour ≤ 15 ∧ (e.canTransmit = true → e.tour = 15 ∧ e.memCipher = e.interState) ∧
      (e.tour ≠ 0 → (s.sks.terminated = true ∧ e.tour = 1 ∧ e.canTransmit = false) ∨
        (s.encrypt.tour ≠ 0 ∧
          e.tour + e.canTransmit.toNat = s.encrypt.tour + s.encrypt.canTransmit.toNat + 1)) := by
  intro e
  have htour : e.tour ≤ 15 := Aes256EncryptionMasked.tour_edge p s.encrypt h.tour
  refine ⟨htour, ?_⟩
  have hedge := Aes256EncryptionMasked.edge_eq p s.encrypt h.tour
  rw [hstart] at hedge
  change e = _ at hedge
  split_ifs at hedge with hrest hgo hwork hlast
  · rw [hedge]
    exact ⟨fun hon => absurd hon Bool.false_ne_true, fun _ => .inl ⟨hgo, rfl, rfl⟩⟩
  · rw [hedge]
    refine ⟨h.announced, fun hne => absurd hrest hne⟩
  · have hoff : s.encrypt.canTransmit = false := by
      by_contra hon
      have hfifteen := (h.announced (Bool.of_not_eq_false hon)).1
      omega
    rw [hedge]
    refine ⟨fun hon => absurd (hoff.symm.trans hon) Bool.false_ne_true, fun _ => .inr ⟨hrest, ?_⟩⟩
    simp only [hoff, Bool.toNat_false]
  · rw [hedge, Aes256EncryptionMasked.finish]
    split_ifs with hsend
    · have hoff : s.encrypt.canTransmit = false := by
        by_contra hon
        exact hsend.2 (h.announced (Bool.of_not_eq_false hon)).2
      refine ⟨fun _ => ⟨hlast, rfl⟩, fun _ => .inr ⟨hrest, ?_⟩⟩
      simp only [hoff, Bool.toNat_false, Bool.toNat_true]
    · exact ⟨fun hon => hon.elim, fun hne => absurd rfl hne⟩
  · have hrange := h.tour
    omega

theorem signal_step (hplace : InPlace s) (h : Paced s) (hfull : (rxCollStep i s).fullData = false)
    (hon : (step i s).sks.terminated = true) :
    60 < (step i s).sks.index ∧ Within 165 (step i s) ∧
      (i.reset = false → (step i s).encrypt.tour = 0) := by
  have hsks := sks_step hfull
  cases hrise : lowClkRises i s with
  | false =>
    rw [hrise, if_neg Bool.false_ne_true] at hsks
    rw [hsks] at hon ⊢
    obtain ⟨hindex, htour, hwithin⟩ := h.signal hon
    have hnext := within_step (i := i) hplace.counter hwithin
    rw [hrise] at hnext
    refine ⟨hindex, hnext, fun hreset => ?_⟩
    rw [encrypt_waits hreset htour fun hlow => absurd (hrise.symm.trans hlow) Bool.false_ne_true]
    exact htour
  | true =>
    rw [hrise, if_pos rfl] at hsks
    rw [hsks] at hon ⊢
    obtain ⟨h60, h61⟩ := signal_edge (fun hterm => (h.signal hterm).1) hon
    have hpace := hplace.pace h60.le
    rw [done_sixty hplace h60] at hpace
    have hnext := within_step (i := i) hplace.counter hpace
    rw [hrise] at hnext
    have htour : s.encrypt.tour = 0 := by
      by_contra hbusy
      have hlate := (h.busy hbusy).1
      omega
    refine ⟨by omega, hnext, fun hreset => ?_⟩
    rw [encrypt_waits hreset htour fun _ => ?_]
    · exact htour
    · refine Bool.eq_false_iff.mpr fun hterm => ?_
      have hlate := (h.signal hterm).1
      omega

theorem paced_step (hplace : InPlace s) (h : Paced s) : Paced (step i s) := by
  cases hfull : (rxCollStep i s).fullData with
  | true => exact paced_full hplace h hfull
  | false =>
    have hnone : (step i s).rxColl.fullData = true → (step i s).encrypt.tour = 0 :=
      fun hon => absurd (hfull.symm.trans hon) Bool.false_ne_true
    have hsignal := signal_step hplace h hfull
    cases hreset : i.reset with
    | true =>
      have htour : (step i s).encrypt.tour = 0 := by simp [step, hreset, Aes256EncryptionMasked.reset]
      have hoff : (step i s).encrypt.canTransmit = false := by
        simp [step, hreset, Aes256EncryptionMasked.reset]
      refine ⟨by omega, fun hon => ?_, fun hbusy => absurd htour hbusy, fun hon => ?_, hnone⟩
      · exact absurd (hoff.symm.trans hon) Bool.false_ne_true
      · obtain ⟨hindex, hwithin, -⟩ := hsignal hon
        exact ⟨hindex, htour, hwithin⟩
    | false =>
      have hgiven (hon : (step i s).sks.terminated = true) : 60 < (step i s).sks.index ∧
          (step i s).encrypt.tour = 0 ∧ Within 165 (step i s) := by
        obtain ⟨hindex, hwithin, htour⟩ := hsignal hon
        exact ⟨hindex, htour hreset, hwithin⟩
      have hencrypt := encrypt_step (s := s) hreset
      have hsks := sks_step hfull
      cases hrise : lowClkRises i s with
      | false =>
        rw [hrise, if_neg Bool.false_ne_true] at hencrypt hsks
        refine ⟨?_, ?_, fun hbusy => ?_, hgiven, hnone⟩
        · rw [hencrypt]
          exact h.tour
        · rw [hencrypt]
          exact h.announced
        · rw [hencrypt] at hbusy
          rw [hencrypt, hsks]
          obtain ⟨hindex, hwithin⟩ := h.busy hbusy
          have hnext := within_step (i := i) hplace.counter hwithin
          rw [hrise] at hnext
          exact ⟨hindex, hnext⟩
      | true =>
        rw [hrise, if_pos rfl] at hencrypt hsks
        obtain ⟨htour, hannounced, hbusy⟩ := paced_edge h (encryptPorts i s) rfl
        rw [← hencrypt] at htour hannounced hbusy
        refine ⟨htour, hannounced, fun hne => ?_, hgiven, hnone⟩
        rcases hbusy hne with ⟨hterm, hone, hoff⟩ | ⟨hold, hcount⟩
        · obtain ⟨hindex, -, hwithin⟩ := h.signal hterm
          have hnext := within_step (i := i) hplace.counter hwithin
          rw [hrise, if_pos rfl] at hnext
          rw [hsks, index_edge hindex, hone, hoff]
          exact ⟨hindex, hnext⟩
        · obtain ⟨hindex, hwithin⟩ := h.busy hold
          have hnext := within_step (i := i) hplace.counter hwithin
          rw [hrise, if_pos rfl] at hnext
          have hsum : 165 + (step i s).encrypt.tour + (step i s).encrypt.canTransmit.toNat =
              165 + s.encrypt.tour + s.encrypt.canTransmit.toNat + 1 := by omega
          rw [hsks, index_edge hindex, hsum]
          exact ⟨hindex, hnext⟩

theorem rxCollStep_quiet (hreset : i.reset = false) (hnone : RUart.dataValid s.rxComp = false) :
    rxCollStep i s =
      { s.rxColl with fullData := if i.rising then false else s.rxColl.fullData } := by
  rw [rxCollStep, hreset, if_neg Bool.false_ne_true, RxCollecteur.edge, hnone,
    if_neg Bool.false_ne_true]
  split_ifs <;> rfl

end Step

theorem paced_run (state outp : Block) (input : Nat → Input) (t : Nat) :
    Paced (run state outp input t) := by
  induction t with
  | zero => exact paced_init state outp
  | succ t ih => exact paced_step (inPlace_run state outp input t) ih

end KuznyechikDPA.UartAes256Masked

import KuznyechikDPA.Aes.AesSubKeySchedule
import KuznyechikDPA.Aes.Conformance
import KuznyechikDPA.Aes.EncryptionMasked
import KuznyechikDPA.Hardware.Lfsr
import KuznyechikDPA.Hardware.UartStandardComplete
import KuznyechikDPA.Uart.RUartReception

/-!
# The design `UART_AES256_MASKED.vhd`

The masked Kuznyechik design with key schedule and encryption exchanged for those of
AES-256. A word of the schedule takes three edges, so a reset by `full_data` could cut it in
the middle and spoil the keys. In the design it never does: a byte takes longer to arrive than
a schedule to finish, on any line and under any resets, and the ports of the round keys hold
the expansion of the master key from the first block on.
-/

namespace KuznyechikDPA.UartAes256Masked
open Aes256Pkg
open UartStandardComplete (Input generics rxCompPorts)

def masterkey : BitVec 256 := 0x000102030405060708090a0b0c0d0e0f101112131415161718191a1b1c1d1e1f

@[ext] structure Registers where
  clkCounter : Nat
  lowClk : Bool
  rxComp : RUart.Registers
  rxColl : RxCollecteur.Registers
  sks : AesSubKeySchedule.Registers
  encrypt : Aes256EncryptionMasked.Registers
  prng : Lfsr.Registers
  txColl : TxCollecteur.Registers
  txComp : TUart.Registers

/-- Power-up, with what the generator holds in the signals that have no initial value. -/
def Registers.init (state outp : Block) : Registers where
  clkCounter := 0
  lowClk := false
  rxComp := .init
  rxColl := .init
  sks := .init
  encrypt := .init
  prng := .init state outp
  txColl := .init
  txComp := .init

/-! ## Port maps -/

def txCollPorts (s : Registers) : TxCollecteur.Ports where
  cipher := s.encrypt.cipher
  startTransmit := s.encrypt.canTransmit
  txReady := TUart.txReady s.txComp

def txCompPorts (i : Input) (s : Registers) : TUart.Ports where
  reset := i.reset
  start := s.txColl.startTx
  dataIn := s.txColl.dataToTx

def prngPorts (s : Registers) : Lfsr.Ports where
  seed := s.rxColl.plain
  start := s.rxColl.fullData

/-! ## One instant -/

def lowClkRises (i : Input) (s : Registers) : Bool :=
  i.rising && s.clkCounter == 5 && !s.lowClk

def rxCollStep (i : Input) (s : Registers) : RxCollecteur.Registers :=
  if i.reset then RxCollecteur.reset s.rxColl
  else if i.rising then
    RxCollecteur.edge (RUart.dataOut s.rxComp) (RUart.dataValid s.rxComp) s.rxColl
  else s.rxColl

def txCollStep (i : Input) (s : Registers) : TxCollecteur.Registers :=
  if i.reset then TxCollecteur.reset s.txColl
  else if i.rising then TxCollecteur.edge (txCollPorts s) s.txColl
  else s.txColl

def prngStep (i : Input) (s : Registers) : Lfsr.Registers :=
  if i.rising then Lfsr.edge (prngPorts s) s.prng else s.prng

def encryptPorts (i : Input) (s : Registers) : Aes256EncryptionMasked.Ports where
  plain := (rxCollStep i s).plain
  subKeys := s.sks.k
  canStart := s.sks.terminated
  transmitBefore := (txCollStep i s).doneTransmit
  encDecSel := i.encDecSel
  mask := (prngStep i s).outp

def step (i : Input) (s : Registers) : Registers where
  clkCounter := if i.rising then if s.clkCounter = 5 then 0 else s.clkCounter + 1 else s.clkCounter
  lowClk := if i.rising ∧ s.clkCounter = 5 then !s.lowClk else s.lowClk
  rxComp := if i.rising then RUart.edge generics (rxCompPorts i) s.rxComp else s.rxComp
  rxColl := rxCollStep i s
  sks :=
    if (rxCollStep i s).fullData then AesSubKeySchedule.reset s.sks
    else if lowClkRises i s then AesSubKeySchedule.edge masterkey s.sks
    else s.sks
  encrypt :=
    if i.reset then Aes256EncryptionMasked.reset s.encrypt
    else if lowClkRises i s then Aes256EncryptionMasked.edge (encryptPorts i s) s.encrypt
    else s.encrypt
  prng := prngStep i s
  txColl := txCollStep i s
  txComp := if i.rising then TUart.edge generics (txCompPorts i s) s.txComp else s.txComp

variable (state outp : Block) (input : Nat → Input)

/-- The design after `t` instants from power-up. -/
def run (t : Nat) : Registers := Machine.run step (.init state outp) input t

/-! ## The slow clock -/

/-- Edges of `clk` since the last rise of `LOWclk`. -/
def sinceRise (s : Registers) : Nat := if s.lowClk then s.clkCounter else s.clkCounter + 6

section Clock
variable {i : Input} {s : Registers}

theorem clkCounter_step (h : s.clkCounter ≤ 5) : (step i s).clkCounter ≤ 5 := by
  simp only [step]
  split_ifs <;> omega

theorem lowClkRises_iff (h : s.clkCounter ≤ 5) :
    lowClkRises i s = true ↔ i.rising = true ∧ sinceRise s = 11 := by
  unfold lowClkRises sinceRise
  cases s.lowClk
  · simp
  · simp
    omega

theorem sinceRise_step (hrise : i.rising = true) (h : s.clkCounter ≤ 5) :
    sinceRise (step i s) = if sinceRise s = 11 then 0 else sinceRise s + 1 := by
  unfold sinceRise
  simp only [step, hrise, true_and, if_true]
  by_cases hwrap : s.clkCounter = 5
  · cases s.lowClk <;> simp [hwrap]
  · cases s.lowClk
    · simp [hwrap]
    · simp [hwrap]
      omega

end Clock

/-! ## A schedule is never cut -/

/-- The receiver is not further with a byte than `n` periods of `LOWclk`. -/
def Within (n : Nat) (s : Registers) : Prop := RUart.progress generics s.rxComp ≤ 12 * n + sinceRise s

theorem within_step {i : Input} {s : Registers} {n : Nat} (hcounter : s.clkCounter ≤ 5)
    (h : Within n s) : Within (if lowClkRises i s then n + 1 else n) (step i s) := by
  unfold Within at h ⊢
  cases hrise : i.rising with
  | false =>
    have hrx : (step i s).rxComp = s.rxComp := by simp [step, hrise]
    have hsince : sinceRise (step i s) = sinceRise s := by simp [sinceRise, step, hrise]
    have hlow : lowClkRises i s = false := by simp [lowClkRises, hrise]
    rw [hrx, hsince, hlow]
    exact h
  | true =>
    have hprogress : RUart.progress generics (step i s).rxComp ≤
        RUart.progress generics s.rxComp + 1 := by
      simp only [step, hrise, if_true]
      exact RUart.progress_edge generics _ _ (by decide)
    have hsince := sinceRise_step hrise hcounter
    by_cases hlast : sinceRise s = 11
    · rw [if_pos ((lowClkRises_iff hcounter).mpr ⟨hrise, hlast⟩)]
      rw [if_pos hlast] at hsince
      omega
    · rw [if_neg fun hlow => hlast ((lowClkRises_iff hcounter).mp hlow).2]
      rw [if_neg hlast] at hsince
      omega

/-- A byte takes longer than the schedule and the encryption of a block together. -/
theorem not_valid_of_within {s : Registers} {n : Nat} (hcounter : s.clkCounter ≤ 5)
    (h : Within n s) (hn : n ≤ 200) : RUart.dataValid s.rxComp = false := by
  by_contra hvalid
  have hsince : sinceRise s ≤ 11 := by
    unfold sinceRise
    split_ifs <;> omega
  have hmax : RUart.maxBitCount generics = 868 := by decide
  rw [Within, RUart.progress_of_valid generics (Bool.of_not_eq_false hvalid), hmax] at h
  omega

/-- The edges of the schedule since its last reset. -/
def done (s : AesSubKeySchedule.Registers) : Nat :=
  if s.index < 8 then s.index else 8 + 3 * (s.index - 8) + (s.indexWasTaken - 1)

/-- While the schedule is under way, the receiver is not further with a byte than the schedule
with its words. -/
structure InPlace (s : Registers) : Prop where
  counter : s.clkCounter ≤ 5
  phase : AesSubKeySchedule.PhaseInRange s.sks
  between : s.sks.index < 8 ∨ 60 ≤ s.sks.index → s.sks.indexWasTaken = 1
  full : s.rxColl.fullData = true →
    s.sks.index = 0 ∧ s.sks.indexWasTaken = 1 ∧ Within 0 s
  pace : s.sks.index ≤ 60 → Within (done s.sks) s

theorem inPlace_init : InPlace (.init state outp) where
  counter := Nat.zero_le 5
  phase := .inl rfl
  between _ := rfl
  full hfull := absurd hfull Bool.false_ne_true
  pace _ := Nat.zero_le _

section Step
variable {i : Input} {s : Registers}

theorem done_le (h : InPlace s) (hindex : s.sks.index ≤ 60) : done s.sks ≤ 164 := by
  unfold done
  split_ifs with h8
  · omega
  · rcases h.phase with h1 | h2 | h3
    · omega
    · have hlow : ¬ 60 ≤ s.sks.index := fun h60 => by have := h.between (.inr h60); omega
      omega
    · have hlow : ¬ 60 ≤ s.sks.index := fun h60 => by have := h.between (.inr h60); omega
      omega

/-- No byte arrives before the schedule has finished. -/
theorem index_of_valid (h : InPlace s) (hvalid : RUart.dataValid s.rxComp = true) :
    60 < s.sks.index := by
  by_contra hlow
  have hdone := done_le h (by omega)
  have hnone := not_valid_of_within h.counter (h.pace (by omega)) (by omega)
  exact absurd (hnone.symm.trans hvalid) Bool.false_ne_true

/-- `full_data` is high after an instant because a byte has come, or still. -/
theorem fullData_cases (hfull : (rxCollStep i s).fullData = true) :
    (i.reset = false ∧ i.rising = true ∧ RUart.dataValid s.rxComp = true) ∨
      (i.rising = false ∧ s.rxColl.fullData = true) := by
  unfold rxCollStep at hfull
  split_ifs at hfull with hreset hrise
  · exact absurd hfull Bool.false_ne_true
  · refine .inl ⟨Bool.eq_false_iff.mpr hreset, hrise, ?_⟩
    by_contra hnone
    rw [RxCollecteur.edge, if_neg hnone] at hfull
    exact absurd hfull Bool.false_ne_true
  · exact .inr ⟨Bool.eq_false_iff.mpr hrise, hfull⟩

theorem rxComp_full (h : InPlace s) (hfull : (rxCollStep i s).fullData = true) :
    s.sks.indexWasTaken = 1 ∧ Within 0 (step i s) := by
  rcases fullData_cases hfull with ⟨-, hrise, hvalid⟩ | ⟨hrise, hstill⟩
  · have hindex := index_of_valid h hvalid
    refine ⟨h.between (.inr (by omega)), ?_⟩
    simp only [Within, step, hrise, if_true]
    rw [RUart.progress_after_valid generics _ hvalid]
    exact Nat.zero_le _
  · have hlow : lowClkRises i s = false := by simp [lowClkRises, hrise]
    obtain ⟨-, hone, hwithin⟩ := h.full hstill
    have hnext := within_step (i := i) h.counter hwithin
    rw [hlow] at hnext
    exact ⟨hone, hnext⟩

theorem between_edge {s : AesSubKeySchedule.Registers} (h : AesSubKeySchedule.PhaseInRange s)
    (hbetween : s.index < 8 ∨ 60 ≤ s.index → s.indexWasTaken = 1) :
    let s' := AesSubKeySchedule.edge masterkey s
    (s'.index < 8 ∨ 60 ≤ s'.index → s'.indexWasTaken = 1) ∧
      (s'.index ≤ 60 → s.index ≤ 60 ∧ done s' = done s + 1) := by
  unfold AesSubKeySchedule.edge done
  split_ifs with h8 h60 h1 h2 heq
  · have hone := hbetween (.inl h8)
    refine ⟨fun _ => hone, fun _ => ?_⟩
    simp only [hone]
    split_ifs <;> omega
  · refine ⟨fun hout => ?_, fun _ => ⟨h60.le, ?_⟩⟩
    · simp only at hout
      omega
    · simp only [h1, if_neg h8]
  · refine ⟨fun hout => ?_, fun _ => ⟨h60.le, ?_⟩⟩
    · simp only at hout
      omega
    · simp only [h2, if_neg h8]
  · have hthree : s.indexWasTaken = 3 := by
      rcases h with h' | h' | h'
      · exact absurd h' h1
      · exact absurd h' h2
      · exact h'
    refine ⟨fun _ => rfl, fun _ => ?_⟩
    have hnext : ¬ s.index + 1 < 8 := by omega
    simp only [hthree, if_neg hnext]
    omega
  · refine ⟨fun _ => hbetween (.inr (by omega)), fun hle => ?_⟩
    simp only at hle
    omega
  · refine ⟨fun _ => hbetween (.inr (by omega)), fun hle => ?_⟩
    simp only at hle
    omega

theorem inPlace_step (h : InPlace s) : InPlace (step i s) := by
  have hcounter := clkCounter_step (i := i) h.counter
  cases hfull : (rxCollStep i s).fullData with
  | true =>
    obtain ⟨hone, hwithin⟩ := rxComp_full h hfull
    have hsks : (step i s).sks = AesSubKeySchedule.reset s.sks := by
      simp only [step, hfull, if_true]
    have htaken : (step i s).sks.indexWasTaken = 1 := by
      rw [hsks]
      exact hone
    have hzero : (step i s).sks.index = 0 := by rw [hsks]; rfl
    refine ⟨hcounter, .inl htaken, fun _ => htaken, fun _ => ⟨hzero, htaken, hwithin⟩, fun _ => ?_⟩
    have hdone : done (step i s).sks = 0 := by
      rw [done, hzero]
      rfl
    rw [hdone]
    exact hwithin
  | false =>
    have hlow : (step i s).rxColl.fullData = false := hfull
    have hquiet : (step i s).rxColl.fullData = true →
        (step i s).sks.index = 0 ∧ (step i s).sks.indexWasTaken = 1 ∧ Within 0 (step i s) :=
      fun hon => absurd (hlow.symm.trans hon) Bool.false_ne_true
    cases hrise : lowClkRises i s with
    | false =>
      have hsks : (step i s).sks = s.sks := by simp [step, hfull, hrise]
      refine ⟨hcounter, ?_, ?_, hquiet, fun hindex => ?_⟩
      · rw [hsks]
        exact h.phase
      · rw [hsks]
        exact h.between
      · rw [hsks] at hindex ⊢
        have hnext := within_step (i := i) h.counter (h.pace hindex)
        rwa [hrise] at hnext
    | true =>
      have hedge : (step i s).sks = AesSubKeySchedule.edge masterkey s.sks := by
        simp [step, hfull, hrise]
      obtain ⟨hbetween, hdone⟩ := between_edge h.phase h.between
      rw [← hedge] at hbetween hdone
      refine ⟨hcounter, ?_, hbetween, hquiet, fun hindex => ?_⟩
      · rw [hedge]
        exact AesSubKeySchedule.phaseInRange_edge masterkey h.phase
      · obtain ⟨hold, hnext⟩ := hdone hindex
        have hwithin := within_step (i := i) h.counter (h.pace hold)
        rw [hrise, if_pos rfl] at hwithin
        rwa [hnext]

end Step

theorem inPlace_run (t : Nat) : InPlace (run state outp input t) :=
  Machine.run_invariant input (inPlace_init state outp) (fun _ _ h => inPlace_step h) t

end KuznyechikDPA.UartAes256Masked

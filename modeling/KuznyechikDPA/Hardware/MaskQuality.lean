import KuznyechikDPA.Hardware.Overlap
import KuznyechikDPA.Hardware.UartMaskedComplete

/-!
# The masks of the masked design

A block is loaded between 420 and 431 edges of `clk` after the schedule has been reset by
`full_data`, and the generator starts one edge after that, unless a reset has taken
`full_data` away. So the mask of a block is the third word since the generator took the
block for its seed, and it is zero for exactly two contents of the 129 cells.
-/

namespace KuznyechikDPA.UartMaskedComplete

open UartStandardComplete (Input)
open SubKeySchedule (Counts)

/-! ## The latest start of the generator -/

/-- The cells at the latest start, and the edges of `clk` since. -/
def seedingStep (i : Input) (s : Registers) (latest : Option (Lfsr.Cells × Nat)) :
    Option (Lfsr.Cells × Nat) :=
  if i.rising then
    if s.rxColl.fullData then some ((s.rxColl.plain, s.prng.MSB), 0)
    else latest.map fun (x, n) => (x, n + 1)
  else latest

def seeding (state outp : Block) (input : Nat → Input) : Nat → Option (Lfsr.Cells × Nat)
  | 0 => none
  | t + 1 => seedingStep (input t) (run state outp input t) (seeding state outp input t)

/-- A reset between two edges of `clk` that ends `full_data`. -/
def Cuts (i : Input) (s : Registers) : Prop :=
  i.reset = true ∧ i.rising = false ∧ s.rxColl.fullData = true

/-- The cells are such that the word on the port is zero. -/
def BlankMask (outp : Block) : Option (Lfsr.Cells × Nat) → Prop
  | none => outp = 0
  | some (x, n) => Lfsr.Blank (n / 129) x

/-- The generator as its latest start determines it. -/
def Follows (state outp : Block) (prng : Lfsr.Registers) : Option (Lfsr.Cells × Nat) → Prop
  | none => prng = .init state outp
  | some (x, n) => Lfsr.Follows x n prng

theorem follows_step {state outp : Block} {i : Input} {s : Registers}
    {latest : Option (Lfsr.Cells × Nat)} (h : Follows state outp s.prng latest) :
    Follows state outp (step i s).prng (seedingStep i s latest) := by
  have hprng : (step i s).prng = prngStep i s := rfl
  rw [hprng, prngStep, seedingStep]
  split_ifs with hrise hfull
  · exact Lfsr.follows_start (p := prngPorts s) hfull s.prng
  · have hstart : (prngPorts s).start = false := Bool.eq_false_iff.mpr hfull
    rcases latest with _ | ⟨x, n⟩
    · have hinit : s.prng = .init state outp := h
      exact (Lfsr.edge_idle hstart (by rw [hinit]; rfl)).trans hinit
    · exact Lfsr.follows_edge hstart h
  · exact h

theorem follows_run (state outp : Block) (input : Nat → Input) (t : Nat) :
    Follows state outp (run state outp input t).prng (seeding state outp input t) := by
  induction t with
  | zero => rfl
  | succ t ih => exact follows_step ih

/-! ## The time of the loading -/

/-- Edges of `clk` since `LOWclk` rose. -/
def sinceRise (s : Registers) : Nat := s.clkCounter + if s.lowClk then 0 else 6

/-- `k` edges of `clk` and `m` edges of `LOWclk` after the schedule was reset; `uncut` says that
no reset has ended a `full_data`. -/
structure Tracks (uncut : Prop) (latest : Option (Lfsr.Cells × Nat)) (s : Registers) (k m : Nat) :
    Prop where
  counter : s.clkCounter ≤ 5
  counts : Counts m s.sks
  early : 12 * m + sinceRise s ≤ k + 11
  late : k ≤ 12 * m + sinceRise s
  full : s.rxColl.fullData = true → k = 0
  seeded : s.rxColl.fullData = false → ∀ x n, latest = some (x, n) → k ≤ n + 1
  punctual : uncut → s.rxColl.fullData = false → m ≤ 35 → ∃ x n, latest = some (x, n) ∧ k = n + 1

theorem tracks_init (uncut : Prop) (state outp : Block) :
    Tracks uncut none (.init state outp) 432 36 where
  counter := Nat.zero_le 5
  counts := ⟨rfl, rfl⟩
  early := Nat.le_add_right (12 * 36 + 6) 5
  late := Nat.le_add_right 432 6
  full h := absurd h Bool.false_ne_true
  seeded _ _ _ h := by contradiction
  punctual _ _ h := absurd h (by decide)

section Step
variable {i : Input} {s : Registers}

theorem sinceRise_le (h : s.clkCounter ≤ 5) : sinceRise s ≤ 11 := by
  unfold sinceRise
  split_ifs <;> omega

theorem lowClkRises_eq_true : lowClkRises i s = true ↔
    i.rising = true ∧ s.clkCounter = 5 ∧ s.lowClk = false := by
  simp [lowClkRises, and_assoc]

theorem counter_step (h : s.clkCounter ≤ 5) : (step i s).clkCounter ≤ 5 := by
  simp only [step]
  split_ifs <;> omega

theorem sinceRise_rise (h : lowClkRises i s = true) : sinceRise s = 11 ∧ sinceRise (step i s) = 0 := by
  obtain ⟨hrise, hcount, hlow⟩ := lowClkRises_eq_true.mp h
  simp [sinceRise, step, hrise, hcount, hlow]

theorem sinceRise_edge (hrise : i.rising = true) (h : lowClkRises i s = false)
    : sinceRise (step i s) = sinceRise s + 1 := by
  rw [Bool.eq_false_iff, Ne, lowClkRises_eq_true] at h
  by_cases hwrap : s.clkCounter = 5
  · have hlow : s.lowClk = true := by simpa [hrise, hwrap] using h
    simp [sinceRise, step, hrise, hwrap, hlow]
  · simp only [sinceRise, step, hrise, hwrap, and_false, if_false, if_true]
    split_ifs <;> omega

theorem sinceRise_still (hrise : i.rising = false) : sinceRise (step i s) = sinceRise s := by
  simp [sinceRise, step, hrise]

variable {uncut : Prop} {latest : Option (Lfsr.Cells × Nat)} {k m : Nat}

theorem tracks_full (h : Tracks uncut latest s k m) (hfull : (rxCollStep i s).fullData = true) :
    Tracks uncut (seedingStep i s latest) (step i s) 0 0 where
  counter := counter_step h.counter
  counts := by
    simp only [step, hfull, if_true]
    exact SubKeySchedule.counts_reset _
  early := by
    have hle := sinceRise_le (counter_step (i := i) h.counter)
    omega
  late := Nat.zero_le _
  full _ := rfl
  seeded hnot := absurd (hfull.symm.trans hnot) (by decide)
  punctual _ hnot := absurd (hfull.symm.trans hnot) (by decide)

/-- Between two edges of `clk` only a reset can happen. -/
theorem tracks_still (h : Tracks uncut latest s k m) (huncut : uncut → ¬ Cuts i s)
    (hfull : (rxCollStep i s).fullData = false) (hrise : i.rising = false) :
    Tracks uncut (seedingStep i s latest) (step i s) k m := by
  have hlow : lowClkRises i s = false := by simp [lowClkRises, hrise]
  have hlatest : seedingStep i s latest = latest := by simp [seedingStep, hrise]
  have hsince := sinceRise_still (s := s) hrise
  have hsks : (step i s).sks = s.sks := by simp [step, hfull, hlow]
  have hnot (hnow : (step i s).rxColl.fullData = true) : k = 0 :=
    absurd (hfull.symm.trans hnow) (by decide)
  rw [hlatest]
  refine ⟨counter_step h.counter, hsks ▸ h.counts, hsince ▸ h.early, hsince ▸ h.late, hnot, ?_, ?_⟩
  · intro _ x n hfound
    cases hold : s.rxColl.fullData with
    | false => exact h.seeded hold x n hfound
    | true =>
      have hk := h.full hold
      omega
  · intro hu _ hm
    cases hold : s.rxColl.fullData with
    | false => exact h.punctual hu hold hm
    | true =>
      have hreset : i.reset = true := by
        by_contra hne
        simp [rxCollStep, hne, hrise, hold] at hfull
      exact absurd ⟨hreset, hrise, hold⟩ (huncut hu)

/-- An edge of `clk` is counted, and the generator starts at the one that ends `full_data`. -/
theorem tracks_edge (h : Tracks uncut latest s k m) (hfull : (rxCollStep i s).fullData = false)
    (hrise : i.rising = true) : Tracks uncut (seedingStep i s latest) (step i s) (k + 1)
      (if lowClkRises i s then m + 1 else m) := by
  have hearly := h.early
  have hlate := h.late
  have hnot (hnow : (step i s).rxColl.fullData = true) : k + 1 = 0 :=
    absurd (hfull.symm.trans hnow) (by decide)
  have hlatest : seedingStep i s latest =
      if s.rxColl.fullData then some ((s.rxColl.plain, s.prng.MSB), 0)
      else latest.map fun (x, n) => (x, n + 1) := by simp [seedingStep, hrise]
  have hcounts : Counts (if lowClkRises i s then m + 1 else m) (step i s).sks := by
    simp only [step, hfull, Bool.false_eq_true, if_false]
    split_ifs
    · exact SubKeySchedule.counts_edge _ h.counts
    · exact h.counts
  have hbounds : 12 * (if lowClkRises i s then m + 1 else m) + sinceRise (step i s) ≤ k + 1 + 11 ∧
      k + 1 ≤ 12 * (if lowClkRises i s then m + 1 else m) + sinceRise (step i s) := by
    cases hlow : lowClkRises i s with
    | false =>
      have hsince := sinceRise_edge hrise hlow
      simp only [Bool.false_eq_true, if_false]
      omega
    | true =>
      obtain ⟨hlast, hsince⟩ := sinceRise_rise hlow
      simp only [if_true]
      omega
  refine ⟨counter_step h.counter, hcounts, hbounds.1, hbounds.2, hnot, ?_, ?_⟩
  · intro _ x n hfound
    rw [hlatest] at hfound
    cases hold : s.rxColl.fullData with
    | false =>
      simp only [hold, Bool.false_eq_true, if_false, Option.map_eq_some_iff, Prod.mk.injEq] at hfound
      obtain ⟨⟨x', n'⟩, hfound, -, rfl⟩ := hfound
      have hk := h.seeded hold x' n' hfound
      omega
    | true =>
      have hk := h.full hold
      omega
  · intro hu _ hm
    rw [hlatest]
    cases hold : s.rxColl.fullData with
    | false =>
      obtain ⟨x, n, hfound, hk⟩ := h.punctual hu hold (by split_ifs at hm <;> omega)
      exact ⟨x, n + 1, by simp [hfound], by omega⟩
    | true =>
      have hk := h.full hold
      exact ⟨_, 0, rfl, by omega⟩

theorem tracks_step (h : Tracks uncut latest s k m) (huncut : uncut → ¬ Cuts i s) :
    ∃ k m, Tracks uncut (seedingStep i s latest) (step i s) k m := by
  cases hfull : (rxCollStep i s).fullData with
  | true => exact ⟨0, 0, tracks_full h hfull⟩
  | false =>
    cases hrise : i.rising with
    | false => exact ⟨k, m, tracks_still h huncut hfull hrise⟩
    | true => exact ⟨_, _, tracks_edge h hfull hrise⟩

/-- A block is loaded 420 to 431 edges after the schedule was reset. -/
theorem tracks_load (h : Tracks uncut latest s k m) (hload : Loads i s) :
    s.rxColl.fullData = false ∧ m = 35 ∧ 420 ≤ k ∧ k ≤ 431 := by
  have hm : m = 35 := of_decide_eq_true (h.counts.terminated.symm.trans hload.terminated)
  obtain ⟨hlast, -⟩ := sinceRise_rise hload.rising
  have hearly := h.early
  have hlate := h.late
  refine ⟨?_, hm, by omega, by omega⟩
  by_contra hfull
  have hk := h.full (Bool.of_not_eq_false hfull)
  omega

end Step

theorem tracks_run (state outp : Block) (input : Nat → Input) (t : Nat) : ∃ k m,
    Tracks (∀ u, ¬ Cuts (input u) (run state outp input u)) (seeding state outp input t)
      (run state outp input t) k m := by
  induction t with
  | zero => exact ⟨432, 36, tracks_init _ state outp⟩
  | succ t ih =>
    obtain ⟨k, m, h⟩ := ih
    exact tracks_step h fun huncut => huncut t

/-! ## The mask of a block -/

section Mask
variable (state outp : Block) (input : Nat → Input) (t : Nat)

/-- At a loading the generator has run for a while since its latest start, if it ever started. -/
theorem seeding_load (hload : Loads (input t) (run state outp input t)) :
    (∀ x n, seeding state outp input (t + 1) = some (x, n) → 129 ≤ n) ∧
    ((∀ u, ¬ Cuts (input u) (run state outp input u)) →
      ∃ x n, seeding state outp input (t + 1) = some (x, n) ∧ n / 129 = 3) := by
  obtain ⟨k, m, h⟩ := tracks_run state outp input t
  obtain ⟨hfull, hm, hlow, hhigh⟩ := tracks_load h hload
  have hrise : (input t).rising = true := (lowClkRises_eq_true.mp hload.rising).1
  have hnext : seeding state outp input (t + 1) =
      (seeding state outp input t).map fun (x, n) => (x, n + 1) := by
    rw [seeding, seedingStep, if_pos hrise, hfull, if_neg Bool.false_ne_true]
  rw [hnext]
  constructor
  · intro x n hfound
    obtain ⟨⟨x', n'⟩, hfound, hpair⟩ := Option.map_eq_some_iff.mp hfound
    have hk := h.seeded hfull x' n' hfound
    have hn : n' + 1 = n := congrArg Prod.snd hpair
    omega
  · intro huncut
    obtain ⟨x, n, hfound, hk⟩ := h.punctual huncut hfull (by omega)
    exact ⟨x, n + 1, by rw [hfound]; rfl, by omega⟩

theorem mask_eq_zero_iff (hload : Loads (input t) (run state outp input t)) :
    (encryptPorts (input t) (run state outp input t)).mask = 0 ↔
      BlankMask outp (seeding state outp input (t + 1)) := by
  have hlong := (seeding_load state outp input t hload).1
  have hfollows := follows_run state outp input (t + 1)
  have hmask : (encryptPorts (input t) (run state outp input t)).mask =
      (run state outp input (t + 1)).prng.outp := rfl
  rw [hmask]
  rcases hlatest : seeding state outp input (t + 1) with _ | ⟨x, n⟩
  · rw [hlatest] at hfollows
    have hinit : (run state outp input (t + 1)).prng = .init state outp := hfollows
    rw [hinit]
    rfl
  · rw [hlatest] at hfollows
    have hword : (run state outp input (t + 1)).prng.outp = Lfsr.word x (n / 129) :=
      Lfsr.Follows.outp hfollows (hlong x n hlatest)
    rw [hword]
    exact Lfsr.word_eq_zero_iff x (n / 129)

end Mask

/-- No block of a run is loaded unmasked exactly if the generator never starts, before a
loading, from one of the two contents that make the word of that time zero. In a run in which
no reset takes `full_data` away that word is the third one. -/
theorem masks_nonzero_iff (state outp : Block) (input : Nat → Input) :
    ((∀ t, Loads (input t) (run state outp input t) →
        (encryptPorts (input t) (run state outp input t)).mask ≠ 0) ↔
      ∀ t, Loads (input t) (run state outp input t) →
        ¬ BlankMask outp (seeding state outp input (t + 1))) ∧
    ((∀ u, ¬ Cuts (input u) (run state outp input u)) →
      ∀ t, Loads (input t) (run state outp input t) →
        ∃ x n, seeding state outp input (t + 1) = some (x, n) ∧
          ((encryptPorts (input t) (run state outp input t)).mask = 0 ↔
            x = (0, false) ∨ x = (0x200a8, true))) := by
  constructor
  · apply forall₂_congr
    intro t hload
    rw [Ne, mask_eq_zero_iff state outp input t hload]
  · intro huncut t hload
    obtain ⟨x, n, hfound, hthird⟩ := (seeding_load state outp input t hload).2 huncut
    refine ⟨x, n, hfound, ?_⟩
    rw [mask_eq_zero_iff state outp input t hload, hfound, BlankMask, hthird]
    exact Lfsr.blank_three x

/-! ## The zero block -/

/-- What the two designs have in common. -/
structure SameFront (s : UartStandardComplete.Registers) (m : Registers) : Prop where
  clkCounter : m.clkCounter = s.clkCounter
  lowClk : m.lowClk = s.lowClk
  rxComp : m.rxComp = s.rxComp
  rxColl : m.rxColl = s.rxColl
  sks : m.sks = s.core.sks

theorem sameFront_step {s : UartStandardComplete.Registers} {m : Registers} (h : SameFront s m)
    (i : Input) : SameFront (UartStandardComplete.step i s) (step i m) := by
  have hcoll : rxCollStep i m = UartStandardComplete.rxCollStep i s := by
    rw [rxCollStep, UartStandardComplete.rxCollStep, h.rxColl, h.rxComp]
  have hrises : lowClkRises i m = UartStandardComplete.lowClkRises i s := by
    rw [lowClkRises, UartStandardComplete.lowClkRises, h.clkCounter, h.lowClk]
  constructor
  · simp only [step, UartStandardComplete.step, h.clkCounter]
  · simp only [step, UartStandardComplete.step, h.clkCounter, h.lowClk]
  · simp only [step, UartStandardComplete.step, h.rxComp]
  · exact hcoll
  · simp only [step, UartStandardComplete.step, Core.step, UartStandardComplete.coreSample, hcoll, hrises,
      h.sks]
    rfl

theorem sameFront_run (state outp : Block) (input : Nat → Input) (t : Nat) :
    SameFront (UartStandardComplete.run input t) (run state outp input t) := by
  induction t with
  | zero => exact ⟨rfl, rfl, rfl, rfl, rfl⟩
  | succ t ih => exact sameFront_step ih (input t)

section Zero
open UartStandardComplete (overlapInput BlockAt)

variable {state outp : Block} {input : Nat → Input} {t : Nat}

/-- Before the first `full_data` neither the schedule nor the generator has been started. -/
theorem rests_before (hbefore : ∀ n ≤ t, (run state outp input n).rxColl.fullData = false) :
    UartStandardComplete.ScheduleRests (run state outp input t).sks ∧
      seeding state outp input t = none := by
  induction t with
  | zero => exact ⟨⟨rfl, rfl, rfl⟩, rfl⟩
  | succ t ih =>
    obtain ⟨hrests, hnone⟩ := ih fun n hn => hbefore n (by omega)
    have hnow : (rxCollStep (input t) (run state outp input t)).fullData = false :=
      hbefore (t + 1) (Nat.le_refl _)
    rw [seeding, seedingStep, hnone, hbefore t (by omega)]
    refine ⟨?_, by simp⟩
    rw [run, Machine.run_succ, ← run]
    simp only [step, hnow, Bool.false_eq_true, if_false]
    split_ifs
    · exact UartStandardComplete.scheduleRests_edge Core.masterkey hrests
    · exact hrests

/-- No block is taken while `terminated` is low at the edges of `LOWclk`. -/
theorem tour_before (hbefore : ∀ n < t, lowClkRises (input n) (run state outp input n) = true →
    (run state outp input n).sks.terminated = false) : (run state outp input t).encrypt.tour = 0 := by
  induction t with
  | zero => rfl
  | succ t ih =>
    have htour := ih fun n hn => hbefore n (by omega)
    rw [run, Machine.run_succ, ← run]
    simp only [step]
    split_ifs with hreset hrise
    · rfl
    · have hstart : (encryptPorts (input t) (run state outp input t)).canStart = false :=
        hbefore t (Nat.lt_succ_self t) hrise
      rw [MaskedCompleteEncryption.edge_eq, if_pos htour, hstart]
      exact htour
    · exact htour

variable {start duration : Nat} {plain : Block}

variable (state outp) in
/-- The schedule and the generator after the first block, which is complete at instant `start`. -/
theorem first_block (hsteady : UartStandardComplete.Steady input)
    (hbefore : ∀ n ≤ start, (UartStandardComplete.run input n).rxColl.fullData = false)
    (hblock : BlockAt input start duration plain) :
    Loads (input (start + 432)) (run state outp input (start + 432)) ∧
      seeding state outp input (start + 433) = some ((plain, false), 431) := by
  have hphase := hblock.phase
  have hlong := hblock.long
  have hfront (n : Nat) := sameFront_run state outp input n
  have hfull (n : Nat) (hn : n ≤ start) : (run state outp input n).rxColl.fullData = false := by
    rw [(hfront n).rxColl]
    exact hbefore n hn
  have hrises (n : Nat) : lowClkRises (input n) (run state outp input n) = true ↔ n % 12 = 5 := by
    rw [← UartStandardComplete.lowClkRises_run hsteady n, lowClkRises, UartStandardComplete.lowClkRises,
      (hfront n).clkCounter, (hfront n).lowClk]
  have hcounts (m : Nat) (hm : m ≤ 431) : Counts (m / 12) (run state outp input (start + 1 + m)).sks := by
    rw [(hfront _).sks]
    exact UartStandardComplete.counts_run hsteady hphase hblock.full hblock.quiet (by omega)
  have hload : start + 432 = start + 1 + 431 := by omega
  constructor
  · refine ⟨hsteady.reset _, (hrises _).mpr (by omega), tour_before fun n hn hlow => ?_, ?_⟩
    · by_cases hearly : n ≤ start
      · exact (rests_before fun m hm => hfull m (by omega)).1.terminated
      · obtain ⟨m, rfl⟩ : ∃ m, n = start + 1 + m := ⟨n - (start + 1), by omega⟩
        have hmod := (hrises _).mp hlow
        rw [(hcounts m (by omega)).terminated]
        exact decide_eq_false (by omega)
    · rw [hload, (hcounts 431 (Nat.le_refl _)).terminated]
      rfl
  · have hrise (n : Nat) : (input n).rising = true := hsteady.rising n
    have hfirst : seeding state outp input (start + 1 + 1) = some ((plain, false), 0) := by
      have hfollows := follows_run state outp input (start + 1)
      have hnone : seeding state outp input (start + 1) = none := by
        rw [seeding, seedingStep, (rests_before hfull).2, hfull start (Nat.le_refl _)]
        simp
      rw [hnone] at hfollows
      have hinit : (run state outp input (start + 1)).prng = .init state outp := hfollows
      have hplain := hblock.held 0 (Nat.zero_le _)
      rw [seeding, seedingStep, if_pos (hrise _), hinit, (hfront _).rxColl, hblock.full, if_pos rfl]
      rw [Nat.add_zero] at hplain
      rw [hplain]
      rfl
    have hlater (n : Nat) (hn : n ≤ 431) :
        seeding state outp input (start + 2 + n) = some ((plain, false), n) := by
      induction n with
      | zero => exact hfirst
      | succ n ih =>
        have hpos : start + 2 + n = start + 1 + (n + 1) := by omega
        have hquiet := hblock.quiet (n + 1) (by omega) (by omega)
        have hlow : (run state outp input (start + 2 + n)).rxColl.fullData = false := by
          rw [(hfront _).rxColl, hpos]
          exact hquiet
        rw [← Nat.add_assoc, seeding, seedingStep, if_pos (hrise _), hlow, if_neg Bool.false_ne_true,
          ih (by omega)]
        rfl
    exact hlater 431 (Nat.le_refl _)

/-- The zero block is loaded unmasked after power-up. -/
theorem zero_block_unmasked :
    ¬ ∀ input t, Loads (input t) (run 0 0 input t) → (encryptPorts (input t) (run 0 0 input t)).mask ≠ 0 := by
  intro hall
  obtain ⟨hbefore, hblock, -⟩ := UartStandardComplete.blocks_overlapInput (fun _ => 0) fun _ => 0
  obtain ⟨hload, hseeding⟩ := first_block 0 0
    (UartStandardComplete.steady_overlapInput _ _) hbefore hblock
  refine hall _ _ hload ((mask_eq_zero_iff 0 0 _ _ hload).mpr ?_)
  have hzero : block (fun _ => 0) = 0 := by decide
  rw [hseeding, hzero, BlankMask]
  exact (Lfsr.blank_three _).mpr (.inl rfl)

end Zero

end KuznyechikDPA.UartMaskedComplete

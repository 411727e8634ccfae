import KuznyechikDPA.Hardware.Reception
import KuznyechikDPA.Hardware.ReplySafety

/-!
# From a received block to its result

In a run without a reset, with an edge of `clk` at every instant, `LOWclk` rises at every
twelfth one. `full_data` then starts a count of the key schedule, the thirty-sixth edge
of `LOWclk` after it starts the encryption, and the forty-seventh loads `cipher`.
-/

namespace KuznyechikDPA

/-! ## The key schedule as a counter -/

namespace SubKeySchedule

/-- `n` edges after a reset. -/
structure Counts (n : Nat) (s : Registers) : Prop where
  index : s.index = min n 35
  terminated : s.terminated = decide (n = 35)

theorem counts_reset (s : Registers) : Counts 0 (reset s) := ⟨rfl, rfl⟩

theorem counts_edge (masterkey : BitVec 256) {n : Nat} {s : Registers} (h : Counts n s) :
    Counts (n + 1) (edge masterkey s) := by
  have hindex := h.index
  unfold edge
  split_ifs with hlt hzero hlast
  · have hne : ¬ n + 1 = 35 := by omega
    exact ⟨by simp only; omega, (decide_eq_false hne).symm⟩
  · have hne : ¬ n + 1 = 35 := by omega
    exact ⟨by simp only; omega, (decide_eq_false hne).symm⟩
  · have heq : n + 1 = 35 := by omega
    exact ⟨by simp only; omega, (decide_eq_true heq).symm⟩
  · have hne : ¬ n + 1 = 35 := by omega
    exact ⟨by simp only; omega, (decide_eq_false hne).symm⟩

end SubKeySchedule

/-! ## The last edge -/

namespace Core

/-- The eleventh slow edge after the start loads the result. -/
theorem cipher_after {masterkey : BitVec 256} {input : Nat → Sample} {t n : Nat}
    (h : Starts masterkey input t (n + 1)) (hcount : edgesAfter input t n = 10)
    (hlast : (input (t + 1 + n)).rising = true) :
    (Machine.run (step masterkey) .init input (t + 2 + n)).encrypt.cipher =
      CompleteEncryption.transform ⟨(input t).encDecSel, SubKeySchedule.roundKeys masterkey⟩
        (input t).plain := by
  have hwork := working_after h (by omega)
  rw [hcount] at hwork
  have hreset : (input (t + 1 + n)).reset = false := by
    have hquiet := h.quiet (n + 1) le_rfl
    rwa [← Nat.add_assoc, Nat.add_right_comm] at hquiet
  have hnext : t + 2 + n = t + 1 + n + 1 := by omega
  have hcipher := CompleteEncryption.engine.output_of_working
    (i := ports (input (t + 1 + n)) (Machine.run (step masterkey) .init input (t + 1 + n))) hwork
  have henv := h.env 0 (by omega)
  rw [Nat.add_zero] at henv
  rw [CompleteEncryption.blockResult_eq, ← CompleteEncryption.toEngine_edge, henv] at hcipher
  rw [hnext, Machine.run_succ, encrypt_step hreset, if_pos hlast]
  exact hcipher

end Core

namespace UartStandardComplete

open SubKeySchedule (Counts)

/-- No reset, an edge of `clk` at every instant, and encryption selected. -/
structure Steady (input : Nat → Input) : Prop where
  rising : ∀ t, (input t).rising = true
  reset : ∀ t, (input t).reset = false
  encrypts : ∀ t, (input t).encDecSel = false

/-- The samples of key schedule and encryption. -/
def coreInput (input : Nat → Input) (t : Nat) : Core.Sample := coreSample (input t) (run input t)

theorem core_run (input : Nat → Input) (t : Nat) :
    (run input t).core = Machine.run (Core.step Core.masterkey) .init (coreInput input) t := by
  induction t with
  | zero => rfl
  | succ t ih => rw [Machine.run_succ, ← ih, run, Machine.run_succ, ← run]; rfl

section Steady
variable {input : Nat → Input} (h : Steady input)
include h

/-! ## The slow clock -/

theorem divider_run (t : Nat) :
    (run input t).clkCounter = t % 6 ∧ (run input t).lowClk = decide (t / 6 % 2 = 1) := by
  induction t with
  | zero => exact ⟨rfl, rfl⟩
  | succ t ih =>
    obtain ⟨hcount, hlow⟩ := ih
    rw [run, Machine.run_succ, ← run]
    simp only [step, h.rising, hcount, hlow, if_true, true_and]
    split_ifs with hwrap
    · refine ⟨by omega, ?_⟩
      rw [← decide_not, decide_eq_decide]
      omega
    · refine ⟨by omega, ?_⟩
      rw [decide_eq_decide]
      omega

theorem lowClkRises_run (t : Nat) :
    lowClkRises (input t) (run input t) = true ↔ t % 12 = 5 := by
  obtain ⟨hcount, hlow⟩ := divider_run h t
  rw [lowClkRises, h.rising, hcount, hlow]
  simp
  omega

/-! ## The key schedule -/

/-- While `full_data` does not rise again, the schedule counts the edges of `LOWclk`. -/
theorem counts_run {start duration : Nat} (hphase : start % 12 = 5)
    (hfull : (run input (start + 1)).rxColl.fullData = true)
    (hquiet : ∀ m, 1 ≤ m → m ≤ duration → (run input (start + 1 + m)).rxColl.fullData = false)
    {m : Nat} (hm : m ≤ duration) :
    Counts (m / 12) (run input (start + 1 + m)).core.sks := by
  induction m with
  | zero =>
    have hsample : (coreInput input start).fullData = true := hfull
    rw [Nat.add_zero, core_run, Machine.run_succ]
    simp only [Core.step, hsample, if_true]
    exact SubKeySchedule.counts_reset _
  | succ m ih =>
    have hsample : (coreInput input (start + 1 + m)).fullData = false := hquiet (m + 1) (by omega) hm
    have hcount := ih (by omega)
    have hrises : (coreInput input (start + 1 + m)).rising = true ↔ (m + 1) % 12 = 0 :=
      (lowClkRises_run h _).trans (by omega)
    rw [core_run] at hcount
    rw [← Nat.add_assoc, core_run, Machine.run_succ]
    simp only [Core.step, hsample, Bool.false_eq_true, if_false]
    split_ifs with hrise
    · have hnext : (m + 1) / 12 = m / 12 + 1 := by
        have hmod := hrises.mp hrise
        omega
      rw [hnext]
      exact SubKeySchedule.counts_edge _ hcount
    · have hnext : (m + 1) / 12 = m / 12 := by
        have hmod := mt hrises.mpr hrise
        omega
      rwa [hnext]

/-! ## The encryption -/

theorem encrypt_rest {t : Nat} (htour : (run input t).core.encrypt.tour = 0)
    (hterm : t % 12 = 5 → (run input t).core.sks.terminated = false) :
    (run input (t + 1)).core.encrypt = (run input t).core.encrypt := by
  rw [run, Machine.run_succ, ← run, encrypt_edge (h.reset t)]
  split_ifs with hlow
  · have hstart := hterm ((lowClkRises_run h t).mp hlow)
    rw [CompleteEncryption.edge_eq, if_pos htour]
    exact if_neg (by rw [Core.ports, hstart]; exact Bool.false_ne_true)
  · rfl

theorem encrypt_rest_run {t : Nat} (htour : (run input t).core.encrypt.tour = 0) (n : Nat)
    (hterm : ∀ m < n, (t + m) % 12 = 5 → (run input (t + m)).core.sks.terminated = false) :
    (run input (t + n)).core.encrypt = (run input t).core.encrypt := by
  induction n with
  | zero => rfl
  | succ n ih =>
    have hn := ih fun m hm => hterm m (by omega)
    rw [← Nat.add_assoc, encrypt_rest h (by rw [hn]; exact htour) (hterm n (Nat.lt_succ_self n)), hn]

/-- A block whose last byte arrives at instant `start`; the next one is not complete for
`duration` instants, and its first byte does not arrive before the encryption starts. -/
structure BlockAt (input : Nat → Input) (start duration : Nat) (plain : Block) : Prop where
  phase : start % 12 = 5
  full : (run input (start + 1)).rxColl.fullData = true
  quiet : ∀ m, 1 ≤ m → m ≤ duration → (run input (start + 1 + m)).rxColl.fullData = false
  held : ∀ m, m ≤ 432 → (run input (start + 1 + m)).rxColl.plain = plain
  long : 600 ≤ duration

section Block
variable {start duration : Nat} {plain : Block} (hblock : BlockAt input start duration plain)
variable (htour : (run input start).core.encrypt.tour = 0)
variable (hterm : (run input start).core.sks.terminated = false)
include hblock htour hterm

/-- Nothing happens to the encryption before the schedule is complete. -/
theorem encrypt_before {n : Nat} (hn : n ≤ 432) :
    (run input (start + n)).core.encrypt = (run input start).core.encrypt := by
  have hphase := hblock.phase
  refine encrypt_rest_run h htour n fun m hm hlow => ?_
  rcases m with _ | m
  · exact hterm
  · have hcount := counts_run h hblock.phase hblock.full hblock.quiet (m := m)
      (by have := hblock.long; omega)
    have hpos : start + (m + 1) = start + 1 + m := by omega
    rw [hpos, hcount.terminated]
    exact decide_eq_false (by omega)

theorem starts_block : Core.Starts Core.masterkey (coreInput input) (start + 432) 132 := by
  have hlong := hblock.long
  have hpos : start + 432 = start + 1 + 431 := by omega
  constructor
  · have hcount := counts_run h hblock.phase hblock.full hblock.quiet (m := 431) (by omega)
    rw [← core_run, hpos, hcount.terminated]
    rfl
  · rw [← core_run, encrypt_before h hblock htour hterm le_rfl]
    exact htour
  · have hphase := hblock.phase
    exact (lowClkRises_run h _).mpr (by omega)
  · exact fun j _ => h.reset _
  · exact fun j _ => (h.encrypts _).trans (h.encrypts _).symm

omit htour hterm in
theorem edgesAfter_block (n : Nat) : Core.edgesAfter (coreInput input) (start + 432) n = n / 12 := by
  have hphase := hblock.phase
  induction n with
  | zero => rfl
  | succ n ih =>
    have hrises : (coreInput input (start + 432 + 1 + n)).rising = true ↔ (n + 1) % 12 = 0 :=
      (lowClkRises_run h _).trans (by omega)
    rw [Core.edgesAfter] at ih ⊢
    rw [Nat.count_succ, ih]
    simp only [hrises]
    split_ifs <;> omega

/-- The encryption works for eleven periods of `LOWclk` without a sign to the outside. -/
theorem silent_block {n : Nat} (hn : n ≤ 131) :
    (run input (start + 433 + n)).core.encrypt.tour = n / 12 + 1 ∧
      (run input (start + 433 + n)).core.encrypt.canTransmit = false := by
  have hstarts := starts_block h hblock htour hterm
  have hshort : Core.Starts Core.masterkey (coreInput input) (start + 432) (n + 1) :=
    ⟨hstarts.terminated, hstarts.rest, hstarts.rising, fun j _ => h.reset _,
      fun j _ => (h.encrypts _).trans (h.encrypts _).symm⟩
  have hwork := Core.working_after hshort (by rw [edgesAfter_block h hblock]; omega)
  have hpos : start + 432 + 1 + n = start + 433 + n := by omega
  rw [hpos, edgesAfter_block h hblock, ← core_run input (start + 433 + n)] at hwork
  exact ⟨hwork.tour, hwork.silent⟩

theorem cipher_block : bytes (run input (start + 565)).core.encrypt.cipher =
    Kuznyechik.crypto (Kuznyechik.setkey .init (SubKeySchedule.keyBytes Core.masterkey))
      (bytes plain) := by
  have hphase := hblock.phase
  have hlong := hblock.long
  have hlow : (coreInput input (start + 432 + 1 + 131)).rising = true :=
    (lowClkRises_run h _).mpr (by omega)
  have hresult := Core.cipher_after (starts_block h hblock htour hterm) (edgesAfter_block h hblock 131) hlow
  have hplain : (coreInput input (start + 432)).plain = plain := by
    have hpos : start + 432 + 1 = start + 1 + 432 := by omega
    have hheld : (run input (start + 432 + 1)).rxColl.plain = plain := by
      rw [hpos]
      exact hblock.held 432 le_rfl
    exact hheld
  have hsel : (coreInput input (start + 432)).encDecSel = false := h.encrypts _
  have hpos : start + 432 + 2 + 131 = start + 565 := by omega
  rw [hpos, ← core_run, hplain, hsel] at hresult
  rw [hresult]
  exact CompleteEncryption.bytes_transform_encrypt (SubKeySchedule.bytes_roundKeys Core.masterkey .init) plain

end Block
end Steady

end UartStandardComplete
end KuznyechikDPA

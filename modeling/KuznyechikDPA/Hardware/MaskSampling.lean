import KuznyechikDPA.Foundation.Renewal
import KuznyechikDPA.Hardware.MaskQuality

/-!
# What the loading of a block samples

From the edge after `full_data` on the generator emits a word every 129 edges of `clk`. The key
schedule needs 36 edges of `LOWclk`, which are 420 to 431 edges of `clk`, so the loading takes the
third of these words for the mask, at any phase of `LOWclk`. The first one is the block itself.
-/

namespace KuznyechikDPA

namespace Lfsr

/-- The word that an edge hands over to `outp`, if any. -/
def emitted (p : Ports) (s : Registers) : List Block :=
  if p.start = false ∧ s.canRun = true ∧ ¬ s.index < 128 then [s.stateBis] else []

variable {p : Ports} {s : Registers} {x : Cells} {n : Nat}

theorem emitted_start (hstart : p.start = true) : emitted p s = [] := by
  rw [emitted, if_neg fun hall => ?_]
  exact absurd (hall.1.symm.trans hstart) Bool.false_ne_true

theorem emitted_eq (hstart : p.start = false) (h : Follows x n s) :
    emitted p s = if n % 129 = 128 then [word x (n / 129 + 1)] else [] := by
  have hindex := h.index
  by_cases hlast : n % 129 = 128
  · have hword : s.stateBis = word x (n / 129 + 1) := by
      rw [word, Nat.add_sub_cancel]
      exact BitVec.eq_of_getLsbD_eq fun i hi => h.stateBis i (by omega)
    rw [emitted, if_pos ⟨hstart, h.canRun, by omega⟩, if_pos hlast, hword]
  · rw [emitted, if_neg (fun hall => hall.2.2 (by omega)), if_neg hlast]

/-- The words of a generator that is not started again. -/
theorem collected_emitted {ports : Nat → Ports} {regs : Nat → Registers} {a : Nat}
    (hstart : ∀ i < n, (ports (a + i)).start = false) (h : ∀ i < n, Follows x i (regs (a + i))) :
    collected (fun t => emitted (ports t) (regs t)) a n = (List.range (n / 129)).map fun w => word x (w + 1) := by
  induction n with
  | zero => rfl
  | succ n ih =>
    rw [collected_succ, ih (fun i hi => hstart i (by omega)) (fun i hi => h i (by omega)),
      emitted_eq (hstart n (Nat.lt_succ_self n)) (h n (Nat.lt_succ_self n))]
    split_ifs with hlast
    · have hnext : (n + 1) / 129 = n / 129 + 1 := by omega
      rw [hnext, List.range_succ, List.map_append, List.map_singleton]
    · have hsame : (n + 1) / 129 = n / 129 := by omega
      rw [hsame, List.append_nil]

end Lfsr

namespace UartMaskedComplete

open UartStandardComplete (Input Holds)
open SubKeySchedule (Counts)

/-! ## Bytes and words of a run -/

/-- The byte that the collector takes at this instant. -/
def arrived (i : Input) (s : Registers) : List Byte :=
  if i.rising = true ∧ i.reset = false ∧ RUart.dataValid s.rxComp = true then [RUart.dataOut s.rxComp]
  else []

/-- The word that the generator emits at this instant. -/
def emitted (i : Input) (s : Registers) : List Block :=
  if i.rising then Lfsr.emitted (prngPorts s) s.prng else []

/-- Only edges of `clk`, and no reset. -/
structure Unreset (input : Nat → Input) : Prop where
  rising : ∀ t, (input t).rising = true
  reset : ∀ t, (input t).reset = false

/-- Neither is a block being encrypted nor do the keys of one become ready. -/
structure Idle (s : Registers) : Prop where
  terminated : s.sks.terminated = false
  tour : s.encrypt.tour = 0

section Edge
variable {i : Input} {s : Registers} (hrise : i.rising = true) (hreset : i.reset = false)
include hrise hreset

theorem rxColl_edge : (step i s).rxColl =
    RxCollecteur.edge (RUart.dataOut s.rxComp) (RUart.dataValid s.rxComp) s.rxColl := by
  simp only [step, rxCollStep, hrise, hreset, Bool.false_eq_true, if_false, if_true]

theorem rxColl_quiet (hnone : arrived i s = []) :
    (step i s).rxColl = { s.rxColl with fullData := false } := by
  have hvalid : RUart.dataValid s.rxComp = false := by
    by_contra hon
    rw [arrived, if_pos ⟨hrise, hreset, Bool.of_not_eq_false hon⟩] at hnone
    contradiction
  rw [rxColl_edge hrise hreset, hvalid]
  rfl

/-- The collector holds what came after the last complete block, and a byte that raises `full_data`
completes the next one. -/
theorem holds_edge {cs : List Byte} (h : Holds cs s.rxColl) :
    (∃ before after, cs ++ arrived i s = before ++ after ∧ Holds after (step i s).rxColl) ∧
      ((step i s).rxColl.fullData = true →
        cs ++ arrived i s = List.ofFn (bytes (step i s).rxColl.plain)) := by
  cases hvalid : RUart.dataValid s.rxComp with
  | false =>
    have hnone : arrived i s = [] := if_neg fun hall => absurd (hvalid.symm.trans hall.2.2) Bool.false_ne_true
    rw [rxColl_quiet hrise hreset hnone, hnone, List.append_nil]
    exact ⟨⟨[], cs, rfl, h.count, h.plain⟩, fun hfull => absurd hfull Bool.false_ne_true⟩
  | true =>
    have hbyte : arrived i s = [RUart.dataOut s.rxComp] := if_pos ⟨hrise, hreset, hvalid⟩
    have hcount := h.count
    rw [rxColl_edge hrise hreset, hvalid, hbyte]
    obtain hshort | hlast : cs.length < 15 ∨ cs.length = 15 := by omega
    · obtain ⟨hholds, hlow⟩ := UartStandardComplete.holds_store h (RUart.dataOut s.rxComp) hshort
      exact ⟨⟨[], _, rfl, hholds⟩, fun hfull => absurd (hlow.symm.trans hfull) Bool.false_ne_true⟩
    · obtain ⟨-, hempty, hplain⟩ := UartStandardComplete.full_of_holds h (RUart.dataOut s.rxComp) hlast
      exact ⟨⟨_, [], (List.append_nil _).symm, hempty⟩, fun _ => hplain.symm⟩

end Edge

variable {s : Registers} {input : Nat → Input}

section Received
variable (hrun : Unreset input)
include hrun

theorem holds_run {bs : List Byte} (h : Holds bs s.rxColl) (n : Nat) : ∃ before after,
    bs ++ collected (fun t => arrived (input t) (Machine.run step s input t)) 0 n = before ++ after ∧
      Holds after (Machine.run step s input n).rxColl := by
  induction n with
  | zero => exact ⟨[], bs, List.append_nil bs, h⟩
  | succ n ih =>
    obtain ⟨before, after, hsplit, hholds⟩ := ih
    obtain ⟨⟨done, rest, hnext, hholds'⟩, -⟩ := holds_edge (hrun.rising n) (hrun.reset n) hholds
    refine ⟨before ++ done, rest, ?_, hholds'⟩
    rw [collected_succ, Nat.zero_add, ← List.append_assoc, hsplit, List.append_assoc, hnext,
      List.append_assoc]

/-- The sixteen bytes up to the one that raises `full_data` are the block. -/
theorem block_received {bs : List Byte} (h : Holds bs s.rxColl) {u : Nat}
    (hfull : (Machine.run step s input (u + 1)).rxColl.fullData = true) : ∃ before,
    bs ++ collected (fun t => arrived (input t) (Machine.run step s input t)) 0 (u + 1) =
      before ++ List.ofFn (bytes (Machine.run step s input (u + 1)).rxColl.plain) := by
  obtain ⟨before, after, hsplit, hholds⟩ := holds_run hrun h u
  have hblock := (holds_edge (hrun.rising u) (hrun.reset u) hholds).2 hfull
  refine ⟨before, ?_⟩
  rw [collected_succ, Nat.zero_add, ← List.append_assoc, hsplit, List.append_assoc, hblock]
  rfl

end Received

/-! ## From `full_data` to the loading -/

theorem lowClkRises_iff {i : Input} {s : Registers} (h : s.clkCounter ≤ 5) :
    lowClkRises i s = true ↔ i.rising = true ∧ sinceRise s = 11 := by
  rw [lowClkRises_eq_true]
  refine and_congr_right fun _ => ?_
  unfold sinceRise
  cases s.lowClk with
  | true =>
    simp only [if_true, Bool.true_eq_false, and_false, false_iff]
    omega
  | false =>
    simp only [Bool.false_eq_true, if_false, and_true]
    omega

/-- The cells from which the generator starts at the next edge when `full_data` is high. -/
def seedCells (s : Registers) : Lfsr.Cells := (s.rxColl.plain, s.prng.MSB)

/-- `j` edges of `clk` after `full_data` has risen, with `r` edges from the last rise of `LOWclk` to that
instant. -/
structure Progress (r : Nat) (x : Lfsr.Cells) (j : Nat) (s : Registers) : Prop where
  counter : s.clkCounter ≤ 5
  phase : sinceRise s = (r + j) % 12
  counts : Counts ((r + j) / 12) s.sks
  tour : s.encrypt.tour = 0
  plain : s.rxColl.plain = x.1
  full : s.rxColl.fullData = decide (j = 0)
  seed : j = 0 → s.prng.MSB = x.2
  prng : ∀ n, j = n + 1 → Lfsr.Follows x n s.prng

section Progress
variable {i : Input} {r j : Nat} {x : Lfsr.Cells}

/-- Without an edge of `LOWclk` that finds `terminated` the cipher does not start. -/
theorem tour_rests (hreset : i.reset = false) (htour : s.encrypt.tour = 0)
    (hnot : ¬ (lowClkRises i s = true ∧ s.sks.terminated = true)) : (step i s).encrypt.tour = 0 := by
  simp only [step, hreset, Bool.false_eq_true, if_false]
  split_ifs with hup
  · have hstart : ¬ (encryptPorts i s).canStart = true := fun hon => hnot ⟨hup, hon⟩
    rw [MaskedCompleteEncryption.edge_eq, if_pos htour, if_neg hstart]
    exact htour
  · exact htour

theorem progress_start (hcounter : s.clkCounter ≤ 5) (hidle : Idle s) (hreset : i.reset = false)
    (hfull : (step i s).rxColl.fullData = true) :
    Progress (sinceRise (step i s)) (seedCells (step i s)) 0 (step i s) := by
  have hcounter' := counter_step (i := i) hcounter
  have hsince := sinceRise_le hcounter'
  have hnow : (rxCollStep i s).fullData = true := hfull
  refine ⟨hcounter', (Nat.mod_eq_of_lt (Nat.lt_succ_of_le hsince)).symm, ?_, ?_, rfl, hfull, fun _ => rfl,
    fun n hn => absurd hn (Nat.succ_ne_zero n).symm⟩
  · rw [Nat.add_zero, Nat.div_eq_of_lt (Nat.lt_succ_of_le hsince)]
    simp only [step, hnow, if_true]
    exact SubKeySchedule.counts_reset _
  · exact tour_rests hreset hidle.tour fun hup =>
      absurd (hidle.terminated.symm.trans hup.2) Bool.false_ne_true

theorem Progress.follows (h : Progress r x j s) (hrise : i.rising = true) :
    Lfsr.Follows x j (step i s).prng := by
  have hprng : (step i s).prng = Lfsr.edge (prngPorts s) s.prng := by
    simp only [step, prngStep, hrise, if_true]
  have hfull := h.full
  rw [hprng]
  cases j with
  | zero =>
    have hseed : ((prngPorts s).seed, s.prng.MSB) = x := Prod.ext h.plain (h.seed rfl)
    have hnext := Lfsr.follows_start (p := prngPorts s) hfull s.prng
    rwa [hseed] at hnext
  | succ j => exact Lfsr.follows_edge (p := prngPorts s) hfull (h.prng j rfl)

theorem Progress.terminated_iff (h : Progress r x j s) :
    lowClkRises i s = true ∧ s.sks.terminated = true ↔ i.rising = true ∧ r + j = 431 := by
  have hdone : s.sks.terminated = true ↔ (r + j) / 12 = 35 := by
    rw [h.counts.terminated, decide_eq_true_eq]
  rw [lowClkRises_iff h.counter, h.phase, hdone, and_assoc]
  refine and_congr_right fun _ => ?_
  omega

theorem Progress.phase_next (h : Progress r x j s) (hrise : i.rising = true) :
    sinceRise (step i s) = (r + (j + 1)) % 12 := by
  have hrises := lowClkRises_iff (i := i) h.counter
  have hphase := h.phase
  cases hup : lowClkRises i s with
  | true =>
    have hlast := (hrises.mp hup).2
    rw [(sinceRise_rise hup).2]
    omega
  | false =>
    have hne : sinceRise s ≠ 11 := fun heq => absurd (hup.symm.trans (hrises.mpr ⟨hrise, heq⟩)) (by decide)
    rw [sinceRise_edge hrise hup]
    omega

theorem Progress.counts_next (h : Progress r x j s) (hrise : i.rising = true)
    (hlow : (rxCollStep i s).fullData = false) : Counts ((r + (j + 1)) / 12) (step i s).sks := by
  have hrises := lowClkRises_iff (i := i) h.counter
  have hphase := h.phase
  simp only [step, hlow, Bool.false_eq_true, if_false]
  split_ifs with hup
  · have hlast := (hrises.mp hup).2
    have hnext : (r + (j + 1)) / 12 = (r + j) / 12 + 1 := by omega
    rw [hnext]
    exact SubKeySchedule.counts_edge _ h.counts
  · have hne : sinceRise s ≠ 11 := fun heq => hup (hrises.mpr ⟨hrise, heq⟩)
    have hsame : (r + (j + 1)) / 12 = (r + j) / 12 := by omega
    rw [hsame]
    exact h.counts

theorem Progress.next (h : Progress r x j s) (hrise : i.rising = true) (hreset : i.reset = false)
    (hnone : arrived i s = []) (hbefore : r + j < 431) : Progress r x (j + 1) (step i s) := by
  have hcoll := rxColl_quiet hrise hreset hnone
  have hlow : (rxCollStep i s).fullData = false := congrArg RxCollecteur.Registers.fullData hcoll
  have hnot : ¬ (lowClkRises i s = true ∧ s.sks.terminated = true) := fun hend =>
    Nat.ne_of_lt hbefore (h.terminated_iff.mp hend).2
  refine ⟨counter_step h.counter, h.phase_next hrise, h.counts_next hrise hlow,
    tour_rests hreset h.tour hnot, ?_, ?_, fun hzero => absurd hzero (Nat.succ_ne_zero j), fun n hn => ?_⟩
  · rw [hcoll]
    exact h.plain
  · rw [hcoll]
    exact (decide_eq_false (Nat.succ_ne_zero j)).symm
  · obtain rfl : j = n := Nat.succ.inj hn
    exact h.follows hrise

end Progress

theorem counter_run (hdiv : s.clkCounter ≤ 5) (n : Nat) : (Machine.run step s input n).clkCounter ≤ 5 :=
  Machine.run_invariant (I := fun s : Registers => s.clkCounter ≤ 5) input hdiv (fun _ _ h => counter_step h) n

section Loading
variable {u : Nat} (hdiv : s.clkCounter ≤ 5) (hrun : Unreset input) (hidle : Idle (Machine.run step s input u))
  (hfull : (Machine.run step s input (u + 1)).rxColl.fullData = true)
  (hquiet : ∀ v, u < v → v < u + 500 → arrived (input v) (Machine.run step s input v) = [])
include hdiv hrun hidle hfull hquiet

theorem progress_run {j : Nat} (hj : sinceRise (Machine.run step s input (u + 1)) + j ≤ 431) :
    Progress (sinceRise (Machine.run step s input (u + 1))) (seedCells (Machine.run step s input (u + 1))) j
      (Machine.run step s input (u + 1 + j)) := by
  induction j with
  | zero => exact progress_start (counter_run hdiv u) hidle (hrun.reset u) hfull
  | succ j ih =>
    exact (ih (by omega)).next (hrun.rising (u + 1 + j)) (hrun.reset (u + 1 + j))
      (hquiet (u + 1 + j) (by omega) (by omega)) (by omega)

theorem not_loads {v : Nat} (hv : u ≤ v)
    (hbefore : sinceRise (Machine.run step s input (u + 1)) + v < u + 432) :
    ¬ Loads (input v) (Machine.run step s input v) := by
  intro hload
  obtain rfl | hlater : u = v ∨ u + 1 ≤ v := by omega
  · exact absurd (hidle.terminated.symm.trans hload.terminated) Bool.false_ne_true
  · obtain ⟨j, rfl⟩ := Nat.exists_eq_add_of_le hlater
    have hprogress := progress_run hdiv hrun hidle hfull hquiet (j := j) (by omega)
    have hend := hprogress.terminated_iff.mp ⟨hload.rising, hload.terminated⟩
    omega

/-- Three words come before the loading. -/
theorem words_before {n : Nat} (hn : sinceRise (Machine.run step s input (u + 1)) + n = 431) :
    collected (fun v => emitted (input v) (Machine.run step s input v)) (u + 1) (1 + n) =
      [(Machine.run step s input (u + 1)).rxColl.plain,
        Lfsr.word (seedCells (Machine.run step s input (u + 1))) 2,
        Lfsr.word (seedCells (Machine.run step s input (u + 1))) 3] := by
  have hsince : sinceRise (Machine.run step s input (u + 1)) ≤ 11 := sinceRise_le (counter_run hdiv (u + 1))
  have hemitted : (fun v => emitted (input v) (Machine.run step s input v)) =
      fun v => Lfsr.emitted (prngPorts (Machine.run step s input v)) (Machine.run step s input v).prng :=
    funext fun v => if_pos (hrun.rising v)
  have hstart (i : Nat) (hi : i < n) :
      (prngPorts (Machine.run step s input (u + 1 + 1 + i))).start = false := by
    have hprogress := progress_run hdiv hrun hidle hfull hquiet (j := 1 + i) (by omega)
    rw [← Nat.add_assoc] at hprogress
    exact hprogress.full.trans (decide_eq_false (by omega))
  have hfollows (i : Nat) (hi : i < n) :
      Lfsr.Follows (seedCells (Machine.run step s input (u + 1))) i
        (Machine.run step s input (u + 1 + 1 + i)).prng := by
    have hprogress := progress_run hdiv hrun hidle hfull hquiet (j := 1 + i) (by omega)
    rw [← Nat.add_assoc] at hprogress
    exact hprogress.prng i (Nat.add_comm 1 i)
  have hthree : n / 129 = 3 := by omega
  rw [hemitted, collected_add, collected_one, Lfsr.emitted_start hfull,
    Lfsr.collected_emitted hstart hfollows, hthree]
  rfl

end Loading

/-- Fifteen zero bytes have come, and `rUART` delivers the sixteenth. -/
def lastByte : Registers :=
  { Registers.init 0 0 with
    rxComp := { RUart.Registers.init with state := .doneState }
    rxColl := { RxCollecteur.Registers.init with cpt := 0 } }

def idleLine : Nat → Input := fun _ => ⟨true, false, true, false⟩

theorem idle_lastByte (n : Nat) : RUart.Idle (Machine.run step lastByte idleLine (n + 1)).rxComp := by
  induction n with
  | zero => exact ⟨⟨rfl, rfl, rfl, rfl⟩, rfl⟩
  | succ n ih =>
    have hM : 4 ≤ RUart.maxBitCount UartStandardComplete.generics := by decide
    exact RUart.idle_edge hM (p := ⟨false, true⟩) ih fun _ => rfl

end UartMaskedComplete
end KuznyechikDPA

import KuznyechikDPA.Hardware.MaskSampling
import KuznyechikDPA.Hardware.StandardService

/-!
# The exchange with `UART_MASKED_COMPLETE`

The masked design compares the masked state of a block with the one it announced last, so its host hears
the same results, but whether a block is answered is up to the generator: the mask of a block is its third
word after the start, for one of the two contents of the cell that the block does not fill.
-/

namespace KuznyechikDPA.UartMaskedComplete
open UartStandardComplete (Input firmware bytes_response)
open SubKeySchedule (Counts Valid roundKeys)
open MaskedCompleteEncryption (engine)
open GrasshopperPkg
open KuznyechikDPA.Core (masterkey env response)
open Shell (Ticks)

variable {sel : Bool} {mem plain mark cipher : Block} {c : Nat} {i : Input} {s : Registers}

def shell (s : Registers) : Shell where
  clkCounter := s.clkCounter
  lowClk := s.lowClk
  rxComp := s.rxComp
  rxColl := s.rxColl
  txColl := s.txColl
  txComp := s.txComp

def design : Design Registers where
  step := step
  shell := shell
  cipher s := s.encrypt.cipher
  canTransmit s := s.encrypt.canTransmit
  shell_step _ _ := rfl

/-- The mask of a block when it is done. -/
def movedMask (sel : Bool) (mask : Block) : Block :=
  if sel = false then lStep^[9] mask else invLStep^[9] mask

/-- What is remembered of a block, with the leftover bit of the generator. -/
def markOf (sel : Bool) (plain : Block) (msb : Bool) : Block :=
  response sel plain ^^^ movedMask sel (Lfsr.word (plain, msb) 3)

/-- Between two blocks. -/
structure Rests (mem : Block) (s : Registers) : Prop where
  counter : s.clkCounter ≤ 5
  valid : Valid masterkey s.sks
  counts : Counts 36 s.sks
  tour : s.encrypt.tour = 0
  transmit : s.encrypt.canTransmit = false
  memory : s.encrypt.memCipher = mem

/-- `c` edges of `LOWclk` after `full_data`. -/
inductive Stage (sel : Bool) (mem plain : Block) (c : Nat) (s : Registers) : Prop
  | expands {r j : Nat} {msb : Bool} (progress : Progress r (plain, msb) j s) (hj : r + j ≤ 431)
      (hr : r ≤ 11) (hc : (r + j) / 12 = c) (valid : Valid masterkey s.sks)
      (transmit : s.encrypt.canTransmit = false) (memory : s.encrypt.memCipher = mem)
  | works {m : Nat} {msb : Bool} {p : MaskedCompleteEncryption.Ports} (hm : m ≤ 10) (hc : c = 36 + m)
      (counter : s.clkCounter ≤ 5) (valid : Valid masterkey s.sks) (counts : Counts 36 s.sks)
      (keys : s.sks.k = roundKeys masterkey) (load : p.plain = plain)
      (mask : p.mask = Lfsr.word (plain, msb) 3) (penv : p.env = env sel)
      (working : engine.Working p m s.encrypt.toEngine) (memory : s.encrypt.memCipher = mem)

/-- A result is announced. -/
structure Announces (mark cipher : Block) (s : Registers) : Prop where
  counter : s.clkCounter ≤ 5
  valid : Valid masterkey s.sks
  counts : Counts 36 s.sks
  tour : s.encrypt.tour = 11
  transmit : s.encrypt.canTransmit = true
  memory : s.encrypt.memCipher = mark
  state : s.encrypt.interState = mark
  secret : s.encrypt.interState ^^^ s.encrypt.interMask = cipher
  cipher : s.encrypt.cipher = cipher

theorem Stage.lt (h : Stage sel mem plain c s) : c < 47 := by
  cases h with
  | expands _ hj _ hc _ _ _ => omega
  | works hm hc _ _ _ _ _ _ _ _ _ => omega

theorem Stage.silent (h : Stage sel mem plain c s) : s.encrypt.canTransmit = false := by
  cases h with
  | expands _ _ _ _ _ transmit _ => exact transmit
  | works _ _ _ _ _ _ _ _ _ working _ => exact working.silent

/-! ## One instant -/

section Step
variable (hticks : Ticks sel i)
include hticks

theorem encrypt_ticks : (step i s).encrypt =
    if lowClkRises i s then MaskedCompleteEncryption.edge (encryptPorts i s) s.encrypt else s.encrypt := by
  simp only [step, hticks.reset, Bool.false_eq_true, if_false]

/-- Without `can_start` nothing moves. -/
theorem encrypt_rest (htour : s.encrypt.tour = 0)
    (hnot : ¬ (lowClkRises i s = true ∧ s.sks.terminated = true)) : (step i s).encrypt = s.encrypt := by
  rw [encrypt_ticks hticks]
  split_ifs with hup
  · rw [MaskedCompleteEncryption.edge_eq, if_pos htour]
    exact if_neg fun hon => hnot ⟨hup, hon⟩
  · rfl

omit hticks in
theorem valid_step (h : Valid masterkey s.sks) : Valid masterkey (step i s).sks := by
  simp only [step]
  split_ifs
  · exact SubKeySchedule.valid_reset masterkey h
  · exact SubKeySchedule.valid_edge masterkey h
  · exact h

omit hticks in
theorem counts_step (hfull : (rxCollStep i s).fullData = false) (h : Counts 36 s.sks) :
    Counts 36 (step i s).sks := by
  simp only [step, hfull, Bool.false_eq_true, if_false]
  split_ifs
  · have hnext := SubKeySchedule.counts_edge masterkey h
    exact ⟨hnext.index, hnext.terminated⟩
  · exact h

theorem Rests.step (h : Rests mem s) (hfull : (rxCollStep i s).fullData = false) :
    Rests mem (step i s) ∧ (UartMaskedComplete.step i s).encrypt = s.encrypt := by
  have hterm : s.sks.terminated = false := h.counts.terminated
  have hsame := encrypt_rest hticks h.tour fun hon => absurd (hterm.symm.trans hon.2) Bool.false_ne_true
  refine ⟨⟨counter_step h.counter, valid_step h.valid, counts_step hfull h.counts, ?_, ?_, ?_⟩, hsame⟩
  · rw [hsame]
    exact h.tour
  · rw [hsame]
    exact h.transmit
  · rw [hsame]
    exact h.memory

/-- `full_data` begins a block. -/
theorem Rests.begin (h : Rests mem s) (hfull : (rxCollStep i s).fullData = true) :
    Stage sel mem (rxCollStep i s).plain 0 (UartMaskedComplete.step i s) := by
  have hterm : s.sks.terminated = false := h.counts.terminated
  have hsame := encrypt_rest hticks h.tour fun hon => absurd (hterm.symm.trans hon.2) Bool.false_ne_true
  have hprogress : Progress (sinceRise (UartMaskedComplete.step i s))
      ((rxCollStep i s).plain, (UartMaskedComplete.step i s).prng.MSB) 0 (UartMaskedComplete.step i s) :=
    progress_start h.counter ⟨hterm, h.tour⟩ hticks.reset hfull
  have hsince := sinceRise_le (counter_step (i := i) h.counter)
  refine .expands hprogress (by omega) hsince (by omega) (valid_step h.valid) ?_ ?_
  · rw [hsame]
    exact h.transmit
  · rw [hsame]
    exact h.memory

variable (hnone : (shell s).hears = [])
include hnone

theorem calm_coll : rxCollStep i s = { s.rxColl with fullData := false } :=
  Shell.rxCollStep_quiet hticks hnone

theorem calm_full : (rxCollStep i s).fullData = false := by rw [calm_coll hticks hnone]

omit hticks in
theorem calm_arrived : arrived i s = [] := by
  apply if_neg
  rintro ⟨-, -, hvalid⟩
  have hbyte : (shell s).hears = [RUart.dataOut s.rxComp] := if_pos hvalid
  rw [hbyte] at hnone
  contradiction

theorem Stage.low (h : Stage sel mem plain c s) (hlow : lowClkRises i s = false) :
    Stage sel mem plain c (step i s) := by
  have hsame : (UartMaskedComplete.step i s).encrypt = s.encrypt := by
    rw [encrypt_ticks hticks, hlow, if_neg Bool.false_ne_true]
  cases h with
  | @expands r j msb progress hj hr hc valid transmit memory =>
    have hphase : ¬ sinceRise s = 11 := fun heq =>
      absurd (hlow.symm.trans ((lowClkRises_iff progress.counter).mpr ⟨hticks.rising, heq⟩))
        Bool.false_ne_true
    rw [progress.phase] at hphase
    have hnext := progress.next hticks.rising hticks.reset (calm_arrived hnone) (by omega)
    refine .expands hnext (by omega) hr (by omega) (valid_step valid) ?_ ?_
    · rw [hsame]
      exact transmit
    · rw [hsame]
      exact memory
  | works hm hc counter valid counts keys load mask penv working memory =>
    have hfull := calm_full hticks hnone
    have hsks : (UartMaskedComplete.step i s).sks = s.sks := by
      simp only [UartMaskedComplete.step, hfull, hlow, Bool.false_eq_true, if_false]
    rw [← hsame] at working memory
    rw [← hsks] at valid counts keys
    exact .works hm hc (counter_step counter) valid counts keys load mask penv working memory

section Rise
variable (hrise : lowClkRises i s = true)
include hrise

omit hnone in
theorem encrypt_rise :
    (step i s).encrypt = MaskedCompleteEncryption.edge (encryptPorts i s) s.encrypt := by
  rw [encrypt_ticks hticks, if_pos hrise]

omit hnone in
theorem engine_rise :
    (step i s).encrypt.toEngine = engine.edge (encryptPorts i s) s.encrypt.toEngine := by
  rw [encrypt_rise hticks hrise, MaskedCompleteEncryption.toEngine_edge]

theorem sks_rise : (step i s).sks = SubKeySchedule.edge masterkey s.sks := by
  have hfull := calm_full hticks hnone
  simp only [step, hfull, hrise, Bool.false_eq_true, if_false, if_true]

/-- The edge that loads the block. -/
theorem stage_load {r j : Nat} {msb : Bool} (progress : Progress r (plain, msb) j s) (hj : r + j = 431)
    (hr : r ≤ 11) (valid : Valid masterkey s.sks) (memory : s.encrypt.memCipher = mem) :
    Stage sel mem plain 36 (step i s) := by
  have hsks := sks_rise hticks hnone hrise
  obtain ⟨-, hterm⟩ := progress.terminated_iff.mpr ⟨hticks.rising, hj⟩
  have hkeys : s.sks.k = roundKeys masterkey := valid.done hterm
  have hcounts := SubKeySchedule.counts_edge masterkey progress.counts
  have hlast : (r + j) / 12 + 1 = 36 := by omega
  rw [hlast, ← hsks] at hcounts
  have hmask : (encryptPorts i s).mask = Lfsr.word (plain, msb) 3 := by
    have hthree : j / 129 = 3 := by omega
    have hword := (progress.follows hticks.rising).outp (by omega)
    rwa [hthree] at hword
  have hplain : (encryptPorts i s).plain = plain := by
    have hcoll : (rxCollStep i s).plain = s.rxColl.plain := by rw [calm_coll hticks hnone]
    exact hcoll.trans progress.plain
  have henv : (encryptPorts i s).env = env sel := by
    rw [CompleteEncryption.Ports.env, encryptPorts, hticks.mode, hkeys, env]
  have hwork := engine.working_start (i := encryptPorts i s) (s := s.encrypt.toEngine) progress.tour hterm
  rw [← engine_rise hticks hrise] at hwork
  have hready : (step i s).sks.k = roundKeys masterkey := by
    rw [hsks]
    exact SubKeySchedule.ready_edge masterkey valid hkeys
  refine .works (Nat.zero_le 10) rfl (counter_step progress.counter) (valid_step valid) hcounts hready
    hplain hmask henv hwork ?_
  rw [encrypt_rise hticks hrise, MaskedCompleteEncryption.edge_eq, if_pos progress.tour]
  exact (if_pos hterm).symm ▸ memory

theorem Stage.rise (h : Stage sel mem plain c s) (hc : c + 1 < 47) :
    Stage sel mem plain (c + 1) (step i s) := by
  cases h with
  | @expands r j msb progress hj hr hc' valid transmit memory =>
    by_cases hlast : r + j = 431
    · have hload := stage_load hticks hnone hrise progress hlast hr valid memory
      have hnow : c + 1 = 36 := by omega
      rwa [hnow]
    · have hphase := ((lowClkRises_iff progress.counter).mp hrise).2
      rw [progress.phase] at hphase
      have hnext := progress.next hticks.rising hticks.reset (calm_arrived hnone) (by omega)
      have hsame := encrypt_rest hticks progress.tour fun hon =>
        hlast (progress.terminated_iff.mp hon).2
      refine .expands hnext (by omega) hr (by omega) (valid_step valid) ?_ ?_
      · rw [hsame]
        exact transmit
      · rw [hsame]
        exact memory
  | @works m msb p hm hc' counter valid counts keys load mask penv working memory =>
    have htour : s.encrypt.tour = m + 1 := working.tour
    have henv : (encryptPorts i s).env = p.env := by
      rw [penv, CompleteEncryption.Ports.env, encryptPorts, hticks.mode, keys, env]
    have hlow : m < 10 := by omega
    have hwork := engine.working_step working hlow henv
    rw [← engine_rise hticks hrise] at hwork
    have hkeys : (UartMaskedComplete.step i s).sks.k = roundKeys masterkey := by
      rw [sks_rise hticks hnone hrise]
      exact SubKeySchedule.ready_edge masterkey valid keys
    refine .works (m := m + 1) hlow (by omega) (counter_step counter) (valid_step valid)
      (counts_step (calm_full hticks hnone) counts) hkeys load mask penv hwork ?_
    rw [encrypt_rise hticks hrise, MaskedCompleteEncryption.edge_eq, if_neg (by omega), if_pos (by omega)]
    exact memory

/-- The last edge. -/
theorem Stage.finish (h : Stage sel mem plain c s) (hlast : c + 1 = 47)
    (hdone : (txCollStep i s).doneTransmit = true) :
    ∃ mark, (∃ msb, mark = markOf sel plain msb) ∧
      (mem ≠ mark → Announces mark (response sel plain) (step i s)) ∧
      (mem = mark → Rests mark (step i s)) := by
  have hencrypt := encrypt_rise (s := s) hticks hrise
  have hvalid (h : Valid masterkey s.sks) : Valid masterkey (UartMaskedComplete.step i s).sks := valid_step h
  have hcounts (h : Counts 36 s.sks) : Counts 36 (UartMaskedComplete.step i s).sks :=
    counts_step (calm_full hticks hnone) h
  cases h with
  | expands _ hj _ hc => omega
  | @works m msb p hm hc counter valid counts keys load mask penv working memory =>
    obtain rfl : m = 10 := by omega
    have hmode : p.encDecSel = sel := congrArg CompleteEncryption.Env.encDecSel penv
    have hresult := MaskedCompleteEncryption.blockResult_eq p
    rw [penv, load] at hresult
    have hdatum : (⟨s.encrypt.interState, s.encrypt.interMask⟩ : Shares Block) = engine.stage p 10 :=
      working.datum
    have hsecret : s.encrypt.interState ^^^ s.encrypt.interMask = response sel plain :=
      (congrArg Shares.secret hdatum).trans hresult
    have hmask : s.encrypt.interMask = movedMask sel (Lfsr.word (plain, msb) 3) := by
      have hlast : (engine.stage p 10).mask = (engine.stage p 9).mask := by
        have hstage : engine.stage p 10 = MaskedCompleteEncryption.work p.env 10 (engine.stage p 9) := rfl
        rw [hstage, MaskedCompleteEncryption.work]
        simp only [Nat.lt_irrefl, if_false]
        split_ifs <;> rfl
      have hmoved := MaskedCompleteEncryption.mask_stage p 9 (Nat.le_refl 9)
      rw [hmode, mask] at hmoved
      exact ((congrArg Shares.mask hdatum).trans hlast).trans hmoved
    have hstate : s.encrypt.interState = markOf sel plain msb := by
      rw [markOf, ← hmask, ← hsecret, BitVec.xor_assoc, BitVec.xor_self, BitVec.xor_zero]
    have htour : s.encrypt.tour = 11 := working.tour
    have hports : (encryptPorts i s).transmitBefore = true := hdone
    rw [MaskedCompleteEncryption.edge_eq, if_neg (by omega), if_neg (by omega), if_pos htour,
      MaskedCompleteEncryption.finish] at hencrypt
    refine ⟨_, ⟨msb, rfl⟩, fun hnew => ?_, fun hold => ?_⟩
    · rw [if_pos ⟨hports, by rwa [memory, hstate]⟩] at hencrypt
      refine ⟨counter_step counter, hvalid valid, hcounts counts, ?_, ?_, ?_, ?_, ?_, ?_⟩
      · rw [hencrypt]
        exact htour
      · rw [hencrypt]
      · rw [hencrypt]
        exact hstate
      · rw [hencrypt]
        exact hstate
      · rw [hencrypt]
        exact hsecret
      · rw [hencrypt]
        exact hsecret
    · rw [if_neg fun hall => hall.2 (by rw [memory, hstate, hold])] at hencrypt
      refine ⟨counter_step counter, hvalid valid, hcounts counts, ?_, ?_, ?_⟩
      · rw [hencrypt]
      · rw [hencrypt]
      · rw [hencrypt]
        exact memory.trans hold

/-- The edge after an announcement takes it back. -/
theorem Announces.rise (h : Announces mark cipher s) :
    Rests mark (step i s) ∧ (step i s).encrypt.cipher = cipher := by
  have hencrypt := encrypt_rise (s := s) hticks hrise
  have htour := h.tour
  rw [MaskedCompleteEncryption.edge_eq, if_neg (by omega), if_neg (by omega), if_pos htour,
    MaskedCompleteEncryption.finish, if_neg fun hall => hall.2 (h.memory.trans h.state.symm)] at hencrypt
  refine ⟨⟨counter_step h.counter, valid_step h.valid, counts_step (calm_full hticks hnone) h.counts,
    ?_, ?_, ?_⟩, ?_⟩
  · rw [hencrypt]
  · rw [hencrypt]
  · rw [hencrypt]
    exact h.memory
  · rw [hencrypt]
    exact h.secret

end Rise

theorem Announces.low (h : Announces mark cipher s) (hlow : lowClkRises i s = false) :
    Announces mark cipher (step i s) := by
  have hsame : (UartMaskedComplete.step i s).encrypt = s.encrypt := by
    rw [encrypt_ticks hticks, hlow, if_neg Bool.false_ne_true]
  obtain ⟨counter, valid, counts, tour, transmit, memory, state, secret, cipher⟩ := h
  rw [← hsame] at tour transmit memory state secret cipher
  exact ⟨counter_step counter, valid_step valid, counts_step (calm_full hticks hnone) counts, tour,
    transmit, memory, state, secret, cipher⟩

end Step

/-- The design serves blocks. -/
def service (sel : Bool) : Service design sel Block where
  time := 47
  job := id
  result := response sel
  Mark plain mark := ∃ msb, mark = markOf sel plain msb
  Rests := Rests
  Stage := Stage sel
  Announces := Announces
  rests_silent h := h.transmit
  rests_step h hticks hfull :=
    ⟨(h.step hticks hfull).1, congrArg MaskedCompleteEncryption.Registers.cipher (h.step hticks hfull).2⟩
  rests_full h hticks hfull := h.begin hticks hfull
  stage_silent h := h.silent
  stage_lt h := h.lt
  stage_low h hticks hnone hlow := h.low hticks hnone hlow
  stage_rise h hticks hnone hrise hc := h.rise hticks hnone hrise hc
  stage_last h hticks hnone hrise hlast hdone := h.finish hticks hnone hrise hlast hdone
  announces_signals h := ⟨h.transmit, h.cipher⟩
  announces_low h hticks hnone hlow := h.low hticks hnone hlow
  announces_rise h hticks hnone hrise := h.rise hticks hnone hrise

/-! ## What the host hears -/

/-- For every block its result and a zero byte, unless the masked result is the one remembered. The bits
are what the generator has left over when it takes a block for its seed. -/
def replies (sel : Bool) : Block → List (Block × Bool) → List Byte
  | _, [] => []
  | last, (plain, msb) :: blocks =>
    (if last = markOf sel plain msb then [] else List.ofFn (firmware sel (bytes plain)) ++ [0]) ++
      replies sel (markOf sel plain msb) blocks

theorem answers_eq {jobs : List (Block × Block)} (hmarks : ∀ job ∈ jobs, ∃ msb, job.2 = markOf sel job.1 msb)
    (mem : Block) : ∃ msbs : List Bool, msbs.length = jobs.length ∧
      answers (response sel) mem jobs = replies sel mem ((jobs.map Prod.fst).zip msbs) := by
  induction jobs generalizing mem with
  | nil => exact ⟨[], rfl, rfl⟩
  | cons job jobs ih =>
    obtain ⟨plain, mark⟩ := job
    obtain ⟨msb, hmark⟩ := hmarks _ List.mem_cons_self
    obtain rfl : mark = markOf sel plain msb := hmark
    obtain ⟨msbs, hlength, hlater⟩ := ih (fun job hjob => hmarks job (List.mem_cons_of_mem _ hjob))
      (markOf sel plain msb)
    refine ⟨msb :: msbs, congrArg Nat.succ hlength, ?_⟩
    rw [answers, hlater, List.map_cons, List.zip_cons_cons, replies, reply, bytes_response]

/-- Whatever blocks a host sends and whatever the generator holds at power-up, what the host hears are the
results of the firmware, in order, for the blocks whose masked result is new, and nothing else. -/
theorem masked_exchange {state outp : Block} {input : Nat → Input} {blocks : List Block}
    (h : ∀ t, Ticks sel (input t)) (hasks : Asks (service sel).exchangeTime input 0 blocks) :
    ∃ msbs : List Bool, msbs.length = blocks.length ∧
      (∀ n, design.heard (.init state outp) input n <+: replies sel 0 (blocks.zip msbs)) ∧
      ∃ n, ∀ k, design.heard (.init state outp) input (n + k) = replies sel 0 (blocks.zip msbs) := by
  have hrests : (service sel).Rests 0 (.init state outp) :=
    ⟨Nat.zero_le 5, SubKeySchedule.valid_init _, ⟨rfl, rfl⟩, rfl, rfl, rfl⟩
  obtain ⟨jobs, hjobs, hmarks, hheard⟩ := Service.heard_answers h rfl hasks hrests
  obtain rfl : jobs.map Prod.fst = blocks := hjobs.trans (List.map_id blocks)
  obtain ⟨msbs, hlength, hanswers⟩ := answers_eq hmarks 0
  refine ⟨msbs, hlength.trans (List.length_map _).symm, ?_⟩
  rw [← hanswers]
  exact hheard

theorem masked_exchange_oneBlock : ∃ msbs : List Bool, msbs.length = [(1 : Block)].length ∧
    (∀ n, design.heard (.init 0 0) (oneBlock 1) n <+: replies false 0 ([1].zip msbs)) ∧
    ∃ n, ∀ k, design.heard (.init 0 0) (oneBlock 1) (n + k) = replies false 0 ([1].zip msbs) :=
  masked_exchange (fun _ => ⟨rfl, rfl, rfl⟩) (asks_oneBlock _ 1)

end KuznyechikDPA.UartMaskedComplete

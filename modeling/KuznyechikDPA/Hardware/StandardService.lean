import KuznyechikDPA.Hardware.Exchange
import KuznyechikDPA.Hardware.Timeline

/-!
# The exchange with `UART_STANDARD_COMPLETE`

The design expands the key for 35 edges of `LOWclk`, works for eleven, and announces its result if it
differs from the one announced last. In this it serves blocks, and the host hears the replies.
-/

namespace KuznyechikDPA.Core
open SubKeySchedule (Counts Valid roundKeys)

variable {sel : Bool} {plain mem result : Block} {c : Nat} {e : Sample} {s : Registers}

/-- What the working edges read in mode `sel`. -/
def env (sel : Bool) : CompleteEncryption.Env := ⟨sel, roundKeys masterkey⟩

/-- The block that the design makes of `plain`. -/
def response (sel : Bool) (plain : Block) : Block := CompleteEncryption.transform (env sel) plain

/-- Between two blocks. -/
structure Rests (mem : Block) (s : Registers) : Prop where
  valid : Valid masterkey s.sks
  counts : Counts 36 s.sks
  tour : s.encrypt.tour = 0
  transmit : s.encrypt.canTransmit = false
  memory : s.encrypt.memCipher = mem

/-- `c` edges of `LOWclk` after `full_data`. -/
inductive Stage (sel : Bool) (plain mem : Block) : Nat → Registers → Prop
  | expands {c : Nat} {s : Registers} (hc : c ≤ 35) (valid : Valid masterkey s.sks)
      (counts : Counts c s.sks) (tour : s.encrypt.tour = 0) (transmit : s.encrypt.canTransmit = false)
      (memory : s.encrypt.memCipher = mem) : Stage sel plain mem c s
  | works {c : Nat} {s : Registers} {p : CompleteEncryption.Ports} (hc : c ≤ 10)
      (valid : Valid masterkey s.sks) (counts : Counts 36 s.sks) (keys : s.sks.k = roundKeys masterkey)
      (load : p.plain = plain) (penv : p.env = env sel)
      (working : CompleteEncryption.engine.Working p c s.encrypt.toEngine)
      (memory : s.encrypt.memCipher = mem) : Stage sel plain mem (36 + c) s

/-- A result is announced. -/
structure Announces (result : Block) (s : Registers) : Prop where
  valid : Valid masterkey s.sks
  counts : Counts 36 s.sks
  tour : s.encrypt.tour = 11
  transmit : s.encrypt.canTransmit = true
  state : s.encrypt.interState = result
  memory : s.encrypt.memCipher = result
  cipher : s.encrypt.cipher = result

theorem Stage.silent (h : Stage sel plain mem c s) : s.encrypt.canTransmit = false := by
  cases h with
  | expands _ _ _ _ transmit _ => exact transmit
  | works _ _ _ _ _ _ working _ => exact working.silent

theorem Stage.le (h : Stage sel plain mem c s) : c ≤ 46 := by
  cases h with
  | expands hc _ _ _ _ _ => omega
  | works hc _ _ _ _ _ _ _ => omega

theorem counts_rest {s : SubKeySchedule.Registers} (h : Counts 36 s) :
    Counts 36 (SubKeySchedule.edge masterkey s) := by
  have hnext := SubKeySchedule.counts_edge masterkey h
  exact ⟨hnext.index, hnext.terminated⟩

/-! ## One instant -/

section Step
variable (hreset : e.reset = false)
include hreset

/-- Without `can_start` nothing moves. -/
theorem encrypt_rest (htour : s.encrypt.tour = 0) (hterm : s.sks.terminated = false) :
    (step masterkey e s).encrypt = s.encrypt := by
  rw [encrypt_step hreset]
  split_ifs
  · rw [CompleteEncryption.edge_eq, if_pos htour]
    apply if_neg
    rw [ports, hterm]
    exact Bool.false_ne_true
  · rfl

theorem Rests.step (h : Rests mem s) (hfull : e.fullData = false) :
    Rests mem (step masterkey e s) ∧ (step masterkey e s).encrypt = s.encrypt := by
  have hencrypt := encrypt_rest hreset h.tour h.counts.terminated
  have hcounts : Counts 36 (Core.step masterkey e s).sks := by
    simp only [Core.step, hfull, Bool.false_eq_true, if_false]
    split_ifs
    · exact counts_rest h.counts
    · exact h.counts
  refine ⟨⟨valid_step masterkey e s h.valid, hcounts, ?_, ?_, ?_⟩, hencrypt⟩
  · rw [hencrypt]
    exact h.tour
  · rw [hencrypt]
    exact h.transmit
  · rw [hencrypt]
    exact h.memory

/-- `full_data` begins a block. -/
theorem Rests.begin (h : Rests mem s) (hfull : e.fullData = true) :
    Stage sel plain mem 0 (Core.step masterkey e s) := by
  have hencrypt := encrypt_rest hreset h.tour h.counts.terminated
  have hsks : (Core.step masterkey e s).sks = SubKeySchedule.reset s.sks := if_pos hfull
  refine .expands (Nat.zero_le _) (valid_step masterkey e s h.valid) ?_ ?_ ?_ ?_
  · rw [hsks]
    exact SubKeySchedule.counts_reset _
  · rw [hencrypt]
    exact h.tour
  · rw [hencrypt]
    exact h.transmit
  · rw [hencrypt]
    exact h.memory

variable (hfull : e.fullData = false)
include hfull

omit hreset in
theorem sks_rest (hcounts : Counts 36 s.sks) : Counts 36 (step masterkey e s).sks := by
  simp only [step, hfull, Bool.false_eq_true, if_false]
  split_ifs
  · exact counts_rest hcounts
  · exact hcounts

theorem step_low (hlow : e.rising = false) : step masterkey e s = s := by
  apply Registers.ext
  · simp only [step, hfull, hlow, Bool.false_eq_true, if_false]
  · simp only [step, hreset, hlow, Bool.false_eq_true, if_false]

omit hreset in
theorem sks_rise (hrise : e.rising = true) :
    (step masterkey e s).sks = SubKeySchedule.edge masterkey s.sks := by
  simp only [step, hfull, hrise, Bool.false_eq_true, if_false, if_true]

omit hfull in
theorem encrypt_rise (hrise : e.rising = true) :
    (step masterkey e s).encrypt = CompleteEncryption.edge (ports e s) s.encrypt := by
  rw [encrypt_step hreset, if_pos hrise]

/-- The edges before the last one. -/
theorem Stage.rise (h : Stage sel plain mem c s) (hc : c ≤ 45) (hrise : e.rising = true)
    (hplain : e.plain = plain) (hmode : e.encDecSel = sel) :
    Stage sel plain mem (c + 1) (step masterkey e s) := by
  have hsks := sks_rise (s := s) hfull hrise
  have hencrypt := encrypt_rise (s := s) hreset hrise
  cases h with
  | expands hc valid counts tour transmit memory =>
    have hvalid := valid_step masterkey e s valid
    have hcounts := SubKeySchedule.counts_edge masterkey counts
    rw [← hsks] at hcounts
    by_cases hlast : c = 35
    · have hterm : s.sks.terminated = true := by
        rw [counts.terminated]
        exact decide_eq_true hlast
      have hkeys := valid.done hterm
      have hwork := CompleteEncryption.engine.working_start (i := ports e s) (s := s.encrypt.toEngine)
        tour hterm
      rw [← CompleteEncryption.toEngine_edge, ← hencrypt] at hwork
      subst hlast
      refine .works (p := ports e s) (Nat.zero_le _) hvalid hcounts ?_ hplain ?_ hwork ?_
      · rw [hsks]
        exact SubKeySchedule.ready_edge masterkey valid hkeys
      · rw [CompleteEncryption.Ports.env, ports, hmode, hkeys, env]
      · rw [hencrypt, CompleteEncryption.edge_eq, if_pos tour, if_pos]
        · exact memory
        · exact hterm
    · have hterm : s.sks.terminated = false := by
        rw [counts.terminated]
        exact decide_eq_false hlast
      have hsame := encrypt_rest hreset tour hterm
      refine .expands (by omega) hvalid hcounts ?_ ?_ ?_
      · rw [hsame]
        exact tour
      · rw [hsame]
        exact transmit
      · rw [hsame]
        exact memory
  | @works c _ p _ valid counts keys load penv working memory =>
    have htour : s.encrypt.tour = c + 1 := working.tour
    have hkeys : (ports e s).env = p.env := by
      rw [penv, CompleteEncryption.Ports.env, ports, hmode, keys, env]
    have hwork := CompleteEncryption.engine.working_step working (Nat.lt_of_lt_of_le (by omega) (Nat.le_refl 10))
      hkeys
    rw [← CompleteEncryption.toEngine_edge, ← hencrypt] at hwork
    rw [Nat.add_assoc]
    refine .works (by omega) (valid_step masterkey e s valid) (sks_rest hfull counts) ?_ load penv hwork ?_
    · rw [hsks]
      exact SubKeySchedule.ready_edge masterkey valid keys
    · rw [hencrypt, CompleteEncryption.edge_eq, if_neg (by omega), if_pos (by omega)]
      exact memory

/-- The last edge: a new result is announced, an old one is not. -/
theorem Stage.finish (h : Stage sel plain mem 46 s) (hrise : e.rising = true)
    (hready : e.transmitBefore = true) :
    (mem ≠ response sel plain → Announces (response sel plain) (step masterkey e s)) ∧
      (mem = response sel plain → Rests (response sel plain) (step masterkey e s)) := by
  have hencrypt := encrypt_rise (s := s) hreset hrise
  generalize hlast : 46 = last at h
  cases h with
  | expands hc _ _ _ _ _ => omega
  | @works c _ p _ valid counts keys load penv working memory =>
    obtain rfl : c = 10 := by omega
    have hstate : s.encrypt.interState = response sel plain := by
      have hdatum := working.datum
      have hresult := CompleteEncryption.blockResult_eq p
      rw [penv, load] at hresult
      exact hdatum.trans hresult
    have htour : s.encrypt.tour = 11 := working.tour
    have hvalid := valid_step masterkey e s valid
    have hcounts := sks_rest hfull counts
    rw [CompleteEncryption.edge_eq, if_neg (by omega), if_neg (by omega), if_pos htour,
      CompleteEncryption.finish] at hencrypt
    have hports : (ports e s).transmitBefore = true := hready
    constructor
    · intro hnew
      rw [if_pos ⟨hports, by rwa [memory, hstate]⟩] at hencrypt
      refine ⟨hvalid, hcounts, ?_, ?_, ?_, ?_, ?_⟩
      · rw [hencrypt]
        exact htour
      · rw [hencrypt]
      · rw [hencrypt]
        exact hstate
      · rw [hencrypt]
        exact hstate
      · rw [hencrypt]
        exact hstate
    · intro hold
      rw [if_neg fun hall => hall.2 (by rw [memory, hstate, hold])] at hencrypt
      refine ⟨hvalid, hcounts, ?_, ?_, ?_⟩
      · rw [hencrypt]
      · rw [hencrypt]
      · rw [hencrypt]
        exact memory.trans hold

/-- The edge after an announcement takes it back. -/
theorem Announces.rise (h : Announces result s) (hrise : e.rising = true) :
    Rests result (step masterkey e s) ∧ (step masterkey e s).encrypt.cipher = result := by
  have hencrypt := encrypt_rise (s := s) hreset hrise
  rw [CompleteEncryption.edge_of_announced h.tour (h.memory.trans h.state.symm)] at hencrypt
  refine ⟨⟨valid_step masterkey e s h.valid, sks_rest hfull h.counts, ?_, ?_, ?_⟩, ?_⟩
  · rw [hencrypt]
  · rw [hencrypt]
  · rw [hencrypt]
    exact h.memory
  · rw [hencrypt]
    exact h.state

end Step
end KuznyechikDPA.Core

namespace KuznyechikDPA.UartStandardComplete
open KuznyechikDPA.Core (response)
open Shell (Ticks)

variable {sel : Bool} {mem plain : Block} {c : Nat} {i : Input} {s : Registers}

def shell (s : Registers) : Shell where
  clkCounter := s.clkCounter
  lowClk := s.lowClk
  rxComp := s.rxComp
  rxColl := s.rxColl
  txColl := s.txColl
  txComp := s.txComp

def design : Design Registers where
  step := step
  shell := shell
  cipher s := s.core.encrypt.cipher
  canTransmit s := s.core.encrypt.canTransmit
  shell_step _ _ := rfl

section Calm
variable (hticks : Ticks sel i) (hnone : (shell s).hears = [])
include hticks hnone

theorem calm_sample : (coreSample i s).reset = false ∧ (coreSample i s).fullData = false ∧
    (coreSample i s).plain = s.rxColl.plain := by
  have hcoll : rxCollStep i s = { s.rxColl with fullData := false } := Shell.rxCollStep_quiet hticks hnone
  refine ⟨hticks.reset, ?_, ?_⟩
  · simp only [coreSample, hcoll]
  · simp only [coreSample, hcoll]

theorem core_low (hlow : (shell s).lowClkRises i = false) : (step i s).core = s.core := by
  obtain ⟨hreset, hfull, -⟩ := calm_sample hticks hnone
  exact Core.step_low (e := coreSample i s) hreset hfull hlow

theorem plain_calm (hplain : s.rxColl.plain = plain) : (step i s).rxColl.plain = plain := by
  have hcoll : rxCollStep i s = { s.rxColl with fullData := false } := Shell.rxCollStep_quiet hticks hnone
  have hnext : (step i s).rxColl = rxCollStep i s := rfl
  rw [hnext, hcoll]
  exact hplain

theorem stage_low (h : Core.Stage sel plain mem c s.core ∧ s.rxColl.plain = plain)
    (hlow : (shell s).lowClkRises i = false) :
    Core.Stage sel plain mem c (step i s).core ∧ (step i s).rxColl.plain = plain := by
  rw [core_low hticks hnone hlow]
  exact ⟨h.1, plain_calm hticks hnone h.2⟩

theorem stage_rise (h : Core.Stage sel plain mem c s.core ∧ s.rxColl.plain = plain)
    (hrise : (shell s).lowClkRises i = true) (hc : c + 1 < 47) :
    Core.Stage sel plain mem (c + 1) (step i s).core ∧ (step i s).rxColl.plain = plain := by
  obtain ⟨hreset, hfull, hsame⟩ := calm_sample hticks hnone
  have hstage := h.1.rise (e := coreSample i s) hreset hfull (by omega) hrise (hsame.trans h.2) hticks.mode
  exact ⟨hstage, plain_calm hticks hnone h.2⟩

theorem stage_last (h : Core.Stage sel plain mem c s.core) (hrise : (shell s).lowClkRises i = true)
    (hlast : c + 1 = 47) (hdone : (txCollStep i s).doneTransmit = true) :
    ∃ mark, mark = response sel plain ∧
      (mem ≠ mark → mark = response sel plain ∧ Core.Announces (response sel plain) (step i s).core) ∧
      (mem = mark → Core.Rests mark (step i s).core) := by
  obtain ⟨hreset, hfull, -⟩ := calm_sample hticks hnone
  obtain rfl : c = 46 := Nat.succ.inj hlast
  obtain ⟨hnew, hold⟩ := h.finish (e := coreSample i s) hreset hfull hrise hdone
  exact ⟨_, rfl, fun hne => ⟨rfl, hnew hne⟩, hold⟩

theorem announces_low {mark cipher : Block} (h : mark = cipher ∧ Core.Announces cipher s.core)
    (hlow : (shell s).lowClkRises i = false) :
    mark = cipher ∧ Core.Announces cipher (step i s).core := by
  rwa [core_low hticks hnone hlow]

theorem announces_rise {mark cipher : Block} (h : mark = cipher ∧ Core.Announces cipher s.core)
    (hrise : (shell s).lowClkRises i = true) :
    Core.Rests mark (step i s).core ∧ (step i s).core.encrypt.cipher = cipher := by
  obtain ⟨rfl, hannounces⟩ := h
  obtain ⟨hreset, hfull, -⟩ := calm_sample hticks hnone
  exact hannounces.rise (e := coreSample i s) hreset hfull hrise

end Calm

theorem rests_step (hticks : Ticks sel i) (h : Core.Rests mem s.core)
    (hfull : ((shell s).rxCollStep i).fullData = false) :
    Core.Rests mem (step i s).core ∧ (step i s).core.encrypt.cipher = s.core.encrypt.cipher := by
  obtain ⟨hrests, hsame⟩ := h.step (e := coreSample i s) hticks.reset hfull
  exact ⟨hrests, congrArg CompleteEncryption.Registers.cipher hsame⟩

theorem rests_full (hticks : Ticks sel i) (h : Core.Rests mem s.core)
    (hfull : ((shell s).rxCollStep i).fullData = true) :
    Core.Stage sel ((shell s).rxCollStep i).plain mem 0 (step i s).core :=
  h.begin (e := coreSample i s) hticks.reset hfull

/-- The design serves blocks; the mark of a block is its result. -/
def service (sel : Bool) : Service design sel Block where
  time := 47
  job := id
  result := response sel
  Mark plain mark := mark = response sel plain
  Rests mem s := Core.Rests mem s.core
  Stage mem plain c s := Core.Stage sel plain mem c s.core ∧ s.rxColl.plain = plain
  Announces mark cipher s := mark = cipher ∧ Core.Announces cipher s.core
  rests_silent h := h.transmit
  rests_step h hticks hfull := rests_step hticks h hfull
  rests_full h hticks hfull := ⟨rests_full hticks h hfull, rfl⟩
  stage_silent h := h.1.silent
  stage_lt h := Nat.lt_succ_of_le h.1.le
  stage_low h hticks hnone hlow := stage_low hticks hnone h hlow
  stage_rise h hticks hnone hrise hc := stage_rise hticks hnone h hrise hc
  stage_last h hticks hnone hrise hlast hdone := stage_last hticks hnone h.1 hrise hlast hdone
  announces_signals h := ⟨h.2.transmit, h.2.cipher⟩
  announces_low h hticks hnone hlow := announces_low hticks hnone h hlow
  announces_rise h hticks hnone hrise := announces_rise hticks hnone h hrise

/-! ## Replies as the firmware computes them -/

/-- A block through the firmware under the key of the design. -/
def firmware (sel : Bool) (input : State) : State :=
  let g := Kuznyechik.setkey .init (SubKeySchedule.keyBytes Core.masterkey)
  if sel = true then Kuznyechik.decrypto g input else Kuznyechik.crypto g input

/-- For every block its result and a zero byte, unless the result is the last one again. -/
def replies (sel : Bool) : State → List State → List Byte
  | _, [] => []
  | last, input :: inputs =>
    (if last = firmware sel input then [] else List.ofFn (firmware sel input) ++ [0]) ++
      replies sel (firmware sel input) inputs

theorem bytes_response (sel : Bool) (plain : Block) :
    bytes (response sel plain) = firmware sel (bytes plain) := by
  have hkeys := SubKeySchedule.bytes_roundKeys Core.masterkey .init
  cases sel with
  | false => exact CompleteEncryption.bytes_transform_encrypt hkeys plain
  | true => exact CompleteEncryption.bytes_transform_decrypt hkeys plain

theorem answers_eq {jobs : List (Block × Block)} (hmarks : ∀ job ∈ jobs, job.2 = response sel job.1)
    (mem : Block) :
    answers (response sel) mem jobs = replies sel (bytes mem) ((jobs.map Prod.fst).map bytes) := by
  induction jobs generalizing mem with
  | nil => rfl
  | cons job jobs ih =>
    obtain ⟨plain, mark⟩ := job
    obtain rfl : mark = response sel plain := hmarks _ List.mem_cons_self
    rw [answers, ih fun job hjob => hmarks job (List.mem_cons_of_mem _ hjob), List.map_cons, List.map_cons,
      replies, reply, ← bytes_response]
    simp only [bytes_injective.eq_iff]

/-- Whatever blocks a host sends, what it hears are the replies to them, in order, and nothing else. -/
theorem exchange {input : Nat → Input} {blocks : List Block} (h : ∀ t, Ticks sel (input t))
    (hasks : Asks (service sel).exchangeTime input 0 blocks) :
    (∀ n, design.heard .init input n <+: replies sel 0 (blocks.map bytes)) ∧
      ∃ n, ∀ k, design.heard .init input (n + k) = replies sel 0 (blocks.map bytes) := by
  have hrests : (service sel).Rests 0 .init := ⟨SubKeySchedule.valid_init _, ⟨rfl, rfl⟩, rfl, rfl, rfl⟩
  obtain ⟨jobs, hjobs, hmarks, hheard⟩ := Service.heard_answers h rfl hasks hrests
  have hblocks : jobs.map Prod.fst = blocks := hjobs.trans (List.map_id blocks)
  have hanswers : answers (response sel) 0 jobs = replies sel (bytes 0) (blocks.map bytes) := by
    rw [answers_eq hmarks, hblocks]
  have hzero : bytes 0 = 0 := by decide
  rw [hzero] at hanswers
  rw [← hanswers]
  exact hheard

theorem exchange_oneBlock :
    (∀ n, design.heard .init (oneBlock 1) n <+: replies false 0 ([1].map bytes)) ∧
      ∃ n, ∀ k, design.heard .init (oneBlock 1) (n + k) = replies false 0 ([1].map bytes) :=
  exchange (fun _ => ⟨rfl, rfl, rfl⟩) (asks_oneBlock _ 1)

end KuznyechikDPA.UartStandardComplete

import KuznyechikDPA.Aes.PowerUp
import KuznyechikDPA.Hardware.Exchange

/-!
# The exchange with `UART_AES256_MASKED`

The design is busy at power-up, with the block that nobody has sent. Its host hears this block first and
then AES-256 of its own blocks. The mask of a block is the fifteenth word of the generator after its start,
the mask of the first block what the generator holds at power-up.
-/

namespace KuznyechikDPA.UartAes256Masked
open Aes256Pkg
open AesSubKeySchedule (Unset Expands ninthTerm pendingWord joined)
open UartStandardComplete (Input generics)
open Aes256EncryptionMasked (engine transform movedMask)
open Shell (Ticks)

variable {outp mem mark cipher : Block} {x : Option Block} {c : Nat} {i : Input} {s : Registers}

def shell (s : Registers) : Shell where
  clkCounter := s.clkCounter
  lowClk := s.lowClk
  rxComp := s.rxComp
  rxColl := s.rxColl
  txColl := s.txColl
  txComp := s.txComp

def design : Design Registers where
  step := step
  shell := shell
  cipher s := s.encrypt.cipher
  canTransmit s := s.encrypt.canTransmit
  shell_step _ _ := rfl

/-! ## Jobs -/

/-- The round keys of a received block, and of the block at power-up. -/
def jobKeys : Option Block → Nat → Block
  | none => fun _ => 0
  | some _ => keys

/-- What the design makes of a job. -/
def jobResult (x : Option Block) : Block := transform (jobKeys x) (x.getD 0)

/-- What the generator can have ready for a job. -/
def JobMask (outp : Block) : Option Block → Block → Prop
  | none, mask => mask = outp
  | some plain, mask => ∃ msb, mask = Lfsr.word (plain, msb) 15

/-- What can be remembered of a job. -/
def JobMark (outp : Block) (x : Option Block) (mark : Block) : Prop :=
  ∃ mask, JobMask outp x mask ∧ mark = jobResult x ^^^ movedMask mask

/-- The ports of the encryption when it loads the job. -/
structure Presented (outp : Block) (x : Option Block) (b : Aes256EncryptionMasked.Ports) : Prop where
  mode : b.encDecSel = false
  subKeys : b.subKeys = jobKeys x
  plain : b.plain = x.getD 0
  mask : JobMask outp x b.mask

/-! ## The key schedule -/

/-- There are fifteen ports. -/
def Bounded (s : AesSubKeySchedule.Registers) : Prop := ∀ i, 15 ≤ i → s.k i = 0

/-- The words from which the round keys of a job are taken. -/
def Words : Option Block → AesSubKeySchedule.Registers → Prop
  | none, s => Unset s
  | some _, s => Expands masterkey (ninthTerm masterkey) s

theorem words_edge {s : AesSubKeySchedule.Registers} (h : Words x s) :
    Words x (AesSubKeySchedule.edge masterkey s) := by
  cases x with
  | none => exact AesSubKeySchedule.unset_edge masterkey h
  | some _ => exact AesSubKeySchedule.expands_edge h

theorem ports_edge {s : AesSubKeySchedule.Registers} (h : s.index = 60) :
    (AesSubKeySchedule.edge masterkey s).k = fun i => if i < 15 then joined s.w i else s.k i := by
  simp [AesSubKeySchedule.edge, h]

theorem bounded_edge {s : AesSubKeySchedule.Registers} (h : Bounded s) :
    Bounded (AesSubKeySchedule.edge masterkey s) := by
  intro i hi
  by_cases h60 : s.index = 60
  · rw [ports_edge h60]
    simp only
    rw [if_neg (Nat.not_lt.mpr hi)]
    exact h i hi
  · rw [(k_edge h60).1]
    exact h i hi

/-- The signal lasts one edge. -/
theorem terminated_edge {s : AesSubKeySchedule.Registers} (h : 60 < s.index) :
    (AesSubKeySchedule.edge masterkey s).terminated = false := by
  refine Bool.eq_false_iff.mpr fun hon => ?_
  have hlow := ((k_edge (Nat.ne_of_gt h)).2 hon).1
  omega

/-- The edge that signals puts the round keys of the job on the ports. -/
theorem keys_edge {s : AesSubKeySchedule.Registers} (h : Words x s) (hbounded : Bounded s)
    (h60 : s.index = 60) : (AesSubKeySchedule.edge masterkey s).k = jobKeys x := by
  rw [ports_edge h60]
  funext i
  by_cases hi : i < 15
  · rw [if_pos hi]
    cases x with
    | none =>
      have hunset : Unset s := h
      rw [joined, hunset.w, hunset.w, hunset.w, hunset.w]
      exact AesSubKeySchedule.joined_zero i
    | some _ =>
      rw [(AesSubKeySchedule.joined_eq_iff h h60).mpr rfl i hi, jobKeys, keys, if_pos hi]
  · rw [if_neg hi, hbounded i (Nat.not_lt.mp hi)]
    cases x with
    | none => rfl
    | some _ => rw [jobKeys, keys, if_neg hi]

theorem words_reset {s : AesSubKeySchedule.Registers} (h : s.indexWasTaken = 1) (plain : Block) :
    Words (some plain) (AesSubKeySchedule.reset s) := by
  have hpending : pendingWord masterkey 8 s = ninthTerm masterkey := if_pos h
  have hexpands := AesSubKeySchedule.expands_reset masterkey s
  rwa [hpending] at hexpands

section Step
variable (hfull : (rxCollStep i s).fullData = false)
include hfull

theorem bounded_step (h : Bounded s.sks) : Bounded (step i s).sks := by
  rw [sks_step hfull]
  split_ifs
  · exact bounded_edge h
  · exact h

theorem words_step (h : Words x s.sks) : Words x (step i s).sks := by
  rw [sks_step hfull]
  split_ifs
  · exact words_edge h
  · exact h

theorem index_step (h : 60 < s.sks.index) : 60 < (step i s).sks.index := by
  rw [sks_step hfull]
  split_ifs
  · rw [index_edge h]
    exact h
  · exact h

theorem terminated_rise (h : 60 < s.sks.index) (hrise : lowClkRises i s = true) :
    (step i s).sks.terminated = false := by
  rw [sks_step hfull, if_pos hrise]
  exact terminated_edge h

end Step

/-! ## The generator -/

/-- The generator `j` edges after `full_data` has risen. -/
structure Seeded (cells : Lfsr.Cells) (j : Nat) (s : Registers) : Prop where
  full : s.rxColl.fullData = decide (j = 0)
  seed : j = 0 → (s.rxColl.plain, s.prng.MSB) = cells
  prng : ∀ n, j = n + 1 → Lfsr.Follows cells n s.prng

/-- The generator in stage `c` of a job; nobody has started it for the first one. -/
inductive Generates (outp : Block) : Option Block → Nat → Registers → Prop
  | unset {c : Nat} {s : Registers} (full : s.rxColl.fullData = false) (run : s.prng.canRun = false)
      (held : s.prng.outp = outp) : Generates outp none c s
  | seeded {plain : Block} {msb : Bool} {c r j : Nat} {s : Registers} (hr : r ≤ 11)
      (hj : r + j = 12 * c + sinceRise s) (seed : Seeded (plain, msb) j s) : Generates outp (some plain) c s

section Ticks
variable (hticks : Ticks false i)
include hticks

theorem prng_ticks : (step i s).prng = Lfsr.edge (prngPorts s) s.prng := if_pos hticks.rising

theorem Seeded.follows {cells : Lfsr.Cells} {j : Nat} (h : Seeded cells j s) :
    Lfsr.Follows cells j (step i s).prng := by
  have hfull := h.full
  rw [prng_ticks hticks]
  cases j with
  | zero =>
    have hnext := Lfsr.follows_start (p := prngPorts s) hfull s.prng
    have hseed : ((prngPorts s).seed, s.prng.MSB) = cells := h.seed rfl
    rwa [hseed] at hnext
  | succ j => exact Lfsr.follows_edge (p := prngPorts s) hfull (h.prng j rfl)

/-- The mask at the load edge. -/
theorem Generates.mask (h : Generates outp x 165 s) (hlast : sinceRise s = 11) :
    JobMask outp x (prngStep i s).outp := by
  have hprng : (step i s).prng = prngStep i s := rfl
  rw [← hprng]
  cases h with
  | unset full run held =>
    rw [prng_ticks hticks, Lfsr.edge_idle (p := prngPorts s) full run]
    exact held
  | @seeded plain msb _ r j _ hr hj seed =>
    have hword := (seed.follows hticks).outp (by omega)
    have hfifteen : j / 129 = 15 := by omega
    rw [hfifteen] at hword
    exact ⟨msb, hword⟩

variable (hcounter : s.clkCounter ≤ 5) (hnone : (shell s).hears = [])
include hcounter hnone

omit hcounter in
theorem calm_coll : rxCollStep i s = { s.rxColl with fullData := false } :=
  Shell.rxCollStep_quiet hticks hnone

omit hcounter in
theorem Seeded.next {cells : Lfsr.Cells} {j : Nat} (h : Seeded cells j s) :
    Seeded cells (j + 1) (step i s) := by
  have hcoll : (step i s).rxColl = { s.rxColl with fullData := false } := calm_coll hticks hnone
  refine ⟨?_, fun hzero => absurd hzero (Nat.succ_ne_zero j), fun n hn => ?_⟩
  · rw [hcoll]
    exact (decide_eq_false (Nat.succ_ne_zero j)).symm
  · obtain rfl : j = n := Nat.succ.inj hn
    exact h.follows hticks

theorem Generates.next (h : Generates outp x c s) :
    Generates outp x (if lowClkRises i s then c + 1 else c) (step i s) := by
  cases h with
  | unset full run held =>
    have hcoll : (step i s).rxColl = { s.rxColl with fullData := false } := calm_coll hticks hnone
    have hprng : (step i s).prng = s.prng := by
      rw [prng_ticks hticks]
      exact Lfsr.edge_idle (p := prngPorts s) full run
    refine .unset ?_ ?_ ?_
    · rw [hcoll]
    · rw [hprng]
      exact run
    · rw [hprng]
      exact held
  | @seeded plain msb _ r j _ hr hj seed =>
    have hsince := sinceRise_step hticks.rising hcounter
    refine .seeded hr ?_ (seed.next hticks hnone)
    by_cases hlast : sinceRise s = 11
    · rw [if_pos ((lowClkRises_iff hcounter).mpr ⟨hticks.rising, hlast⟩)]
      rw [if_pos hlast] at hsince
      omega
    · rw [if_neg fun hup => hlast ((lowClkRises_iff hcounter).mp hup).2]
      rw [if_neg hlast] at hsince
      omega

end Ticks

/-! ## The stages of a job -/

/-- Between two blocks. -/
structure Rests (mem : Block) (s : Registers) : Prop where
  place : InPlace s
  paced : Paced s
  index : 60 < s.sks.index
  terminated : s.sks.terminated = false
  bounded : Bounded s.sks
  tour : s.encrypt.tour = 0
  memory : s.encrypt.memCipher = mem

/-- `c` edges of `LOWclk` after `full_data`. -/
structure Serving (outp mem : Block) (x : Option Block) (c : Nat) (s : Registers) : Prop where
  place : InPlace s
  paced : Paced s
  before : c ≤ 180
  stage : Stage (jobKeys x) (Presented outp x) mem False c s
  plain : s.rxColl.plain = x.getD 0
  words : Words x s.sks
  bounded : Bounded s.sks
  generates : Generates outp x c s

/-- A result is announced. -/
structure Announces (mark cipher : Block) (s : Registers) : Prop where
  place : InPlace s
  paced : Paced s
  index : 60 < s.sks.index
  bounded : Bounded s.sks
  tour : s.encrypt.tour = 15
  transmit : s.encrypt.canTransmit = true
  memory : s.encrypt.memCipher = mark
  state : s.encrypt.interState = mark
  secret : s.encrypt.interState ^^^ s.encrypt.interMask = cipher
  cipher : s.encrypt.cipher = cipher

theorem Rests.silent (h : Rests mem s) : s.encrypt.canTransmit = false := canTransmit_rest h.paced h.tour

theorem Serving.silent (h : Serving outp mem x c s) : s.encrypt.canTransmit = false :=
  h.stage.silent h.paced h.before

/-- The signal of the schedule is high in stage 165 only. -/
theorem Serving.signal (h : Serving outp mem x c s) (hon : s.sks.terminated = true) :
    c = 165 ∧ s.sks.k = jobKeys x := by
  obtain ⟨hindex, htour, -⟩ := h.paced.signal hon
  have hbefore := h.before
  cases h.stage with
  | expanding hlow _ _ _ => omega
  | signal hc hk _ _ _ => exact ⟨hc, hk⟩
  | working _ _ _ _ _ _ hwork _ => exact absurd (hwork.tour.symm.trans htour) (Nat.succ_ne_zero _)
  | published hc _ _ _ => omega

/-- A result that comes from the job. -/
theorem Presented.result {b : Aes256EncryptionMasked.Ports} (h : Presented outp x b) :
    engine.blockResult b = jobResult x ∧ JobMark outp x (engine.blockMark b) := by
  have hresult : engine.blockResult b = jobResult x := by
    rw [Aes256EncryptionMasked.blockResult_transform h.mode, h.subKeys, h.plain, jobResult]
  refine ⟨hresult, b.mask, h.mask, ?_⟩
  rw [Aes256EncryptionMasked.blockMark_eq h.mode, hresult]

section Step
variable (hticks : Ticks false i)
include hticks

theorem Rests.step (h : Rests mem s) (hfull : (rxCollStep i s).fullData = false) :
    Rests mem (step i s) ∧ (UartAes256Masked.step i s).encrypt = s.encrypt := by
  have hsame := encrypt_waits (i := i) hticks.reset h.tour fun _ => h.terminated
  refine ⟨⟨inPlace_step h.place, paced_step h.place h.paced, index_step hfull h.index, ?_,
    bounded_step hfull h.bounded, ?_, ?_⟩, hsame⟩
  · rw [sks_step hfull]
    split_ifs
    · exact terminated_edge h.index
    · exact h.terminated
  · rw [hsame]
    exact h.tour
  · rw [hsame]
    exact h.memory

/-- `full_data` begins a block. -/
theorem Rests.begin (h : Rests mem s) (hfull : (rxCollStep i s).fullData = true) :
    Serving outp mem (some (rxCollStep i s).plain) 0 (UartAes256Masked.step i s) := by
  have hsame := encrypt_waits (i := i) hticks.reset h.tour fun _ => h.terminated
  have hsks : (UartAes256Masked.step i s).sks = AesSubKeySchedule.reset s.sks := if_pos hfull
  have hplace : InPlace (UartAes256Masked.step i s) := inPlace_step h.place
  have hone : s.sks.indexWasTaken = 1 := h.place.between (.inr (Nat.le_of_lt h.index))
  refine ⟨hplace, paced_step h.place h.paced, Nat.zero_le _, .expanding ?_ ?_ ?_ ?_, rfl, ?_, ?_, ?_⟩
  · rw [hsks]
    exact Nat.zero_le 60
  · rw [hsks]
    rfl
  · rw [hsame]
    exact h.tour
  · rw [hsame]
    exact h.memory
  · rw [hsks]
    exact words_reset hone _
  · rw [hsks]
    exact h.bounded
  · have hsince : sinceRise (UartAes256Masked.step i s) ≤ 11 := by
      have hcounter := hplace.counter
      unfold sinceRise
      split_ifs <;> omega
    have hseed : Seeded ((rxCollStep i s).plain, (UartAes256Masked.step i s).prng.MSB) 0
        (UartAes256Masked.step i s) := ⟨hfull, fun _ => rfl, fun n hn => absurd hn (Nat.succ_ne_zero n).symm⟩
    exact .seeded hsince (by omega) hseed

variable (hnone : (shell s).hears = [])
include hnone

theorem calm_full : (rxCollStep i s).fullData = false := by rw [calm_coll hticks hnone]

theorem plain_calm : (step i s).rxColl.plain = s.rxColl.plain := by
  have hcoll : (step i s).rxColl = { s.rxColl with fullData := false } := calm_coll hticks hnone
  rw [hcoll]

theorem Serving.low (h : Serving outp mem x c s) (hlow : lowClkRises i s = false) :
    Serving outp mem x c (step i s) := by
  have hfull := calm_full hticks hnone
  have hgenerates := h.generates.next hticks h.place.counter hnone
  rw [hlow, if_neg Bool.false_ne_true] at hgenerates
  exact ⟨inPlace_step h.place, paced_step h.place h.paced, h.before, stage_hold h.stage hticks.reset hfull hlow,
    (plain_calm hticks hnone).trans h.plain, words_step hfull h.words, bounded_step hfull h.bounded, hgenerates⟩

section Rise
variable (hrise : lowClkRises i s = true)
include hrise

/-- The schedule signals with the round keys of the job. -/
theorem Serving.keys_next (h : Serving outp mem x c s) (hon : (step i s).sks.terminated = true) :
    (step i s).sks.k = jobKeys x := by
  have hsks := sks_step (calm_full hticks hnone)
  rw [hrise, if_pos rfl] at hsks
  rw [hsks] at hon ⊢
  rcases AesSubKeySchedule.edge_terminated hon with h60 | ⟨hlow, hstill⟩
  · exact keys_edge h.words h.bounded h60
  · have hlate := (h.paced.signal hstill).1
    omega

/-- The ports at the edge that loads. -/
theorem Serving.presents (h : Serving outp mem x c s) (hon : s.sks.terminated = true) :
    Presented outp x (encryptPorts i s) := by
  obtain ⟨rfl, hkeys⟩ := h.signal hon
  have hplain : (rxCollStep i s).plain = s.rxColl.plain := plain_calm hticks hnone
  have hlast := ((lowClkRises_iff h.place.counter).mp hrise).2
  exact ⟨hticks.mode, hkeys, hplain.trans h.plain, h.generates.mask hticks hlast⟩

theorem Serving.rise (h : Serving outp mem x c s) (hc : c + 1 < 181) :
    Serving outp mem x (c + 1) (step i s) := by
  have hfull := calm_full hticks hnone
  have hgenerates := h.generates.next hticks h.place.counter hnone
  rw [hrise, if_pos rfl] at hgenerates
  have hstage := stage_rise h.place h.paced hticks.reset hfull hrise h.stage h.before
    (h.keys_next hticks hnone hrise) hticks.mode (h.presents hticks hnone hrise)
    (fun hfalse => hfalse.elim)
  exact ⟨inPlace_step h.place, paced_step h.place h.paced, by omega, hstage,
    (plain_calm hticks hnone).trans h.plain, words_step hfull h.words, bounded_step hfull h.bounded, hgenerates⟩

omit hnone in
/-- The edge after the last working edge. -/
theorem finish_rise (hpaced : Paced s) (htour : s.encrypt.tour = 15) :
    (step i s).encrypt = Aes256EncryptionMasked.finish (encryptPorts i s) s.encrypt := by
  have hencrypt := encrypt_step (s := s) hticks.reset
  rw [hrise, if_pos rfl, Aes256EncryptionMasked.edge_eq _ _ hpaced.tour, if_neg (by omega),
    if_neg (by omega), if_pos htour] at hencrypt
  exact hencrypt

/-- The last edge: a new result is announced, an old one is not. -/
theorem Serving.finish (h : Serving outp mem x c s) (hlast : c + 1 = 181)
    (hdone : (txCollStep i s).doneTransmit = true) :
    ∃ mark, JobMark outp x mark ∧ (mem ≠ mark → Announces mark (jobResult x) (step i s)) ∧
      (mem = mark → Rests mark (step i s)) := by
  have hplace : InPlace (UartAes256Masked.step i s) := inPlace_step h.place
  have hpaced : Paced (UartAes256Masked.step i s) := paced_step h.place h.paced
  have hfull := calm_full hticks hnone
  have hbounded := bounded_step hfull h.bounded
  cases h.stage with
  | expanding hindex hdone' =>
    have hrange := done_le h.place hindex
    omega
  | signal hc => omega
  | @working b m hc hm hk hindex hb henv hwork hmem =>
    obtain rfl : m = 14 := by omega
    have htour : s.encrypt.tour = 15 := hwork.tour
    have hencrypt := finish_rise hticks hrise h.paced htour
    obtain ⟨hresult, hmark⟩ := hb.result
    have hstate : s.encrypt.interState = engine.blockMark b := congrArg engine.mark hwork.datum
    have hsecret : s.encrypt.interState ^^^ s.encrypt.interMask = jobResult x :=
      (congrArg engine.result hwork.datum).trans hresult
    have hindex' := index_step hfull hindex
    have hready : (encryptPorts i s).transmitBefore = true := hdone
    rw [Aes256EncryptionMasked.finish] at hencrypt
    refine ⟨_, hmark, fun hnew => ?_, fun hold => ?_⟩
    · rw [if_pos ⟨hready, by rwa [hmem, hstate]⟩] at hencrypt
      refine ⟨hplace, hpaced, hindex', hbounded, ?_, ?_, ?_, ?_, ?_, ?_⟩
      · rw [hencrypt]
        exact htour
      · rw [hencrypt]
      · rw [hencrypt]
        exact hstate
      · rw [hencrypt]
        exact hstate
      · rw [hencrypt]
        exact hsecret
      · rw [hencrypt]
        exact hsecret
    · rw [if_neg fun hall => hall.2 (by rw [hmem, hstate, hold])] at hencrypt
      refine ⟨hplace, hpaced, hindex', terminated_rise hfull hindex hrise, hbounded, ?_, ?_⟩
      · rw [hencrypt]
      · rw [hencrypt]
        exact hmem.trans hold
  | published hc => omega

/-- The edge after an announcement takes it back. -/
theorem Announces.rise (h : Announces mark cipher s) :
    Rests mark (step i s) ∧ (step i s).encrypt.cipher = cipher := by
  have hencrypt := finish_rise hticks hrise h.paced h.tour
  have hfull := calm_full hticks hnone
  rw [Aes256EncryptionMasked.finish, if_neg fun hall => hall.2 (h.memory.trans h.state.symm)] at hencrypt
  refine ⟨⟨inPlace_step h.place, paced_step h.place h.paced, index_step hfull h.index,
    terminated_rise hfull h.index hrise, bounded_step hfull h.bounded, ?_, ?_⟩, ?_⟩
  · rw [hencrypt]
  · rw [hencrypt]
    exact h.memory
  · rw [hencrypt]
    exact h.secret

end Rise

theorem Announces.low (h : Announces mark cipher s) (hlow : lowClkRises i s = false) :
    Announces mark cipher (step i s) := by
  have hencrypt := encrypt_step (s := s) hticks.reset
  have hfull := calm_full hticks hnone
  rw [hlow, if_neg Bool.false_ne_true] at hencrypt
  obtain ⟨place, paced, index, bounded, tour, transmit, memory, state, secret, cipher⟩ := h
  rw [← hencrypt] at tour transmit memory state secret cipher
  exact ⟨inPlace_step place, paced_step place paced, index_step hfull index, bounded_step hfull bounded, tour,
    transmit, memory, state, secret, cipher⟩

end Step

/-- The design serves blocks, and one job more at power-up. -/
def service (outp : Block) : Service design false (Option Block) where
  time := 181
  job := some
  result := jobResult
  Mark := JobMark outp
  Rests := Rests
  Stage := Serving outp
  Announces := Announces
  rests_silent h := h.silent
  rests_step h hticks hfull :=
    ⟨(h.step hticks hfull).1, congrArg Aes256EncryptionMasked.Registers.cipher (h.step hticks hfull).2⟩
  rests_full h hticks hfull := h.begin hticks hfull
  stage_silent h := h.silent
  stage_lt h := Nat.lt_succ_of_le h.before
  stage_low h hticks hnone hlow := h.low hticks hnone hlow
  stage_rise h hticks hnone hrise hc := h.rise hticks hnone hrise hc
  stage_last h hticks hnone hrise hlast hdone := h.finish hticks hnone hrise hlast hdone
  announces_signals h := ⟨h.transmit, h.cipher⟩
  announces_low h hticks hnone hlow := h.low hticks hnone hlow
  announces_rise h hticks hnone hrise := h.rise hticks hnone hrise

/-! ## Power-up -/

theorem serving_init (state outp : Block) : Serving outp 0 none 164 (.init state outp) where
  place := inPlace_init state outp
  paced := paced_init state outp
  before := by decide
  stage := .expanding le_rfl rfl rfl rfl
  plain := rfl
  words := ⟨le_rfl, fun _ => rfl⟩
  bounded _ _ := rfl
  generates := .unset rfl rfl rfl

theorem serves_init (state outp : Block) :
    (service outp).Serves 0 none (service outp).exchangeTime [] (.init state outp) := by
  have htime : (service outp).exchangeTime = 181 * 12 + ReplyPath.replyTime generics := rfl
  have hlong : TUart.maxClkCountDelay generics + 1 ≤ (service outp).exchangeTime := by
    rw [htime]
    decide
  refine ⟨Nat.zero_le 5, UartStandardComplete.holds_nil rfl, .inl (.computes (serving_init state outp)
    (ReplyPath.idling_init.mono hlong) ?_ rfl)⟩
  have hedges : (service outp).time = 181 := rfl
  rw [hedges, htime]
  omega

/-! ## What the host hears -/

/-- The zero block under zero round keys. -/
def spurious : Block := 0xd2d2d2d2d2d2d2d2d2d2d2d2d2d2d2d2

/-- What the design sends before any block; nothing for the one mask that moves to the same word. -/
def greeting (outp : Block) : List Byte :=
  if movedMask outp = spurious then [] else List.replicate 16 0xd2 ++ [0]

/-- What is remembered of a block, with the leftover bit of the generator. -/
def markOf (plain : Block) (msb : Bool) : Block :=
  jobResult (some plain) ^^^ movedMask (Lfsr.word (plain, msb) 15)

/-- For every block its cipher text and a zero byte, unless the masked one is the one remembered. The bits
are what the generator has left over when it takes a block for its seed. -/
def replies : Block → List (Block × Bool) → List Byte
  | _, [] => []
  | last, (plain, msb) :: blocks =>
    (if last = markOf plain msb then []
      else List.ofFn (AesStandard.cipher (keyBytes masterkey) (bytes plain)) ++ [0]) ++
      replies (markOf plain msb) blocks

theorem jobResult_none : jobResult none = spurious := by decide +kernel

theorem bytes_jobResult (plain : Block) :
    bytes (jobResult (some plain)) = AesStandard.cipher (keyBytes masterkey) (bytes plain) :=
  Aes256EncryptionMasked.bytes_transform (fun _ hi => if_pos hi) plain

theorem reply_greeting (outp : Block) :
    reply 0 (spurious ^^^ movedMask outp) spurious = greeting outp := by
  have hbytes : List.ofFn (bytes spurious) = List.replicate 16 0xd2 := by decide
  have hiff : 0 = spurious ^^^ movedMask outp ↔ movedMask outp = spurious := by
    rw [eq_comm, xor_eq_zero_iff, eq_comm]
  rw [reply, greeting, hbytes]
  simp only [hiff]

theorem answers_eq {blocks : List Block} {jobs : List (Option Block × Block)}
    (hblocks : jobs.map Prod.fst = blocks.map some) (hmarks : ∀ job ∈ jobs, JobMark outp job.1 job.2)
    (mem : Block) : ∃ msbs : List Bool, msbs.length = blocks.length ∧
      answers jobResult mem jobs = replies mem (blocks.zip msbs) := by
  induction jobs generalizing mem blocks with
  | nil =>
    obtain rfl : blocks = [] := List.map_eq_nil_iff.mp hblocks.symm
    exact ⟨[], rfl, rfl⟩
  | cons job jobs ih =>
    obtain ⟨x, mark⟩ := job
    obtain ⟨plain, blocks, rfl, rfl, hrest⟩ := List.map_eq_cons_iff.mp hblocks.symm
    obtain ⟨mask, hmask, hmark⟩ : JobMark outp (some plain) mark := hmarks _ List.mem_cons_self
    obtain ⟨msb, hword⟩ : ∃ msb, mask = Lfsr.word (plain, msb) 15 := hmask
    rw [hword, ← markOf] at hmark
    subst hmark
    obtain ⟨msbs, hlength, hlater⟩ := ih hrest.symm (fun job hjob => hmarks job (List.mem_cons_of_mem _ hjob))
      (markOf plain msb)
    refine ⟨msb :: msbs, congrArg Nat.succ hlength, ?_⟩
    rw [answers, hlater, List.zip_cons_cons, replies, reply, bytes_jobResult]

/-- A host that is silent for `d` edges and then sends one block. -/
def lateBlock (d : Nat) (plain : Block) (t : Nat) : Input :=
  if t < d then ⟨true, false, true, false⟩ else oneBlock plain (t - d)

end KuznyechikDPA.UartAes256Masked

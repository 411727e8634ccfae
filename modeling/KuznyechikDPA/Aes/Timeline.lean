import KuznyechikDPA.Aes.Pace
import KuznyechikDPA.Hardware.Timeline

/-!
# From a received block to its cipher text

A block passes three stages: the schedule expands the key, the encryption works on the block, the
result stands on `cipher`. Each edge of `LOWclk` moves it on by one, and edge 181 after
`full_data` loads the AES-256 encryption of the block.
-/

namespace KuznyechikDPA.Aes256EncryptionMasked
open Aes256Pkg

/-- What encryption makes of a block under any round keys. -/
def transform (subKeys : Nat → Block) (plain : Block) : Block :=
  lastRound ((List.range' 1 13).foldl (fun state i => standardRound state (subKeys i))
    (plain ^^^ subKeys 0)) (subKeys 14)

theorem secret_stage {p : Ports} (hsel : p.encDecSel = false) (n : Nat) (hn : n ≤ 13) :
    (engine.stage p n).secret =
      (List.range' 1 n).foldl (fun state i => standardRound state (p.subKeys i))
        (p.plain ^^^ p.subKeys 0) := by
  induction n with
  | zero =>
    rw [BlockEngine.stage, engine, Shares.secret_split, Env.firstKey, Ports.env, if_pos hsel]
    rfl
  | succ n ih =>
    have hlow : n + 1 < 14 := by omega
    have hstage : engine.stage p (n + 1) =
        ⟨maskedRound (engine.stage p n).state (p.subKeys (n + 1)) (engine.stage p n).mask,
          maskOperation (engine.stage p n).mask⟩ := by
      simp [BlockEngine.stage, engine, work, Ports.env, hsel, hlow]
    rw [hstage, secret_maskedRound, ih (by omega), List.range'_concat, List.foldl_append,
      Nat.one_mul, Nat.add_comm 1 n]
    rfl

theorem blockResult_transform {p : Ports} (hsel : p.encDecSel = false) :
    engine.blockResult p = transform p.subKeys p.plain := by
  have hlast : engine.stage p 14 =
      ⟨maskedLastRound (engine.stage p 13).state (p.subKeys 14) (engine.stage p 13).mask,
        shiftRows (engine.stage p 13).mask⟩ := by
    rw [BlockEngine.stage]
    simp [engine, work, Ports.env, hsel]
  have hresult : engine.blockResult p = (engine.stage p 14).secret := rfl
  rw [hresult, hlast, secret_maskedLastRound, secret_stage hsel 13 le_rfl, transform]

/-- The mask of a block when it is done. -/
def movedMask (mask : Block) : Block := shiftRows (maskOperation^[13] mask)

theorem mask_stage {p : Ports} (hsel : p.encDecSel = false) (n : Nat) (hn : n ≤ 13) :
    (engine.stage p n).mask = maskOperation^[n] p.mask := by
  induction n with
  | zero => rfl
  | succ n ih =>
    have hlow : n + 1 < 14 := by omega
    have hstage : (engine.stage p (n + 1)).mask = maskOperation (engine.stage p n).mask := by
      simp [BlockEngine.stage, engine, work, Ports.env, hsel, hlow]
    rw [hstage, ih (by omega), Function.iterate_succ_apply']

/-- What is compared with `mem_cipher`. -/
theorem blockMark_eq {p : Ports} (hsel : p.encDecSel = false) :
    engine.blockMark p = engine.blockResult p ^^^ movedMask p.mask := by
  have hlast : (engine.stage p 14).mask = shiftRows (engine.stage p 13).mask := by
    rw [BlockEngine.stage]
    simp [engine, work, Ports.env, hsel]
  have hmask : (engine.stage p 14).mask = movedMask p.mask := by
    rw [hlast, mask_stage hsel 13 le_rfl, movedMask]
  rw [← hmask]
  exact Shares.state_eq _

/-- Under the expansion of a master key it is AES-256. -/
theorem bytes_transform {masterKey : BitVec 256} {subKeys : Nat → Block}
    (hkeys : ∀ i < 15, subKeys i = roundKey (keyExp masterKey) i) (plain : Block) :
    bytes (transform subKeys plain) = AesStandard.cipher (keyBytes masterKey) (bytes plain) := by
  have hrounds := List.foldl_rel (l := List.range' 1 13) (r := fun v s => state v = s)
    (f := fun v i => standardRound v (subKeys i))
    (g := AesStandard.cipherRound (AesStandard.keyWord (keyBytes masterKey)))
    (state_addRoundKey masterKey plain 0 (by omega)) fun i hi v s hv => by
      rw [List.mem_range'_1] at hi
      rw [hkeys i (by omega), ← encryptRound_eq, state_encryptRound masterKey v i (by omega), hv]
  rw [transform, hkeys 0 (by omega), hkeys 14 (by omega), lastRound, ARK, ← output_state,
    state_addRoundKey masterKey _ 14 le_rfl, state_shiftRows, state_subBytes, hrounds]
  rfl

end KuznyechikDPA.Aes256EncryptionMasked

namespace KuznyechikDPA.UartAes256Masked
open Aes256Pkg
open UartStandardComplete (Input)

/-! ## The timeline of a block -/

section Stages
open Aes256EncryptionMasked (engine)

/-- `c` edges of `LOWclk` after `full_data`: the encryption starts under the round keys `k` with ports
that satisfy `P`, and compares with `mem` in the end, which counts if `R` holds. -/
inductive Stage (k : Nat → Block) (P : Aes256EncryptionMasked.Ports → Prop) (mem : Block) (R : Prop)
    (c : Nat) (s : Registers) : Prop where
  | expanding (hindex : s.sks.index ≤ 60) (hdone : done s.sks = c) (htour : s.encrypt.tour = 0)
      (hmem : s.encrypt.memCipher = mem)
  | signal (hc : c = 165) (hk : s.sks.k = k) (hon : s.sks.terminated = true)
      (htour : s.encrypt.tour = 0) (hmem : s.encrypt.memCipher = mem)
  | working {b : Aes256EncryptionMasked.Ports} {m : Nat} (hc : c = 166 + m) (hm : m ≤ 14)
      (hk : s.sks.k = k) (hindex : 60 < s.sks.index) (hb : P b) (henv : b.env = ⟨false, k⟩)
      (hwork : engine.Working b m s.encrypt.toEngine) (hmem : s.encrypt.memCipher = mem)
  | published {b : Aes256EncryptionMasked.Ports} (hc : c = 181) (hb : P b)
      (hcipher : s.encrypt.cipher = engine.blockResult b)
      (hsent : R → s.encrypt.canTransmit = decide (mem ≠ engine.blockMark b))

variable {i : Input} {s : Registers} {k : Nat → Block} {P : Aes256EncryptionMasked.Ports → Prop}
  {mem : Block} {R : Prop} {c : Nat}

theorem Stage.silent (h : Stage k P mem R c s) (hpaced : Paced s) (hc : c ≤ 180) :
    s.encrypt.canTransmit = false := by
  cases h with
  | expanding _ _ htour => exact canTransmit_rest hpaced htour
  | signal _ _ _ htour => exact canTransmit_rest hpaced htour
  | working _ _ _ _ _ _ hwork => exact hwork.silent
  | published hc' => omega

theorem stage_hold (h : Stage k P mem R c s) (hreset : i.reset = false)
    (hfull : (rxCollStep i s).fullData = false) (hrise : lowClkRises i s = false) :
    Stage k P mem R c (step i s) := by
  have hencrypt := encrypt_step (s := s) hreset
  have hsks := sks_step hfull
  rw [hrise, if_neg Bool.false_ne_true] at hencrypt hsks
  cases h with
  | expanding hindex hdone htour hmem =>
    exact .expanding (hsks ▸ hindex) (hsks ▸ hdone) (hencrypt ▸ htour) (hencrypt ▸ hmem)
  | signal hc hk hon htour hmem =>
    exact .signal hc (hsks ▸ hk) (hsks ▸ hon) (hencrypt ▸ htour) (hencrypt ▸ hmem)
  | working hc hm hk hindex hb henv hwork hmem =>
    exact .working hc hm (hsks ▸ hk) (hsks ▸ hindex) hb henv (hencrypt ▸ hwork) (hencrypt ▸ hmem)
  | published hc hb hcipher hsent => exact .published hc hb (hencrypt ▸ hcipher) (hencrypt ▸ hsent)

theorem index_edge_le {s : AesSubKeySchedule.Registers} (h : s.index < 60) :
    (AesSubKeySchedule.edge masterkey s).index ≤ 60 := by
  unfold AesSubKeySchedule.edge
  split_ifs <;> simp only <;> omega

theorem memory_edge {p : Aes256EncryptionMasked.Ports} {r : BlockEngine.Registers (Shares Block) Block}
    (htour : r.tour ≤ 14) : (engine.edge p r).memory = r.memory := by
  have htours : engine.tours = 14 := rfl
  rw [BlockEngine.edge, htours]
  split_ifs with hrest hstart
  · rfl
  · rfl
  · rfl

section Rise
variable (hplace : InPlace s) (hpaced : Paced s) (hreset : i.reset = false)
  (hfull : (rxCollStep i s).fullData = false) (hrise : lowClkRises i s = true)
include hplace hpaced hreset hfull hrise

theorem stage_expand (hindex : s.sks.index ≤ 60) (hdone : done s.sks = c)
    (htour : s.encrypt.tour = 0) (hmem : s.encrypt.memCipher = mem)
    (hk : (step i s).sks.terminated = true → (step i s).sks.k = k) :
    Stage k P mem R (c + 1) (step i s) := by
  have hsks := sks_step hfull
  rw [hrise, if_pos rfl] at hsks
  have hlow : s.sks.terminated = false := by
    refine Bool.eq_false_iff.mpr fun hon => ?_
    have hlate := (hpaced.signal hon).1
    omega
  have hwait := encrypt_waits hreset htour fun _ => hlow
  obtain ⟨-, hnext⟩ := between_edge hplace.phase hplace.between
  rw [← hwait] at htour hmem
  by_cases h60 : s.sks.index = 60
  · have hone : done s.sks = 164 := done_sixty hplace h60
    have hon : (step i s).sks.terminated = true := by
      rw [hsks]
      simp [AesSubKeySchedule.edge, h60]
    exact .signal (by omega) (hk hon) hon htour hmem
  · have hle := index_edge_le (s := s.sks) (by omega)
    refine .expanding ?_ ?_ htour hmem
    · rwa [hsks]
    · rw [hsks, (hnext hle).2, hdone]

theorem stage_rise (h : Stage k P mem R c s) (hc : c ≤ 180)
    (hk : (step i s).sks.terminated = true → (step i s).sks.k = k) (hsel : i.encDecSel = false)
    (hP : s.sks.terminated = true → P (encryptPorts i s))
    (hR : R → (txCollStep i s).doneTransmit = true) : Stage k P mem R (c + 1) (step i s) := by
  have hencrypt := encrypt_step (s := s) hreset
  have hsks := sks_step hfull
  rw [hrise, if_pos rfl] at hencrypt hsks
  have hengine : (step i s).encrypt.toEngine = engine.edge (encryptPorts i s) s.encrypt.toEngine := by
    rw [hencrypt, Aes256EncryptionMasked.toEngine_edge _ _ hpaced.tour]
  have hmemory (htour : s.encrypt.tour ≤ 14) (hmem : s.encrypt.memCipher = mem) :
      (step i s).encrypt.memCipher = mem := by
    have hkeep := memory_edge (p := encryptPorts i s) (r := s.encrypt.toEngine) htour
    rw [← hengine] at hkeep
    exact hkeep.trans hmem
  have henv (hports : s.sks.k = k) : (encryptPorts i s).env = ⟨false, k⟩ := by
    rw [Aes256EncryptionMasked.Ports.env, ← hports, ← hsel]
    rfl
  cases h with
  | expanding hindex hdone htour hmem =>
    exact stage_expand hplace hpaced hreset hfull hrise hindex hdone htour hmem hk
  | signal hc' hports hon htour hmem =>
    obtain ⟨hindex, -, -⟩ := hpaced.signal hon
    have hstart := engine.working_start (i := encryptPorts i s) (s := s.encrypt.toEngine) htour hon
    rw [← hengine] at hstart
    refine .working (b := encryptPorts i s) (m := 0) (by omega) (by omega) ?_ ?_ (hP hon)
      (henv hports) hstart (hmemory (by omega) hmem)
    · rw [hsks, (k_edge (by omega)).1, hports]
    · rwa [hsks, index_edge hindex]
  | @working b m hc' hm hports hindex hb hstart hwork hmem =>
    have hsame : engine.env (encryptPorts i s) = engine.env b := (henv hports).trans hstart.symm
    have htour : s.encrypt.tour = m + 1 := hwork.tour
    obtain hlt | rfl : m < 14 ∨ m = 14 := by omega
    · have hnext := engine.working_step hwork hlt hsame
      rw [← hengine] at hnext
      refine .working (by omega) hlt ?_ ?_ hb hstart hnext (hmemory (by omega) hmem)
      · rw [hsks, (k_edge (by omega)).1, hports]
      · rwa [hsks, index_edge hindex]
    · have hout := engine.output_of_working (i := encryptPorts i s) hwork
      rw [← hengine] at hout
      refine .published (by omega) hb hout fun hready => ?_
      have hmark : s.encrypt.interState = engine.blockMark b := congrArg engine.mark hwork.datum
      have hdone : (encryptPorts i s).transmitBefore = true := hR hready
      rw [hencrypt, Aes256EncryptionMasked.edge_eq _ _ hpaced.tour, htour, if_neg (by omega),
        if_neg (by omega), if_pos rfl, Aes256EncryptionMasked.finish, hmem, hmark, hdone]
      split_ifs with hsend
      · exact (decide_eq_true hsend.2).symm
      · exact (decide_eq_false fun hne => hsend ⟨rfl, hne⟩).symm
  | published hc' => omega

end Rise
end Stages

section Run
open Aes256EncryptionMasked (engine)
variable (state outp : Block) (input : Nat → Input)

/-- The edges of `LOWclk` in the `n` instants from `t` on. -/
def slowEdges (t n : Nat) : Nat :=
  Nat.count (fun j => lowClkRises (input (t + j)) (run state outp input (t + j)) = true) n

variable {state outp input} {t n c : Nat}

theorem slowEdges_succ (c : Nat) : c + slowEdges state outp input t (n + 1) =
    if lowClkRises (input (t + n)) (run state outp input (t + n)) then
      c + slowEdges state outp input t n + 1
    else c + slowEdges state outp input t n := by
  rw [slowEdges, Nat.count_succ, ← slowEdges]
  split_ifs <;> omega

/-- No byte arrives for 200 periods of `LOWclk` after one that has just arrived. -/
theorem quiet_run (hwithin : Within c (run state outp input t))
    (hfirst : (input t).rising = true ∨ (run state outp input t).rxColl.fullData = false)
    (hreset : ∀ j < n, (input (t + j)).reset = false)
    (hcount : c + slowEdges state outp input t n ≤ 200) :
    Within (c + slowEdges state outp input t n) (run state outp input (t + n)) ∧
      (run state outp input (t + n)).rxColl.plain = (run state outp input t).rxColl.plain ∧
      (n ≠ 0 → (run state outp input (t + n)).rxColl.fullData = false) := by
  induction n with
  | zero => exact ⟨hwithin, rfl, fun h => absurd rfl h⟩
  | succ n ih =>
    rw [slowEdges_succ] at hcount ⊢
    obtain ⟨hnow, hplain, hlow⟩ := ih (fun j hj => hreset j (by omega)) (by split_ifs at hcount <;> omega)
    have hcounter := (inPlace_run state outp input (t + n)).counter
    have hnone := not_valid_of_within hcounter hnow (by split_ifs at hcount <;> omega)
    have hnext := within_step (i := input (t + n)) hcounter hnow
    have hcoll : (run state outp input (t + (n + 1))).rxColl =
        rxCollStep (input (t + n)) (run state outp input (t + n)) := rfl
    rw [hcoll, rxCollStep_quiet (hreset n (by omega)) hnone]
    refine ⟨hnext, hplain, fun _ => ?_⟩
    by_cases hrise : (input (t + n)).rising = true
    · simp only [hrise, if_true]
    · simp only [if_neg hrise]
      rcases n with _ | n
      · exact hfirst.resolve_left hrise
      · exact hlow (by omega)

variable {k : Nat → Block} {P : Aes256EncryptionMasked.Ports → Prop} {mem : Block} {R : Prop}

theorem stage_run (hstage : Stage k P mem R c (run state outp input t))
    (hwithin : Within c (run state outp input t))
    (hfirst : (input t).rising = true ∨ (run state outp input t).rxColl.fullData = false)
    (hreset : ∀ j < n, (input (t + j)).reset = false)
    (hsel : ∀ j < n, (input (t + j)).encDecSel = false)
    (hcount : c + slowEdges state outp input t n ≤ 181)
    (hk : ∀ j ≤ n, (run state outp input (t + j)).sks.terminated = true →
      (run state outp input (t + j)).sks.k = k)
    (hP : ∀ j < n, (run state outp input (t + j)).sks.terminated = true →
      P (encryptPorts (input (t + j)) (run state outp input (t + j))))
    (hR : ∀ j < n, R → (input (t + j)).rising = true → c + slowEdges state outp input t j ≤ 180 →
      (txCollStep (input (t + j)) (run state outp input (t + j))).doneTransmit = true) :
    Stage k P mem R (c + slowEdges state outp input t n) (run state outp input (t + n)) := by
  induction n with
  | zero => exact hstage
  | succ n ih =>
    obtain ⟨-, -, hfull⟩ := quiet_run hwithin hfirst hreset (by omega)
    rw [slowEdges_succ] at hcount ⊢
    have hnow := ih (fun j hj => hreset j (by omega)) (fun j hj => hsel j (by omega))
      (by split_ifs at hcount <;> omega) (fun j hj => hk j (by omega)) (fun j hj => hP j (by omega))
      (fun j hj => hR j (by omega))
    have hquiet := hreset n (by omega)
    have hlow := hfull (by omega)
    split_ifs at hcount ⊢ with hrise
    · have hrising : (input (t + n)).rising = true := by
        simp only [lowClkRises, Bool.and_eq_true] at hrise
        exact hrise.1.1
      exact stage_rise (inPlace_run state outp input _) (paced_run state outp input _) hquiet hlow hrise
        hnow (by omega) (hk (n + 1) le_rfl) (hsel n (by omega)) (hP n (by omega))
        (fun hready => hR n (by omega) hready hrising (by omega))
    · exact stage_hold hnow hquiet hlow (Bool.eq_false_iff.mpr hrise)

/-! ## The receiving side of the Kuznyechik designs -/

theorem run_front (state outp : Block) (input : Nat → Input) (t : Nat) :
    (run state outp input t).clkCounter = (UartStandardComplete.run input t).clkCounter ∧
      (run state outp input t).lowClk = (UartStandardComplete.run input t).lowClk ∧
      (run state outp input t).rxComp = (UartStandardComplete.run input t).rxComp ∧
      (run state outp input t).rxColl = (UartStandardComplete.run input t).rxColl := by
  induction t with
  | zero => exact ⟨rfl, rfl, rfl, rfl⟩
  | succ t ih =>
    obtain ⟨hcounter, hlow, hcomp, hcoll⟩ := ih
    rw [run, Machine.run_succ, ← run, UartStandardComplete.run, Machine.run_succ,
      ← UartStandardComplete.run]
    simp only [step, UartStandardComplete.step, rxCollStep, UartStandardComplete.rxCollStep, hcounter,
      hlow, hcomp, hcoll, and_self]

/-- With an edge of `clk` at every instant every twelfth one is an edge of `LOWclk`. -/
theorem slowEdges_steady (h : UartStandardComplete.Steady input) :
    slowEdges state outp input t n = (t + n + 6) / 12 - (t + 6) / 12 := by
  induction n with
  | zero =>
    rw [Nat.add_zero, Nat.sub_self]
    rfl
  | succ n ih =>
    obtain ⟨hcounter, hlow, -, -⟩ := run_front state outp input (t + n)
    have hiff := UartStandardComplete.lowClkRises_run h (t + n)
    rw [UartStandardComplete.lowClkRises, ← hcounter, ← hlow, ← lowClkRises] at hiff
    rw [slowEdges, Nat.count_succ, ← slowEdges, ih]
    simp only [hiff]
    split_ifs <;> omega

end Run

end KuznyechikDPA.UartAes256Masked

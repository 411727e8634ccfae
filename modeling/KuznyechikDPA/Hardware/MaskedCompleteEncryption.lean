import KuznyechikDPA.Hardware.CompleteEncryption
import KuznyechikDPA.Foundation.Masking

/-!
# The process of `masked_complete_encryption.vhd`

The masked design keeps its state under `inter_mask`, loaded from the port `mask` at the
start edge and moved along with the state. Its reply memory compares the masked state.
The two registers are the shares of the state of the unmasked design.
-/

namespace KuznyechikDPA.MaskedCompleteEncryption

open GrasshopperPkg
open CompleteEncryption (Env)

structure Ports extends CompleteEncryption.Ports where
  mask : Block

@[ext] structure Registers where
  tour : Nat
  interState : Block
  interMask : Block
  memCipher : Block
  cipher : Block
  canTransmit : Bool

def Registers.init : Registers where
  tour := 0
  interState := 0
  interMask := 0
  memCipher := 0
  cipher := 0
  canTransmit := false

/-- The branch `reset = '1'`; state, mask and `mem_cipher` are not cleared. -/
def reset (s : Registers) : Registers := { s with cipher := 0, canTransmit := false, tour := 0 }

def load (p : Ports) (s : Registers) : Registers :=
  { s with tour := 1, interState := p.plain ^^^ p.mask, interMask := p.mask, canTransmit := false }

/-- The branch `tour = 11`, the same in both modes. -/
def finish (p : Ports) (s : Registers) : Registers :=
  if p.transmitBefore ∧ s.memCipher ≠ s.interState then
    { s with
      cipher := s.interState ^^^ s.interMask
      canTransmit := true
      memCipher := s.interState }
  else
    { s with cipher := s.interState ^^^ s.interMask, canTransmit := false, tour := 0 }

def edge (p : Ports) (s : Registers) : Registers :=
  if p.encDecSel = false then
    if s.tour = 0 then
      if p.canStart then load p s else s
    else if s.tour < 10 then
      { s with
        interState := maskedRound s.interState (p.subKeys s.tour) s.interMask
        interMask := lStep s.interMask
        tour := s.tour + 1 }
    else if s.tour = 10 then
      { s with interState := ARK s.interState (p.subKeys s.tour), tour := s.tour + 1 }
    else if s.tour = 11 then finish p s
    else s
  else
    if s.tour = 0 then
      if p.canStart then load p s else s
    else if s.tour < 10 then
      { s with
        interState := invMaskedRound s.interState (p.subKeys (11 - s.tour)) s.interMask
        interMask := invLStep s.interMask
        tour := s.tour + 1 }
    else if s.tour = 10 then
      { s with interState := ARK s.interState (p.subKeys 1), tour := s.tour + 1 }
    else if s.tour = 11 then finish p s
    else s

/-! ## The process as a block engine -/

def work (env : Env) (tour : Nat) (p : Shares Block) : Shares Block :=
  if env.encDecSel = false then
    if tour < 10 then ⟨maskedRound p.state (env.subKeys tour) p.mask, lStep p.mask⟩
    else { p with state := ARK p.state (env.subKeys 10) }
  else
    if tour < 10 then ⟨invMaskedRound p.state (env.subKeys (11 - tour)) p.mask, invLStep p.mask⟩
    else { p with state := ARK p.state (env.subKeys 1) }

def engine : BlockEngine Ports Env (Shares Block) Block where
  starts p := p.canStart
  ready p := p.transmitBefore
  env p := p.env
  load p := Shares.split p.mask p.plain
  work := work
  tours := 10
  result := Shares.secret
  mark := Shares.state

def Registers.toEngine (s : Registers) : BlockEngine.Registers (Shares Block) Block where
  tour := s.tour
  datum := ⟨s.interState, s.interMask⟩
  memory := s.memCipher
  output := s.cipher
  transmit := s.canTransmit

theorem toEngine_finish (p : Ports) (s : Registers) :
    (finish p s).toEngine = engine.publish p s.toEngine := apply_ite Registers.toEngine _ _ _

/-- The two modes differ in `work` only. -/
theorem edge_eq (p : Ports) (s : Registers) :
    edge p s =
      if s.tour = 0 then
        if p.canStart then load p s else s
      else if s.tour ≤ 10 then
        { s with
          interState := (work p.env s.tour ⟨s.interState, s.interMask⟩).state
          interMask := (work p.env s.tour ⟨s.interState, s.interMask⟩).mask
          tour := s.tour + 1 }
      else if s.tour = 11 then finish p s
      else s := by
  obtain h | h | h | h : s.tour = 0 ∨ (s.tour ≠ 0 ∧ s.tour < 10) ∨ s.tour = 10 ∨ 10 < s.tour := by
    omega
  · simp [edge, h]
  · simp [edge, work, CompleteEncryption.Ports.env, h, h.2.le]
    split <;> rfl
  · simp [edge, work, CompleteEncryption.Ports.env, h]
    split <;> rfl
  · have hzero : s.tour ≠ 0 := by omega
    have hlow : ¬ s.tour < 10 := by omega
    have hten : s.tour ≠ 10 := by omega
    have hlate : ¬ s.tour ≤ 10 := by omega
    simp [edge, hzero, hlow, hten, hlate]

theorem toEngine_edge (p : Ports) (s : Registers) :
    (edge p s).toEngine = engine.edge p s.toEngine := by
  rw [edge_eq, BlockEngine.edge, ← toEngine_finish]
  simp only [apply_ite Registers.toEngine]
  rfl

/-! ## Simulation of the unmasked design -/

theorem secret_maskedRound (p : Shares Block) (k : Block) :
    Shares.secret ⟨maskedRound p.state k p.mask, lStep p.mask⟩ = GrasshopperPkg.round p.secret k := by
  rw [GrasshopperPkg.round, maskedRound, ARK, ARK, maskedSStep_eq, ← Shares.secret_add,
    ← Shares.secret_substitute sStep, ← Shares.secret_map xorHom_lStep]

/-- The round moves the mask by itself; the register is moved on the same edge. -/
theorem secret_invMaskedRound (p : Shares Block) (k : Block) :
    Shares.secret ⟨invMaskedRound p.state k p.mask, invLStep p.mask⟩ = invRound p.secret k := by
  rw [invRound, invMaskedRound, ARK, ARK, invMaskedSStep_eq, ← Shares.secret_add,
    ← Shares.secret_map xorHom_invLStep, ← Shares.secret_substitute invSStep]

theorem secret_work (env : Env) (tour : Nat) (p : Shares Block) :
    (work env tour p).secret = CompleteEncryption.work env tour p.secret := by
  unfold work CompleteEncryption.work
  split
  · split
    · exact secret_maskedRound p _
    · exact Shares.secret_add p _
  · split
    · exact secret_invMaskedRound p _
    · exact Shares.secret_add p _

theorem secret_stage (p : Ports) (n : Nat) :
    (engine.stage p n).secret = CompleteEncryption.engine.stage p.toPorts n := by
  induction n with
  | zero => exact Shares.secret_split p.mask p.plain
  | succ n ih =>
    rw [BlockEngine.stage, BlockEngine.stage, ← ih]
    exact secret_work p.env (n + 1) _

theorem mask_stage (p : Ports) (n : Nat) (hn : n ≤ 9) :
    (engine.stage p n).mask =
      if p.encDecSel = false then lStep^[n] p.mask else invLStep^[n] p.mask := by
  induction n with
  | zero => exact (ite_self _).symm
  | succ n ih =>
    have hprev := ih (by omega)
    have hlow : n + 1 < 10 := by omega
    cases hsel : p.encDecSel with
    | false =>
      have hstep : (engine.stage p (n + 1)).mask = lStep (engine.stage p n).mask := by
        simp [BlockEngine.stage, engine, work, CompleteEncryption.Ports.env, hsel, hlow]
      rw [hstep, hprev, hsel, if_pos rfl, if_pos rfl, Function.iterate_succ_apply']
    | true =>
      have hstep : (engine.stage p (n + 1)).mask = invLStep (engine.stage p n).mask := by
        simp [BlockEngine.stage, engine, work, CompleteEncryption.Ports.env, hsel, hlow]
      rw [hstep, hprev, hsel, if_neg Bool.true_eq_false_eq_False, if_neg (by simp),
        Function.iterate_succ_apply']

theorem blockResult_eq (p : Ports) :
    engine.blockResult p = CompleteEncryption.transform p.env p.plain := by
  rw [← CompleteEncryption.blockResult_eq p.toPorts]
  exact secret_stage p 10

open CompleteEncryption (Presents)

theorem run_cipher {env : Env} {plain : Block} {q : Nat → Ports}
    (hq : Presents env plain fun t => (q t).toPorts) {m : Registers} (hm : m.tour = 0) :
    (Machine.run edge m q 11).tour = 11 ∧
      (Machine.run edge m q 12).cipher = CompleteEncryption.transform env plain := by
  have hrun := Machine.run_hom (s := m) q toEngine_edge
  have henv (t : Nat) (ht : t ≤ 10) : (q t).env = (q 0).env := by
    rw [hq.env t (by omega), hq.env 0 (by omega)]
  obtain ⟨htour, hout⟩ := engine.run_output (s := m.toEngine) hm hq.start henv
  rw [← hrun] at htour hout
  refine ⟨htour, hout.trans ?_⟩
  rw [blockResult_eq, hq.env 0 (by omega), hq.plain]

theorem cipher_mask_independent {env : Env} {plain : Block} {q q' : Nat → Ports}
    (hq : Presents env plain fun t => (q t).toPorts)
    (hq' : Presents env plain fun t => (q' t).toPorts) {m m' : Registers} (hm : m.tour = 0)
    (hm' : m'.tour = 0) :
    (Machine.run edge m q 12).cipher = (Machine.run edge m' q' 12).cipher :=
  (run_cipher hq hm).2.trans (run_cipher hq' hm').2.symm

/-- From any registers at rest the two designs reach tour 11 on the same edge and load the same
value, whatever the mask port carries. -/
theorem masked_cipher_eq {env : Env} {plain : Block} {p : Nat → CompleteEncryption.Ports}
    {q : Nat → Ports} (hp : Presents env plain p) (hq : Presents env plain fun t => (q t).toPorts)
    {s : CompleteEncryption.Registers} {m : Registers} (hs : s.tour = 0) (hm : m.tour = 0) :
    (Machine.run CompleteEncryption.edge s p 11).tour = 11 ∧ (Machine.run edge m q 11).tour = 11 ∧
      (Machine.run edge m q 12).cipher = (Machine.run CompleteEncryption.edge s p 12).cipher :=
  ⟨(CompleteEncryption.run_cipher hp hs).1, (run_cipher hq hm).1,
    (run_cipher hq hm).2.trans (CompleteEncryption.run_cipher hp hs).2.symm⟩

/-- Ports that present one block over and over, under a given mask. -/
def steadyPorts (plain mask : Block) (encDecSel : Bool) : Ports where
  plain := plain
  subKeys := fun _ => 0x8899aabbccddeeff0011223344556677
  canStart := true
  transmitBefore := true
  encDecSel := encDecSel
  mask := mask

theorem presents_steadyPorts (plain mask : Block) (encDecSel : Bool) :
    Presents ⟨encDecSel, fun _ => 0x8899aabbccddeeff0011223344556677⟩ plain
      fun _ => (steadyPorts plain mask encDecSel).toPorts :=
  ⟨rfl, rfl, fun _ _ => rfl⟩

theorem masked_cipher_eq_steady :
    (Machine.run edge .init (fun _ => steadyPorts 1 0xff true) 12).cipher =
      (Machine.run CompleteEncryption.edge .init (fun _ => (steadyPorts 1 0 true).toPorts) 12).cipher :=
  have hs : CompleteEncryption.Registers.init.tour = 0 := rfl
  have hm : Registers.init.tour = 0 := rfl
  (masked_cipher_eq (presents_steadyPorts 1 0 true) (presents_steadyPorts 1 0xff true) hs hm).2.2

end KuznyechikDPA.MaskedCompleteEncryption

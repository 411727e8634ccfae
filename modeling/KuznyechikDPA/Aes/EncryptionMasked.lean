import KuznyechikDPA.Aes.Layers
import KuznyechikDPA.Foundation.BlockEngine
import KuznyechikDPA.Foundation.Masking
import Mathlib.Tactic.SplitIfs

/-!
# The process of `aes256_encryption_masked.vhd`

Fourteen working edges, the last one without the column step, between a start edge that
adds the first round key and a publishing edge at tour 15. In encryption the masked
process computes the reference `encrypt` of the package, whatever the mask.
-/

namespace KuznyechikDPA.Aes256EncryptionMasked

open Aes256Pkg

/-- The key ports are one function, read at `0, ..., 14`. -/
structure Ports where
  plain : Block
  subKeys : Nat → Block
  canStart : Bool
  transmitBefore : Bool
  encDecSel : Bool
  mask : Block

@[ext] structure Registers where
  tour : Nat
  interState : Block
  interMask : Block
  memCipher : Block
  cipher : Block
  canTransmit : Bool

def Registers.init : Registers where
  tour := 0
  interState := 0
  interMask := 0
  memCipher := 0
  cipher := 0
  canTransmit := false

/-- The branch `reset = '1'`; state, mask and `mem_cipher` are not cleared. -/
def reset (s : Registers) : Registers := { s with cipher := 0, canTransmit := false, tour := 0 }

/-- The start edge, with the round key that the mode adds first. -/
def load (p : Ports) (key : Block) (s : Registers) : Registers :=
  { s with
    tour := 1
    interState := p.plain ^^^ key ^^^ p.mask
    interMask := p.mask
    canTransmit := false }

/-- The publishing edge, the same in both modes. -/
def finish (p : Ports) (s : Registers) : Registers :=
  if p.transmitBefore ∧ s.memCipher ≠ s.interState then
    { s with
      cipher := s.interState ^^^ s.interMask
      canTransmit := true
      memCipher := s.interState }
  else
    { s with cipher := s.interState ^^^ s.interMask, canTransmit := false, tour := 0 }

def edge (p : Ports) (s : Registers) : Registers :=
  if p.encDecSel = false then
    if s.tour = 0 then
      if p.canStart then load p (p.subKeys 0) s else s
    else if s.tour < 14 then
      { s with
        interState := maskedRound s.interState (p.subKeys s.tour) s.interMask
        interMask := maskOperation s.interMask
        tour := s.tour + 1 }
    else if s.tour = 14 then
      { s with
        interState := maskedLastRound s.interState (p.subKeys 14) s.interMask
        interMask := shiftRows s.interMask
        tour := s.tour + 1 }
    else finish p s
  else
    if s.tour = 0 then
      if p.canStart then load p (p.subKeys 14) s else s
    else if s.tour < 14 then
      { s with
        interState := invMaskedRound s.interState (p.subKeys (14 - s.tour)) s.interMask
        interMask := invMaskOperation s.interMask
        tour := s.tour + 1 }
    else if s.tour = 14 then
      { s with
        interState := invMaskedLastRound s.interState (p.subKeys 0) s.interMask
        interMask := invShiftRows s.interMask
        tour := s.tour + 1 }
    else if s.tour = 15 then finish p s
    else s

/-! ## The process as a block engine -/

/-- Mode and round keys, what the working edges read. -/
structure Env where
  encDecSel : Bool
  subKeys : Nat → Block

def Ports.env (p : Ports) : Env := ⟨p.encDecSel, p.subKeys⟩

/-- The round key added at the start edge. -/
def Env.firstKey (env : Env) : Block := env.subKeys (if env.encDecSel = false then 0 else 14)

def work (env : Env) (tour : Nat) (p : Shares Block) : Shares Block :=
  if env.encDecSel = false then
    if tour < 14 then ⟨maskedRound p.state (env.subKeys tour) p.mask, maskOperation p.mask⟩
    else ⟨maskedLastRound p.state (env.subKeys 14) p.mask, shiftRows p.mask⟩
  else
    if tour < 14 then
      ⟨invMaskedRound p.state (env.subKeys (14 - tour)) p.mask, invMaskOperation p.mask⟩
    else ⟨invMaskedLastRound p.state (env.subKeys 0) p.mask, invShiftRows p.mask⟩

def engine : BlockEngine Ports Env (Shares Block) Block where
  starts := Ports.canStart
  ready := Ports.transmitBefore
  env := Ports.env
  load p := Shares.split p.mask (p.plain ^^^ p.env.firstKey)
  work := work
  tours := 14
  result := Shares.secret
  mark := Shares.state

def Registers.toEngine (s : Registers) : BlockEngine.Registers (Shares Block) Block where
  tour := s.tour
  datum := ⟨s.interState, s.interMask⟩
  memory := s.memCipher
  output := s.cipher
  transmit := s.canTransmit

theorem toEngine_finish (p : Ports) (s : Registers) :
    (finish p s).toEngine = engine.publish p s.toEngine := apply_ite Registers.toEngine _ _ _

/-- Up to tour 15 the two modes differ in the first key and in `work` only. -/
theorem edge_eq (p : Ports) (s : Registers) (hs : s.tour ≤ 15) :
    edge p s =
      if s.tour = 0 then
        if p.canStart then load p p.env.firstKey s else s
      else if s.tour ≤ 14 then
        { s with
          interState := (work p.env s.tour ⟨s.interState, s.interMask⟩).state
          interMask := (work p.env s.tour ⟨s.interState, s.interMask⟩).mask
          tour := s.tour + 1 }
      else if s.tour = 15 then finish p s
      else s := by
  obtain h | h | h | h : s.tour = 0 ∨ (s.tour ≠ 0 ∧ s.tour < 14) ∨ s.tour = 14 ∨ s.tour = 15 := by
    omega
  · cases hsel : p.encDecSel <;> simp [edge, Env.firstKey, Ports.env, h, hsel]
  · simp [edge, work, Ports.env, h, h.2.le]
    split <;> rfl
  · simp [edge, work, Ports.env, h]
    split <;> rfl
  · simp [edge, h]

theorem tour_edge (p : Ports) (s : Registers) (hs : s.tour ≤ 15) : (edge p s).tour ≤ 15 := by
  rw [edge_eq p s hs]
  split_ifs with h0 hstart hwork
  · exact Nat.le_add_left 1 14
  · exact hs
  · exact Nat.succ_le_succ hwork
  · rw [finish]
    split
    · exact hs
    · exact Nat.zero_le 15
  · exact hs

theorem toEngine_edge (p : Ports) (s : Registers) (hs : s.tour ≤ 15) :
    (edge p s).toEngine = engine.edge p s.toEngine := by
  rw [edge_eq p s hs, BlockEngine.edge, ← toEngine_finish]
  simp only [apply_ite Registers.toEngine]
  rfl

/-! ## A block -/

/-- The samples of a run that starts with a block, mode and keys held through tour 15; the
mask is read at the start edge only. -/
structure Presents (env : Env) (p : Nat → Ports) : Prop where
  start : (p 0).canStart = true
  env : ∀ t ≤ 15, (p t).env = env

theorem run_cipher {env : Env} {p : Nat → Ports} (hp : Presents env p) {s : Registers}
    (hs : s.tour = 0) :
    (Machine.run edge s p 15).tour = 15 ∧
      (Machine.run edge s p 16).cipher = engine.blockResult (p 0) := by
  have hrun := Machine.run_hom_on (s := s) p (I := fun s => s.tour ≤ 15) (by omega) tour_edge
    toEngine_edge
  have henv (t : Nat) (ht : t ≤ 14) : (p t).env = (p 0).env := by
    rw [hp.env t (by omega), hp.env 0 (by omega)]
  obtain ⟨htour, hout⟩ := engine.run_output (s := s.toEngine) hs hp.start henv
  rw [← hrun] at htour hout
  exact ⟨htour, hout⟩

/-! ## Encryption -/

theorem secret_maskedRound (p : Shares Block) (k : Block) :
    Shares.secret ⟨maskedRound p.state k p.mask, maskOperation p.mask⟩ = standardRound p.secret k := by
  rw [maskedRound, standardRound, ARK, ARK, maskedSubBytes_eq, maskOperation,
    ← Shares.secret_substitute subBytes, ← Shares.secret_map xorHom_shiftRows,
    ← Shares.secret_map xorHom_mixColumns, ← Shares.secret_add]

theorem secret_maskedLastRound (p : Shares Block) (k : Block) :
    Shares.secret ⟨maskedLastRound p.state k p.mask, shiftRows p.mask⟩ = lastRound p.secret k := by
  rw [maskedLastRound, lastRound, ARK, ARK, maskedSubBytes_eq, ← Shares.secret_substitute subBytes,
    ← Shares.secret_map xorHom_shiftRows, ← Shares.secret_add]

theorem secret_stage_encrypt {subKeys : KeyArray} {p : Ports}
    (hp : p.env = ⟨false, roundKey subKeys⟩) (n : Nat) (hn : n ≤ 13) :
    (engine.stage p n).secret =
      (List.range' 1 n).foldl (encryptRound subKeys) (p.plain ^^^ roundKey subKeys 0) := by
  induction n with
  | zero =>
    rw [BlockEngine.stage, engine, Shares.secret_split, hp]
    rfl
  | succ n ih =>
    have hstage : engine.stage p (n + 1) =
        ⟨maskedRound (engine.stage p n).state (roundKey subKeys (n + 1)) (engine.stage p n).mask,
          maskOperation (engine.stage p n).mask⟩ := by
      have hlow : n + 1 < 14 := by omega
      simp [BlockEngine.stage, engine, work, hp, hlow]
    rw [hstage, secret_maskedRound, ih (by omega), List.range'_concat, List.foldl_append,
      Nat.one_mul, Nat.add_comm 1 n, ← encryptRound_eq]
    rfl

/-- Masked encryption loads the reference `encrypt` of the block, whatever the mask. -/
theorem cipher_eq_encrypt {masterKey : BitVec 256} {p : Nat → Ports}
    (hp : Presents ⟨false, roundKey (keyExp masterKey)⟩ p) {s : Registers} (hs : s.tour = 0) :
    (Machine.run edge s p 15).tour = 15 ∧
      (Machine.run edge s p 16).cipher = encrypt (p 0).plain masterKey := by
  obtain ⟨htour, hcipher⟩ := run_cipher hp hs
  refine ⟨htour, hcipher.trans ?_⟩
  have henv := hp.env 0 (by omega)
  have hlast : engine.stage (p 0) 14 =
      ⟨maskedLastRound (engine.stage (p 0) 13).state (roundKey (keyExp masterKey) 14)
        (engine.stage (p 0) 13).mask, shiftRows (engine.stage (p 0) 13).mask⟩ := by
    rw [BlockEngine.stage]
    simp [engine, work, henv]
  have hresult : engine.blockResult (p 0) = (engine.stage (p 0) 14).secret := rfl
  rw [hresult, hlast, secret_maskedLastRound, secret_stage_encrypt henv 13 le_rfl, encrypt_eq]

/-- Inputs held forever, the AES key of a counting pattern. -/
def heldPorts (mask : Block) : Ports where
  plain := 0x00112233445566778899aabbccddeeff
  subKeys := roundKey (keyExp 0x000102030405060708090a0b0c0d0e0f101112131415161718191a1b1c1d1e1f)
  canStart := true
  transmitBefore := true
  encDecSel := false
  mask := mask

theorem cipher_eq_encrypt_held :
    (Machine.run edge .init (fun _ => heldPorts 0xff) 15).tour = 15 ∧
      (Machine.run edge .init (fun _ => heldPorts 0xff) 16).cipher =
        encrypt 0x00112233445566778899aabbccddeeff
          0x000102030405060708090a0b0c0d0e0f101112131415161718191a1b1c1d1e1f := by
  have hs : Registers.init.tour = 0 := rfl
  exact cipher_eq_encrypt (p := fun _ => heldPorts 0xff) ⟨rfl, fun _ _ => rfl⟩ hs

end KuznyechikDPA.Aes256EncryptionMasked

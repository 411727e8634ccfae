import KuznyechikDPA.Aes.EncryptionMasked

/-!
# Masked decryption against the reference

Two things keep the masked decryption from following `decrypt`. `inv_masked_round` adds
the round key after the inverse column step, `decrypt` before it; and
`inv_mask_operation` leaves the row shift out, so the mask register is not the mask the
state carries. Each working edge therefore adds a `slip` to the unmasked state. The slips
travel through the rounds as a `deviation` from the reference, and the result is right if
and only if they have cancelled after the thirteenth round.
-/

namespace KuznyechikDPA.Aes256EncryptionMasked

open Aes256Pkg

/-! ## The slips of one round -/

theorem xor_insert (a b c d : Block) : a ^^^ c ^^^ d = (b ^^^ c) ^^^ (a ^^^ b ^^^ d) := by
  calc
    a ^^^ c ^^^ d = (b ^^^ b) ^^^ (a ^^^ c ^^^ d) := by rw [LawfulXor.xor_self, zero_xor]
    _ = (b ^^^ c) ^^^ (a ^^^ b ^^^ d) := by ac_rfl

/-- A round without its key. -/
def keyless (state : Block) : Block := invMixColumns (invShiftRows (invSubBytes state))

/-- A round key added on the wrong side of the column step. -/
def keySlip (key : Block) : Block := invMixColumns key ^^^ key

/-- A mask moved without its row shift. -/
def maskSlip (mask : Block) : Block := invMixColumns (invShiftRows mask ^^^ mask)

def slip (key mask : Block) : Block := keySlip key ^^^ maskSlip mask

theorem invStdRound_eq (state key : Block) :
    invStdRound state key = keyless state ^^^ invMixColumns key := by
  rw [invStdRound, ARK, xorHom_invMixColumns, ← invShiftRows_invSubBytes, keyless]

theorem secret_invMaskedRound (p : Shares Block) (k : Block) :
    Shares.secret ⟨invMaskedRound p.state k p.mask, invMaskOperation p.mask⟩ =
      invStdRound p.secret k ^^^ slip k p.mask := by
  have hround : invMaskedRound p.state k p.mask =
      keyless p.secret ^^^ invMixColumns (invShiftRows p.mask) ^^^ k := by
    rw [invMaskedRound, ARK, invMaskedSubBytes_eq, xorHom_invShiftRows, xorHom_invMixColumns]
    rfl
  rw [Shares.secret, hround, invMaskOperation, invStdRound_eq, slip, keySlip, maskSlip,
    xorHom_invMixColumns]
  generalize keyless p.secret = x, invMixColumns (invShiftRows p.mask) = y,
    invMixColumns p.mask = m, invMixColumns k = d
  calc
    x ^^^ y ^^^ k ^^^ m = (x ^^^ y ^^^ m) ^^^ k ^^^ 0 := by rw [xor_zero]; ac_rfl
    _ = (d ^^^ k) ^^^ ((x ^^^ y ^^^ m) ^^^ d ^^^ 0) := xor_insert _ d k 0
    _ = x ^^^ d ^^^ (d ^^^ k ^^^ (y ^^^ m)) := by rw [xor_zero]; ac_rfl

theorem secret_invMaskedLastRound (p : Shares Block) (k : Block) :
    Shares.secret ⟨invMaskedLastRound p.state k p.mask, invShiftRows p.mask⟩ =
      invLastRound p.secret k := by
  rw [invMaskedLastRound, invLastRound, ARK, ARK, invMaskedSubBytes_eq, ← invShiftRows_invSubBytes,
    ← Shares.secret_substitute invSubBytes, ← Shares.secret_map xorHom_invShiftRows,
    ← Shares.secret_add]

theorem invLastRound_injective (key : Block) : Function.Injective fun s => invLastRound s key := by
  intro s t h
  have hcore := (xor_left_involutive key).injective h
  exact invShiftRows_injective (subBytes_invSubBytes.injective hcore)

/-! ## The deviation of a block -/

section Deviation
variable (masterKey : BitVec 256) (cipherText mask : Block)

/-- The state of `decrypt` after `t` passes of its loop. -/
def referenceState (t : Nat) : Block :=
  ((List.range' 1 13).reverse.take t).foldl (decryptRound (keyExp masterKey))
    (cipherText ^^^ roundKey (keyExp masterKey) 14)

/-- What the slips of the first `t` rounds have made of the state. -/
def deviation : Nat → Block
  | 0 => 0
  | t + 1 =>
    let state := referenceState masterKey cipherText t
    keyless (state ^^^ deviation t) ^^^ keyless state ^^^
      slip (roundKey (keyExp masterKey) (13 - t)) (invMaskOperation^[t] mask)

theorem referenceState_succ (t : Nat) (ht : t < 13) :
    referenceState masterKey cipherText (t + 1) =
      invStdRound (referenceState masterKey cipherText t) (roundKey (keyExp masterKey) (13 - t)) := by
  have hround : (List.range' 1 13).reverse[t]? = some (13 - t) := by
    rw [List.getElem?_reverse (by simpa using ht), List.length_range', List.getElem?_range' (by omega)]
    congr 1
    omega
  rw [referenceState, List.take_add_one, hround, List.foldl_append, ← decryptRound_eq]
  rfl

theorem decrypt_eq_referenceState :
    decrypt cipherText masterKey =
      invLastRound (referenceState masterKey cipherText 13) (roundKey (keyExp masterKey) 0) :=
  decrypt_eq cipherText masterKey

/-- Rounds without a slip keep the reference state. -/
theorem deviation_eq_zero (t : Nat)
    (h : ∀ r < t, slip (roundKey (keyExp masterKey) (13 - r)) (invMaskOperation^[r] mask) = 0) :
    deviation masterKey cipherText mask t = 0 := by
  induction t with
  | zero => rfl
  | succ t ih =>
    have hprev := ih fun r hr => h r (by omega)
    rw [deviation, hprev, h t (by omega)]
    simp

end Deviation

section Run
variable {masterKey : BitVec 256} {p : Ports}
variable (hp : p.env = ⟨true, roundKey (keyExp masterKey)⟩)
include hp

theorem mask_stage_decrypt (t : Nat) (ht : t ≤ 13) :
    (engine.stage p t).mask = invMaskOperation^[t] p.mask := by
  induction t with
  | zero => rfl
  | succ t ih =>
    have hlow : t + 1 < 14 := by omega
    rw [Function.iterate_succ_apply', ← ih (by omega)]
    simp [BlockEngine.stage, engine, work, hp, hlow]

theorem secret_stage_decrypt (t : Nat) (ht : t ≤ 13) :
    (engine.stage p t).secret =
      referenceState masterKey p.plain t ^^^ deviation masterKey p.plain p.mask t := by
  induction t with
  | zero =>
    rw [BlockEngine.stage, engine, Shares.secret_split, hp, deviation, xor_zero]
    rfl
  | succ t ih =>
    have hlow : t + 1 < 14 := by omega
    have hkey : 14 - (t + 1) = 13 - t := by omega
    have hstage : engine.stage p (t + 1) =
        ⟨invMaskedRound (engine.stage p t).state (roundKey (keyExp masterKey) (13 - t))
            (engine.stage p t).mask, invMaskOperation (engine.stage p t).mask⟩ := by
      simp [BlockEngine.stage, engine, work, hp, hlow, hkey]
    rw [hstage, secret_invMaskedRound, ih (by omega), mask_stage_decrypt hp t (by omega),
      referenceState_succ _ _ t (by omega), deviation, invStdRound_eq, invStdRound_eq]
    exact xor_insert _ _ _ _

end Run

theorem run_decrypt {masterKey : BitVec 256} {p : Nat → Ports}
    (hp : Presents ⟨true, roundKey (keyExp masterKey)⟩ p) {s : Registers} (hs : s.tour = 0) :
    (Machine.run edge s p 15).tour = 15 ∧
      ((Machine.run edge s p 16).cipher = decrypt (p 0).plain masterKey ↔
        deviation masterKey (p 0).plain (p 0).mask 13 = 0) := by
  obtain ⟨htour, hcipher⟩ := run_cipher hp hs
  have henv := hp.env 0 (by omega)
  have hlast : engine.stage (p 0) 14 =
      ⟨invMaskedLastRound (engine.stage (p 0) 13).state (roundKey (keyExp masterKey) 0)
        (engine.stage (p 0) 13).mask, invShiftRows (engine.stage (p 0) 13).mask⟩ := by
    rw [BlockEngine.stage]
    simp [engine, work, henv]
  have hresult : engine.blockResult (p 0) =
      invLastRound (referenceState masterKey (p 0).plain 13 ^^^
        deviation masterKey (p 0).plain (p 0).mask 13) (roundKey (keyExp masterKey) 0) := by
    rw [← secret_stage_decrypt henv 13 le_rfl, ← secret_invMaskedLastRound, ← hlast]
    rfl
  refine ⟨htour, ?_⟩
  rw [hcipher, hresult, decrypt_eq_referenceState, (invLastRound_injective _).eq_iff,
    LawfulXor.xor_comm]
  exact isFixedPt_xor_left_iff

/-- A run that decrypts `cipherText` under `mask`, with every port held. -/
def steadyPorts (masterKey : BitVec 256) (cipherText mask : Block) : Ports where
  plain := cipherText
  subKeys := roundKey (keyExp masterKey)
  canStart := true
  transmitBefore := true
  encDecSel := true
  mask := mask

theorem presents_steadyPorts (masterKey : BitVec 256) (cipherText mask : Block) :
    Presents ⟨true, roundKey (keyExp masterKey)⟩ fun _ => steadyPorts masterKey cipherText mask :=
  ⟨rfl, fun _ _ => rfl⟩

theorem deviation_zero_ne : deviation 0 0 0 13 ≠ 0 := by decide +kernel

end KuznyechikDPA.Aes256EncryptionMasked

import KuznyechikDPA.Firmware.Masked
import KuznyechikDPA.Firmware.Layers

/-!
# The masked cipher refines the plain one

Every masked round acts on the secret, the exclusive or of the two shares, as the round
of the unmasked file acts on the state. The mask itself is arbitrary: whatever `srand`
and `rand` do, they touch nothing but the second share.
-/

namespace KuznyechikDPA.Masked

open Kuznyechik (addRoundKey sstep invSstep lstep invLstep Call)
open Shares (secret)

universe u

/-! ## Rounds -/

theorem secret_addRoundKey (k : Nat → State) (round : Nat) (p : Shares State) :
    secret { p with state := addRoundKey k round p.state } = addRoundKey k round p.secret :=
  Shares.secret_add p (k round)

theorem secret_maskedSstep (p : Shares State) : (maskedSstep p).secret = sstep p.secret :=
  Shares.secret_substitute sstep p

theorem secret_maskedInvSstep (p : Shares State) : (maskedInvSstep p).secret = invSstep p.secret :=
  Shares.secret_substitute invSstep p

theorem secret_lstep (p : Shares State) :
    secret ⟨lstep p.state, maskLstep p.mask⟩ = lstep p.secret :=
  Shares.secret_map Kuznyechik.xorHom_lstep p

theorem secret_invLstep (p : Shares State) :
    secret ⟨invLstep p.state, maskInvLstep p.mask⟩ = invLstep p.secret :=
  Shares.secret_map Kuznyechik.xorHom_invLstep p

theorem secret_encRound (k : Nat → State) (p : Shares State) (round : Nat) :
    (encRound k p round).secret = Kuznyechik.encRound k p.secret round := by
  have hround : encRound k p round =
      ⟨lstep (maskedSstep { p with state := addRoundKey k round p.state }).state,
        maskLstep p.mask⟩ := rfl
  rw [hround, Kuznyechik.encRound, ← secret_addRoundKey, ← secret_maskedSstep, ← secret_lstep]
  rfl

/-- Moving the mask first is moving both shares through the inverse linear layer together. -/
theorem secret_decRound (k : Nat → State) (p : Shares State) (round : Nat) :
    (decRound k p round).secret = Kuznyechik.decRound k p.secret round := by
  have hround : decRound k p round =
      maskedInvSstep ⟨invLstep (addRoundKey k round p.state), maskInvLstep p.mask⟩ := rfl
  rw [hround, secret_maskedInvSstep, Kuznyechik.decRound, ← secret_addRoundKey, ← secret_invLstep]

theorem secret_cipher (k : Nat → State) (p : Shares State) :
    (cipher k p).secret = Kuznyechik.cipher k p.secret := by
  rw [cipher, secret_addRoundKey, Shares.secret_foldl (secret_encRound k)]
  rfl

theorem secret_invCipher (k : Nat → State) (p : Shares State) :
    (invCipher k p).secret = Kuznyechik.invCipher k p.secret := by
  rw [invCipher, secret_addRoundKey, Shares.secret_foldl (secret_decRound k)]
  rfl

/-! ## Calls -/

theorem maskState_between {f : Shares State → Shares State} {g : State → State}
    (h : ∀ p, (f p).secret = g p.secret) (mask input : State) :
    (maskState (f (maskState ⟨input, mask⟩))).state = g input :=
  (h (Shares.split mask input)).trans (congrArg g (Shares.secret_split mask input))

section Calls
variable {σ : Type u} (libc : Libc σ)

theorem toGlobals_genMask (g : Globals σ) (state : State) :
    (genMask libc g state).toGlobals = g.toGlobals := by
  have hfold (is : List (Fin 16)) (g : Globals σ) :
      (is.foldl (fun g i =>
        let drawn := libc.rand g.generator
        { g with
          mask := Function.update g.mask i (BitVec.ofInt 8 drawn.1)
          generator := drawn.2 }) g).toGlobals = g.toGlobals := by
    induction is generalizing g with
    | nil => rfl
    | cons i is ih => exact ih _
  exact hfold _ _

theorem maskedCrypto_output (g : Globals σ) (input : State) :
    (maskedCrypto libc g input).2 = Kuznyechik.crypto g.toGlobals input := by
  rw [Kuznyechik.crypto, ← toGlobals_genMask libc g input]
  exact maskState_between (secret_cipher _) _ input

theorem maskedDecrypto_output (g : Globals σ) (input : State) :
    (maskedDecrypto libc g input).2 = Kuznyechik.decrypto g.toGlobals input := by
  rw [Kuznyechik.decrypto, ← toGlobals_genMask libc g input]
  exact maskState_between (secret_invCipher _) _ input

/-- One call keeps the key material of the two programs equal and returns the same block. -/
theorem call_refines (g : Globals σ) (c : Call) :
    (call libc g c).1.toGlobals = (Kuznyechik.call g.toGlobals c).1 ∧
      (call libc g c).2 = (Kuznyechik.call g.toGlobals c).2 := by
  cases c with
  | setkey key => exact ⟨rfl, rfl⟩
  | crypto input =>
    exact ⟨toGlobals_genMask libc g input, congrArg some (maskedCrypto_output libc g input)⟩
  | decrypto input =>
    exact ⟨toGlobals_genMask libc g input, congrArg some (maskedDecrypto_output libc g input)⟩

theorem session_refines (g : Globals σ) (calls : List Call) :
    session libc g calls = Kuznyechik.session g.toGlobals calls := by
  induction calls generalizing g with
  | nil => rfl
  | cons c calls ih =>
    obtain ⟨hstate, hblock⟩ := call_refines libc g c
    rw [session, Kuznyechik.session, hblock, ih, hstate]

/-- From power-up, for every library and every sequence of calls, the masked program leaves the
same blocks as the plain one. -/
theorem masked_session_eq (generator : σ) (calls : List Call) :
    session libc (Globals.init generator) calls =
      Kuznyechik.session Kuznyechik.Globals.init calls :=
  session_refines libc (Globals.init generator) calls

end Calls

end KuznyechikDPA.Masked

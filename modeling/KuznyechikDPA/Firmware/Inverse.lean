import KuznyechikDPA.Firmware.Layers
import KuznyechikDPA.Foundation.Rounds

/-!
# Decryption undoes encryption

`InvCipher` pairs the key addition of a round with the inverse layers of the round
before it. Regrouped, its rounds are those of `Cipher` undone one by one.
-/

namespace KuznyechikDPA.Kuznyechik

/-- The rounds of `Cipher` whose key addition opens them. -/
def forwardRounds : List Nat := [0, 1, 2, 3, 4, 5, 6, 7, 8]

/-- What undoes `encRound`. -/
def undoRound (k : Nat → State) (s : State) (round : Nat) : State :=
  addRoundKey k round (invSstep (invLstep s))

theorem undoRound_encRound (k : Nat → State) (s : State) (round : Nat) :
    undoRound k (encRound k s round) round = s := by
  rw [undoRound, encRound, invLstep_lstep, invSstep_sstep, addRoundKey_addRoundKey]

theorem encRound_undoRound (k : Nat → State) (s : State) (round : Nat) :
    encRound k (undoRound k s round) round = s := by
  rw [undoRound, encRound, addRoundKey_addRoundKey, sstep_invSstep, lstep_invLstep]

theorem cipher_eq_foldl (k : Nat → State) (s : State) :
    cipher k s = addRoundKey k 9 (forwardRounds.foldl (encRound k) s) := rfl

theorem invCipher_eq_foldl (k : Nat → State) (s : State) :
    invCipher k s = forwardRounds.reverse.foldl (undoRound k) (addRoundKey k 9 s) := rfl

theorem invCipher_cipher (k : Nat → State) : Function.LeftInverse (invCipher k) (cipher k) := by
  intro s
  rw [cipher_eq_foldl, invCipher_eq_foldl, addRoundKey_addRoundKey]
  exact Rounds.foldl_reverse_cancel (undoRound_encRound k) forwardRounds s

theorem cipher_invCipher (k : Nat → State) : Function.RightInverse (invCipher k) (cipher k) := by
  intro s
  rw [cipher_eq_foldl, invCipher_eq_foldl,
    Rounds.foldl_cancel_reverse (encRound_undoRound k), addRoundKey_addRoundKey]

/-- After any `kuznyechik_setkey` the two block functions undo each other. -/
theorem decrypto_inverse_crypto (g : Globals) (key : Fin 32 → Byte) (block : State) :
    decrypto (setkey g key) (crypto (setkey g key) block) = block ∧
      crypto (setkey g key) (decrypto (setkey g key) block) = block :=
  ⟨invCipher_cipher _ block, cipher_invCipher _ block⟩

end KuznyechikDPA.Kuznyechik

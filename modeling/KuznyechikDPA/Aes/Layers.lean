import KuznyechikDPA.Aes.Aes256Pkg
import KuznyechikDPA.Foundation.Rounds
import Mathlib.Data.FinEnum

/-!
# The layers of AES

The tables hold products in the byte field of AES, so `mixColumns` and `invMixColumns`
are exclusive-or linear and undo each other, as the substitutions and the row shifts do.
The reference decryption therefore undoes the reference encryption.
-/

namespace KuznyechikDPA.Aes256Pkg

open ByteField
set_option maxRecDepth 4000

/-! ## The tables -/

theorem invSboxArray_sboxArray : Function.LeftInverse invSboxArray.get sboxArray.get :=
  Table.leftInverse_of_map (by decide +kernel)

theorem sboxArray_invSboxArray : Function.LeftInverse sboxArray.get invSboxArray.get :=
  invSboxArray_sboxArray.rightInverse_of_surjective
    (Finite.injective_iff_surjective.mp invSboxArray_sboxArray.injective)

theorem gfMult2_get (b : Byte) : gfMult2.get b = mul 0x1b 2 b :=
  Table.get_eq_of_entries (by decide +kernel) b

theorem gfMult3_get (b : Byte) : gfMult3.get b = mul 0x1b 3 b :=
  Table.get_eq_of_entries (by decide +kernel) b

theorem gfMult9_get (b : Byte) : gfMult9.get b = mul 0x1b 9 b :=
  Table.get_eq_of_entries (by decide +kernel) b

theorem gfMult11_get (b : Byte) : gfMult11.get b = mul 0x1b 11 b :=
  Table.get_eq_of_entries (by decide +kernel) b

theorem gfMult13_get (b : Byte) : gfMult13.get b = mul 0x1b 13 b :=
  Table.get_eq_of_entries (by decide +kernel) b

theorem gfMult14_get (b : Byte) : gfMult14.get b = mul 0x1b 14 b :=
  Table.get_eq_of_entries (by decide +kernel) b

theorem mul_one_left (b : Byte) : mul 0x1b 1 b = b := by
  rw [modMul_comm, mul]
  simp only [mulBits]
  revert b
  decide +kernel

/-! ## Row shifts and substitutions -/

theorem invShiftRowsSource_shiftRowsSource (i : Fin 16) :
    invShiftRowsSource (shiftRowsSource i) = i := by
  revert i
  decide

theorem shiftRowsSource_invShiftRowsSource (i : Fin 16) :
    shiftRowsSource (invShiftRowsSource i) = i := by
  revert i
  decide

theorem bytes_shiftRows (v : Block) (i : Fin 16) :
    bytes (shiftRows v) i = bytes v (shiftRowsSource i) :=
  congrFun (bytes_block _) i

theorem bytes_invShiftRows (v : Block) (i : Fin 16) :
    bytes (invShiftRows v) i = bytes v (invShiftRowsSource i) :=
  congrFun (bytes_block _) i

theorem invShiftRows_shiftRows : Function.LeftInverse invShiftRows shiftRows := by
  intro v
  apply bytes_injective
  funext i
  rw [bytes_invShiftRows, bytes_shiftRows, shiftRowsSource_invShiftRowsSource]

theorem invShiftRows_injective : Function.Injective invShiftRows := by
  intro v w h
  apply bytes_injective
  funext i
  have hbyte := congrArg (fun u => bytes u (shiftRowsSource i)) h
  rwa [bytes_invShiftRows, bytes_invShiftRows, invShiftRowsSource_shiftRowsSource] at hbyte

theorem xorHom_shiftRows : XorHom shiftRows :=
  xorHom_of_bytes (g := fun s i => s (shiftRowsSource i)) (fun _ _ => rfl) fun _ => bytes_block _

theorem xorHom_invShiftRows : XorHom invShiftRows :=
  xorHom_of_bytes (g := fun s i => s (invShiftRowsSource i)) (fun _ _ => rfl) fun _ => bytes_block _

theorem bytes_subBytes (v : Block) (i : Fin 16) :
    bytes (subBytes v) i = sboxArray.get (bytes v i) :=
  congrFun (bytes_block _) i

theorem bytes_invSubBytes (v : Block) (i : Fin 16) :
    bytes (invSubBytes v) i = invSboxArray.get (bytes v i) :=
  congrFun (bytes_block _) i

theorem invSubBytes_subBytes : Function.LeftInverse invSubBytes subBytes := by
  intro v
  apply bytes_injective
  funext i
  rw [bytes_invSubBytes, bytes_subBytes, invSboxArray_sboxArray]

theorem subBytes_invSubBytes : Function.LeftInverse subBytes invSubBytes := by
  intro v
  apply bytes_injective
  funext i
  rw [bytes_subBytes, bytes_invSubBytes, sboxArray_invSboxArray]

/-- A row shift moves bytes and a substitution acts on each by itself. -/
theorem invShiftRows_invSubBytes (v : Block) :
    invShiftRows (invSubBytes v) = invSubBytes (invShiftRows v) := by
  apply bytes_injective
  funext i
  rw [bytes_invShiftRows, bytes_invSubBytes, bytes_invSubBytes, bytes_invShiftRows]

theorem maskedSubBytes_eq (state mask : Block) :
    maskedSubBytes state mask = subBytes (state ^^^ mask) ^^^ mask := by
  apply bytes_injective
  rw [bytes_xor, subBytes, bytes_block, bytes_xor, maskedSubBytes, bytes_block]
  rfl

theorem invMaskedSubBytes_eq (state mask : Block) :
    invMaskedSubBytes state mask = invSubBytes (state ^^^ mask) ^^^ mask := by
  apply bytes_injective
  rw [bytes_xor, invSubBytes, bytes_block, bytes_xor, invMaskedSubBytes, bytes_block]
  rfl

/-! ## Columns -/

theorem below_below (i : Fin 16) : ∀ a < 4, ∀ b < 4, below (below i a) b = below i ((a + b) % 4) := by
  revert i
  decide

theorem below_zero (i : Fin 16) : below i 0 = i := by
  revert i
  decide

theorem bytes_mixColumns (v : Block) (i : Fin 16) :
    bytes (mixColumns v) i =
      mul 0x1b 2 (bytes v i) ^^^ mul 0x1b 3 (bytes v (below i 1)) ^^^ bytes v (below i 2) ^^^
        bytes v (below i 3) := by
  rw [mixColumns, bytes_block, gfMult2_get, gfMult3_get]

theorem bytes_invMixColumns (v : Block) (i : Fin 16) :
    bytes (invMixColumns v) i =
      mul 0x1b 14 (bytes v i) ^^^ mul 0x1b 9 (bytes v (below i 3)) ^^^
        mul 0x1b 11 (bytes v (below i 1)) ^^^ mul 0x1b 13 (bytes v (below i 2)) := by
  rw [invMixColumns, bytes_block, gfMult14_get, gfMult9_get, gfMult11_get, gfMult13_get]

theorem xorHom_mixColumns : XorHom mixColumns := by
  intro v w
  apply bytes_injective
  funext i
  simp only [bytes_xor, tuple_xor_apply, bytes_mixColumns, xorHom_mul_right 0x1b _ _ _]
  ac_rfl

theorem xorHom_invMixColumns : XorHom invMixColumns := by
  intro v w
  apply bytes_injective
  funext i
  simp only [bytes_xor, tuple_xor_apply, bytes_invMixColumns, xorHom_mul_right 0x1b _ _ _]
  ac_rfl

theorem mul_xor_left (a b c d x : Byte) :
    mul 0x1b a x ^^^ mul 0x1b b x ^^^ mul 0x1b c x ^^^ mul 0x1b d x =
      mul 0x1b (a ^^^ b ^^^ c ^^^ d) x := by
  have hleft := xorHom_mul_left 0x1b x
  have habcd : mul 0x1b (a ^^^ b ^^^ c ^^^ d) x = mul 0x1b (a ^^^ b ^^^ c) x ^^^ mul 0x1b d x :=
    hleft _ d
  have habc : mul 0x1b (a ^^^ b ^^^ c) x = mul 0x1b (a ^^^ b) x ^^^ mul 0x1b c x := hleft _ c
  have hab : mul 0x1b (a ^^^ b) x = mul 0x1b a x ^^^ mul 0x1b b x := hleft a b
  rw [habcd, habc, hab]

theorem mul_zero_left (x : Byte) : mul 0x1b 0 x = 0 := (xorHom_mul_left 0x1b x).map_zero

theorem column_cancel (x y z w : Byte) :
    mul 0x1b 14 (mul 0x1b 2 x ^^^ mul 0x1b 3 y ^^^ z ^^^ w) ^^^
        mul 0x1b 9 (mul 0x1b 2 w ^^^ mul 0x1b 3 x ^^^ y ^^^ z) ^^^
        mul 0x1b 11 (mul 0x1b 2 y ^^^ mul 0x1b 3 z ^^^ w ^^^ x) ^^^
        mul 0x1b 13 (mul 0x1b 2 z ^^^ mul 0x1b 3 w ^^^ x ^^^ y) = x := by
  have hx := mul_xor_left (mul 0x1b 14 2) (mul 0x1b 9 3) 11 13 x
  have hy := mul_xor_left (mul 0x1b 14 3) 9 (mul 0x1b 11 2) 13 y
  have hz := mul_xor_left 14 9 (mul 0x1b 11 3) (mul 0x1b 13 2) z
  have hw := mul_xor_left 14 (mul 0x1b 9 2) 11 (mul 0x1b 13 3) w
  have hone : mul 0x1b 14 2 ^^^ mul 0x1b 9 3 ^^^ 11 ^^^ 13 = 1 := by decide
  have hzero1 : mul 0x1b 14 3 ^^^ 9 ^^^ mul 0x1b 11 2 ^^^ 13 = 0 := by decide
  have hzero2 : 14 ^^^ 9 ^^^ mul 0x1b 11 3 ^^^ mul 0x1b 13 2 = 0 := by decide
  have hzero3 : 14 ^^^ mul 0x1b 9 2 ^^^ 11 ^^^ mul 0x1b 13 3 = 0 := by decide
  rw [hone, mul_one_left] at hx
  rw [hzero1, mul_zero_left] at hy
  rw [hzero2, mul_zero_left] at hz
  rw [hzero3, mul_zero_left] at hw
  simp only [xorHom_mul_right 0x1b _ _ _, ← modMul_assoc]
  calc
    _ = (mul 0x1b (mul 0x1b 14 2) x ^^^ mul 0x1b (mul 0x1b 9 3) x ^^^ mul 0x1b 11 x ^^^ mul 0x1b 13 x) ^^^
        (mul 0x1b (mul 0x1b 14 3) y ^^^ mul 0x1b 9 y ^^^ mul 0x1b (mul 0x1b 11 2) y ^^^ mul 0x1b 13 y) ^^^
        (mul 0x1b 14 z ^^^ mul 0x1b 9 z ^^^ mul 0x1b (mul 0x1b 11 3) z ^^^ mul 0x1b (mul 0x1b 13 2) z) ^^^
        (mul 0x1b 14 w ^^^ mul 0x1b (mul 0x1b 9 2) w ^^^ mul 0x1b 11 w ^^^
          mul 0x1b (mul 0x1b 13 3) w) := by ac_rfl
    _ = x := by rw [hx, hy, hz, hw]; simp

theorem invMixColumns_mixColumns : Function.LeftInverse invMixColumns mixColumns := by
  intro v
  apply bytes_injective
  funext i
  rw [bytes_invMixColumns]
  simp only [bytes_mixColumns, below_below i 3 (by omega) 1 (by omega),
    below_below i 3 (by omega) 2 (by omega), below_below i 3 (by omega) 3 (by omega),
    below_below i 1 (by omega) 1 (by omega), below_below i 1 (by omega) 2 (by omega),
    below_below i 1 (by omega) 3 (by omega), below_below i 2 (by omega) 1 (by omega),
    below_below i 2 (by omega) 2 (by omega), below_below i 2 (by omega) 3 (by omega)]
  have hcancel := column_cancel (bytes v i) (bytes v (below i 1)) (bytes v (below i 2))
    (bytes v (below i 3))
  rwa [below_zero i]

/-! ## Round keys -/

/-- Four words of a key array as one vector. -/
def roundKey (subKeys : KeyArray) (i : Nat) : Block :=
  subKeys (4 * i) ++ (subKeys (4 * i + 1) ++ (subKeys (4 * i + 2) ++ subKeys (4 * i + 3)))

theorem slices_append (v : Block) :
    v.extractLsb' 96 32 ++ (v.extractLsb' 64 32 ++ (v.extractLsb' 32 32 ++ v.extractLsb' 0 32)) = v := by
  have hlow : v.extractLsb' 32 32 ++ v.extractLsb' 0 32 = v.extractLsb' 0 64 :=
    BitVec.extractLsb'_append_extractLsb'_eq_extractLsb' (Nat.zero_add 32).symm
  have hmiddle : v.extractLsb' 64 32 ++ v.extractLsb' 0 64 = v.extractLsb' 0 96 :=
    BitVec.extractLsb'_append_extractLsb'_eq_extractLsb' (Nat.zero_add 64).symm
  have hhigh : v.extractLsb' 96 32 ++ v.extractLsb' 0 96 = v.extractLsb' 0 128 :=
    BitVec.extractLsb'_append_extractLsb'_eq_extractLsb' (Nat.zero_add 96).symm
  rw [hlow]
  exact (congrArg _ hmiddle).trans (hhigh.trans BitVec.extractLsb'_eq_self)

theorem words_xor (a b c d k1 k2 k3 k4 : Word) :
    (a ^^^ k1) ++ ((b ^^^ k2) ++ ((c ^^^ k3) ++ (d ^^^ k4))) =
      (a ++ (b ++ (c ++ d))) ^^^ (k1 ++ (k2 ++ (k3 ++ k4))) := by
  simp only [BitVec.xor_append]

theorem addRoundKey_eq (state : Block) (k1 k2 k3 k4 : Word) :
    addRoundKey state k1 k2 k3 k4 = state ^^^ (k1 ++ (k2 ++ (k3 ++ k4))) := by
  have hwords := words_xor (state.extractLsb' 96 32) (state.extractLsb' 64 32)
    (state.extractLsb' 32 32) (state.extractLsb' 0 32) k1 k2 k3 k4
  exact hwords.trans
    (congrArg (fun v : Block => v ^^^ (k1 ++ (k2 ++ (k3 ++ k4)))) (slices_append state))

theorem encryptRound_eq (subKeys : KeyArray) (state : Block) (i : Nat) :
    encryptRound subKeys state i = standardRound state (roundKey subKeys i) := by
  rw [encryptRound, addRoundKey_eq, standardRound, ARK, roundKey]

theorem decryptRound_eq (subKeys : KeyArray) (state : Block) (i : Nat) :
    decryptRound subKeys state i = invStdRound state (roundKey subKeys i) := by
  rw [decryptRound, addRoundKey_eq, invStdRound, ARK, roundKey]

theorem encrypt_eq (plain_text : Block) (master_key : BitVec 256) :
    encrypt plain_text master_key =
      lastRound ((List.range' 1 13).foldl (encryptRound (keyExp master_key))
        (plain_text ^^^ roundKey (keyExp master_key) 0)) (roundKey (keyExp master_key) 14) := by
  rw [encrypt, addRoundKey_eq, addRoundKey_eq]
  rfl

theorem decrypt_eq (cipher_text : Block) (master_key : BitVec 256) :
    decrypt cipher_text master_key =
      invLastRound ((List.range' 1 13).reverse.foldl (decryptRound (keyExp master_key))
        (cipher_text ^^^ roundKey (keyExp master_key) 14)) (roundKey (keyExp master_key) 0) := by
  rw [decrypt, addRoundKey_eq, addRoundKey_eq]
  rfl

/-- Below the substitution and the row shift of the next round, a round is undone. -/
theorem decryptRound_encryptRound (subKeys : KeyArray) (state : Block) (i : Nat) :
    decryptRound subKeys (shiftRows (subBytes (encryptRound subKeys state i))) i =
      shiftRows (subBytes state) := by
  rw [decryptRound_eq, encryptRound_eq, invStdRound, invShiftRows_shiftRows, invSubBytes_subBytes,
    standardRound, ARK, ARK, xor_cancel_right, invMixColumns_mixColumns]

theorem decrypt_encrypt (plain_text : Block) (master_key : BitVec 256) :
    decrypt (encrypt plain_text master_key) master_key = plain_text := by
  rw [decrypt_eq, encrypt_eq, lastRound, ARK, xor_cancel_right,
    Rounds.foldl_reverse_transform (fun state => shiftRows (subBytes state))
      (decryptRound_encryptRound (keyExp master_key)),
    invLastRound, invShiftRows_shiftRows, invSubBytes_subBytes, ARK, xor_cancel_right]

/-- There are finitely many blocks, so what undoes an encryption is undone by it. -/
theorem encrypt_decrypt (cipher_text : Block) (master_key : BitVec 256) :
    encrypt (decrypt cipher_text master_key) master_key = cipher_text := by
  have hleft : Function.LeftInverse (fun v => decrypt v master_key) fun v => encrypt v master_key :=
    fun v => decrypt_encrypt v master_key
  have hsurjective := Finite.injective_iff_surjective.mp hleft.injective
  exact hleft.rightInverse_of_surjective hsurjective cipher_text

theorem decrypt_inverse_encrypt (state : Block) (master_key : BitVec 256) :
    decrypt (encrypt state master_key) master_key = state ∧
      encrypt (decrypt state master_key) master_key = state :=
  ⟨decrypt_encrypt state master_key, encrypt_decrypt state master_key⟩

end KuznyechikDPA.Aes256Pkg

import KuznyechikDPA.Aes.KeyExpansion
import KuznyechikDPA.Aes.Standard

/-!
# The package computes AES-256

The byte of row `r` and column `c` is slice `r + 4 * c` of a vector, counted from the most
significant one, and a word of the key array is a column. The tables hold the values of the
field operations, the slice assignments are the row shift and the column products, and the
two index lists of `keyExp` are the multiples of eight and the odd multiples of four.
-/

namespace KuznyechikDPA.Aes256Pkg

open ByteField
set_option maxRecDepth 4000

/-! ## The substitution -/

theorem mul_inverse_unique {b c : Byte} (hb : b ≠ 0) (h : mul AesStandard.reduction b c = 1) :
    AesStandard.inverse b = c := by
  have hone (x : Byte) : mul AesStandard.reduction 1 x = x := mul_one_left x
  calc
    AesStandard.inverse b = mul AesStandard.reduction (mul AesStandard.reduction b c)
        (AesStandard.inverse b) := by rw [h, hone]
    _ = mul AesStandard.reduction (mul AesStandard.reduction b (AesStandard.inverse b)) c := by
        rw [modMul_assoc, modMul_comm _ c, ← modMul_assoc]
    _ = c := by rw [AesStandard.mul_inverse hb, hone]

/-- The inverse of the affine map. -/
def unaffine (b : Byte) : Byte := b.rotateLeft 1 ^^^ b.rotateLeft 3 ^^^ b.rotateLeft 6 ^^^ 0x05

/-- The table holds the affine map of the inverse. -/
theorem sboxArray_get (b : Byte) : sboxArray.get b = AesStandard.sbox b := by
  have hentry := forall_of_allBytes (p := fun b =>
    AesStandard.affine (unaffine (sboxArray.get b)) == sboxArray.get b &&
      if b == 0 then unaffine (sboxArray.get b) == 0
      else mul AesStandard.reduction b (unaffine (sboxArray.get b)) == 1) (by decide +kernel) b
  rw [Bool.and_eq_true, beq_iff_eq] at hentry
  obtain ⟨haffine, hinverse⟩ := hentry
  rw [← haffine, AesStandard.sbox]
  congr 1
  by_cases hb : b = 0
  · subst b
    rw [AesStandard.inverse_zero]
    decide +kernel
  · rw [if_neg (by simpa using hb), beq_iff_eq] at hinverse
    exact (mul_inverse_unique hb hinverse).symm

/-! ## The state -/

/-- The state that a vector holds. -/
def state (v : Block) : AesStandard.State := AesStandard.input (bytes v)

theorem output_state (v : Block) : AesStandard.output (state v) = bytes v := by
  have hindex : ∀ i : Fin 16, Fin.ofNat 16 ((Fin.ofNat 4 i).val + 4 * (Fin.ofNat 4 (i / 4)).val) = i := by
    decide
  funext i
  rw [AesStandard.output, state, AesStandard.input, hindex i]

theorem state_subBytes (v : Block) : state (subBytes v) = AesStandard.subBytes (state v) := by
  funext r c
  rw [state, AesStandard.input, bytes_subBytes, sboxArray_get]
  rfl

theorem state_shiftRows (v : Block) : state (shiftRows v) = AesStandard.shiftRows (state v) := by
  have hindex : ∀ r c : Fin 4, shiftRowsSource (Fin.ofNat 16 (r + 4 * c)) =
      Fin.ofNat 16 (r + 4 * (c + r).val) := by
    decide
  funext r c
  rw [state, AesStandard.input, bytes_shiftRows, hindex]
  rfl

theorem state_mixColumns (v : Block) : state (mixColumns v) = AesStandard.mixColumns (state v) := by
  have hindex : ∀ r c : Fin 4, ∀ k : Fin 4, below (Fin.ofNat 16 (r + 4 * c)) k =
      Fin.ofNat 16 ((r + k).val + 4 * c) := by
    decide
  funext r c
  have h1 : below (Fin.ofNat 16 (r + 4 * c)) 1 = Fin.ofNat 16 ((r + 1).val + 4 * c) := hindex r c 1
  have h2 : below (Fin.ofNat 16 (r + 4 * c)) 2 = Fin.ofNat 16 ((r + 2).val + 4 * c) := hindex r c 2
  have h3 : below (Fin.ofNat 16 (r + 4 * c)) 3 = Fin.ofNat 16 ((r + 3).val + 4 * c) := hindex r c 3
  rw [state, AesStandard.input, bytes_mixColumns, h1, h2, h3]
  rfl

/-! ## The key expansion -/

/-- The column that a word holds. -/
def column (word : Word) : Fin 4 → Byte := toBytes (n := 4) word

theorem column_rotWord (word : Word) : column (rotWord word) = AesStandard.rotWord (column word) := by
  funext i
  rw [AesStandard.rotWord, column, column, toBytes, toBytes, rotWord]
  have hbound := i.isLt
  by_cases hi : i = 3
  · subst i
    exact BitVec.extractLsb'_append_eq_right
  · have hval : (i + 1).val = i.val + 1 := by
      revert i
      decide
    have hlt : i.val < 3 := by
      rw [Fin.ext_iff] at hi
      change i.val ≠ 3 at hi
      omega
    rw [BitVec.extractLsb'_append_eq_of_le (by omega), slice_slice _ _ _ (by omega), hval]
    congr 1
    omega

theorem column_subWord (word : Word) : column (subWord word) = AesStandard.subWord (column word) := by
  funext i
  rw [column, subWord, toBytes_ofBytes, sboxArray_get]
  rfl

theorem column_xor (v w : Word) : column (v ^^^ w) = column v ^^^ column w := xorHom_toBytes (n := 4) v w

theorem column_rconArray (j : Nat) (h1 : 1 ≤ j) (h7 : j ≤ 7) :
    column (rconArray.getD j 0) = AesStandard.rcon j := by
  have htable : ∀ j < 8, 1 ≤ j → column (rconArray.getD j 0) = AesStandard.rcon j := by decide
  exact htable j (by omega) h1

theorem column_keyTransform (i : Nat) (h8 : 8 ≤ i) (h : i < 60) (tmp : Word) :
    column (keyTransform i tmp) = AesStandard.nextTemp i (column tmp) := by
  have hmul : i ∈ [8, 16, 24, 32, 40, 48, 56] ↔ i % 8 = 0 := by
    simp only [List.mem_cons, List.not_mem_nil, or_false]
    omega
  have hodd : i ∈ [4, 12, 20, 28, 36, 44, 52] ↔ i % 8 = 4 := by
    simp only [List.mem_cons, List.not_mem_nil, or_false]
    omega
  simp only [keyTransform, AesStandard.nextTemp, hmul, hodd]
  split_ifs
  · rw [column_xor, column_subWord, column_rotWord, column_rconArray _ (by omega) (by omega)]
  · exact column_subWord tmp
  · rfl

section Key
variable (masterKey : BitVec 256)

/-- The 32 bytes of the master key, most significant first. -/
def keyBytes : Fin 32 → Byte := toBytes (n := 32) masterKey

theorem column_key (i : Nat) (h : i < 8) :
    column (masterKey.extractLsb' (32 * (7 - i)) 32) =
      fun j : Fin 4 => keyBytes masterKey (Fin.ofNat 32 (4 * i + j)) := by
  funext j
  have hj := j.isLt
  have hindex : (Fin.ofNat 32 (4 * i + j)).val = 4 * i + j := Nat.mod_eq_of_lt (by omega)
  rw [column, keyBytes, toBytes, toBytes, slice_slice _ _ _ (by omega), hindex]
  congr 1
  omega

theorem column_keyExp (i : Nat) (h : i < 60) :
    column (keyExp masterKey i) = AesStandard.keyWord (keyBytes masterKey) i := by
  induction i using Nat.strong_induction_on with
  | h i ih =>
    rw [AesStandard.keyWord]
    by_cases h8 : i < 8
    · rw [if_pos h8, keyExp_key masterKey i h8]
      exact column_key masterKey i h8
    · rw [if_neg h8, keyExp_step masterKey i (by omega) h, column_xor,
        column_keyTransform i (by omega) h, ih (i - 8) (by omega) (by omega),
        ih (i - 1) (by omega) (by omega)]

end Key

/-! ## The cipher -/

theorem state_apply (v : Block) (r c : Fin 4) :
    state v r c = column (v.extractLsb' (32 * (3 - c)) 32) r := by
  have hr := r.isLt
  have hc := c.isLt
  have hindex : (Fin.ofNat 16 (r + 4 * c)).val = r + 4 * c := Nat.mod_eq_of_lt (by omega)
  rw [state, AesStandard.input, column, bytes, toBytes, toBytes, slice_slice _ _ _ (by omega), hindex]
  congr 1
  omega

theorem roundKey_slice (subKeys : KeyArray) (i : Nat) (c : Fin 4) :
    (roundKey subKeys i).extractLsb' (32 * (3 - c)) 32 = subKeys (4 * i + c) := by
  fin_cases c
  · exact BitVec.extractLsb'_append_eq_left
  · exact (BitVec.extractLsb'_append_eq_of_add_le (by decide)).trans BitVec.extractLsb'_append_eq_left
  · exact (BitVec.extractLsb'_append_eq_of_add_le (by decide)).trans
      ((BitVec.extractLsb'_append_eq_of_add_le (by decide)).trans BitVec.extractLsb'_append_eq_left)
  · exact (BitVec.extractLsb'_append_eq_of_add_le (by decide)).trans
      ((BitVec.extractLsb'_append_eq_of_add_le (by decide)).trans BitVec.extractLsb'_append_eq_right)

section Cipher
variable (masterKey : BitVec 256)

theorem state_addRoundKey (v : Block) (i : Nat) (hi : i ≤ 14) :
    state (v ^^^ roundKey (keyExp masterKey) i) =
      AesStandard.addRoundKey (AesStandard.keyWord (keyBytes masterKey)) i (state v) := by
  funext r c
  have hc := c.isLt
  rw [AesStandard.addRoundKey, ← column_keyExp masterKey _ (by omega), ← roundKey_slice, ← state_apply]
  simp only [state, AesStandard.input, bytes_xor, tuple_xor_apply]

theorem state_encryptRound (v : Block) (i : Nat) (hi : i ≤ 13) :
    state (encryptRound (keyExp masterKey) v i) =
      AesStandard.cipherRound (AesStandard.keyWord (keyBytes masterKey)) (state v) i := by
  rw [encryptRound_eq, standardRound, ARK, state_addRoundKey masterKey _ i (by omega),
    state_mixColumns, state_shiftRows, state_subBytes, AesStandard.cipherRound]

/-- `encrypt` is AES-256, the vectors read as bytes from the most significant one. -/
theorem encrypt_conforms (plain_text : Block) (masterKey : BitVec 256) :
    bytes (encrypt plain_text masterKey) =
      AesStandard.cipher (keyBytes masterKey) (bytes plain_text) := by
  have hrounds := List.foldl_rel (l := List.range' 1 13) (r := fun v s => state v = s)
    (f := encryptRound (keyExp masterKey))
    (g := AesStandard.cipherRound (AesStandard.keyWord (keyBytes masterKey)))
    (state_addRoundKey masterKey plain_text 0 (by omega)) fun i hi v s hv => by
      rw [state_encryptRound masterKey v i (by simp at hi; omega), hv]
  rw [encrypt_eq, lastRound, ARK, ← output_state, state_addRoundKey masterKey _ 14 le_rfl,
    state_shiftRows, state_subBytes, hrounds]
  rfl

/-- The example vector of the standard. -/
example : encrypt 0x00112233445566778899aabbccddeeff
    0x000102030405060708090a0b0c0d0e0f101112131415161718191a1b1c1d1e1f =
      0x8ea2b7ca516745bfeafc49904b496089 := by
  decide +kernel

end Cipher

end KuznyechikDPA.Aes256Pkg

import KuznyechikDPA.Aes.Standard

/-!
# AES with keys of 128, 192 and 256 bits

The three key lengths of FIPS 197, over the transformations of AES-256. A key is read as the
bytes from its address on.
-/

namespace KuznyechikDPA.AesStandard

theorem rcon_apply (j : Nat) (r : Fin 4) : rcon j r = if r = 0 then rcon j 0 else 0 := by
  fin_cases r <;> rfl

/-- A round constant changes the first byte of a word only. -/
theorem update_rcon (temp : Fin 4 → Byte) (j : Nat) :
    Function.update temp 0 (temp 0 ^^^ rcon j 0) = temp ^^^ rcon j := by
  funext r
  by_cases hr : r = 0
  · rw [hr, Function.update_self]
    rfl
  · rw [Function.update_of_ne hr, tuple_xor_apply, rcon_apply, if_neg hr, xor_zero]

inductive KeySize where
  | aes128
  | aes192
  | aes256
  deriving DecidableEq

namespace KeySize

/-- The number of words of a key. -/
def nk : KeySize → Nat
  | .aes128 => 4
  | .aes192 => 6
  | .aes256 => 8

def rounds (size : KeySize) : Nat := size.nk + 6

theorem nk_pos (size : KeySize) : 0 < size.nk := by
  cases size <;> decide

/-- `temp` before it is added to the word `nk` places back. -/
def nextTemp (size : KeySize) (i : Nat) (temp : Fin 4 → Byte) : Fin 4 → Byte :=
  if i % size.nk = 0 then subWord (rotWord temp) ^^^ rcon (i / size.nk)
  else if 6 < size.nk ∧ i % size.nk = 4 then subWord temp
  else temp

/-- Word `i` of the key expansion. -/
def keyWord (size : KeySize) (key : Nat → Byte) (i : Nat) : Fin 4 → Byte :=
  if i < size.nk then fun j => key (4 * i + j)
  else keyWord size key (i - size.nk) ^^^ nextTemp size i (keyWord size key (i - 1))
termination_by i
decreasing_by all_goals have hpos := size.nk_pos; omega

/-- Every round but the last one has `mixColumns`. -/
def cipher (size : KeySize) (key : Nat → Byte) (block : Fin 16 → Byte) : Fin 16 → Byte :=
  let w := size.keyWord key
  let s := (List.range' 1 (size.rounds - 1)).foldl (cipherRound w) (addRoundKey w 0 (input block))
  output (addRoundKey w size.rounds (shiftRows (subBytes s)))

variable {size : KeySize} {key : Nat → Byte} {i : Nat}

theorem keyWord_key (h : i < size.nk) : size.keyWord key i = fun j : Fin 4 => key (4 * i + j) := by
  rw [keyWord, if_pos h]

theorem keyWord_step (h : size.nk ≤ i) : size.keyWord key i =
    size.keyWord key (i - size.nk) ^^^ size.nextTemp i (size.keyWord key (i - 1)) := by
  rw [keyWord, if_neg (by omega)]

/-- Only the bytes of the key are read. -/
theorem keyWord_congr {key' : Nat → Byte} (h : ∀ n < 4 * size.nk, key n = key' n) (i : Nat) :
    size.keyWord key i = size.keyWord key' i := by
  induction i using Nat.strong_induction_on with
  | h i ih =>
    have hpos := size.nk_pos
    by_cases hi : i < size.nk
    · rw [keyWord_key hi, keyWord_key hi]
      funext j
      have hj := j.isLt
      exact h _ (by omega)
    · rw [keyWord_step (by omega), ih _ (by omega), ih (i - 1) (by omega), ← keyWord_step (by omega)]

theorem cipher_congr {key' : Nat → Byte} (h : ∀ n < 4 * size.nk, key n = key' n) (block : Fin 16 → Byte) :
    size.cipher key block = size.cipher key' block := by
  rw [cipher, cipher, funext (keyWord_congr h)]

/-! ## The shortest key -/

/-- The first word of a round key. -/
theorem keyWord_aes128_first (key : Nat → Byte) (i : Nat) : aes128.keyWord key (4 * (i + 1)) =
    aes128.keyWord key (4 * i) ^^^ (subWord (rotWord (aes128.keyWord key (4 * i + 3))) ^^^ rcon (i + 1)) := by
  have hnk : aes128.nk = 4 := rfl
  have hback : 4 * (i + 1) - 4 = 4 * i := by omega
  have hlast : 4 * (i + 1) - 1 = 4 * i + 3 := by omega
  rw [keyWord_step (by omega), hnk, hback, hlast, nextTemp, hnk, Nat.mul_mod_right, if_pos rfl,
    Nat.mul_div_cancel_left _ (by decide)]

/-- The other three words. -/
theorem keyWord_aes128_next (key : Nat → Byte) (i : Nat) {c : Nat} (hpos : 0 < c) (hc : c < 4) :
    aes128.keyWord key (4 * (i + 1) + c) =
      aes128.keyWord key (4 * i + c) ^^^ aes128.keyWord key (4 * (i + 1) + (c - 1)) := by
  have hnk : aes128.nk = 4 := rfl
  have hback : 4 * (i + 1) + c - 4 = 4 * i + c := by omega
  have hlast : 4 * (i + 1) + c - 1 = 4 * (i + 1) + (c - 1) := by omega
  rw [keyWord_step (by omega), hnk, hback, hlast, nextTemp, hnk, if_neg (by omega), if_neg (by omega)]

/-! ## The longest key -/

theorem nk_aes256 : aes256.nk = 8 := rfl

theorem nextTemp_aes256 (i : Nat) (temp : Fin 4 → Byte) :
    aes256.nextTemp i temp = AesStandard.nextTemp i temp := by
  have hlong : 6 < 8 := by decide
  simp only [nextTemp, AesStandard.nextTemp, nk_aes256, hlong, true_and]

theorem keyWord_aes256 (key : Fin 32 → Byte) (i : Nat) :
    aes256.keyWord (fun n => key (Fin.ofNat 32 n)) i = AesStandard.keyWord key i := by
  induction i using Nat.strong_induction_on with
  | h i ih =>
    rw [AesStandard.keyWord]
    by_cases hi : i < 8
    · rw [if_pos hi]
      exact keyWord_key hi
    · have hstep : aes256.nk ≤ i := by
        rw [nk_aes256]
        omega
      rw [if_neg hi, keyWord_step hstep, nk_aes256, ih _ (by omega), ih _ (by omega), nextTemp_aes256]

/-- With 256 bits it is the cipher above. -/
theorem cipher_aes256 (key : Fin 32 → Byte) (block : Fin 16 → Byte) :
    aes256.cipher (fun n => key (Fin.ofNat 32 n)) block = AesStandard.cipher key block := by
  have hwords : aes256.keyWord (fun n => key (Fin.ofNat 32 n)) = AesStandard.keyWord key :=
    funext (keyWord_aes256 key)
  rw [cipher, AesStandard.cipher, hwords]
  rfl

end KeySize

end KuznyechikDPA.AesStandard

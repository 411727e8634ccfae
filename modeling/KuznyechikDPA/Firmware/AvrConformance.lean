import KuznyechikDPA.Firmware.AvrCryptoLib

/-!
# `avrcryptolib` computes AES

`gf256mul` is the product of polynomials, so the column loops are the column steps of the package,
and the rounds are those of the standard. The loop of `aes_init` keeps `next_nk` at the next
multiple of `nk`.
-/

namespace KuznyechikDPA.AvrCryptoLib
open ByteField Aes256Pkg AesBuffer
open AesStandard (KeySize)

/-! ## The product -/

theorem xtimes_eq (reducer B : Byte) :
    (if B.msb then (B <<< 1) ^^^ reducer else B <<< 1) = xtimes reducer B := by
  rw [xtimes]
  split
  · rfl
  · exact BitVec.xor_zero.symm

/-- The loop adds the product of what is left in the registers. -/
theorem gf256mulLoop_eq (reducer A B P : Byte) :
    gf256mulLoop reducer A B P = P ^^^ mul reducer B A := by
  fun_induction gf256mulLoop reducer A B P with
  | case1 A B P carry hA hcarry =>
    have hbit : A.getLsbD 0 = true := hcarry
    have hzero : mul reducer (xtimes reducer B) 0 = 0 := (xorHom_mul_right reducer _).map_zero
    rw [mul_shift, hA, hzero, if_pos hbit, xor_zero]
  | case2 A B P carry hA hcarry =>
    have hbit : ¬ A.getLsbD 0 = true := hcarry
    have hzero : mul reducer (xtimes reducer B) 0 = 0 := (xorHom_mul_right reducer _).map_zero
    rw [mul_shift, hA, hzero, if_neg hbit, xor_zero, xor_zero]
  | case3 A B P carry hA ih =>
    have hcarry : carry = A.getLsbD 0 := rfl
    simp only [dite_eq_ite] at ih
    rw [ih, xtimes_eq, hcarry, mul_shift reducer B A]
    split
    · rw [LawfulXor.xor_assoc]
    · rw [zero_xor]

theorem gf256mul_eq (a b reducer : Byte) : gf256mul a b reducer = mul reducer a b := by
  rw [gf256mul, gf256mulLoop_eq, zero_xor, modMul_comm]

/-- For every reducer, and although it stops with the last bit of its first factor, `gf256mul` is the
product of polynomials modulo `X^8 + reducer`. -/
theorem toPoly_gf256mul (a b reducer : Byte) :
    toPoly (gf256mul a b reducer) = (toPoly a * toPoly b) %ₘ modulus reducer := by
  rw [gf256mul_eq, toPoly_mul]

theorem gf256mul_xor (a b c reducer : Byte) :
    gf256mul a (b ^^^ c) reducer = mul reducer a b ^^^ mul reducer a c := by
  rw [gf256mul_eq, xorHom_mul_right reducer a b c]

/-! ## Columns -/

theorem column_inverse {a b c d t p q : Byte} (ht : t = a ^^^ b ^^^ c ^^^ d) (hp : p = a ^^^ c)
    (hq : q = a ^^^ b) :
    a ^^^ (gf256mul 9 t 0x1b ^^^ gf256mul 4 p 0x1b) ^^^ gf256mul 2 q 0x1b =
      mul 0x1b 14 a ^^^ mul 0x1b 9 d ^^^ mul 0x1b 11 b ^^^ mul 0x1b 13 c := by
  have ha : mul 0x1b 14 a = mul 0x1b 9 a ^^^ mul 0x1b 4 a ^^^ mul 0x1b 2 a ^^^ a := by
    have hsum := mul_xor_left 9 4 2 1 a
    rw [mul_one_left] at hsum
    exact hsum.symm
  have hb : mul 0x1b 11 b = mul 0x1b 9 b ^^^ mul 0x1b 2 b := xorHom_mul_left 0x1b b 9 2
  have hc : mul 0x1b 13 c = mul 0x1b 9 c ^^^ mul 0x1b 4 c := xorHom_mul_left 0x1b c 9 4
  have hnine : gf256mul 9 t 0x1b =
      mul 0x1b 9 a ^^^ mul 0x1b 9 b ^^^ mul 0x1b 9 c ^^^ mul 0x1b 9 d := by
    rw [ht, gf256mul_xor, xorHom_mul_right 0x1b 9 _ c, xorHom_mul_right 0x1b 9 a b]
  rw [hnine, hp, hq, gf256mul_xor, gf256mul_xor, ha, hb, hc]
  ac_rfl

theorem mixColums_eq (tmp : State) : mixColums tmp = bytes (mixColumns (block tmp)) := by
  apply eq_mixColumns
  intro n r hr hmod
  rw [mixColums, hmod]
  simp only [gf256mul_eq]
  interval_cases r <;> rfl

theorem invMixColums_eq (tmp : State) : invMixColums tmp = bytes (invMixColumns (block tmp)) := by
  funext n
  have hr : n.val % 4 < 4 := Nat.mod_lt _ (by decide)
  rw [bytes_invMixColumns, bytes_block, self_eq_inColumn tmp n, below_eq_inColumn tmp,
    below_eq_inColumn tmp, below_eq_inColumn tmp, invMixColums]
  generalize inColumn tmp n = x, n.val % 4 = r at hr
  interval_cases r
  · exact column_inverse (a := x 0) (b := x 1) (c := x 2) (d := x 3) (by ac_rfl) (by ac_rfl) (by ac_rfl)
  · exact column_inverse (a := x 1) (b := x 2) (c := x 3) (d := x 0) (by ac_rfl) (by ac_rfl) (by ac_rfl)
  · exact column_inverse (a := x 2) (b := x 3) (c := x 0) (d := x 1) (by ac_rfl) (by ac_rfl) (by ac_rfl)
  · exact column_inverse (a := x 3) (b := x 0) (c := x 1) (d := x 2) (by ac_rfl) (by ac_rfl) (by ac_rfl)

theorem aesShiftcol_rows (s : State) :
    aesShiftcol (aesShiftcol (aesShiftcol s 1 1) 2 2) 3 3 = bytes (shiftRows (block s)) := by
  funext n
  rw [bytes_shiftRows, bytes_block]
  fin_cases n <;> rfl

theorem aesInvshiftcol_rows (s : State) :
    aesInvshiftcol (aesInvshiftcol (aesInvshiftcol s 1 1) 2 2) 3 3 = bytes (invShiftRows (block s)) := by
  funext n
  rw [bytes_invShiftRows, bytes_block]
  fin_cases n <;> rfl

theorem block_subBytes (s : State) : block (fun i => aesSbox.get (s i)) = subBytes (block s) := by
  rw [subBytes, bytes_block]
  rfl

theorem block_invSubBytes (s : State) :
    block (fun i => aesInvsbox.get (s i)) = invSubBytes (block s) := by
  rw [invSubBytes, bytes_block]
  rfl

theorem block_aesEncRound (state k : State) :
    block (aesEncRound state k) = standardRound (block state) (block k) := by
  rw [aesEncRound, block_xor, aesShiftcol_rows, mixColums_eq, block_bytes, block_bytes, block_subBytes]
  rfl

theorem block_aesEncLastround (state k : State) :
    block (aesEncLastround state k) = lastRound (block state) (block k) := by
  rw [aesEncLastround, block_xor, aesShiftcol_rows, block_bytes, block_subBytes]
  rfl

theorem block_aesDecRound (state k : State) :
    block (aesDecRound state k) = invSubBytes (invShiftRows (invMixColumns (block state ^^^ block k))) := by
  rw [aesDecRound, block_invSubBytes, aesInvshiftcol_rows, invMixColums_eq, block_bytes, block_bytes,
    block_xor]

theorem block_aesDecFirstround (state k : State) :
    block (aesDecFirstround state k) = invSubBytes (invShiftRows (block state ^^^ block k)) := by
  rw [aesDecFirstround, block_invSubBytes, aesInvshiftcol_rows, block_bytes, block_xor]

theorem aesDecRound_aesEncRound (state k : State) : aesDecRound (aesEncRound state k) k = state := by
  apply block_injective
  rw [block_aesDecRound, block_aesEncRound, standardRound, ARK, xor_cancel_right,
    invMixColumns_mixColumns, invShiftRows_shiftRows, invSubBytes_subBytes]

theorem aesDecFirstround_aesEncLastround (state k : State) :
    aesDecFirstround (aesEncLastround state k) k = state := by
  apply block_injective
  rw [block_aesDecFirstround, block_aesEncLastround, lastRound, ARK, xor_cancel_right,
    invShiftRows_shiftRows, invSubBytes_subBytes]

theorem add_add (state k : State) : (fun i => state i ^^^ k i ^^^ k i) = state := by
  funext i
  exact xor_cancel_right _ _

theorem aesDecryptCore_aesEncryptCore (state : State) (ks : Ctx) (rounds : Nat) :
    aesDecryptCore (aesEncryptCore state ks (rounds + 1)) ks (rounds + 1) = state := by
  have hlast : 1 + (rounds + 1 - 1) = rounds + 1 := by omega
  have hrounds := Rounds.foldl_reverse_cancel
    (f := fun state i => aesEncRound state (ks.key i)) (g := fun state i => aesDecRound state (ks.key i))
    (fun state i => aesDecRound_aesEncRound state (ks.key i)) (List.range' 1 (rounds + 1 - 1))
    (fun i => state i ^^^ ks.key 0 i)
  rw [aesDecryptCore, aesEncryptCore, hlast, aesDecFirstround_aesEncLastround, hrounds, add_add]


theorem aesEncryptCore_aesDecryptCore (state : State) (ks : Ctx) (rounds : Nat) :
    aesEncryptCore (aesDecryptCore state ks (rounds + 1)) ks (rounds + 1) = state := by
  have hleft : Function.LeftInverse (fun s => aesDecryptCore s ks (rounds + 1)) fun s =>
      aesEncryptCore s ks (rounds + 1) :=
    fun s => aesDecryptCore_aesEncryptCore s ks rounds
  have hsurjective := Finite.injective_iff_surjective.mp hleft.injective
  exact hleft.rightInverse_of_surjective hsurjective state

/-! ## The key schedule -/

/-- After `n` passes of the loop of `aes_init`. -/
structure Expanded (size : KeySize) (key : Nat → Byte) (ctx : Ctx) (n : Nat) (e : Expansion) : Prop where
  words : ∀ i < size.nk + n, e.ks i = size.keyWord key i
  above : ∀ i, size.nk + n ≤ i → e.ks i = ctx i
  next : e.next_nk = size.nk * (e.rc + 1)
  low : size.nk + n ≤ e.next_nk
  high : e.next_nk < size.nk + n + size.nk

theorem substituted_eq (v8 : Fin 4 → Byte) : substituted v8 = AesStandard.subWord v8 := by
  funext j
  exact sboxArray_get (v8 j)

theorem aesRotword_eq (a : Fin 4 → Byte) : aesRotword a = AesStandard.rotWord a := by
  funext j
  fin_cases j <;> rfl

theorem rcTab_eq (rc : Nat) (h : rc < 10) : rcTab.getD rc 0 = AesStandard.rcon (rc + 1) 0 := by
  revert rc
  decide

variable {size : KeySize} {key : Nat → Byte} {ctx : Ctx} {n : Nat} {e : Expansion}

namespace Expanded

/-- `next_nk` is the next multiple of `nk`. -/
theorem eq_next_iff (h : Expanded size key ctx n e) :
    size.nk + n = e.next_nk ↔ (size.nk + n) % size.nk = 0 := by
  have hnext := h.next
  have hlow := h.low
  have hhigh := h.high
  cases size <;> simp only [KeySize.nk] at * <;> omega

theorem rc_eq (h : Expanded size key ctx n e) (hi : size.nk + n = e.next_nk) :
    (size.nk + n) / size.nk = e.rc + 1 := by
  rw [hi, h.next, Nat.mul_div_cancel_left _ size.nk_pos]

theorem rc_lt (h : Expanded size key ctx n e) (hi : size.nk + n = e.next_nk)
    (hn : size.nk + n < 4 * (size.nk + 7)) : e.rc < 10 := by
  have hnext := h.next
  cases size <;> simp only [KeySize.nk] at * <;> omega

/-- What a pass adds to the word `nk` places back. -/
theorem ks_step (h : Expanded size key ctx n e) (hn : size.nk + n < 4 * (size.nk + 7)) :
    (aesInitStep size.nk e (size.nk + n)).ks =
      Function.update e.ks (size.nk + n) (size.keyWord key (size.nk + n)) := by
  have hpos := size.nk_pos
  have hback : e.ks (size.nk + n - size.nk) = size.keyWord key (size.nk + n - size.nk) :=
    h.words _ (by omega)
  have hlast : e.ks (size.nk + n - 1) = size.keyWord key (size.nk + n - 1) := h.words _ (by omega)
  rw [KeySize.keyWord_step (by omega), ← hback, ← hlast, KeySize.nextTemp, aesInitStep]
  by_cases hi : size.nk + n = e.next_nk
  · rw [if_neg (not_not_intro hi), if_pos (h.eq_next_iff.mp hi), h.rc_eq hi, ← substituted_eq,
      ← aesRotword_eq, ← AesStandard.update_rcon, ← rcTab_eq _ (h.rc_lt hi hn)]
  · have hlong : (size.nk = 8 ∧ (size.nk + n) % 8 = 4) ↔ (6 < size.nk ∧ (size.nk + n) % size.nk = 4) := by
      cases size <;> simp [KeySize.nk]
    rw [if_pos hi, if_neg (mt h.eq_next_iff.mpr hi)]
    simp only [hlong, substituted_eq]

theorem step (h : Expanded size key ctx n e) (hn : size.nk + n < 4 * (size.nk + 7)) :
    Expanded size key ctx (n + 1) (aesInitStep size.nk e (size.nk + n)) := by
  have hks := h.ks_step hn
  have hpos := size.nk_pos
  have hlow := h.low
  have hhigh := h.high
  have hcounters : (size.nk + n ≠ e.next_nk ∧
      (aesInitStep size.nk e (size.nk + n)).next_nk = e.next_nk ∧
      (aesInitStep size.nk e (size.nk + n)).rc = e.rc) ∨
    (size.nk + n = e.next_nk ∧ (aesInitStep size.nk e (size.nk + n)).next_nk = e.next_nk + size.nk ∧
      (aesInitStep size.nk e (size.nk + n)).rc = e.rc + 1) := by
    rw [aesInitStep]
    by_cases hi : size.nk + n = e.next_nk
    · rw [if_neg (not_not_intro hi)]
      exact .inr ⟨hi, rfl, rfl⟩
    · rw [if_pos hi]
      exact .inl ⟨hi, rfl, rfl⟩
  refine ⟨fun i hi => ?_, fun i hi => ?_, ?_, ?_, ?_⟩
  · rw [hks]
    rcases eq_or_ne i (size.nk + n) with rfl | hne
    · rw [Function.update_self]
    · rw [Function.update_of_ne hne]
      exact h.words i (by omega)
  · rw [hks, Function.update_of_ne (by omega)]
    exact h.above i (by omega)
  · rcases hcounters with ⟨-, hnext, hrc⟩ | ⟨-, hnext, hrc⟩
    · rw [hnext, hrc, h.next]
    · rw [hnext, hrc, h.next]
      ring
  · rcases hcounters with ⟨hne, hnext, -⟩ | ⟨heq, hnext, -⟩ <;> omega
  · rcases hcounters with ⟨hne, hnext, -⟩ | ⟨heq, hnext, -⟩ <;> omega

end Expanded

theorem expanded_start : Expanded size key ctx 0
    ⟨fun i j => if 4 * i + j < size.nk * 4 then key (4 * i + j) else ctx i j, size.nk, 0⟩ where
  words i hi := by
    rw [KeySize.keyWord_key (by omega)]
    funext j
    have hj := j.isLt
    exact if_pos (by omega)
  above i hi := by
    funext j
    exact if_neg (by omega)
  next := by rw [Nat.zero_add, Nat.mul_one]
  low := Nat.le_refl _
  high := by
    have hpos := size.nk_pos
    simp only
    omega

theorem expanded_foldl (size : KeySize) (key : Nat → Byte) (ctx : Ctx) (n : Nat) (hn : size.nk + n ≤ 4 * (size.nk + 7)) :
    Expanded size key ctx n ((List.range' size.nk n).foldl (aesInitStep size.nk)
      ⟨fun i j => if 4 * i + j < size.nk * 4 then key (4 * i + j) else ctx i j, size.nk, 0⟩) := by
  induction n with
  | zero => exact expanded_start
  | succ n ih =>
    rw [List.range'_concat, List.foldl_append, Nat.one_mul]
    exact (ih (by omega)).step (by omega)

/-- `aes_init` writes the expansion of the key, one word after the other, and nothing above it. -/
theorem aesInit_apply (size : KeySize) (key : Nat → Byte) (ctx : Ctx) (i : Nat) :
    aesInit key (32 * size.nk) ctx i =
      if i < 4 * (size.nk + 7) then size.keyWord key i else ctx i := by
  have hexpanded := expanded_foldl size key ctx (3 * size.nk + 28) (by omega)
  have hnk : 32 * size.nk / 32 = size.nk := Nat.mul_div_cancel_left _ (by decide)
  have hbytes : 32 * size.nk / 8 = size.nk * 4 := by omega
  have hhi : 4 * (size.nk + 6 + 1) - size.nk = 3 * size.nk + 28 := by omega
  rw [aesInit, hnk, hbytes, hhi]
  split_ifs with hi
  · exact hexpanded.words i (by omega)
  · exact hexpanded.above i (by omega)

/-! ## The cipher -/

theorem aesEncRound_eq (state k : State) : aesEncRound state k = fullRound state k := by
  rw [fullRound, ← block_aesEncRound, bytes_block]

theorem aesEncLastround_eq (state k : State) :
    aesEncLastround state k = finalRound state k := by
  rw [finalRound, ← block_aesEncLastround, bytes_block]

/-- The round keys of a context whose words are those of the standard. -/
theorem input_key {w : Nat → Fin 4 → Byte} {ks : Ctx} {i : Nat}
    (h : ∀ c < 4, ks (4 * i + c) = w (4 * i + c)) :
    AesStandard.input (ks.key i) = AesStandard.roundKey w i := by
  funext r c
  have hr := r.isLt
  have hc := c.isLt
  have hindex : (Fin.ofNat 16 (r + 4 * c)).val = r + 4 * c := Nat.mod_eq_of_lt (by omega)
  have hword : (r.val + 4 * c.val) / 4 = c.val := by omega
  have hbyte : Fin.ofNat 4 (r.val + 4 * c.val) = r := by
    apply Fin.ext
    rw [Fin.val_ofNat]
    omega
  rw [AesStandard.input, Ctx.key, hindex, hword, hbyte, h c hc, AesStandard.roundKey]

theorem aesEncryptCore_eq (size : KeySize) (key : Nat → Byte) (ctx : Ctx) (block : State) :
    aesEncryptCore block (aesInit key (32 * size.nk) ctx) size.rounds = size.cipher key block := by
  have hrounds : size.rounds = size.nk + 6 := rfl
  have hlast : 1 + (size.rounds - 1) = size.rounds := by omega
  have hkeys (i : Nat) (hi : i ≤ size.rounds) :
      AesStandard.input ((aesInit key (32 * size.nk) ctx).key i) =
        AesStandard.roundKey (size.keyWord key) i :=
    input_key fun c hc => by rw [aesInit_apply, if_pos (by omega)]
  rw [← cipher_eq_rounds hkeys, aesEncryptCore, hlast, aesEncLastround_eq]
  simp only [aesEncRound_eq]

theorem aes128Enc_aes128Init (key : Nat → Byte) (ctx : Ctx) (block : State) :
    aes128Enc block (aes128Init key ctx) = KeySize.aes128.cipher key block :=
  aesEncryptCore_eq .aes128 key ctx block

theorem aesDecryptCore_cipher (size : KeySize) (key : Nat → Byte) (ctx : Ctx) (block : State) :
    aesDecryptCore (size.cipher key block) (aesInit key (32 * size.nk) ctx) size.rounds = block := by
  have hrounds : size.rounds = size.nk + 5 + 1 := rfl
  rw [← aesEncryptCore_eq size key ctx block, hrounds, aesDecryptCore_aesEncryptCore]

theorem cipher_aesDecryptCore (size : KeySize) (key : Nat → Byte) (ctx : Ctx) (block : State) :
    size.cipher key (aesDecryptCore block (aesInit key (32 * size.nk) ctx) size.rounds) = block := by
  have hrounds : size.rounds = size.nk + 5 + 1 := rfl
  rw [← aesEncryptCore_eq size key ctx, hrounds, aesEncryptCore_aesDecryptCore]

/-- The cipher of the standard under a key, undone by the library. -/
def permutation (size : KeySize) (key : Nat → Byte) : Equiv.Perm State where
  toFun := size.cipher key
  invFun c := aesDecryptCore c (aesInit key (32 * size.nk) fun _ _ => 0) size.rounds
  left_inv := aesDecryptCore_cipher size key _
  right_inv := cipher_aesDecryptCore size key _

/-- For every key length and whatever the context has held before: `aes_init` and the rounds are the
cipher of the standard, decryption in the same context is its inverse, and `aes_init` writes the
words of the expansion only. -/
theorem avrcryptolib_conforms (size : KeySize) (key : Nat → Byte) (ctx : Ctx) (block : State) :
    aesEncryptCore block (aesInit key (32 * size.nk) ctx) size.rounds = size.cipher key block ∧
      aesDecryptCore (size.cipher key block) (aesInit key (32 * size.nk) ctx) size.rounds = block ∧
      size.cipher key (aesDecryptCore block (aesInit key (32 * size.nk) ctx) size.rounds) = block ∧
      ∀ i, 4 * (size.rounds + 1) ≤ i → aesInit key (32 * size.nk) ctx i = ctx i := by
  have hrounds : size.rounds = size.nk + 6 := rfl
  refine ⟨aesEncryptCore_eq size key ctx block, aesDecryptCore_cipher size key ctx block,
    cipher_aesDecryptCore size key ctx block, fun i hi => ?_⟩
  rw [aesInit_apply, if_neg (by omega)]

end KuznyechikDPA.AvrCryptoLib

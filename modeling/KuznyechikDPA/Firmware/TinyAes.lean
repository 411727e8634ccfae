import KuznyechikDPA.Aes.Buffers
import KuznyechikDPA.Firmware.Tables

/-!
# The AES of `tiny-AES128-C`

`(*state)[i][j]` is byte `4 * i + j` of the array that `state` points to.
-/

namespace KuznyechikDPA.TinyAes
open scoped AesBuffer

def Nk : Nat := 4

def Nr : Nat := 10

/-- The tables of `aes.c` have the entries of those in `aes256_pkg.vhd`. -/
def getSBoxValue (num : Byte) : Byte := Aes256Pkg.sboxArray.get num

def getSBoxInvert (num : Byte) : Byte := Aes256Pkg.invSboxArray.get num

def Rcon : List Byte := [0x8d, 0x01, 0x02, 0x04, 0x08, 0x10, 0x20, 0x40, 0x80, 0x1b, 0x36]

/-! ## Key expansion -/

/-- What the second loop of `KeyExpansion` does to `tempa`. -/
def transformed (i : Nat) (tempa : Fin 4 → Byte) : Fin 4 → Byte :=
  if i % Nk = 0 then
    let tempa : Fin 4 → Byte := ![tempa 1, tempa 2, tempa 3, tempa 0]
    let tempa : Fin 4 → Byte := fun j => getSBoxValue (tempa j)
    Function.update tempa 0 (tempa 0 ^^^ Rcon.getD (i / Nk) 0)
  else if 6 < Nk ∧ i % Nk = 4 then fun j => getSBoxValue (tempa j)
  else tempa

/-- One turn of that loop. -/
def keyExpansionStep (RoundKey : Nat → Byte) (i : Nat) : Nat → Byte :=
  let tempa := transformed i fun j => RoundKey ((i - 1) * 4 + j)
  fun n => if n / 4 = i then RoundKey ((i - Nk) * 4 + n % 4) ^^^ tempa (Fin.ofNat 4 n) else RoundKey n

/-- `RoundKey` after the call, from what it was before. -/
def keyExpansion (Key RoundKey : Nat → Byte) : Nat → Byte :=
  let RoundKey : Nat → Byte := fun n => if n < 4 * Nk then Key n else RoundKey n
  (List.range' Nk (4 * (Nr + 1) - Nk)).foldl keyExpansionStep RoundKey

/-! ## Layers -/

def addRoundKey (RoundKey : Nat → Byte) (round : Nat) (state : State) : State :=
  fun n => state n ^^^ RoundKey (round * 4 * 4 + n)

def subBytes (state : State) : State := fun n => getSBoxValue (state n)

/-- The exchanges, one assignment after the other. -/
def shiftRows (state : State) : State :=
  let temp := state 1
  let state := Function.update state 1 (state 5)
  let state := Function.update state 5 (state 9)
  let state := Function.update state 9 (state 13)
  let state := Function.update state 13 temp
  let temp := state 2
  let state := Function.update state 2 (state 10)
  let state := Function.update state 10 temp
  let temp := state 6
  let state := Function.update state 6 (state 14)
  let state := Function.update state 14 temp
  let temp := state 3
  let state := Function.update state 3 (state 15)
  let state := Function.update state 15 (state 11)
  let state := Function.update state 11 (state 7)
  Function.update state 7 temp

def xtime (x : Byte) : Byte := (x <<< 1) ^^^ (((x >>> 7) &&& 1) * 0x1b)

/-- `t` keeps the first byte of a column until the fourth one is changed. -/
def mixColumns (state : State) : State := fun n =>
  let x := AesBuffer.inColumn state n
  let t := x 0
  let Tmp := x 0 ^^^ x 1 ^^^ x 2 ^^^ x 3
  [x 0 ^^^ (xtime (x 0 ^^^ x 1) ^^^ Tmp), x 1 ^^^ (xtime (x 1 ^^^ x 2) ^^^ Tmp),
    x 2 ^^^ (xtime (x 2 ^^^ x 3) ^^^ Tmp), x 3 ^^^ (xtime (x 3 ^^^ t) ^^^ Tmp)].getD (n % 4) 0

def multiply (x y : Byte) : Byte :=
  ((y &&& 1) * x) ^^^ ((y >>> 1 &&& 1) * xtime x) ^^^ ((y >>> 2 &&& 1) * xtime (xtime x)) ^^^
    ((y >>> 3 &&& 1) * xtime (xtime (xtime x))) ^^^ ((y >>> 4 &&& 1) * xtime (xtime (xtime (xtime x))))

def invMixColumns (state : State) : State := fun n =>
  let x := AesBuffer.inColumn state n
  let a := x 0
  let b := x 1
  let c := x 2
  let d := x 3
  [multiply a 0x0e ^^^ multiply b 0x0b ^^^ multiply c 0x0d ^^^ multiply d 0x09,
    multiply a 0x09 ^^^ multiply b 0x0e ^^^ multiply c 0x0b ^^^ multiply d 0x0d,
    multiply a 0x0d ^^^ multiply b 0x09 ^^^ multiply c 0x0e ^^^ multiply d 0x0b,
    multiply a 0x0b ^^^ multiply b 0x0d ^^^ multiply c 0x09 ^^^ multiply d 0x0e].getD (n % 4) 0

def invSubBytes (state : State) : State := fun n => getSBoxInvert (state n)

def invShiftRows (state : State) : State :=
  let temp := state 13
  let state := Function.update state 13 (state 9)
  let state := Function.update state 9 (state 5)
  let state := Function.update state 5 (state 1)
  let state := Function.update state 1 temp
  let temp := state 2
  let state := Function.update state 2 (state 10)
  let state := Function.update state 10 temp
  let temp := state 6
  let state := Function.update state 6 (state 14)
  let state := Function.update state 14 temp
  let temp := state 3
  let state := Function.update state 3 (state 7)
  let state := Function.update state 7 (state 11)
  let state := Function.update state 11 (state 15)
  Function.update state 15 temp

/-! ## The ciphers -/

def encRound (RoundKey : Nat → Byte) (state : State) (round : Nat) : State :=
  addRoundKey RoundKey round (mixColumns (shiftRows (subBytes state)))

def cipher (RoundKey : Nat → Byte) (state : State) : State :=
  let state := addRoundKey RoundKey 0 state
  let state := (List.range' 1 (Nr - 1)).foldl (encRound RoundKey) state
  addRoundKey RoundKey Nr (shiftRows (subBytes state))

def decRound (RoundKey : Nat → Byte) (state : State) (round : Nat) : State :=
  invMixColumns (addRoundKey RoundKey round (invSubBytes (invShiftRows state)))

def invCipher (RoundKey : Nat → Byte) (state : State) : State :=
  let state := addRoundKey RoundKey Nr state
  let state := (List.range' 1 (Nr - 1)).reverse.foldl (decRound RoundKey) state
  addRoundKey RoundKey 0 (invSubBytes (invShiftRows state))

/-- `AES128_ECB_indp_setkey`. -/
def ecbIndpSetkey (key RoundKey : Nat → Byte) : Nat → Byte := keyExpansion key RoundKey

/-- `AES128_ECB_indp_crypto`. -/
def ecbIndpCrypto (RoundKey : Nat → Byte) (input : State) : State := cipher RoundKey input

/-- `AES128_ECB_encrypt`: what it leaves in `RoundKey` and in `output`. -/
def ecbEncrypt (RoundKey key : Nat → Byte) (input : State) : (Nat → Byte) × State :=
  (keyExpansion key RoundKey, cipher (keyExpansion key RoundKey) input)

/-- `AES128_ECB_decrypt`. -/
def ecbDecrypt (RoundKey key : Nat → Byte) (input : State) : (Nat → Byte) × State :=
  (keyExpansion key RoundKey, invCipher (keyExpansion key RoundKey) input)

/-! ## The layers of the package -/

open ByteField AesBuffer
open AesStandard (KeySize)

theorem xtime_eq (x : Byte) : xtime x = mul 0x1b 2 x := by
  have hentry := forall_of_allBytes (p := fun x => xtime x == mul 0x1b 2 x) (by decide +kernel) x
  exact beq_iff_eq.mp hentry

theorem multiply_eq (x : Byte) {y : Byte} (hy : y ∈ [0x09, 0x0b, 0x0d, 0x0e]) :
    multiply x y = mul 0x1b y x := by
  have hentry := forall_of_allBytes
    (p := fun x => [0x09, 0x0b, 0x0d, 0x0e].all fun y => multiply x y == mul 0x1b y x) (by decide +kernel) x
  exact beq_iff_eq.mp (List.all_eq_true.mp hentry y hy)

theorem mixColumns_eq (state : State) :
    mixColumns state = bytes (Aes256Pkg.mixColumns (block state)) := by
  have hswap (a e m : Byte) : a ^^^ (m ^^^ e) = m ^^^ a ^^^ e := by ac_rfl
  apply eq_mixColumns
  intro n r hr hmod
  rw [mixColumns, hmod]
  simp only [xtime_eq]
  interval_cases r <;> exact hswap _ _ _

theorem invMixColumns_eq (state : State) :
    invMixColumns state = bytes (Aes256Pkg.invMixColumns (block state)) := by
  have hnine (x : Byte) := multiply_eq x (y := 0x09) (by decide)
  have heleven (x : Byte) := multiply_eq x (y := 0x0b) (by decide)
  have hthirteen (x : Byte) := multiply_eq x (y := 0x0d) (by decide)
  have hfourteen (x : Byte) := multiply_eq x (y := 0x0e) (by decide)
  funext n
  have hr : n.val % 4 < 4 := Nat.mod_lt _ (by decide)
  rw [Aes256Pkg.bytes_invMixColumns, bytes_block, self_eq_inColumn state n, below_eq_inColumn state,
    below_eq_inColumn state, below_eq_inColumn state, invMixColumns]
  generalize inColumn state n = x, n.val % 4 = r at hr
  interval_cases r <;>
    simp only [hnine, heleven, hthirteen, hfourteen, List.getD_cons_zero, List.getD_cons_succ,
      Nat.reduceAdd, Nat.reduceMod] <;> ac_rfl

theorem shiftRows_eq (state : State) : shiftRows state = bytes (Aes256Pkg.shiftRows (block state)) := by
  funext n
  rw [Aes256Pkg.bytes_shiftRows, bytes_block]
  fin_cases n <;> rfl

theorem invShiftRows_eq (state : State) :
    invShiftRows state = bytes (Aes256Pkg.invShiftRows (block state)) := by
  funext n
  rw [Aes256Pkg.bytes_invShiftRows, bytes_block]
  fin_cases n <;> rfl

theorem block_subBytes (state : State) : block (subBytes state) = Aes256Pkg.subBytes (block state) := by
  rw [Aes256Pkg.subBytes, bytes_block]
  rfl

theorem block_invSubBytes (state : State) :
    block (invSubBytes state) = Aes256Pkg.invSubBytes (block state) := by
  rw [Aes256Pkg.invSubBytes, bytes_block]
  rfl

/-- The bytes of a round key. -/
def keyOfRound (RoundKey : Nat → Byte) (round : Nat) : State := fun n => RoundKey (round * 4 * 4 + n)

section Rounds
variable (RoundKey : Nat → Byte)

theorem block_addRoundKey (round : Nat) (state : State) :
    block (addRoundKey RoundKey round state) = block state ^^^ block (keyOfRound RoundKey round) :=
  block_xor state (keyOfRound RoundKey round)

theorem block_encRound (state : State) (round : Nat) : block (encRound RoundKey state round) =
    Aes256Pkg.standardRound (block state) (block (keyOfRound RoundKey round)) := by
  rw [encRound, block_addRoundKey, mixColumns_eq, shiftRows_eq, block_bytes, block_bytes, block_subBytes]
  rfl

theorem block_finalRound (state : State) : block (addRoundKey RoundKey Nr (shiftRows (subBytes state))) =
    Aes256Pkg.lastRound (block state) (block (keyOfRound RoundKey Nr)) := by
  rw [block_addRoundKey, shiftRows_eq, block_bytes, block_subBytes]
  rfl

theorem invMixColumns_mixColumns (state : State) : invMixColumns (mixColumns state) = state := by
  rw [invMixColumns_eq, mixColumns_eq, block_bytes, Aes256Pkg.invMixColumns_mixColumns, bytes_block]

theorem invShiftRows_shiftRows (state : State) : invShiftRows (shiftRows state) = state := by
  rw [invShiftRows_eq, shiftRows_eq, block_bytes, Aes256Pkg.invShiftRows_shiftRows, bytes_block]

theorem invSubBytes_subBytes (state : State) : invSubBytes (subBytes state) = state := by
  apply block_injective
  rw [block_invSubBytes, block_subBytes, Aes256Pkg.invSubBytes_subBytes]

theorem addRoundKey_addRoundKey (round : Nat) (state : State) :
    addRoundKey RoundKey round (addRoundKey RoundKey round state) = state := by
  funext n
  exact xor_cancel_right _ _

/-- Below the substitution and the row shift of the next round, a round is undone. -/
theorem decRound_encRound (state : State) (round : Nat) :
    decRound RoundKey (shiftRows (subBytes (encRound RoundKey state round))) round =
      shiftRows (subBytes state) := by
  rw [decRound, invShiftRows_shiftRows, invSubBytes_subBytes, encRound, addRoundKey_addRoundKey,
    invMixColumns_mixColumns]

theorem invCipher_cipher (state : State) : invCipher RoundKey (cipher RoundKey state) = state := by
  rw [invCipher, cipher, addRoundKey_addRoundKey,
    Rounds.foldl_reverse_transform (fun state => shiftRows (subBytes state)) (decRound_encRound RoundKey),
    invShiftRows_shiftRows, invSubBytes_subBytes, addRoundKey_addRoundKey]

end Rounds

/-! ## The key schedule -/

theorem Rcon_eq {j : Nat} (hpos : 0 < j) (h : j ≤ 10) : Rcon.getD j 0 = AesStandard.rcon j 0 := by
  have htable : ∀ j ≤ 10, 0 < j → Rcon.getD j 0 = AesStandard.rcon j 0 := by decide
  exact htable j h hpos

theorem transformed_eq {i : Nat} (hlow : 4 ≤ i) (hi : i < 44) (tempa : Fin 4 → Byte) :
    transformed i tempa = KeySize.aes128.nextTemp i tempa := by
  have hrot : ![tempa 1, tempa 2, tempa 3, tempa 0] = AesStandard.rotWord tempa := by
    funext j
    fin_cases j <;> rfl
  have hsub (a : Fin 4 → Byte) : (fun j => getSBoxValue (a j)) = AesStandard.subWord a := by
    funext j
    exact Aes256Pkg.sboxArray_get (a j)
  have hshort : ¬ (6 < 4 ∧ i % 4 = 4) := by omega
  have hNk : Nk = 4 := rfl
  have hnk : KeySize.aes128.nk = 4 := rfl
  rw [transformed, KeySize.nextTemp, hNk, hnk]
  by_cases hmul : i % 4 = 0
  · have hrcon : Rcon.getD (i / 4) 0 = AesStandard.rcon (i / 4) 0 := Rcon_eq (by omega) (by omega)
    rw [if_pos hmul, if_pos hmul, hrot, hrcon, ← hsub, ← AesStandard.update_rcon]
  · rw [if_neg hmul, if_neg hshort, if_neg hmul, if_neg hshort]

/-- Word `i` of the array. -/
def wordAt (RoundKey : Nat → Byte) (i : Nat) : Fin 4 → Byte := fun j => RoundKey (i * 4 + j)

/-- A pass writes one word. -/
theorem wordAt_keyExpansionStep (RoundKey : Nat → Byte) {i : Nat} (hlow : 4 ≤ i) (hi : i < 44) (m : Nat) :
    wordAt (keyExpansionStep RoundKey i) m =
      if m = i then wordAt RoundKey (i - 4) ^^^ KeySize.aes128.nextTemp i (wordAt RoundKey (i - 1))
      else wordAt RoundKey m := by
  funext j
  have hj := j.isLt
  have hword : (m * 4 + j.val) / 4 = m := by omega
  have hmod : (m * 4 + j.val) % 4 = j.val := by omega
  have hbyte : Fin.ofNat 4 (m * 4 + j.val) = j := by
    apply Fin.ext
    rw [Fin.val_ofNat, hmod]
  rw [wordAt, keyExpansionStep]
  simp only [hword, hmod, hbyte, transformed_eq hlow hi]
  split_ifs
  · rfl
  · rfl

theorem wordAt_foldl (Key RoundKey : Nat → Byte) (n : Nat) (hn : n ≤ 40) (i : Nat) (hi : i < 4 + n) :
    wordAt ((List.range' 4 n).foldl keyExpansionStep fun n => if n < 4 * Nk then Key n else RoundKey n) i =
      KeySize.aes128.keyWord Key i := by
  have hnk : KeySize.aes128.nk = 4 := rfl
  induction n generalizing i with
  | zero =>
    rw [KeySize.keyWord_key hi]
    funext j
    have hj := j.isLt
    have hlow : i * 4 + j.val < 4 * Nk := by
      rw [Nk]
      omega
    rw [wordAt, List.range'_zero, List.foldl_nil, if_pos hlow, Nat.mul_comm]
  | succ n ih =>
    rw [List.range'_concat, List.foldl_append, Nat.one_mul, List.foldl_cons, List.foldl_nil,
      wordAt_keyExpansionStep _ (by omega) (by omega)]
    split_ifs with hlast
    · have hback := ih (by omega) (4 + n - 4) (by omega)
      have hbefore := ih (by omega) (4 + n - 1) (by omega)
      rw [hback, hbefore, hlast, KeySize.keyWord_step (i := 4 + n) (by omega), hnk]
    · exact ih (by omega) i (by omega)

theorem wordAt_keyExpansion (Key RoundKey : Nat → Byte) (i : Nat) (hi : i < 44) :
    wordAt (keyExpansion Key RoundKey) i = KeySize.aes128.keyWord Key i :=
  wordAt_foldl Key RoundKey 40 le_rfl i hi

theorem input_keyOfRound (Key RoundKey : Nat → Byte) (i : Nat) (hi : i ≤ 10) :
    AesStandard.input (keyOfRound (keyExpansion Key RoundKey) i) =
      AesStandard.roundKey (KeySize.aes128.keyWord Key) i := by
  funext r c
  have hr := r.isLt
  have hc := c.isLt
  have hindex : (Fin.ofNat 16 (r + 4 * c)).val = r + 4 * c := Nat.mod_eq_of_lt (by omega)
  have hword := congrFun (wordAt_keyExpansion Key RoundKey (4 * i + c) (by omega)) r
  have hbyte : i * 4 * 4 + (r.val + 4 * c.val) = (4 * i + c.val) * 4 + r.val := by omega
  rw [AesStandard.input, keyOfRound, hindex, hbyte, AesStandard.roundKey, ← hword, wordAt]

theorem cipher_keyExpansion (Key RoundKey : Nat → Byte) (block : State) :
    cipher (keyExpansion Key RoundKey) block = KeySize.aes128.cipher Key block := by
  have hround (s : State) (i : Nat) : encRound (keyExpansion Key RoundKey) s i =
      fullRound s (keyOfRound (keyExpansion Key RoundKey) i) := by
    rw [fullRound, ← block_encRound, bytes_block]
  have hfinal (s : State) : addRoundKey (keyExpansion Key RoundKey) Nr (shiftRows (subBytes s)) =
      AesBuffer.finalRound s (keyOfRound (keyExpansion Key RoundKey) Nr) := by
    rw [AesBuffer.finalRound, ← block_finalRound, bytes_block]
  have hkeys : ∀ i ≤ KeySize.aes128.rounds, AesStandard.input (keyOfRound (keyExpansion Key RoundKey) i) =
      AesStandard.roundKey (KeySize.aes128.keyWord Key) i := input_keyOfRound Key RoundKey
  rw [← cipher_eq_rounds hkeys, cipher, hfinal]
  simp only [← hround]
  rfl

/-- Whatever `RoundKey` holds before the calls: encryption is the one of AES-128, and decryption under
the same key undoes it. -/
theorem ecb_round_trip (key RoundKey RoundKey' : Nat → Byte) (input : State) :
    (ecbEncrypt RoundKey key input).2 = KeySize.aes128.cipher key input ∧
      (ecbDecrypt RoundKey' key (ecbEncrypt RoundKey key input).2).2 = input := by
  have hcipher : (ecbEncrypt RoundKey key input).2 = KeySize.aes128.cipher key input :=
    cipher_keyExpansion key RoundKey input
  refine ⟨hcipher, ?_⟩
  rw [hcipher, ← cipher_keyExpansion key RoundKey' input]
  exact invCipher_cipher (keyExpansion key RoundKey') input

end KuznyechikDPA.TinyAes

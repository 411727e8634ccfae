import KuznyechikDPA.Aes.Constants
import KuznyechikDPA.Hardware.Vectors

/-!
# The functions of `aes256_pkg.vhd`

Bytes `4 * c`, ..., `4 * c + 3` of a vector are column `c` of the state. The slice
assignments of one function differ only in the slice, so each function is one expression
of the byte index.
-/

namespace KuznyechikDPA.Aes256Pkg

abbrev Word := BitVec 32

/-! ## Encryption -/

def subBytes (sbox_inp : Block) : Block := block fun i => sboxArray.get (bytes sbox_inp i)

/-- The byte that `shiftRows` assigns to each byte. -/
def shiftRowsSource (i : Fin 16) : Fin 16 :=
  [0, 5, 10, 15, 4, 9, 14, 3, 8, 13, 2, 7, 12, 1, 6, 11].getD i 0

def shiftRows (sr_inp : Block) : Block := block fun i => bytes sr_inp (shiftRowsSource i)

/-- The byte `k` places below byte `i` in its column. -/
def below (i : Fin 16) (k : Nat) : Fin 16 := Fin.ofNat 16 (4 * (i / 4) + (i + k) % 4)

def mixColumns (mc_inp : Block) : Block :=
  block fun i =>
    gfMult2.get (bytes mc_inp i) ^^^ gfMult3.get (bytes mc_inp (below i 1)) ^^^
      bytes mc_inp (below i 2) ^^^ bytes mc_inp (below i 3)

def addRoundKey (state : Block) (key_in1 key_in2 key_in3 key_in4 : Word) : Block :=
  (state.extractLsb' 96 32 ^^^ key_in1) ++ ((state.extractLsb' 64 32 ^^^ key_in2) ++
    ((state.extractLsb' 32 32 ^^^ key_in3) ++ (state.extractLsb' 0 32 ^^^ key_in4)))

/-! ## Decryption -/

def invSubBytes (inv_sbox_inp : Block) : Block :=
  block fun i => invSboxArray.get (bytes inv_sbox_inp i)

/-- The byte that `inv_shiftRows` assigns to each byte. -/
def invShiftRowsSource (i : Fin 16) : Fin 16 :=
  [0, 13, 10, 7, 4, 1, 14, 11, 8, 5, 2, 15, 12, 9, 6, 3].getD i 0

def invShiftRows (inv_sr_inp : Block) : Block :=
  block fun i => bytes inv_sr_inp (invShiftRowsSource i)

def invMixColumns (inv_mc_inp : Block) : Block :=
  block fun i =>
    gfMult14.get (bytes inv_mc_inp i) ^^^ gfMult9.get (bytes inv_mc_inp (below i 3)) ^^^
      gfMult11.get (bytes inv_mc_inp (below i 1)) ^^^ gfMult13.get (bytes inv_mc_inp (below i 2))

/-! ## Key expansion -/

def rotWord (rw_in : Word) : Word := rw_in.extractLsb' 0 24 ++ rw_in.extractLsb' 24 8

def subWord (sw_in : Word) : Word :=
  ofBytes fun i : Fin 4 => sboxArray.get (toBytes (n := 4) sw_in i)

/-- The sixty words of a key array; those not assigned yet are zero. -/
structure KeyArray where
  words : List Word

/-- The word at an index. -/
instance : CoeFun KeyArray fun _ => Nat → Word := ⟨fun subKeys i => subKeys.words.getD i 0⟩

def keyExpStep (subKeys : KeyArray) (i : Nat) : KeyArray :=
  let tmp := subKeys (i - 1)
  let tmp :=
    if i ∈ [8, 16, 24, 32, 40, 48, 56] then subWord (rotWord tmp) ^^^ rconArray.getD (i / 8) 0
    else if i ∈ [4, 12, 20, 28, 36, 44, 52] then subWord tmp
    else tmp
  { words := subKeys.words.set i (subKeys (i - 8) ^^^ tmp) }

/-- The assignments before the loop. -/
def keyWords (key_in : BitVec 256) : KeyArray where
  words := (List.range 60).map fun i => if i < 8 then key_in.extractLsb' (32 * (7 - i)) 32 else 0

def keyExp (key_in : BitVec 256) : KeyArray :=
  (List.range' 8 52).foldl keyExpStep (keyWords key_in)

/-! ## Reference encryption and decryption -/

def encryptRound (subKeys : KeyArray) (inter_state : Block) (i : Nat) : Block :=
  addRoundKey (mixColumns (shiftRows (subBytes inter_state)))
    (subKeys (4 * i)) (subKeys (4 * i + 1)) (subKeys (4 * i + 2)) (subKeys (4 * i + 3))

def encrypt (plain_text : Block) (master_key : BitVec 256) : Block :=
  let subKeys := keyExp master_key
  let inter_state := addRoundKey plain_text (subKeys 0) (subKeys 1) (subKeys 2) (subKeys 3)
  let inter_state := (List.range' 1 13).foldl (encryptRound subKeys) inter_state
  addRoundKey (shiftRows (subBytes inter_state))
    (subKeys 56) (subKeys 57) (subKeys 58) (subKeys 59)

def decryptRound (subKeys : KeyArray) (inter_state : Block) (i : Nat) : Block :=
  invMixColumns (addRoundKey (invSubBytes (invShiftRows inter_state))
    (subKeys (4 * i)) (subKeys (4 * i + 1)) (subKeys (4 * i + 2)) (subKeys (4 * i + 3)))

def decrypt (cipher_text : Block) (master_key : BitVec 256) : Block :=
  let subKeys := keyExp master_key
  let inter_state :=
    addRoundKey cipher_text (subKeys 56) (subKeys 57) (subKeys 58) (subKeys 59)
  let inter_state := (List.range' 1 13).reverse.foldl (decryptRound subKeys) inter_state
  addRoundKey (invSubBytes (invShiftRows inter_state))
    (subKeys 0) (subKeys 1) (subKeys 2) (subKeys 3)

/-! ## Rounds of the hardware -/

def ARK (state key : Block) : Block := state ^^^ key

def standardRound (state key : Block) : Block := ARK (mixColumns (shiftRows (subBytes state))) key

def lastRound (state key : Block) : Block := ARK (shiftRows (subBytes state)) key

def invStdRound (state key : Block) : Block :=
  invMixColumns (ARK (invSubBytes (invShiftRows state)) key)

def invLastRound (state key : Block) : Block := ARK (invSubBytes (invShiftRows state)) key

/-! ## Masked rounds -/

def maskedSbox (s m : Byte) : Byte := sboxArray.get (s ^^^ m) ^^^ m

def invMaskedSbox (s m : Byte) : Byte := invSboxArray.get (s ^^^ m) ^^^ m

def maskedSubBytes (state mask : Block) : Block :=
  block fun i => maskedSbox (bytes state i) (bytes mask i)

def invMaskedSubBytes (state mask : Block) : Block :=
  block fun i => invMaskedSbox (bytes state i) (bytes mask i)

def maskedRound (state k mask : Block) : Block :=
  ARK (mixColumns (shiftRows (maskedSubBytes state mask))) k

def maskedLastRound (state k mask : Block) : Block := ARK (shiftRows (maskedSubBytes state mask)) k

def invMaskedRound (state k mask : Block) : Block :=
  ARK (invMixColumns (invShiftRows (invMaskedSubBytes state mask))) k

def invMaskedLastRound (state k mask : Block) : Block :=
  ARK (invShiftRows (invMaskedSubBytes state mask)) k

def maskOperation (mask : Block) : Block := mixColumns (shiftRows mask)

/-- The first assignment to `mask_out`, of `inv_shiftRows(mask)`, is overwritten. -/
def invMaskOperation (mask : Block) : Block := invMixColumns mask

end KuznyechikDPA.Aes256Pkg

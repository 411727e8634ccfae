import KuznyechikDPA.Aes.Buffers
import KuznyechikDPA.Firmware.Tables

/-!
# The AES of `user_crypto/aes.c`

The program has one array for the state and one for the round key, which `computeKey` turns into
the next one between two rounds.
-/

namespace KuznyechikDPA.StraightforwardAes

/-- The table of `aes.c` has the entries of `sbox_array` in `aes256_pkg.vhd`. -/
def sbox : Table := Aes256Pkg.sboxArray

def rcon : List Byte :=
  [0x01, 0x02, 0x04, 0x08, 0x10, 0x20, 0x40, 0x80, 0x1b, 0x36, 0x6c, 0xd8, 0xab]

structure Globals where
  state : State
  key : State

def addRoundKey (state key : State) : State := fun i => state i ^^^ key i

def subBytes (state : State) : State := fun i => sbox.get (state i)

/-- The exchanges, one assignment after the other. -/
def shiftRows (state : State) : State :=
  let temp := state 1
  let state := Function.update state 1 (state 5)
  let state := Function.update state 5 (state 9)
  let state := Function.update state 9 (state 13)
  let state := Function.update state 13 temp
  let temp := state 10
  let state := Function.update state 10 (state 2)
  let state := Function.update state 2 temp
  let temp := state 14
  let state := Function.update state 14 (state 6)
  let state := Function.update state 6 temp
  let temp := state 3
  let state := Function.update state 3 (state 15)
  let state := Function.update state 15 (state 11)
  let state := Function.update state 11 (state 7)
  Function.update state 7 temp

/-- The `nop` of the other branch only takes time. -/
def xtime (x : Byte) : Byte :=
  let rv := x <<< 1
  if x &&& 0x80 ≠ 0 then rv ^^^ 0x1b else rv

def mixColumns (state : State) : State := fun n =>
  let x := AesBuffer.inColumn state n
  let e := x 0 ^^^ x 1 ^^^ x 2 ^^^ x 3
  [x 0 ^^^ (e ^^^ xtime (x 0 ^^^ x 1)), x 1 ^^^ (e ^^^ xtime (x 1 ^^^ x 2)),
    x 2 ^^^ (e ^^^ xtime (x 2 ^^^ x 3)), x 3 ^^^ (e ^^^ xtime (x 3 ^^^ x 0))].getD (n % 4) 0

/-- Four assignments to each column of `key`, the later ones from the column before. -/
def computeKey (rcon : Byte) (key : State) : State :=
  let buf := [sbox.get (key 13) ^^^ rcon, sbox.get (key 14), sbox.get (key 15), sbox.get (key 12)]
  let key : State := fun i => if i < 4 then key i ^^^ buf.getD i 0 else key i
  let key : State := fun i => if 4 ≤ i ∧ i < 8 then key i ^^^ key (i - 4) else key i
  let key : State := fun i => if 8 ≤ i ∧ i < 12 then key i ^^^ key (i - 4) else key i
  fun i => if 12 ≤ i then key i ^^^ key (i - 4) else key i

/-- One turn of the loop of `aes`. -/
def aesStep (g : Globals) (i : Nat) : Globals :=
  let state := mixColumns (shiftRows (subBytes g.state))
  let key := computeKey (rcon.getD i 0) g.key
  { state := addRoundKey state key, key := key }

/-- What `aes` leaves in the two arrays; it returns the first one. -/
def aes (input skey : State) : Globals :=
  let g : Globals := { state := addRoundKey input skey, key := skey }
  let g := (List.range 9).foldl aesStep g
  let state := shiftRows (subBytes g.state)
  let key := computeKey (rcon.getD 9 0) g.key
  { state := addRoundKey state key, key := key }

/-! ## The layers -/

open ByteField AesBuffer
open AesStandard (KeySize)

theorem xtime_eq (x : Byte) : xtime x = mul 0x1b 2 x := by
  have hentry := forall_of_allBytes (p := fun x => xtime x == mul 0x1b 2 x) (by decide +kernel) x
  exact beq_iff_eq.mp hentry

theorem mixColumns_eq (state : State) :
    mixColumns state = bytes (Aes256Pkg.mixColumns (block state)) := by
  have hswap (a e m : Byte) : a ^^^ (e ^^^ m) = m ^^^ a ^^^ e := by ac_rfl
  apply eq_mixColumns
  intro n r hr hmod
  rw [mixColumns, hmod]
  simp only [xtime_eq]
  interval_cases r <;> exact hswap _ _ _

theorem shiftRows_eq (state : State) : shiftRows state = bytes (Aes256Pkg.shiftRows (block state)) := by
  funext n
  rw [Aes256Pkg.bytes_shiftRows, bytes_block]
  fin_cases n <;> rfl

theorem block_subBytes (state : State) : block (subBytes state) = Aes256Pkg.subBytes (block state) := by
  rw [Aes256Pkg.subBytes, bytes_block]
  rfl

theorem block_addRoundKey (state key : State) : block (addRoundKey state key) = block state ^^^ block key :=
  block_xor state key

theorem addRoundKey_mixColumns (state key : State) :
    addRoundKey (mixColumns (shiftRows (subBytes state))) key = fullRound state key := by
  apply block_injective
  rw [block_addRoundKey, mixColumns_eq, shiftRows_eq, block_bytes, block_bytes, block_subBytes,
    fullRound, block_bytes]
  rfl

theorem addRoundKey_shiftRows (state key : State) :
    addRoundKey (shiftRows (subBytes state)) key = finalRound state key := by
  apply block_injective
  rw [block_addRoundKey, shiftRows_eq, block_bytes, block_subBytes, finalRound, block_bytes]
  rfl

/-! ## The round keys -/

open AesStandard (input output rotWord subWord)

theorem input_computeKey_zero (rcon : Byte) (key : State) (r : Fin 4) :
    input (computeKey rcon key) r 0 =
      input key r 0 ^^^ (subWord (rotWord fun r => input key r 3) r ^^^ if r = 0 then rcon else 0) := by
  have hword : ∀ j : Fin 4, subWord (rotWord fun r => input key r 3) j =
      sbox.get (input key (j + 1) 3) := fun j => (Aes256Pkg.sboxArray_get _).symm
  rw [hword]
  by_cases hr : r = 0
  · rw [hr]
    rfl
  · rw [if_neg hr, xor_zero]
    fin_cases r
    · exact absurd rfl hr
    all_goals rfl

theorem input_computeKey_succ (rcon : Byte) (key : State) (r c : Fin 4) (hc : c ≠ 0) :
    input (computeKey rcon key) r c = input key r c ^^^ input (computeKey rcon key) r (c - 1) := by
  fin_cases c
  · exact absurd rfl hc
  all_goals fin_cases r <;> rfl

/-- The bytes of a key from its address on. -/
def keyBytes (skey : State) (n : Nat) : Byte := skey (Fin.ofNat 16 n)

/-- Round key `i` of the standard in an array. -/
def roundKey (skey : State) (i : Nat) : State :=
  output (AesStandard.roundKey (KeySize.aes128.keyWord (keyBytes skey)) i)

theorem input_roundKey (skey : State) (i : Nat) :
    input (roundKey skey i) = AesStandard.roundKey (KeySize.aes128.keyWord (keyBytes skey)) i :=
  AesStandard.input_output _

theorem roundKey_zero (skey : State) : roundKey skey 0 = skey := by
  apply AesStandard.input_injective
  rw [input_roundKey]
  funext r c
  have hc := c.isLt
  have hkey : 4 * 0 + c.val < KeySize.aes128.nk := by
    rw [Nat.mul_zero, Nat.zero_add]
    exact hc
  rw [AesStandard.roundKey, KeySize.keyWord_key hkey, Nat.mul_zero, Nat.zero_add, input, Nat.add_comm]
  rfl

/-- `computeKey` goes from one round key to the next. -/
theorem computeKey_roundKey (skey : State) (i : Nat) (hi : i < 10) :
    computeKey (rcon.getD i 0) (roundKey skey i) = roundKey skey (i + 1) := by
  have hconstant : ∀ i < 10, rcon.getD i 0 = AesStandard.rcon (i + 1) 0 := by decide
  have hword (r c : Fin 4) : input (roundKey skey i) r c =
      KeySize.aes128.keyWord (keyBytes skey) (4 * i + c) r := by rw [input_roundKey, AesStandard.roundKey]
  apply AesStandard.input_injective
  rw [input_roundKey]
  funext r c
  have hfirst : input (computeKey (rcon.getD i 0) (roundKey skey i)) r 0 =
      KeySize.aes128.keyWord (keyBytes skey) (4 * (i + 1)) r := by
    rw [input_computeKey_zero, KeySize.keyWord_aes128_first, hconstant i hi]
    simp only [hword, tuple_xor_apply, AesStandard.rcon_apply (i + 1) r]
    rfl
  have hnext (c : Fin 4) (hc : c ≠ 0) (hbefore : input (computeKey (rcon.getD i 0) (roundKey skey i)) r
      (c - 1) = KeySize.aes128.keyWord (keyBytes skey) (4 * (i + 1) + (c - 1)) r) :
      input (computeKey (rcon.getD i 0) (roundKey skey i)) r c =
        KeySize.aes128.keyWord (keyBytes skey) (4 * (i + 1) + c) r := by
    have hpos : 0 < c.val := Nat.pos_of_ne_zero fun h => hc (Fin.ext h)
    rw [input_computeKey_succ _ _ _ _ hc, KeySize.keyWord_aes128_next _ _ hpos c.isLt, tuple_xor_apply,
      hbefore, hword]
  have hone := hnext 1 (by decide) hfirst
  have htwo := hnext 2 (by decide) hone
  have hthree := hnext 3 (by decide) htwo
  fin_cases c
  · exact hfirst
  · exact hone
  · exact htwo
  · exact hthree

theorem foldl_aesStep (block skey : State) (n : Nat) (hn : n ≤ 9) :
    (List.range n).foldl aesStep ⟨addRoundKey block skey, skey⟩ =
      ⟨(List.range' 1 n).foldl (fun s i => fullRound s (roundKey skey i)) (addRoundKey block skey),
        roundKey skey n⟩ := by
  induction n with
  | zero => rw [roundKey_zero]; rfl
  | succ n ih =>
    rw [List.range_succ, List.range'_concat, List.foldl_append, List.foldl_append, ih (by omega)]
    simp only [List.foldl_cons, List.foldl_nil, aesStep, addRoundKey_mixColumns,
      computeKey_roundKey skey n (by omega), Nat.one_mul, Nat.add_comm 1 n]

theorem aes_eq (block skey : State) :
    aes block skey = ⟨KeySize.aes128.cipher (keyBytes skey) block, roundKey skey 10⟩ := by
  have hcipher := cipher_eq_rounds (k := roundKey skey) (fun i _ => input_roundKey skey i) block
  rw [roundKey_zero] at hcipher
  rw [aes, foldl_aesStep block skey 9 le_rfl, computeKey_roundKey skey 9 (by omega),
    addRoundKey_shiftRows, ← hcipher]
  rfl

end KuznyechikDPA.StraightforwardAes

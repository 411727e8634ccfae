import KuznyechikDPA.Aes.Buffers
import KuznyechikDPA.Firmware.Tables

/-!
# The AES of `avrcryptolib`

`aes_keyschedule.c`, `aes_enc.c`, `aes_dec.c` and the assembler of `gf256mul.S`. A context is
the array of round keys in memory, as words of four bytes from its address on. The counters of the
code stay far below 256.
-/

namespace KuznyechikDPA.AvrCryptoLib
open scoped AesBuffer
open AesBuffer (inColumn)

/-- `aes_sbox.c` has the entries of `sbox_array` in `aes256_pkg.vhd`. -/
def aesSbox : Table := Aes256Pkg.sboxArray

/-- `aes_invsbox.c` has those of `inv_sbox_array`. -/
def aesInvsbox : Table := Aes256Pkg.invSboxArray

/-! ## `gf256mul.S` -/

/-- From label 1 to `ret`, on the registers `A`, `B` and `P`. The carry of `lsr A` decides whether
`B` is added, that of `lsl B` whether the reducer is. -/
def gf256mulLoop (reducer A B P : Byte) : Byte :=
  let carry := A.getLsbD 0
  if A >>> 1 = 0 then if carry then P ^^^ B else P
  else
    gf256mulLoop reducer (A >>> 1) (if B.msb then (B <<< 1) ^^^ reducer else B <<< 1)
      (if carry then P ^^^ B else P)
termination_by A.toNat
decreasing_by
  rename_i hA
  have hne : A.toNat ≠ 0 := by
    intro h
    apply hA
    rw [BitVec.eq_of_toNat_eq (x := A) (y := 0) h]
    rfl
  rw [BitVec.toNat_ushiftRight, Nat.shiftRight_one]
  omega

def gf256mul (a b reducer : Byte) : Byte := gf256mulLoop reducer a b 0

/-! ## `aes_enc.c` -/

/-- `aes_shiftcol(s + row, shift)`. -/
def aesShiftcol (s : State) (row shift : Nat) : State := fun i =>
  if i % 4 = row then s (Fin.ofNat 16 (row + 4 * ((shift + i / 4) &&& 3))) else s i

/-- The column loop of `aes_enc_round`. -/
def mixColums (tmp : State) : State := fun n =>
  let x := inColumn tmp n
  let t := x 0 ^^^ x 1 ^^^ x 2 ^^^ x 3
  [gf256mul 2 (x 0 ^^^ x 1) 0x1b ^^^ x 0 ^^^ t,
    gf256mul 2 (x 1 ^^^ x 2) 0x1b ^^^ x 1 ^^^ t,
    gf256mul 2 (x 2 ^^^ x 3) 0x1b ^^^ x 2 ^^^ t,
    gf256mul 2 (x 3 ^^^ x 0) 0x1b ^^^ x 3 ^^^ t].getD (n % 4) 0

def aesEncRound (state k : State) : State :=
  let tmp : State := fun i => aesSbox.get (state i)
  let tmp := aesShiftcol tmp 1 1
  let tmp := aesShiftcol tmp 2 2
  let tmp := aesShiftcol tmp 3 3
  let state := mixColums tmp
  fun i => state i ^^^ k i

def aesEncLastround (state k : State) : State :=
  let state : State := fun i => aesSbox.get (state i)
  let state := aesShiftcol state 1 1
  let state := aesShiftcol state 2 2
  let state := aesShiftcol state 3 3
  fun i => state i ^^^ k i

abbrev Ctx := Nat → Fin 4 → Byte

/-- The sixteen bytes `ks->key[i].ks`. -/
def Ctx.key (ks : Ctx) (i : Nat) : State := fun j => ks (4 * i + j / 4) (Fin.ofNat 4 j)

/-- The loop leaves `i` at `rounds`, or at 1 when it does not run. -/
def aesEncryptCore (state : State) (ks : Ctx) (rounds : Nat) : State :=
  let state : State := fun i => state i ^^^ ks.key 0 i
  let state := (List.range' 1 (rounds - 1)).foldl (fun state i => aesEncRound state (ks.key i)) state
  aesEncLastround state (ks.key (1 + (rounds - 1)))

/-! ## `aes_dec.c` -/

/-- `aes_invshiftcol(s + row, shift)`. -/
def aesInvshiftcol (s : State) (row shift : Nat) : State := fun i =>
  if i % 4 = row then s (Fin.ofNat 16 (row + 4 * ((4 - shift + i / 4) &&& 3))) else s i

/-- The column loop of `aes_dec_round`. -/
def invMixColums (tmp : State) : State := fun n =>
  let x := inColumn tmp n
  let t := x 3 ^^^ x 2
  let u := x 1 ^^^ x 0
  let v := gf256mul 0x09 (t ^^^ u) 0x1b
  let w := v ^^^ gf256mul 0x04 (x 2 ^^^ x 0) 0x1b
  let v := v ^^^ gf256mul 0x04 (x 3 ^^^ x 1) 0x1b
  [x 0 ^^^ w ^^^ gf256mul 0x02 u 0x1b,
    x 1 ^^^ v ^^^ gf256mul 0x02 (x 2 ^^^ x 1) 0x1b,
    x 2 ^^^ w ^^^ gf256mul 0x02 t 0x1b,
    x 3 ^^^ v ^^^ gf256mul 0x02 (x 0 ^^^ x 3) 0x1b].getD (n % 4) 0

def aesDecRound (state k : State) : State :=
  let tmp : State := fun i => state i ^^^ k i
  let state := invMixColums tmp
  let state := aesInvshiftcol state 1 1
  let state := aesInvshiftcol state 2 2
  let state := aesInvshiftcol state 3 3
  fun i => aesInvsbox.get (state i)

def aesDecFirstround (state k : State) : State :=
  let state : State := fun i => state i ^^^ k i
  let state := aesInvshiftcol state 1 1
  let state := aesInvshiftcol state 2 2
  let state := aesInvshiftcol state 3 3
  fun i => aesInvsbox.get (state i)

def aesDecryptCore (state : State) (ks : Ctx) (rounds : Nat) : State :=
  let state := aesDecFirstround state (ks.key rounds)
  let state :=
    (List.range' 1 (rounds - 1)).reverse.foldl (fun state i => aesDecRound state (ks.key i)) state
  fun i => state i ^^^ ks.key 0 i

/-! ## `aes_keyschedule.c` -/

def aesRotword (a : Fin 4 → Byte) : Fin 4 → Byte := ![a 1, a 2, a 3, a 0]

/-- The four substitutions in `tmp.v8`. -/
def substituted (v8 : Fin 4 → Byte) : Fin 4 → Byte := fun j => aesSbox.get (v8 j)

def rcTab : List Byte := [0x01, 0x02, 0x04, 0x08, 0x10, 0x20, 0x40, 0x80, 0x1b, 0x36]

/-- What the loop of `aes_init` carries. -/
structure Expansion where
  ks : Ctx
  next_nk : Nat
  rc : Nat

def aesInitStep (nk : Nat) (e : Expansion) (i : Nat) : Expansion :=
  let tmp := e.ks (i - 1)
  if i ≠ e.next_nk then
    let tmp := if nk = 8 ∧ i % 8 = 4 then substituted tmp else tmp
    { e with ks := Function.update e.ks i (e.ks (i - nk) ^^^ tmp) }
  else
    let tmp := substituted (aesRotword tmp)
    let tmp := Function.update tmp 0 (tmp 0 ^^^ rcTab.getD e.rc 0)
    { ks := Function.update e.ks i (e.ks (i - nk) ^^^ tmp)
      next_nk := e.next_nk + nk
      rc := e.rc + 1 }

/-- `memcpy` and the loop; `ctx` is what the context holds before. -/
def aesInit (key : Nat → Byte) (keysize_b : Nat) (ctx : Ctx) : Ctx :=
  let nk := keysize_b / 32
  let hi := 4 * (nk + 6 + 1)
  let ks : Ctx := fun i j => if 4 * i + j < keysize_b / 8 then key (4 * i + j) else ctx i j
  ((List.range' nk (hi - nk)).foldl (aesInitStep nk) ⟨ks, nk, 0⟩).ks

def aes128Init (key : Nat → Byte) (ctx : Ctx) : Ctx := aesInit key 128 ctx

def aes192Init (key : Nat → Byte) (ctx : Ctx) : Ctx := aesInit key 192 ctx

def aes256Init (key : Nat → Byte) (ctx : Ctx) : Ctx := aesInit key 256 ctx

def aes128Enc (buffer : State) (ctx : Ctx) : State := aesEncryptCore buffer ctx 10

def aes192Enc (buffer : State) (ctx : Ctx) : State := aesEncryptCore buffer ctx 12

def aes256Enc (buffer : State) (ctx : Ctx) : State := aesEncryptCore buffer ctx 14

def aes128Dec (buffer : State) (ctx : Ctx) : State := aesDecryptCore buffer ctx 10

def aes192Dec (buffer : State) (ctx : Ctx) : State := aesDecryptCore buffer ctx 12

def aes256Dec (buffer : State) (ctx : Ctx) : State := aesDecryptCore buffer ctx 14

end KuznyechikDPA.AvrCryptoLib

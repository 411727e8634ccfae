import KuznyechikDPA.Firmware.Kuznyechik
import KuznyechikDPA.Foundation.Masking

/-!
# The masked block cipher of `kuznyechik_masked.c`

The file repeats the tables, the key expansion, `AddRoundKey`, `Rstep`, `Lstep` and
their inverses of `kuznyechik.c` word for word; these keep their definitions. New are
the global `mask`, drawn anew for every block, and the masked rounds. The two arrays a
round works on, `*state` and `mask`, are the two shares of `Shares State`.
-/

namespace KuznyechikDPA.Masked

open Kuznyechik (sbox rsbox rstep invRstep lstep invLstep addRoundKey Call)

universe u

/-- The two library functions the mask comes from, over any generator state. -/
structure Libc (σ : Type u) where
  srand : Nat → σ → σ
  rand : σ → Int × σ

/-- The globals of the unmasked file, `mask`, and the state of the generator. -/
structure Globals (σ : Type u) extends Kuznyechik.Globals where
  mask : State
  generator : σ

def Globals.init {σ : Type u} (generator : σ) : Globals σ where
  toGlobals := Kuznyechik.Globals.init
  mask := 0
  generator := generator

def getMaskedSBoxValue (num mas : Byte) : Byte := sbox.get (num ^^^ mas) ^^^ mas

def getMaskedSBoxInvert (num mas : Byte) : Byte := rsbox.get (num ^^^ mas) ^^^ mas

/-! ## Layers -/

def maskedSstep (p : Shares State) : Shares State :=
  { p with state := fun i => getMaskedSBoxValue (p.state i) (p.mask i) }

def maskedInvSstep (p : Shares State) : Shares State :=
  { p with state := fun i => getMaskedSBoxInvert (p.state i) (p.mask i) }

def maskRstep (mask : State) : State := rstep mask

def maskInvRstep (mask : State) : State := invRstep mask

def maskLstep (mask : State) : State := maskRstep^[16] mask

def maskInvLstep (mask : State) : State := maskInvRstep^[16] mask

/-- One turn of the loop of `Cipher`. -/
def encRound (trueRoundKey : Nat → State) (p : Shares State) (round : Nat) : Shares State :=
  let p := { p with state := addRoundKey trueRoundKey round p.state }
  let p := maskedSstep p
  let p := { p with state := lstep p.state }
  { p with mask := maskLstep p.mask }

/-- One turn of the loop of `InvCipher`; the mask is moved before anything else. -/
def decRound (trueRoundKey : Nat → State) (p : Shares State) (round : Nat) : Shares State :=
  let p := { p with mask := maskInvLstep p.mask }
  let p := { p with state := addRoundKey trueRoundKey round p.state }
  let p := { p with state := invLstep p.state }
  maskedInvSstep p

def cipher (trueRoundKey : Nat → State) (p : Shares State) : Shares State :=
  let p := [0, 1, 2, 3, 4, 5, 6, 7, 8].foldl (encRound trueRoundKey) p
  { p with state := addRoundKey trueRoundKey 9 p.state }

def invCipher (trueRoundKey : Nat → State) (p : Shares State) : Shares State :=
  let p := [9, 8, 7, 6, 5, 4, 3, 2, 1].foldl (decRound trueRoundKey) p
  { p with state := addRoundKey trueRoundKey 0 p.state }

/-! ## Public functions -/

section Calls
variable {σ : Type u} (libc : Libc σ)

/-- Sixteen calls of `rand`, each truncated to a byte, after seeding with three bytes of the block. -/
def genMask (g : Globals σ) (state : State) : Globals σ :=
  let generator := libc.srand (state 10 ^^^ state 11 ^^^ state 14).toNat g.generator
  (List.finRange 16).foldl (fun g i =>
    let drawn := libc.rand g.generator
    { g with
      mask := Function.update g.mask i (BitVec.ofInt 8 drawn.1)
      generator := drawn.2 }) { g with generator := generator }

def maskState (p : Shares State) : Shares State := { p with state := fun i => p.state i ^^^ p.mask i }

def maskedCrypto (g : Globals σ) (input : State) : Globals σ × State :=
  let g := genMask libc g input
  let p := maskState (cipher g.trueRoundKey (maskState ⟨input, g.mask⟩))
  ({ g with mask := p.mask }, p.state)

def maskedDecrypto (g : Globals σ) (input : State) : Globals σ × State :=
  let g := genMask libc g input
  let p := maskState (invCipher g.trueRoundKey (maskState ⟨input, g.mask⟩))
  ({ g with mask := p.mask }, p.state)

def setkey (g : Globals σ) (key : Fin 32 → Byte) : Globals σ :=
  { g with toGlobals := Kuznyechik.setkey g.toGlobals key }

/-- The globals after a call, and the block it leaves in the caller's buffer. -/
def call (g : Globals σ) : Call → Globals σ × Option State
  | .setkey key => (setkey g key, none)
  | .crypto input => ((maskedCrypto libc g input).1, some (maskedCrypto libc g input).2)
  | .decrypto input => ((maskedDecrypto libc g input).1, some (maskedDecrypto libc g input).2)

def session (g : Globals σ) : List Call → List (Option State)
  | [] => []
  | c :: cs => (call libc g c).2 :: session (call libc g c).1 cs

end Calls

end KuznyechikDPA.Masked

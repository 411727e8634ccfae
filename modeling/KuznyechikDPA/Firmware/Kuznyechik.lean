import KuznyechikDPA.Firmware.Tables
import Mathlib.Logic.Function.Iterate

/-!
# The block cipher of `kuznyechik.c`

A function that works in place on `*state` or on `stateDuringKS` is the function
from the old contents of that array to the new ones; the file-scope variables that
outlive a call are the fields of `Globals`. Arrays of states are indexed by `Nat`:
the code reads `RoundKey` below 66, `trueRoundKey` below 10 and `C` below 32.
-/

namespace KuznyechikDPA.Kuznyechik

structure Globals where
  stateDuringKS : State
  RoundKey : Nat → State
  trueRoundKey : Nat → State

/-- Static storage at power-up: zero, but for `trueRoundKey`. -/
def Globals.init : Globals where
  stateDuringKS := 0
  RoundKey := fun _ => 0
  trueRoundKey := fun round => trueRoundKeyInit.getD round 0

def getSBoxValue (num : Byte) : Byte := sbox.get num

def getSBoxInvert (num : Byte) : Byte := rsbox.get num

/-- The sum `mult_mod_poly[4][s[0]] ^ ... ^ mult_mod_poly[0][s[15]]` of `Rstep` and its siblings. -/
def feedback (s : State) : Byte :=
  (multModPoly 4).get (s 0) ^^^ (multModPoly 2).get (s 1) ^^^ (multModPoly 3).get (s 2) ^^^
  (multModPoly 1).get (s 3) ^^^ (multModPoly 6).get (s 4) ^^^ (multModPoly 5).get (s 5) ^^^
  (multModPoly 0).get (s 6) ^^^ (multModPoly 7).get (s 7) ^^^ (multModPoly 0).get (s 8) ^^^
  (multModPoly 5).get (s 9) ^^^ (multModPoly 6).get (s 10) ^^^ (multModPoly 1).get (s 11) ^^^
  (multModPoly 3).get (s 12) ^^^ (multModPoly 2).get (s 13) ^^^ (multModPoly 4).get (s 14) ^^^
  (multModPoly 0).get (s 15)

def sstep (state : State) : State := fun i => getSBoxValue (state i)

def invSstep (state : State) : State := fun i => getSBoxInvert (state i)

def rstep (state : State) : State := fun i => if i = 0 then feedback state else state (i - 1)

/-- Byte 15 is the same sum with every index moved up by one, `s[0]` last. -/
def invRstep (state : State) : State :=
  fun i => if i = 15 then feedback (fun j => state (j + 1)) else state (i + 1)

def lstep (state : State) : State := rstep^[16] state

def invLstep (state : State) : State := invRstep^[16] state

/-! ## Key expansion -/

def addRoundKeyKS (round : Nat) (stateDuringKS : State) : State :=
  fun i => stateDuringKS i ^^^ C.getD round 0 i

def sstepKS (stateDuringKS : State) : State := sstep stateDuringKS

def rstepKS (stateDuringKS : State) : State := rstep stateDuringKS

def lstepKS (stateDuringKS : State) : State := rstepKS^[16] stateDuringKS

/-- The body of the loop `for(i=2;i<65;i=i+2)` of `KeyExpansion`. -/
def expandStep (g : Globals) (i : Nat) : Globals :=
  let stateDuringKS := g.RoundKey (i - 2)
  let tempState2 := g.RoundKey (i - 1)
  let RoundKey := Function.update g.RoundKey (i + 1) stateDuringKS
  let k := i / 2 - 1
  let stateDuringKS := lstepKS (sstepKS (addRoundKeyKS k stateDuringKS))
  let stateDuringKS := fun j => stateDuringKS j ^^^ tempState2 j
  { g with
    stateDuringKS := stateDuringKS
    RoundKey := Function.update RoundKey i stateDuringKS }

/-- The two halves of the key go to slots 0 and 1. -/
def loadKey (g : Globals) (key : Fin 32 → Byte) : Globals :=
  { g with
    RoundKey := Function.update (Function.update g.RoundKey 0 fun i => key (i.castAdd 16))
      1 fun i => key (i.natAdd 16) }

/-- The ten slots that become round keys. -/
def pickRoundKeys (g : Globals) : Globals :=
  { g with
    trueRoundKey := fun round => match round with
      | 0 => g.RoundKey 0
      | 1 => g.RoundKey 1
      | 2 => g.RoundKey 16
      | 3 => g.RoundKey 17
      | 4 => g.RoundKey 32
      | 5 => g.RoundKey 33
      | 6 => g.RoundKey 48
      | 7 => g.RoundKey 49
      | 8 => g.RoundKey 64
      | 9 => g.RoundKey 65
      | _ => g.trueRoundKey round }

def keyExpansion (g : Globals) (key : Fin 32 → Byte) : Globals :=
  pickRoundKeys ((List.range 32).foldl (fun g n => expandStep g (2 * n + 2)) (loadKey g key))

/-! ## Encryption and decryption -/

def addRoundKey (trueRoundKey : Nat → State) (round : Nat) (state : State) : State :=
  fun i => state i ^^^ trueRoundKey round i

def cipher (trueRoundKey : Nat → State) (state : State) : State :=
  addRoundKey trueRoundKey 9 ([0, 1, 2, 3, 4, 5, 6, 7, 8].foldl
    (fun state round => lstep (sstep (addRoundKey trueRoundKey round state))) state)

def invCipher (trueRoundKey : Nat → State) (state : State) : State :=
  addRoundKey trueRoundKey 0 ([9, 8, 7, 6, 5, 4, 3, 2, 1].foldl
    (fun state round => invSstep (invLstep (addRoundKey trueRoundKey round state))) state)

/-! ## Public functions -/

def setkey (g : Globals) (key : Fin 32 → Byte) : Globals := keyExpansion g key

def crypto (g : Globals) (input : State) : State := cipher g.trueRoundKey input

def decrypto (g : Globals) (input : State) : State := invCipher g.trueRoundKey input

/-- One call of the interface, with the contents of the caller's buffer. -/
inductive Call where
  | setkey (key : Fin 32 → Byte)
  | crypto (input : State)
  | decrypto (input : State)

/-- The globals after a call, and the block it leaves in the caller's buffer. -/
def call (g : Globals) : Call → Globals × Option State
  | .setkey key => (setkey g key, none)
  | .crypto input => (g, some (crypto g input))
  | .decrypto input => (g, some (decrypto g input))

def session (g : Globals) : List Call → List (Option State)
  | [] => []
  | c :: cs => (call g c).2 :: session (call g c).1 cs

/-- The globals a sequence of calls leaves behind. -/
def after (g : Globals) (cs : List Call) : Globals := cs.foldl (fun g c => (call g c).1) g

end KuznyechikDPA.Kuznyechik

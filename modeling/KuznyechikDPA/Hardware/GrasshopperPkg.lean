import KuznyechikDPA.Hardware.Constants
import Mathlib.Logic.Function.Iterate

/-!
# The functions of `grasshopper_pkg.vhd`

A slice of eight bits is a byte of `bytes`, which counts from the most significant one;
a table is read at `to_integer(unsigned(...))` of a slice.
-/

namespace KuznyechikDPA.GrasshopperPkg

def sStep (s_inp : Block) : Block := block fun i => sboxArray.get (bytes s_inp i)

/-- The sum that `rStep` assigns to its top byte; `inv_rStep` has it with every slice
one place down, the top one last. -/
def linear (s : Fin 16 → Byte) : Byte :=
  lArray5.get (s 0) ^^^ lArray3.get (s 1) ^^^ lArray4.get (s 2) ^^^ lArray2.get (s 3) ^^^
  lArray7.get (s 4) ^^^ lArray6.get (s 5) ^^^ s 6 ^^^ lArray8.get (s 7) ^^^ s 8 ^^^
  lArray6.get (s 9) ^^^ lArray7.get (s 10) ^^^ lArray2.get (s 11) ^^^ lArray4.get (s 12) ^^^
  lArray3.get (s 13) ^^^ lArray5.get (s 14) ^^^ s 15

def rStep (r_inp : Block) : Block := linear (bytes r_inp) ++ r_inp.extractLsb' 8 120

def lStep (l_inp : Block) : Block := rStep (rStep^[14] (rStep l_inp))

def ARK (ark_in ark_key : Block) : Block := ark_in ^^^ ark_key

/-- The pair `(f_output(0), f_output(1))`. -/
def fStep (a1 a0 f_key : Block) : Block × Block := (lStep (sStep (ARK a1 f_key)) ^^^ a0, a1)

/-! ## Decryption -/

def invSStep (inv_s_inp : Block) : Block := block fun i => invSboxArray.get (bytes inv_s_inp i)

def invRStep (inv_r_inp : Block) : Block :=
  inv_r_inp.extractLsb' 0 120 ++ linear fun i => bytes inv_r_inp (i + 1)

def invLStep (inv_l_inp : Block) : Block := invRStep (invRStep^[14] (invRStep inv_l_inp))

def round (state k : Block) : Block := lStep (sStep (ARK state k))

def invRound (state k : Block) : Block := invSStep (invLStep (ARK state k))

/-! ## Masked rounds -/

def maskedSbox (s m : Byte) : Byte := sboxArray.get (s ^^^ m) ^^^ m

def maskedSStep (state mask : Block) : Block :=
  block fun i => maskedSbox (bytes state i) (bytes mask i)

def maskedRound (state k mask : Block) : Block := lStep (maskedSStep (ARK state k) mask)

def invMaskedSbox (s m : Byte) : Byte := invSboxArray.get (s ^^^ m) ^^^ m

def invMaskedSStep (state mask : Block) : Block :=
  block fun i => invMaskedSbox (bytes state i) (bytes mask i)

def invMaskedRound (state k mask : Block) : Block :=
  let int_m := invLStep mask
  invMaskedSStep (invLStep (ARK state k)) int_m

end KuznyechikDPA.GrasshopperPkg

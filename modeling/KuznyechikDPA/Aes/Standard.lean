import KuznyechikDPA.Foundation.ByteField
import Mathlib.Data.Fin.VecNotation

/-!
# AES-256 as FIPS 197 defines it

Bytes are elements of the field of 256 elements modulo `x^8 + x^4 + x^3 + x + 1`. The state
is four rows of four columns and is filled column by column; a word of the key expansion is
one column. Nothing here is a table.
-/

namespace KuznyechikDPA.AesStandard

open ByteField
set_option maxRecDepth 4000

/-- The residue of `x^8`. -/
def reduction : Byte := 0x1b

/-- Row, then column. -/
abbrev State := Fin 4 → Fin 4 → Byte

/-! ## The substitution -/

def square (b : Byte) : Byte := mul reduction b b

/-- `b^254`, by squaring and multiplying. -/
def inverse (b : Byte) : Byte := square ((fun r => mul reduction (square r) b)^[6] b)

def affine (b : Byte) : Byte :=
  b ^^^ b.rotateLeft 4 ^^^ b.rotateLeft 3 ^^^ b.rotateLeft 2 ^^^ b.rotateLeft 1 ^^^ 0x63

def sbox (b : Byte) : Byte := affine (inverse b)

/-! ## The transformations -/

def subBytes (s : State) : State := fun r c => sbox (s r c)

def shiftRows (s : State) : State := fun r c => s r (c + r)

def mixColumns (s : State) : State := fun r c =>
  mul reduction 2 (s r c) ^^^ mul reduction 3 (s (r + 1) c) ^^^ s (r + 2) c ^^^ s (r + 3) c

def addRoundKey (w : Nat → Fin 4 → Byte) (i : Nat) (s : State) : State := fun r c =>
  s r c ^^^ w (4 * i + c) r

/-! ## The key expansion -/

def rotWord (a : Fin 4 → Byte) : Fin 4 → Byte := fun i => a (i + 1)

def subWord (a : Fin 4 → Byte) : Fin 4 → Byte := fun i => sbox (a i)

/-- The power `x^(j - 1)` in the first byte. -/
def rcon (j : Nat) : Fin 4 → Byte := ![(xtimes reduction)^[j - 1] 1, 0, 0, 0]

/-- `temp` before it is added to the word eight places back. -/
def nextTemp (i : Nat) (temp : Fin 4 → Byte) : Fin 4 → Byte :=
  if i % 8 = 0 then subWord (rotWord temp) ^^^ rcon (i / 8)
  else if i % 8 = 4 then subWord temp
  else temp

/-- Word `i` for a key of eight words. -/
def keyWord (key : Fin 32 → Byte) (i : Nat) : Fin 4 → Byte :=
  if i < 8 then fun j => key (Fin.ofNat 32 (4 * i + j))
  else keyWord key (i - 8) ^^^ nextTemp i (keyWord key (i - 1))
termination_by i
decreasing_by all_goals omega

/-! ## The cipher -/

def cipherRound (w : Nat → Fin 4 → Byte) (s : State) (i : Nat) : State :=
  addRoundKey w i (mixColumns (shiftRows (subBytes s)))

def input (bytes : Fin 16 → Byte) : State := fun r c => bytes (Fin.ofNat 16 (r + 4 * c))

def output (s : State) : Fin 16 → Byte := fun i => s (Fin.ofNat 4 i) (Fin.ofNat 4 (i / 4))

/-- Fourteen rounds, the last one without `mixColumns`. -/
def cipher (key : Fin 32 → Byte) (block : Fin 16 → Byte) : Fin 16 → Byte :=
  let w := keyWord key
  let s := (List.range' 1 13).foldl (cipherRound w) (addRoundKey w 0 (input block))
  output (addRoundKey w 14 (shiftRows (subBytes s)))

/-! ## The field behind the definitions -/

theorem inverse_zero : inverse 0 = 0 := by decide +kernel

theorem mul_inverse {b : Byte} (hb : b ≠ 0) : mul reduction b (inverse b) = 1 := by
  have hentry := forall_of_allBytes (p := fun b => b == 0 || mul reduction b (inverse b) == 1)
    (by decide +kernel) b
  simpa only [Bool.or_eq_true, beq_iff_eq, hb, false_or] using hentry

theorem getLsbD_affine (b : Byte) (i : Fin 8) :
    (affine b).getLsbD i =
      (b.getLsbD i ^^ b.getLsbD ((i + 4) % 8) ^^ b.getLsbD ((i + 5) % 8) ^^ b.getLsbD ((i + 6) % 8) ^^
        b.getLsbD ((i + 7) % 8) ^^ (0x63 : Byte).getLsbD i) := by
  simp only [affine, BitVec.getLsbD_xor, BitVec.getLsbD_rotateLeft]
  fin_cases i <;> simp

section Field
open Polynomial

theorem modulus_reduction : modulus reduction = X ^ 8 + X ^ 4 + X ^ 3 + X + 1 := by
  have hbits : ∀ i < 8, coeffBit reduction i = if i ∈ [0, 1, 3, 4] then 1 else 0 := by decide
  have hpoly : toPoly reduction = 1 + X + X ^ 3 + X ^ 4 := by
    simp [toPoly, lowPoly, Finset.sum_range_succ, hbits]
  simp only [modulus, hpoly]
  ring

/-- A column of `mixColumns` is a sum of remainders of polynomial products. -/
theorem toPoly_mixColumns (s : State) (r c : Fin 4) :
    toPoly (mixColumns s r c) =
      (X * toPoly (s r c) + (X + 1) * toPoly (s (r + 1) c) + toPoly (s (r + 2) c) +
        toPoly (s (r + 3) c)) %ₘ modulus reduction := by
  have hbits2 : ∀ i < 8, coeffBit (2#8) i = if i = 1 then 1 else 0 := by decide
  have hbits3 : ∀ i < 8, coeffBit (3#8) i = if i ∈ [0, 1] then 1 else 0 := by decide
  have htwo : toPoly 2 = X := by
    simp [toPoly, lowPoly, Finset.sum_range_succ, hbits2]
  have hthree : toPoly 3 = X + 1 := by
    simp [toPoly, lowPoly, Finset.sum_range_succ, hbits3, add_comm]
  rw [mixColumns, toPoly_xor, toPoly_xor, toPoly_xor, toPoly_mul, toPoly_mul, htwo, hthree,
    add_modByMonic, add_modByMonic, add_modByMonic, toPoly_modByMonic, toPoly_modByMonic]

end Field

end KuznyechikDPA.AesStandard

import KuznyechikDPA.Foundation.ByteField
import KuznyechikDPA.Firmware.Tables
import Mathlib.Algebra.BigOperators.Fin

/-!
# The block cipher of GOST R 34.12-2015

The standard's own definition: products of bytes are taken in the field of 256
elements modulo `x^8 + x^7 + x^6 + x + 1`, the iteration constants are computed by
the linear map, and the key schedule is a Feistel network of 32 steps. Vectors of
128 bits are sixteen bytes, most significant first.
-/

namespace KuznyechikDPA.Standard

open ByteField
set_option maxRecDepth 4000

/-- The nonlinear bijection of the standard. -/
def pi : Table := ⟨[
  0xFC, 0xEE, 0xDD, 0x11, 0xCF, 0x6E, 0x31, 0x16, 0xFB, 0xC4, 0xFA, 0xDA, 0x23, 0xC5, 0x04, 0x4D,
  0xE9, 0x77, 0xF0, 0xDB, 0x93, 0x2E, 0x99, 0xBA, 0x17, 0x36, 0xF1, 0xBB, 0x14, 0xCD, 0x5F, 0xC1,
  0xF9, 0x18, 0x65, 0x5A, 0xE2, 0x5C, 0xEF, 0x21, 0x81, 0x1C, 0x3C, 0x42, 0x8B, 0x01, 0x8E, 0x4F,
  0x05, 0x84, 0x02, 0xAE, 0xE3, 0x6A, 0x8F, 0xA0, 0x06, 0x0B, 0xED, 0x98, 0x7F, 0xD4, 0xD3, 0x1F,
  0xEB, 0x34, 0x2C, 0x51, 0xEA, 0xC8, 0x48, 0xAB, 0xF2, 0x2A, 0x68, 0xA2, 0xFD, 0x3A, 0xCE, 0xCC,
  0xB5, 0x70, 0x0E, 0x56, 0x08, 0x0C, 0x76, 0x12, 0xBF, 0x72, 0x13, 0x47, 0x9C, 0xB7, 0x5D, 0x87,
  0x15, 0xA1, 0x96, 0x29, 0x10, 0x7B, 0x9A, 0xC7, 0xF3, 0x91, 0x78, 0x6F, 0x9D, 0x9E, 0xB2, 0xB1,
  0x32, 0x75, 0x19, 0x3D, 0xFF, 0x35, 0x8A, 0x7E, 0x6D, 0x54, 0xC6, 0x80, 0xC3, 0xBD, 0x0D, 0x57,
  0xDF, 0xF5, 0x24, 0xA9, 0x3E, 0xA8, 0x43, 0xC9, 0xD7, 0x79, 0xD6, 0xF6, 0x7C, 0x22, 0xB9, 0x03,
  0xE0, 0x0F, 0xEC, 0xDE, 0x7A, 0x94, 0xB0, 0xBC, 0xDC, 0xE8, 0x28, 0x50, 0x4E, 0x33, 0x0A, 0x4A,
  0xA7, 0x97, 0x60, 0x73, 0x1E, 0x00, 0x62, 0x44, 0x1A, 0xB8, 0x38, 0x82, 0x64, 0x9F, 0x26, 0x41,
  0xAD, 0x45, 0x46, 0x92, 0x27, 0x5E, 0x55, 0x2F, 0x8C, 0xA3, 0xA5, 0x7D, 0x69, 0xD5, 0x95, 0x3B,
  0x07, 0x58, 0xB3, 0x40, 0x86, 0xAC, 0x1D, 0xF7, 0x30, 0x37, 0x6B, 0xE4, 0x88, 0xD9, 0xE7, 0x89,
  0xE1, 0x1B, 0x83, 0x49, 0x4C, 0x3F, 0xF8, 0xFE, 0x8D, 0x53, 0xAA, 0x90, 0xCA, 0xD8, 0x85, 0x61,
  0x20, 0x71, 0x67, 0xA4, 0x2D, 0x2B, 0x09, 0x5B, 0xCB, 0x9B, 0x25, 0xD0, 0xBE, 0xE5, 0x6C, 0x52,
  0x59, 0xA6, 0x74, 0xD2, 0xE6, 0xF4, 0xB4, 0xC0, 0xD1, 0x66, 0xAF, 0xC2, 0x39, 0x4B, 0x63, 0xB6], by decide⟩

/-- The residue of `x^8` modulo `x^8 + x^7 + x^6 + x + 1`. -/
def reduction : Byte := 0xC3

def lCoefficients : Fin 16 → Byte :=
  ![148, 32, 133, 16, 194, 192, 1, 251, 1, 192, 194, 16, 133, 32, 148, 1]

def l (a : State) : Byte :=
  (List.finRange 16).foldl (fun acc i => acc ^^^ mul reduction (lCoefficients i) (a i)) 0

def X (k a : State) : State := k ^^^ a

def S (a : State) : State := fun i => pi.get (a i)

def R (a : State) : State := fun i => if i = 0 then l a else a (i - 1)

def L (a : State) : State := R^[16] a

/-- The 128-bit representation of a number below 256. -/
def vec128 (i : Byte) : State := Pi.single 15 i

/-- The iteration constant `C_i`. -/
def iterationConstant (i : Nat) : State := L (vec128 (BitVec.ofNat 8 i))

def F (k : State) (a : State × State) : State × State := (L (S (X k a.1)) ^^^ a.2, a.1)

/-- The pair of halves after the first `n` steps of the key schedule. -/
def keyPair (key : Fin 32 → Byte) : Nat → State × State
  | 0 => (fun i => key (i.castAdd 16), fun i => key (i.natAdd 16))
  | n + 1 => F (iterationConstant (n + 1)) (keyPair key n)

/-- `K_1, ..., K_10`, counted from zero. -/
def roundKey (key : Fin 32 → Byte) (round : Nat) : State :=
  if round % 2 = 0 then (keyPair key (8 * (round / 2))).1 else (keyPair key (8 * (round / 2))).2

def E (key : Fin 32 → Byte) (a : State) : State :=
  X (roundKey key 9) ((List.range 9).foldl (fun a round => L (S (X (roundKey key round) a))) a)

/-! ## The field behind the products -/

section Field
open Polynomial

theorem modulus_reduction : modulus reduction =
    Polynomial.X ^ 8 + Polynomial.X ^ 7 + Polynomial.X ^ 6 + Polynomial.X + 1 := by
  have hbits : ∀ i < 8, coeffBit reduction i = if i ∈ [0, 1, 6, 7] then 1 else 0 := by decide
  have hpoly : toPoly reduction =
      1 + Polynomial.X + Polynomial.X ^ 6 + Polynomial.X ^ 7 := by
    simp [toPoly, lowPoly, Finset.sum_range_succ, hbits]
  simp only [modulus, hpoly]
  ring

/-- `l` adds up field products: it is the polynomial of the remainder of the sum of products. -/
theorem toPoly_l (a : State) :
    toPoly (l a) = (∑ i, toPoly (lCoefficients i) * toPoly (a i)) %ₘ modulus reduction := by
  have hfold (is : List (Fin 16)) (acc : Byte) :
      toPoly (is.foldl (fun acc i => acc ^^^ mul reduction (lCoefficients i) (a i)) acc) =
        toPoly acc +
          (is.map fun i => toPoly (lCoefficients i) * toPoly (a i)).sum %ₘ modulus reduction := by
    induction is generalizing acc with
    | nil => simp
    | cons i is ih =>
      rw [List.foldl_cons, ih, toPoly_xor, toPoly_mul, List.map_cons, List.sum_cons,
        add_modByMonic, add_assoc]
  rw [l, hfold, toPoly_zero, zero_add, ← List.ofFn_eq_map, List.sum_ofFn]

end Field

end KuznyechikDPA.Standard

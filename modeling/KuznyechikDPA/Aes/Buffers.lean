import KuznyechikDPA.Aes.Conformance
import KuznyechikDPA.Aes.KeySizes

/-!
# AES in place

Programs keep the state in an array of sixteen bytes, column after column, and the round keys in
arrays of the same shape. A program whose rounds are those of the package and whose round keys are
the columns of the key expansion computes the cipher of the standard.
-/

namespace KuznyechikDPA.AesStandard

theorem output_input (block : Fin 16 → Byte) : output (input block) = block := by
  have hindex : ∀ i : Fin 16, Fin.ofNat 16 ((Fin.ofNat 4 i).val + 4 * (Fin.ofNat 4 (i / 4)).val) = i := by
    decide
  funext i
  rw [output, input, hindex i]

theorem input_output (s : State) : input (output s) = s := by
  have hindex : ∀ r c : Fin 4, Fin.ofNat 4 (Fin.ofNat 16 (r + 4 * c) : Fin 16) = r ∧
      Fin.ofNat 4 ((Fin.ofNat 16 (r + 4 * c) : Fin 16) / 4 : Nat) = c := by
    decide
  funext r c
  obtain ⟨hrow, hcolumn⟩ := hindex r c
  rw [input, output, hrow, hcolumn]

theorem input_injective : Function.Injective input :=
  Function.LeftInverse.injective output_input

/-- The four words of round `i` as the columns of a state. -/
def roundKey (w : Nat → Fin 4 → Byte) (i : Nat) : State := fun r c => w (4 * i + c) r

end KuznyechikDPA.AesStandard

namespace KuznyechikDPA.AesBuffer
open ByteField Aes256Pkg
open AesStandard (KeySize)

/-- Columns have four bytes. -/
scoped instance instNeZeroFour : NeZero 4 := ⟨by decide⟩

/-! ## Columns -/

/-- `tmp[4*i+j]`, where `i` is the column of byte `n`. -/
def inColumn (tmp : Fin 16 → Byte) (n : Fin 16) (j : Nat) : Byte := tmp (Fin.ofNat 16 (4 * (n / 4) + j))

theorem below_eq_inColumn (tmp : Fin 16 → Byte) (n : Fin 16) (k : Nat) :
    tmp (below n k) = inColumn tmp n ((n.val % 4 + k) % 4) := by
  rw [inColumn, Nat.mod_add_mod]
  rfl

theorem self_eq_inColumn (tmp : Fin 16 → Byte) (n : Fin 16) : tmp n = inColumn tmp n (n.val % 4) := by
  have hself : ∀ n : Fin 16, n = Fin.ofNat 16 (4 * (n / 4) + n % 4) := by decide
  exact congrArg tmp (hself n)

/-- Three times a byte is twice the byte and the byte itself. -/
theorem column_two (a b c d : Byte) :
    mul 0x1b 2 (a ^^^ b) ^^^ a ^^^ (a ^^^ b ^^^ c ^^^ d) =
      mul 0x1b 2 a ^^^ mul 0x1b 3 b ^^^ c ^^^ d := by
  have hthree : mul 0x1b 3 b = mul 0x1b 2 b ^^^ b := by
    have hsum : mul 0x1b 3 b = mul 0x1b 2 b ^^^ mul 0x1b 1 b := xorHom_mul_left 0x1b b 2 1
    rw [hsum, mul_one_left]
  have hcancel : a ^^^ (a ^^^ b ^^^ c ^^^ d) = b ^^^ c ^^^ d := by
    rw [xor_assoc, xor_assoc, ← xor_assoc a a, LawfulXor.xor_self, zero_xor, xor_assoc]
  rw [xor_assoc, hcancel, xorHom_mul_right 0x1b 2 a b, hthree]
  ac_rfl

theorem sum_rotate (x : Nat → Byte) (r : Nat) (hr : r < 4) :
    x r ^^^ x ((r + 1) % 4) ^^^ x ((r + 2) % 4) ^^^ x ((r + 3) % 4) = x 0 ^^^ x 1 ^^^ x 2 ^^^ x 3 := by
  interval_cases r <;> simp only [Nat.reduceAdd, Nat.reduceMod] <;> ac_rfl

/-- The column step as programs write it: to each byte the sum of its column, and twice its sum with
the next byte. -/
theorem eq_mixColumns {s t : Fin 16 → Byte}
    (h : ∀ n : Fin 16, ∀ r < 4, n.val % 4 = r →
      t n = mul 0x1b 2 (inColumn s n r ^^^ inColumn s n ((r + 1) % 4)) ^^^ inColumn s n r ^^^
        (inColumn s n 0 ^^^ inColumn s n 1 ^^^ inColumn s n 2 ^^^ inColumn s n 3)) :
    t = bytes (mixColumns (block s)) := by
  funext n
  have hr : n.val % 4 < 4 := Nat.mod_lt _ (by decide)
  rw [bytes_mixColumns, bytes_block, h n (n % 4) hr rfl, ← sum_rotate _ _ hr, column_two,
    self_eq_inColumn s n, below_eq_inColumn s, below_eq_inColumn s, below_eq_inColumn s]

/-! ## Rounds -/

/-- A round of the package on an array. -/
def fullRound (s k : Fin 16 → Byte) : Fin 16 → Byte := bytes (standardRound (block s) (block k))

def finalRound (s k : Fin 16 → Byte) : Fin 16 → Byte := bytes (lastRound (block s) (block k))

theorem input_eq_state (s : Fin 16 → Byte) : AesStandard.input s = state (block s) := by
  rw [state, bytes_block]

section Round
variable {w : Nat → Fin 4 → Byte} {k : Fin 16 → Byte} {i : Nat}
  (h : AesStandard.input k = AesStandard.roundKey w i)
include h

theorem input_add (s : Fin 16 → Byte) :
    AesStandard.input (fun j => s j ^^^ k j) = AesStandard.addRoundKey w i (AesStandard.input s) := by
  funext r c
  have hkey : k (Fin.ofNat 16 (r + 4 * c)) = w (4 * i + c) r := congrFun (congrFun h r) c
  rw [AesStandard.addRoundKey, ← hkey]
  rfl

theorem state_xor_key (v : Block) :
    state (v ^^^ block k) = AesStandard.addRoundKey w i (state v) := by
  have hadd := input_add h (bytes v)
  rwa [input_eq_state, block_xor, block_bytes] at hadd

theorem input_fullRound (s : Fin 16 → Byte) :
    AesStandard.input (fullRound s k) = AesStandard.cipherRound w (AesStandard.input s) i := by
  rw [fullRound, input_eq_state, input_eq_state, block_bytes, standardRound, ARK, state_xor_key h,
    state_mixColumns, state_shiftRows, state_subBytes, AesStandard.cipherRound]

theorem input_finalRound (s : Fin 16 → Byte) :
    AesStandard.input (finalRound s k) =
      AesStandard.addRoundKey w i (AesStandard.shiftRows (AesStandard.subBytes (AesStandard.input s))) := by
  rw [finalRound, input_eq_state, input_eq_state, block_bytes, lastRound, ARK, state_xor_key h,
    state_shiftRows, state_subBytes]

end Round

/-- The rounds of a program under the round keys of the standard. -/
theorem cipher_eq_rounds {size : KeySize} {key : Nat → Byte} {k : Nat → Fin 16 → Byte}
    (hk : ∀ i ≤ size.rounds, AesStandard.input (k i) = AesStandard.roundKey (size.keyWord key) i)
    (s : Fin 16 → Byte) :
    finalRound ((List.range' 1 (size.rounds - 1)).foldl (fun s i => fullRound s (k i)) fun j => s j ^^^ k 0 j)
      (k size.rounds) = size.cipher key s := by
  have hloop := List.foldl_rel (l := List.range' 1 (size.rounds - 1))
    (r := fun s t => AesStandard.input s = t) (f := fun s i => fullRound s (k i))
    (g := AesStandard.cipherRound (size.keyWord key))
    (input_add (hk 0 (by omega)) s) fun i hi s t hst => by
      rw [List.mem_range'_1] at hi
      rw [input_fullRound (hk i (by omega)), hst]
  apply AesStandard.input_injective
  rw [input_finalRound (hk _ le_rfl), hloop, KeySize.cipher]
  exact (AesStandard.input_output _).symm

end KuznyechikDPA.AesBuffer

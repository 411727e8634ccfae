import KuznyechikDPA.Firmware.Layers
import KuznyechikDPA.Firmware.Standard
import Mathlib.Tactic.IntervalCases

/-!
# The firmware computes the standard cipher

The tables of `kuznyechik.c` are the field products of the standard, its literal
constants are the linear images of `1, ..., 32`, and the loop of `KeyExpansion` fills
the slots of `RoundKey` with the successive pairs of the Feistel network.
-/

namespace KuznyechikDPA.Kuznyechik

open ByteField
set_option maxRecDepth 4000

/-! ## Layers -/

theorem feedback_eq_l (s : State) : feedback s = Standard.l s := by
  have hl : Standard.l s = (List.finRange 16).tail.foldl
      (fun acc i => acc ^^^ mul 0xC3 (Standard.lCoefficients i) (s i))
      (0 ^^^ mul 0xC3 (Standard.lCoefficients 0) (s 0)) := rfl
  rw [hl, zero_xor]
  simp only [feedback, multModPoly_get]
  rfl

theorem sbox_eq_pi : sbox = Standard.pi := rfl

theorem sstep_eq_S : sstep = Standard.S := rfl

theorem rstep_eq_R : rstep = Standard.R := by
  funext s i
  simp only [rstep, Standard.R, feedback_eq_l]

theorem lstep_eq_L : lstep = Standard.L := by
  funext s
  rw [lstep, Standard.L, rstep_eq_R]

/-! ## Constants

`l` commutes with the multiplication of every byte by a constant, so the images of
`1, ..., 32` are the multiples of the image of one.
-/

/-- Every byte multiplied by `b` in the field of the standard. -/
def scale (b : Byte) (s : State) : State := fun i => mul 0xC3 (s i) b

theorem mul_scale (c b : Byte) (s : State) (i : Fin 16) :
    mul 0xC3 c (scale b s i) = mul 0xC3 (mul 0xC3 c (s i)) b := (modMul_assoc 0xC3 c (s i) b).symm

theorem feedback_scale (b : Byte) (s : State) : feedback (scale b s) = mul 0xC3 (feedback s) b := by
  have hom (x y : Byte) : mul 0xC3 (x ^^^ y) b = mul 0xC3 x b ^^^ mul 0xC3 y b :=
    xorHom_mul_left 0xC3 b x y
  simp only [feedback, multModPoly_get, mul_scale, hom]

theorem rstep_scale (b : Byte) (s : State) : rstep (scale b s) = scale b (rstep s) := by
  funext i
  by_cases hi : i = 0
  · subst i
    exact feedback_scale b s
  · simp only [rstep, scale, if_neg hi]

theorem lstep_scale (b : Byte) (s : State) : lstep (scale b s) = scale b (lstep s) :=
  (Function.Commute.iterate_left (f := rstep) (g := scale b) (fun t => rstep_scale b t) 16) s

theorem mul_one (a : Byte) : mul 0xC3 a 1 = a := by
  rw [modMul_comm, ← multModPoly_zero_get a]
  exact (multModPoly_get 0 _).symm.trans (multModPoly_zero_get _)

theorem mul_two (a : Byte) : mul 0xC3 a 2 = xtimes 0xC3 a := by
  simp [mul, mulBits]

theorem vec128_eq_scale (b : Byte) : Standard.vec128 b = scale b (Standard.vec128 1) := by
  have hzero : mul 0xC3 0 b = 0 := (xorHom_mul_left 0xC3 b).map_zero
  funext i
  by_cases hi : i = 15
  · subst i
    exact (mul_one b).symm.trans (modMul_comm 0xC3 b 1)
  · simp only [Standard.vec128, scale, Pi.single_eq_of_ne hi, hzero]

/-- The image of a byte, seen as a multiple of the image of one. -/
theorem L_vec128 (b : Byte) :
    Standard.L (Standard.vec128 b) = scale b (Standard.L (Standard.vec128 1)) := by
  rw [vec128_eq_scale, ← lstep_eq_L, lstep_scale]

theorem iterationConstant_succ (n : Nat) (h : BitVec.ofNat 8 (n + 1) = BitVec.ofNat 8 n ^^^ 1) :
    Standard.iterationConstant (n + 1) =
      Standard.iterationConstant n ^^^ Standard.iterationConstant 1 := by
  funext i
  simp only [Standard.iterationConstant, h, tuple_xor_apply]
  rw [L_vec128, L_vec128 (BitVec.ofNat 8 n)]
  exact (xorHom_mul_right 0xC3 _ _ _).trans (congrArg₂ _ rfl (mul_one _))

theorem iterationConstant_double (n : Nat)
    (h : BitVec.ofNat 8 (2 * n) = mul 0xC3 (BitVec.ofNat 8 n) 2) (i : Fin 16) :
    Standard.iterationConstant (2 * n) i = xtimes 0xC3 (Standard.iterationConstant n i) := by
  simp only [Standard.iterationConstant, h]
  rw [L_vec128, L_vec128 (BitVec.ofNat 8 n), ← mul_two]
  exact (modMul_assoc 0xC3 _ _ _).symm

theorem C_getD_eq (n : Nat) (hn : n < 32) : C.getD n 0 = Standard.iterationConstant (n + 1) := by
  have hfirst : C.getD 0 0 = Standard.iterationConstant 1 := by
    rw [Standard.iterationConstant, ← lstep_eq_L]
    decide +kernel
  have hodd : ∀ m < 16, C.getD (2 * m + 1) 0 = fun i => xtimes 0xC3 (C.getD m 0 i) := by
    decide +kernel
  have heven : ∀ m < 15, C.getD (2 * m + 2) 0 = C.getD (2 * m + 1) 0 ^^^ C.getD 0 0 := by
    decide +kernel
  have hdouble : ∀ m < 17, BitVec.ofNat 8 (2 * m) = mul 0xC3 (BitVec.ofNat 8 m) 2 := by
    decide +kernel
  have hsucc : ∀ m < 16, BitVec.ofNat 8 (2 * m + 1) = BitVec.ofNat 8 (2 * m) ^^^ 1 := by
    decide +kernel
  induction n using Nat.strongRecOn with
  | ind n ih =>
    rcases Nat.even_or_odd' n with ⟨m, rfl | rfl⟩
    · rcases m with _ | m
      · exact hfirst
      · have hnext : 2 * (m + 1) = 2 * m + 1 + 1 := by omega
        rw [hnext, heven m (by omega),
          ih (2 * m + 1) (by omega) (by omega), hfirst,
          iterationConstant_succ (2 * m + 1 + 1) (hsucc (m + 1) (by omega))]
    · rw [hodd m (by omega), ih m (by omega) (by omega)]
      funext i
      exact (iterationConstant_double (m + 1) (hdouble (m + 1) (by omega)) i).symm

/-! ## Key schedule -/

section Schedule
variable (key : Fin 32 → Byte)

/-- The slots filled by the first `n` turns of the loop hold the first pairs of the network. -/
def Scheduled (n : Nat) (g : Globals) : Prop :=
  ∀ m ≤ n, (g.RoundKey (2 * m), g.RoundKey (2 * m + 1)) = Standard.keyPair key m

theorem scheduled_loadKey (g : Globals) : Scheduled key 0 (loadKey g key) := by
  intro m hm
  obtain rfl : m = 0 := by omega
  rfl

theorem expandStep_slots (g : Globals) (n : Nat) :
    ((expandStep g (2 * n + 2)).RoundKey (2 * (n + 1)),
      (expandStep g (2 * n + 2)).RoundKey (2 * (n + 1) + 1)) =
    (lstep (sstep (g.RoundKey (2 * n) ^^^ C.getD n 0)) ^^^ g.RoundKey (2 * n + 1),
      g.RoundKey (2 * n)) := by
  have hk : (2 * n + 2) / 2 - 1 = n := by omega
  have htwo : 2 * (n + 1) = 2 * n + 2 := by ring
  have hone : 2 * n + 2 - 1 = 2 * n + 1 := by omega
  have hthree : 2 * n + 2 + 1 ≠ 2 * n + 2 := by omega
  simp only [expandStep, htwo, hk, Function.update_self, Function.update_of_ne hthree,
    Nat.add_sub_cancel, hone]
  rfl

theorem expandStep_other (g : Globals) (i slot : Nat) (hi : slot < i) :
    (expandStep g i).RoundKey slot = g.RoundKey slot := by
  have hfirst : slot ≠ i := by omega
  have hsecond : slot ≠ i + 1 := by omega
  simp only [expandStep, Function.update_of_ne hfirst, Function.update_of_ne hsecond]

theorem scheduled_expandStep {n : Nat} (hn : n < 32) {g : Globals} (h : Scheduled key n g) :
    Scheduled key (n + 1) (expandStep g (2 * n + 2)) := by
  intro m hm
  by_cases hlast : m = n + 1
  · subst m
    have hpair := h n le_rfl
    rw [expandStep_slots, C_getD_eq n hn, Standard.keyPair, ← hpair, Standard.F, Standard.X,
      ← lstep_eq_L, ← sstep_eq_S, LawfulXor.xor_comm (Standard.iterationConstant (n + 1))]
  · rw [expandStep_other g _ _ (by omega), expandStep_other g _ _ (by omega)]
    exact h m (by omega)

theorem scheduled_foldl (g : Globals) (n : Nat) (hn : n ≤ 32) :
    Scheduled key n
      ((List.range n).foldl (fun g n => expandStep g (2 * n + 2)) (loadKey g key)) := by
  induction n with
  | zero => exact scheduled_loadKey key g
  | succ n ih =>
    rw [List.range_succ, List.foldl_append]
    exact scheduled_expandStep key (by omega) (ih (by omega))

theorem roundKey_even (m : Nat) : Standard.roundKey key (2 * m) = (Standard.keyPair key (8 * m)).1 := by
  have hhalf : 2 * m / 2 = m := by omega
  rw [Standard.roundKey, if_pos (by omega), hhalf]

theorem roundKey_odd (m : Nat) :
    Standard.roundKey key (2 * m + 1) = (Standard.keyPair key (8 * m)).2 := by
  have hhalf : (2 * m + 1) / 2 = m := by omega
  rw [Standard.roundKey, if_neg (by omega), hhalf]

theorem pickRoundKeys_trueRoundKey {g : Globals} (h : Scheduled key 32 g) (m : Nat) (hm : m < 5) :
    (pickRoundKeys g).trueRoundKey (2 * m) = Standard.roundKey key (2 * m) ∧
      (pickRoundKeys g).trueRoundKey (2 * m + 1) = Standard.roundKey key (2 * m + 1) := by
  have hpair := h (8 * m) (by omega)
  rw [roundKey_even, roundKey_odd, ← hpair]
  interval_cases m <;> exact ⟨rfl, rfl⟩

theorem trueRoundKey_keyExpansion (g : Globals) (round : Nat) (h : round < 10) :
    (keyExpansion g key).trueRoundKey round = Standard.roundKey key round := by
  have hpick := pickRoundKeys_trueRoundKey key (scheduled_foldl key g 32 le_rfl)
  rcases Nat.even_or_odd' round with ⟨m, rfl | rfl⟩
  · exact (hpick m (by omega)).1
  · exact (hpick m (by omega)).2

end Schedule

/-! ## The block function -/

theorem encRound_eq (k : Nat → State) (s : State) (round : Nat) :
    encRound k s round = Standard.L (Standard.S (Standard.X (k round) s)) := by
  rw [encRound, lstep_eq_L, sstep_eq_S, addRoundKey_eq_xor, Standard.X, LawfulXor.xor_comm]

/-- With the round keys of the standard the loop of `Cipher` is the standard's encryption. -/
theorem cipher_eq_E (key : Fin 32 → Byte) (k : Nat → State)
    (hk : ∀ round < 10, k round = Standard.roundKey key round) (block : State) :
    cipher k block = Standard.E key block := by
  have hrounds : (List.range 9).foldl (encRound k) block =
      (List.range 9).foldl (fun a round =>
        Standard.L (Standard.S (Standard.X (Standard.roundKey key round) a))) block := by
    refine List.foldl_ext _ _ _ fun a round hround => ?_
    rw [encRound_eq, hk round (by have := List.mem_range.mp hround; omega)]
  rw [Standard.E, ← hrounds, Standard.X, ← hk 9 (by omega), LawfulXor.xor_comm]
  rfl

/-- Whatever calls came before, `kuznyechik_setkey` and `kuznyechik_crypto` give the ciphertext
of the standard. -/
theorem crypto_conforms (calls : List Call) (key : Fin 32 → Byte) (block : State) :
    crypto (setkey (after Globals.init calls) key) block = Standard.E key block :=
  cipher_eq_E key _ (trueRoundKey_keyExpansion key _) block

end KuznyechikDPA.Kuznyechik

import KuznyechikDPA.Hardware.GrasshopperPkg
import KuznyechikDPA.Firmware.Layers

/-!
# The package functions and the functions of the firmware

Seen through `bytes`, every function of the package is the function of `kuznyechik.c`
that has its name: the hex tables are the decimal ones, and a shift of the vector by
one slice is a move of the byte array by one place.
-/

namespace KuznyechikDPA.GrasshopperPkg

open Kuznyechik
set_option maxRecDepth 4000

/-! ## Encryption -/

theorem linear_eq_feedback (s : State) : linear s = feedback s := by
  simp only [feedback, multModPoly_zero_get]
  rfl

theorem bytes_sStep (v : Block) : bytes (sStep v) = sstep (bytes v) := bytes_block _

/-- A slice below the top byte, moved down by the assignment `r_inp(127 downto 8)`. -/
theorem bytes_append_high (b : Byte) (v : Block) (i : Fin 15) :
    bytes (b ++ v.extractLsb' 8 120) i.succ = bytes v i.castSucc := by
  apply BitVec.eq_of_getLsbD_eq
  intro j hj
  have hi := i.isLt
  simp only [bytes, toBytes, BitVec.getLsbD_extractLsb', BitVec.getLsbD_append, Fin.val_succ,
    Fin.val_castSucc]
  have hpos : 8 + (8 * (16 - 1 - (i.val + 1)) + j) = 8 * (16 - 1 - i.val) + j := by omega
  have hlt : 8 * (16 - 1 - (i.val + 1)) + j < 120 := by omega
  rw [if_pos (by omega), hpos]
  simp only [hj, hlt, decide_true, Bool.true_and]

/-- A slice above the bottom byte, moved up by the assignment `inv_r_inp(119 downto 0)`. -/
theorem bytes_append_low (b : Byte) (v : Block) (i : Fin 15) :
    bytes (v.extractLsb' 0 120 ++ b) i.castSucc = bytes v i.succ := by
  apply BitVec.eq_of_getLsbD_eq
  intro j hj
  have hi := i.isLt
  simp only [bytes, toBytes, BitVec.getLsbD_extractLsb', BitVec.getLsbD_append, Fin.val_succ,
    Fin.val_castSucc]
  have hpos : 0 + (8 * (16 - 1 - i.val) + j - 8) = 8 * (16 - 1 - (i.val + 1)) + j := by omega
  have hlt : 8 * (16 - 1 - i.val) + j - 8 < 120 := by omega
  rw [if_neg (by omega), hpos]
  simp only [hj, hlt, decide_true, Bool.true_and]

theorem bytes_rStep (v : Block) : bytes (rStep v) = rstep (bytes v) := by
  funext i
  cases i using Fin.cases with
  | zero =>
    rw [rstep, if_pos rfl, ← linear_eq_feedback]
    exact BitVec.extractLsb'_append_eq_left
  | succ i =>
    have hpred : i.succ - 1 = i.castSucc := by rw [← Fin.coeSucc_eq_succ, add_sub_cancel_right]
    rw [rstep, if_neg (Fin.succ_ne_zero i), hpred]
    exact bytes_append_high _ v i

theorem bytes_iterate {f : Block → Block} {g : State → State} (h : ∀ v, bytes (f v) = g (bytes v))
    (v : Block) : bytes (f (f^[14] (f v))) = g^[16] (bytes v) := by
  have hsemi : Function.Semiconj bytes f g := h
  rw [h, hsemi.iterate_right 14, h]
  rfl

theorem bytes_lStep (v : Block) : bytes (lStep v) = lstep (bytes v) := bytes_iterate bytes_rStep v

theorem xorHom_lStep : XorHom lStep := xorHom_of_bytes xorHom_lstep bytes_lStep

theorem lStep_bijective : Function.Bijective lStep := by
  have hsemi : bytes ∘ lStep = lstep ∘ bytes := funext bytes_lStep
  have hbytes : Function.Bijective bytes := ⟨bytes_injective, fun s => ⟨block s, bytes_block s⟩⟩
  rw [← hbytes.of_comp_iff' lStep, hsemi]
  exact lstep_bijective.comp hbytes

theorem bytes_round (state k : Block) :
    bytes (round state k) = lstep (sstep (bytes state ^^^ bytes k)) := by
  rw [round, bytes_lStep, bytes_sStep, ARK, bytes_xor]

/-! ## Decryption -/

theorem bytes_invSStep (v : Block) : bytes (invSStep v) = invSstep (bytes v) := bytes_block _

theorem bytes_invRStep (v : Block) : bytes (invRStep v) = invRstep (bytes v) := by
  funext i
  cases i using Fin.lastCases with
  | last =>
    have hlast : Fin.last 15 = (15 : Fin 16) := rfl
    rw [invRstep, if_pos hlast, ← linear_eq_feedback]
    exact BitVec.extractLsb'_append_eq_right
  | cast i =>
    have hne : i.castSucc ≠ 15 := (Fin.castSucc_lt_last i).ne
    rw [invRstep, if_neg hne, Fin.coeSucc_eq_succ]
    exact bytes_append_low _ v i

theorem bytes_invLStep (v : Block) : bytes (invLStep v) = invLstep (bytes v) :=
  bytes_iterate bytes_invRStep v

theorem xorHom_invLStep : XorHom invLStep := xorHom_of_bytes xorHom_invLstep bytes_invLStep

theorem lStep_invLStep : Function.LeftInverse lStep invLStep := by
  intro v
  apply bytes_injective
  rw [bytes_lStep, bytes_invLStep, lstep_invLstep]

theorem invLStep_bijective : Function.Bijective invLStep :=
  Finite.injective_iff_bijective.mp lStep_invLStep.injective

/-- What the linear layer changes determines the vector, and so does what its inverse changes. -/
theorem change_lStep_bijective : Function.Bijective (change lStep) := by
  apply Finite.injective_iff_bijective.mp
  intro v w h
  apply bytes_injective
  apply change_lstep_injective
  have hbytes := congrArg bytes h
  simpa only [change, bytes_xor, bytes_lStep] using hbytes

theorem change_invLStep_bijective : Function.Bijective (change invLStep) := by
  have hcomp : change invLStep = change lStep ∘ invLStep := by
    funext v
    rw [Function.comp, change, change, lStep_invLStep, BitVec.xor_comm]
  rw [hcomp]
  exact change_lStep_bijective.comp invLStep_bijective

theorem bytes_invRound (state k : Block) :
    bytes (invRound state k) = invSstep (invLstep (bytes state ^^^ bytes k)) := by
  rw [invRound, bytes_invSStep, bytes_invLStep, ARK, bytes_xor]

/-! ## Masked substitution -/

/-- The masked substitution is the plain one between taking the mask off and putting it on. -/
theorem maskedSStep_eq (state mask : Block) :
    maskedSStep state mask = sStep (state ^^^ mask) ^^^ mask := by
  apply bytes_injective
  rw [bytes_xor, bytes_sStep, bytes_xor, maskedSStep, bytes_block]
  rfl

theorem invMaskedSStep_eq (state mask : Block) :
    invMaskedSStep state mask = invSStep (state ^^^ mask) ^^^ mask := by
  apply bytes_injective
  rw [bytes_xor, bytes_invSStep, bytes_xor, invMaskedSStep, bytes_block]
  rfl

end KuznyechikDPA.GrasshopperPkg

import KuznyechikDPA.Python.HexRefinement

/-!
# The script's cipher and the device's

The hypotheses of the attack are computed with `first_step` and `inv_last_round`. The first
reads the S-box of AES, which is the S-box of the device at one byte only; the second undoes
the two layers of a round in the order in which the round applies them.
-/

namespace KuznyechikDPA.GrasshopperData

open GrasshopperPkg (sStep lStep ARK sboxArray)
open Kuznyechik (sstep)
set_option maxRecDepth 4000

/-! ## The inverse layers -/

theorem inverse_layers (v : Block) :
    (∃ s, invSStep (blockText v) = some s ∧ s.length = 32 ∧ s = blockText (GrasshopperPkg.invSStep v) ∧
      hexNumber s = some (GrasshopperPkg.invSStep v).toNat) ∧
    ∃ l, invLStep (blockText v) = some l ∧ l.length = 32 ∧ l = blockText (GrasshopperPkg.invLStep v) ∧
      hexNumber l = some (GrasshopperPkg.invLStep v).toNat := by
  constructor
  · exact ⟨_, invSStep_blockText v, length_blockText _, rfl, hexNumber_blockText _⟩
  · exact ⟨_, invLStep_blockText v, length_blockText _, rfl, hexNumber_blockText _⟩

/-! ## The last round -/

theorem invSStep_sStep : Function.LeftInverse GrasshopperPkg.invSStep sStep := by
  intro v
  apply bytes_injective
  rw [GrasshopperPkg.bytes_invSStep, GrasshopperPkg.bytes_sStep, Kuznyechik.invSstep_sstep]

theorem sStep_invSStep : Function.LeftInverse sStep GrasshopperPkg.invSStep := by
  intro v
  apply bytes_injective
  rw [GrasshopperPkg.bytes_sStep, GrasshopperPkg.bytes_invSStep, Kuznyechik.sstep_invSstep]

theorem invLStep_lStep : Function.LeftInverse GrasshopperPkg.invLStep lStep :=
  GrasshopperPkg.lStep_invLStep.rightInverse_of_injective GrasshopperPkg.lStep_bijective.injective

theorem inverse_eq_iff (y z : Block) :
    GrasshopperPkg.invLStep (GrasshopperPkg.invSStep y) = z ↔ y = sStep (lStep z) := by
  constructor
  · rintro rfl
    rw [GrasshopperPkg.lStep_invLStep, sStep_invSStep]
  · rintro rfl
    rw [invSStep_sStep, invLStep_lStep]

/-- The tenth round key, as the script has it. -/
def lastKey : Block := 0x72E9DD7416BCF45B755DBAA88E4A4043

theorem invLastRound_eq (c k9 : Block) : invLastRound c.toNat k9.toNat =
    some (GrasshopperPkg.invLStep (GrasshopperPkg.invSStep (ARK c lastKey)) ^^^ k9).toNat := by
  have hkey : (0x72E9DD7416BCF45B755DBAA88E4A4043 : Nat) = lastKey.toNat := by decide
  have htext : hexFormat 32 (c.toNat ^^^ lastKey.toNat) = blockText (ARK c lastKey) := by
    rw [blockText, ARK, BitVec.toNat_xor]
  rw [invLastRound, hkey, htext]
  simp only [invSStep_blockText, invLStep_blockText, hexNumber_blockText, Option.bind_eq_bind,
    Option.bind_some, BitVec.toNat_xor]
  rfl

theorem invLastRound_round (x k9 : Block) :
    invLastRound (ARK (GrasshopperPkg.round x k9) lastKey).toNat k9.toNat =
      some (GrasshopperPkg.invLStep (GrasshopperPkg.invSStep (lStep (sStep (x ^^^ k9)))) ^^^ k9).toNat := by
  have hcancel : ARK (ARK (GrasshopperPkg.round x k9) lastKey) lastKey = lStep (sStep (x ^^^ k9)) := by
    rw [ARK, ARK, BitVec.xor_assoc, BitVec.xor_self, BitVec.xor_zero]
    rfl
  rw [invLastRound_eq, hcancel]

/-- The inversion is right exactly where the two layers may be exchanged. -/
theorem invLastRound_round_iff (x k9 : Block) :
    invLastRound (ARK (GrasshopperPkg.round x k9) lastKey).toNat k9.toNat = some x.toNat ↔
      lStep (sStep (x ^^^ k9)) = sStep (lStep (x ^^^ k9)) := by
  have hkey (y : Block) : y ^^^ k9 = x ↔ y = x ^^^ k9 := by
    constructor
    · rintro rfl
      rw [BitVec.xor_assoc, BitVec.xor_self, BitVec.xor_zero]
    · rintro rfl
      rw [BitVec.xor_assoc, BitVec.xor_self, BitVec.xor_zero]
  rw [invLastRound_round, Option.some_inj, ← BitVec.toNat_eq, hkey, inverse_eq_iff]

/-- From the zero state and the zero key. -/
theorem invLastRound_wrong :
    ¬ ∀ x k9 : Block, invLastRound (ARK (GrasshopperPkg.round x k9) lastKey).toNat k9.toNat = some x.toNat := by
  intro hall
  have hzero := hall 0 0
  rw [invLastRound_round, Option.some_inj, ← BitVec.toNat_eq] at hzero
  have hexchange := (inverse_eq_iff _ _).mp (BitVec.xor_zero.symm.trans hzero)
  have hbyte := congrArg (fun v => bytes v 15) hexchange
  simp only [GrasshopperPkg.bytes_lStep, GrasshopperPkg.bytes_sStep] at hbyte
  revert hbyte
  decide +kernel

/-! ## The first round -/

/-- The bytes `first_step(p[i], k[i])` one after the other, two digits each. -/
def firstStepText (p k : Block) : Option (List Char) := do
  let values ← (List.finRange 16).mapM fun i => firstStep (bytes p i).toNat (bytes k i).toNat
  return (values.map (hexFormat 2)).flatten

theorem firstStep_eq (a b : Byte) : firstStep a.toNat b.toNat = some (sbox.get (a ^^^ b)).toNat := by
  have hlt : (a ^^^ b).toNat < sbox.entries.length := sbox.size ▸ (a ^^^ b).isLt
  rw [firstStep, ← BitVec.toNat_xor, List.getElem?_eq_getElem hlt, Table.get, List.getD_eq_getElem _ _ hlt]
  rfl

theorem firstStepText_eq (p k : Block) :
    firstStepText p k = some (hexText fun i => sbox.get (bytes (p ^^^ k) i)) := by
  have hterm (i : Fin 16) : firstStep (bytes p i).toNat (bytes k i).toNat =
      some (sbox.get (bytes (p ^^^ k) i)).toNat := by
    rw [firstStep_eq, bytes_xor]
    rfl
  have hdigits (b : Byte) : hexFormat 2 b.toNat = hexDigits 2 b.toNat := hexFormat_eq (w := 1) b.isLt
  rw [firstStepText, mapM_eq_map hterm]
  simp only [Option.bind_eq_bind, Option.bind_some, List.map_map, Function.comp_def, hdigits, hexText,
    List.ofFn_eq_map]
  rfl

/-- The two S-boxes agree at one byte. -/
theorem sbox_eq_iff (b : Byte) : sbox.get b = sboxArray.get b ↔ b = 0x42 := by
  have hlist : List.zipWith (fun x y => decide (x = y)) sbox.entries sboxArray.entries =
      (List.range 256).map fun n => decide (BitVec.ofNat 8 n = 0x42) := by decide +kernel
  have hb : b.toNat < 256 := b.isLt
  have hx : b.toNat < sbox.entries.length := by rw [sbox.size]; exact hb
  have hy : b.toNat < sboxArray.entries.length := by rw [sboxArray.size]; exact hb
  have hget := congrArg (fun l => l[b.toNat]?) hlist
  simp only [List.getElem?_zipWith, List.getElem?_eq_getElem hx, List.getElem?_eq_getElem hy, List.getElem?_map,
    List.getElem?_range hb, Option.map_some, Option.some_inj, BitVec.ofNat_toNat, BitVec.setWidth_eq] at hget
  rw [Table.get, Table.get, List.getD_eq_getElem _ _ hx, List.getD_eq_getElem _ _ hy, ← decide_eq_decide]
  exact hget

/-- After the linear layer is undone, the text shows the substituted bytes. -/
theorem invLStep_round (p k : Block) :
    invLStep (blockText (GrasshopperPkg.round p k)) = some (blockText (sStep (p ^^^ k))) := by
  rw [invLStep_blockText, GrasshopperPkg.round, invLStep_lStep, ARK]

theorem invLStep_round_eq_iff (p k : Block) :
    invLStep (blockText (GrasshopperPkg.round p k)) = firstStepText p k ↔ ∀ i, bytes (p ^^^ k) i = 0x42 := by
  rw [invLStep_round, firstStepText_eq, blockText_eq, Option.some_inj, hexText_injective.eq_iff,
    GrasshopperPkg.bytes_sStep, funext_iff]
  apply forall_congr'
  intro i
  rw [← sbox_eq_iff]
  exact eq_comm

/-- Hypothesis and device agree exactly if every byte of the key addition is `0x42`. -/
theorem firstRound_iff (p k : Block) :
    (invLStep (blockText (GrasshopperPkg.round p k)) = firstStepText p k ∧
      (invLStep (blockText (GrasshopperPkg.round p k))).bind invSStep = some (blockText (p ^^^ k))) ↔
      p ^^^ k = 0x42424242424242424242424242424242 := by
  have hback : (invLStep (blockText (GrasshopperPkg.round p k))).bind invSStep = some (blockText (p ^^^ k)) := by
    rw [invLStep_round, Option.bind_some, invSStep_blockText, invSStep_sStep]
  have hbytes : bytes 0x42424242424242424242424242424242 = fun _ => 0x42 := by decide
  rw [and_iff_left hback, invLStep_round_eq_iff, ← bytes_injective.eq_iff, hbytes, funext_iff]

/-- From the zero plaintext and the zero key. -/
theorem firstRound_wrong : ¬ ∀ p k : Block, invLStep (blockText (GrasshopperPkg.round p k)) = firstStepText p k ∧
    (invLStep (blockText (GrasshopperPkg.round p k))).bind invSStep = some (blockText (p ^^^ k)) := by
  intro hall
  have hzero := (invLStep_round_eq_iff 0 0).mp (hall 0 0).1 0
  revert hzero
  decide

end KuznyechikDPA.GrasshopperData

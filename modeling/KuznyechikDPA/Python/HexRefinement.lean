import KuznyechikDPA.Hardware.PkgRefinement
import KuznyechikDPA.Python.GrasshopperData

/-!
# The inverse layers of the script

On the text of a block the functions of `grasshopper_data.py` compute what the functions of
the VHDL package compute on the block: a text of two digits a byte never loses a leading zero,
the rows of `mult_mod_poly` are the tables of the package, and moving the text by two digits
moves the bytes by one place.
-/

namespace KuznyechikDPA.GrasshopperData

open GrasshopperPkg
open Kuznyechik (invSstep invRstep invLstep)
set_option maxRecDepth 4000

/-- A block as a text of 32 lower-case digits. -/
def blockText (v : Block) : List Char := hexFormat 32 v.toNat

theorem blockText_eq (v : Block) : blockText v = hexText (bytes v) := by
  have h := hexFormat_ofBytes (n := 15) (bytes v)
  rwa [bytes, ofBytes_toBytes] at h

theorem length_blockText (v : Block) : (blockText v).length = 32 := by
  rw [blockText_eq, length_hexText]

theorem hexNumber_blockText (v : Block) : hexNumber (blockText v) = some v.toNat := by
  rw [blockText_eq, hexNumber_hexText, bytes, ofBytes_toBytes]

/-! ## Tables -/

theorem piInv_get (b : Byte) : piInv.entries[b.toNat]? = some (invSboxArray.get b) := by
  have hsame : piInv.entries = invSboxArray.entries := rfl
  have hlt : b.toNat < invSboxArray.entries.length := invSboxArray.size ▸ b.isLt
  rw [hsame, Table.get, List.getD_eq_getElem _ _ hlt, List.getElem?_eq_getElem hlt]

theorem multModPoly1_get (b : Byte) : multModPoly1.get b = b :=
  Table.get_eq_of_entries (f := id) (by decide +kernel) b

/-- The sixteen products of `ll` are those of the R step. -/
theorem foldl_rows (s : State) :
    (List.finRange 16).foldl (fun v i => v ^^^ (rows i).get (s i)) 0 = linear s := by
  have hunroll : (List.finRange 16).foldl (fun v i => v ^^^ (rows i).get (s i)) 0 =
      0#8 ^^^ lArray5.get (s 0) ^^^ lArray3.get (s 1) ^^^ lArray4.get (s 2) ^^^ lArray2.get (s 3) ^^^
        lArray7.get (s 4) ^^^ lArray6.get (s 5) ^^^ multModPoly1.get (s 6) ^^^ lArray8.get (s 7) ^^^
        multModPoly1.get (s 8) ^^^ lArray6.get (s 9) ^^^ lArray7.get (s 10) ^^^ lArray2.get (s 11) ^^^
        lArray4.get (s 12) ^^^ lArray3.get (s 13) ^^^ lArray5.get (s 14) ^^^
        multModPoly1.get (s 15) := rfl
  rw [hunroll, BitVec.zero_xor]
  simp only [multModPoly1_get]
  rfl

/-! ## Texts of blocks -/

theorem byteSlice_hexText (s : State) (i : Fin 16) :
    byteSlice (hexText s) i = hexDigits 2 (s i).toNat := by
  rw [byteSlice, ← slice_hexText]
  split_ifs with hlast
  · subst hlast
    have hlength : ((hexText s).drop 30).length = 2 := by
      rw [List.length_drop, length_hexText]
    exact (List.take_of_length_le (Nat.le_of_eq hlength)).symm
  · rfl

theorem invSStep_hexText (s : State) : invSStep (hexText s) = some (hexText (invSstep s)) := by
  have hterm (i : Fin 16) : (do
      let index ← hexNumber (byteSlice (hexText s) i)
      let value ← piInv.entries[index]?
      return value.toNat <<< (120 - 8 * i.val) : Option Nat) =
        some ((invSstep s i).toNat <<< (8 * (16 - 1 - i.val))) := by
    have hplace : 120 - 8 * i.val = 8 * (16 - 1 - i.val) := by omega
    simp only [byteSlice_hexText, hexNumber_byte, Option.bind_eq_bind, Option.bind_some, piInv_get,
      hplace]
    rfl
  rw [invSStep, mapM_eq_map hterm, ← List.ofFn_eq_map, Option.bind_eq_bind, Option.bind_some,
    foldl_xor_shifts, Nat.zero_xor]
  exact congrArg some (hexFormat_ofBytes (n := 15) (invSstep s))

theorem ll_hexText (s : State) : ll (hexText s) = some (hexDigits 2 (linear s).toNat) := by
  have hterm (i : Fin 16) : (do
      let index ← hexNumber (byteSlice (hexText s) i)
      return ((rows i).get (BitVec.ofNat 8 index)).toNat : Option Nat) =
        some ((rows i).get (s i)).toNat := by
    simp only [byteSlice_hexText, hexNumber_byte, Option.bind_eq_bind, Option.bind_some,
      BitVec.ofNat_toNat, BitVec.setWidth_eq]
    rfl
  have hfold : (List.finRange 16).foldl (fun n i => n ^^^ ((rows i).get (s i)).toNat) 0 =
      (linear s).toNat := by
    rw [← foldl_rows]
    exact @List.foldl_hom Byte Nat (Fin 16) BitVec.toNat (fun v i => v ^^^ (rows i).get (s i))
      (fun n i => n ^^^ ((rows i).get (s i)).toNat) _ 0 fun v i => (BitVec.toNat_xor v _).symm
  rw [ll, mapM_eq_map hterm, Option.bind_eq_bind, Option.bind_some, List.foldl_map, hfold]
  exact congrArg some (hexFormat_eq (w := 1) (linear s).isLt)

/-- The first byte of a register moves to the end. -/
theorem rotate_hexText (s : State) : (hexText s).drop 2 ++ (hexText s).take 2 =
    hexText fun i => s (i + 1) := by
  have hsnoc : (fun i => s (i + 1)) = (Fin.snoc (fun i : Fin 15 => s i.succ) (s 0) : State) := by
    funext i
    cases i using Fin.lastCases with
    | last =>
      rw [Fin.snoc_last]
      rfl
    | cast i => simp [Fin.coeSucc_eq_succ]
  rw [drop_hexText, take_hexText, hsnoc, hexText_snoc]

theorem invRStep_hexText (s : State) : invRStep (hexText s) = some (hexText (invRstep s)) := by
  have hsnoc : invRstep s =
      (Fin.snoc (fun i : Fin 15 => s i.succ) (linear fun i => s (i + 1)) : State) := by
    funext i
    cases i using Fin.lastCases with
    | last =>
      rw [Fin.snoc_last, linear_eq_feedback]
      exact if_pos rfl
    | cast i =>
      rw [Fin.snoc_castSucc, ← Fin.coeSucc_eq_succ]
      exact if_neg (Fin.castSucc_lt_last i).ne
  rw [invRStep, rotate_hexText, ll_hexText, hsnoc, hexText_snoc, drop_hexText]
  rfl

theorem invLStep_hexText (s : State) : invLStep (hexText s) = some (hexText (invLstep s)) := by
  have hloop (n : Nat) : (List.range n).foldlM (fun ret _ => invRStep ret) (hexText s) =
      some (hexText (invRstep^[n] s)) := by
    induction n with
    | zero => rfl
    | succ n ih =>
      rw [List.range_succ, List.foldlM_append, ih, Function.iterate_succ_apply']
      simp [invRStep_hexText]
  exact hloop 16

/-! ## The package -/

theorem invSStep_blockText (v : Block) :
    invSStep (blockText v) = some (blockText (GrasshopperPkg.invSStep v)) := by
  rw [blockText_eq, blockText_eq, bytes_invSStep, invSStep_hexText]

theorem invLStep_blockText (v : Block) :
    invLStep (blockText v) = some (blockText (GrasshopperPkg.invLStep v)) := by
  rw [blockText_eq, blockText_eq, bytes_invLStep, invLStep_hexText]

end KuznyechikDPA.GrasshopperData

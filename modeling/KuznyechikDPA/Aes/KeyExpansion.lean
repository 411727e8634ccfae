import KuznyechikDPA.Aes.Layers
import Mathlib.Tactic.SplitIfs

/-!
# The words of `keyExp`

The loop of `keyExp` assigns every word once and reads words assigned before, so its result
satisfies the recurrence that its body spells out.
-/

namespace KuznyechikDPA.Aes256Pkg

/-- What the loop body does to `tmp` before the exclusive-or. -/
def keyTransform (i : Nat) (tmp : Word) : Word :=
  if i ∈ [8, 16, 24, 32, 40, 48, 56] then subWord (rotWord tmp) ^^^ rconArray.getD (i / 8) 0
  else if i ∈ [4, 12, 20, 28, 36, 44, 52] then subWord tmp
  else tmp

theorem keyExpStep_apply (subKeys : KeyArray) (i j : Nat) (h : i < subKeys.words.length) :
    keyExpStep subKeys i j =
      if j = i then subKeys (i - 8) ^^^ keyTransform i (subKeys (i - 1)) else subKeys j := by
  have hset (v : Word) : (subKeys.words.set i v).getD j 0 = if j = i then v else subKeys j := by
    rw [List.getD_eq_getElem?_getD, List.getElem?_set]
    by_cases hj : j = i
    · rw [if_pos hj.symm, if_pos hj, if_pos h]
      rfl
    · rw [if_neg (Ne.symm hj), if_neg hj]
      rfl
  exact hset _

theorem length_keyExpStep (subKeys : KeyArray) (i : Nat) :
    (keyExpStep subKeys i).words.length = subKeys.words.length := List.length_set

section Expansion
variable (key_in : BitVec 256)

/-- The array after `n` passes of the loop. -/
def expanded (n : Nat) : KeyArray := (List.range' 8 n).foldl keyExpStep (keyWords key_in)

theorem expanded_succ (n : Nat) : expanded key_in (n + 1) = keyExpStep (expanded key_in n) (8 + n) := by
  rw [expanded, List.range'_concat, List.foldl_append, Nat.one_mul]
  rfl

theorem length_expanded (n : Nat) : (expanded key_in n).words.length = 60 := by
  induction n with
  | zero => simp [expanded, keyWords]
  | succ n ih => rw [expanded_succ, length_keyExpStep, ih]

theorem expanded_succ_apply (n j : Nat) (hn : n < 52) :
    expanded key_in (n + 1) j =
      if j = 8 + n then
        expanded key_in n n ^^^ keyTransform (8 + n) (expanded key_in n (7 + n))
      else expanded key_in n j := by
  have hlength := length_expanded key_in n
  have height : 8 + n - 8 = n := by omega
  have hone : 8 + n - 1 = 7 + n := by omega
  rw [expanded_succ, keyExpStep_apply _ _ _ (by omega), height, hone]

theorem expanded_stable {j n : Nat} (h : j < 8 + n) (m : Nat) (hm : n + m ≤ 52) :
    expanded key_in (n + m) j = expanded key_in n j := by
  induction m with
  | zero => rfl
  | succ m ih =>
    rw [← Nat.add_assoc, expanded_succ_apply key_in (n + m) j (by omega), if_neg (by omega),
      ih (by omega)]

theorem keyExp_apply {j n : Nat} (hn : n ≤ 52) (h : j < 8 + n) :
    keyExp key_in j = expanded key_in n j := by
  have hstable := expanded_stable key_in h (52 - n) (by omega)
  rw [Nat.add_sub_cancel' hn] at hstable
  exact hstable

theorem keyExp_key (i : Nat) (h : i < 8) : keyExp key_in i = key_in.extractLsb' (32 * (7 - i)) 32 := by
  have h60 : i < 60 := by omega
  rw [keyExp_apply key_in (n := 0) (by omega) h]
  simp [expanded, keyWords, h, h60]

/-- Every further word is computed from the word before it and the word eight before it. -/
theorem keyExp_step (i : Nat) (h8 : 8 ≤ i) (h : i < 60) :
    keyExp key_in i = keyExp key_in (i - 8) ^^^ keyTransform i (keyExp key_in (i - 1)) := by
  obtain ⟨n, rfl⟩ : ∃ n, i = 8 + n := ⟨i - 8, by omega⟩
  have height : 8 + n - 8 = n := by omega
  have hone : 8 + n - 1 = 7 + n := by omega
  rw [keyExp_apply key_in (n := n + 1) (by omega) (by omega), expanded_succ_apply key_in n _ (by omega),
    if_pos rfl, height, hone,
    keyExp_apply key_in (n := n) (by omega) (by omega),
    keyExp_apply key_in (n := n) (by omega) (by omega)]

end Expansion

/-! ## What a word determines -/

theorem rotWord_injective : Function.Injective rotWord := by
  intro v w h
  have hhigh := congrArg (fun u : Word => u.extractLsb' 8 24) h
  have hlow := congrArg (fun u : Word => u.extractLsb' 0 8) h
  simp only [rotWord, BitVec.extractLsb'_append_eq_left, BitVec.extractLsb'_append_eq_right] at hhigh hlow
  have hsplit (u : Word) : u.extractLsb' 24 8 ++ u.extractLsb' 0 24 = u :=
    (BitVec.extractLsb'_append_extractLsb'_eq_extractLsb' (Nat.zero_add 24).symm).trans
      BitVec.extractLsb'_eq_self
  rw [← hsplit v, ← hsplit w, hhigh, hlow]

theorem subWord_injective : Function.Injective subWord := by
  intro v w h
  apply toBytes_injective (n := 4)
  funext i
  have hbyte := congrFun (congrArg (toBytes (n := 4)) h) i
  rw [subWord, subWord, toBytes_ofBytes, toBytes_ofBytes] at hbyte
  exact invSboxArray_sboxArray.injective hbyte

theorem keyTransform_injective (i : Nat) : Function.Injective (keyTransform i) := by
  intro v w h
  unfold keyTransform at h
  split_ifs at h
  · exact rotWord_injective (subWord_injective (xor_left_inj'.mp h))
  · exact subWord_injective h
  · exact h

end KuznyechikDPA.Aes256Pkg

import KuznyechikDPA.Hardware.PkgRefinement
import KuznyechikDPA.Firmware.Conformance
import Mathlib.Tactic.SplitIfs

/-!
# The process of `Sub_Key_Schedule.vhd`

A reset starts a run of 34 edges: the first loads the master key, 33 apply `fStep`, and
on four of them the old pair is captured as two round keys. `terminated` is high for the
one period after the edge that follows. The key ports are one function read at
`1, ..., 10`.
-/

namespace KuznyechikDPA.SubKeySchedule

open GrasshopperPkg
set_option maxRecDepth 4000

@[ext] structure Registers where
  index : Nat
  tupleInter : Block × Block
  k : Nat → Block
  terminated : Bool
  cwTrigger : Bool

def Registers.init : Registers where
  index := 35
  tupleInter := (0, 0)
  k := fun _ => 0
  terminated := false
  cwTrigger := false

/-- The branch `reset = '1'`, taken at any time. -/
def reset (s : Registers) : Registers := { s with terminated := false, index := 0, cwTrigger := true }

/-- `masterkey(255 downto 128)` and `masterkey(127 downto 0)`. -/
def halves (masterkey : BitVec 256) : Block × Block :=
  (masterkey.extractLsb' 128 128, masterkey.extractLsb' 0 128)

def store (k : Nat → Block) (i : Nat) (pair : Block × Block) : Nat → Block :=
  Function.update (Function.update k i pair.1) (i + 1) pair.2

/-- The captures at `index` 9, 17, 25 and 33. -/
def capture (index : Nat) (tuple : Block × Block) (k : Nat → Block) : Nat → Block :=
  if index = 9 then store k 3 tuple
  else if index = 17 then store k 5 tuple
  else if index = 25 then store k 7 tuple
  else if index = 33 then store k 9 tuple
  else k

def edge (masterkey : BitVec 256) (s : Registers) : Registers :=
  if s.index < 34 then
    if s.index = 0 then
      { k := store s.k 1 (halves masterkey)
        tupleInter := halves masterkey
        index := s.index + 1
        terminated := false
        cwTrigger := false }
    else
      { k := capture s.index s.tupleInter s.k
        tupleInter := fStep s.tupleInter.1 s.tupleInter.2 (subKeysCi.getD (s.index - 1) 0)
        index := s.index + 1
        terminated := false
        cwTrigger := false }
  else if s.index = 34 then
    { s with terminated := true, index := s.index + 1, cwTrigger := false }
  else { s with terminated := false, cwTrigger := false }

/-! ## The round keys of a master key -/

section Keys
variable (masterkey : BitVec 256)

/-- The pair after `n` applications of `fStep`. -/
def pair : Nat → Block × Block
  | 0 => halves masterkey
  | n + 1 => fStep (pair n).1 (pair n).2 (subKeysCi.getD n 0)

/-- How often `fStep` has been applied to the pair that holds round key `i`. -/
def steps (i : Nat) : Nat := 8 * ((i - 1) / 2)

/-- The keys the ports carry after a complete run; nothing else is ever written. -/
def roundKeys (i : Nat) : Block :=
  if i = 0 ∨ 10 < i then 0
  else if i % 2 = 1 then (pair masterkey (steps i)).1 else (pair masterkey (steps i)).2

/-- The value of `index` at the edge that captures round key `i`. -/
def captureIndex (i : Nat) : Nat := if i ≤ 2 then 0 else steps i + 1

theorem store_apply (k : Nat → Block) (i m : Nat) (tuple : Block × Block) :
    store k (2 * m + 1) tuple i =
      if i = 2 * m + 1 then tuple.1 else if i = 2 * m + 2 then tuple.2 else k i := by
  simp only [store, Function.update_apply]
  split_ifs <;> first | rfl | omega

theorem store_pair (k : Nat → Block) (m : Nat) (hm : m < 5) (i : Nat) :
    store k (2 * m + 1) (pair masterkey (8 * m)) i =
      if i = 2 * m + 1 ∨ i = 2 * m + 2 then roundKeys masterkey i else k i := by
  rw [store_apply]
  split_ifs with h1 h2 h3 h4 h5
  · have hm : (i - 1) / 2 = m := by omega
    rw [roundKeys, if_neg (by omega), if_pos (by omega), steps, hm]
  · omega
  · have hm : (i - 1) / 2 = m := by omega
    rw [roundKeys, if_neg (by omega), if_neg (by omega), steps, hm]
  · omega
  · omega
  · rfl

theorem captureIndex_eq_iff {i m : Nat} (hm : 1 ≤ m) :
    captureIndex i = 8 * m + 1 ↔ i = 2 * m + 1 ∨ i = 2 * m + 2 := by
  by_cases hi : i ≤ 2
  · rw [captureIndex, if_pos hi]
    omega
  · rw [captureIndex, if_neg hi, steps]
    omega

theorem capture_pair (k : Nat → Block) (index : Nat) (h : 1 ≤ index) (i : Nat) (hi : i ≤ 10) :
    capture index (pair masterkey (index - 1)) k i =
      if captureIndex i = index then roundKeys masterkey i else k i := by
  have hstore (m : Nat) (h1 : 1 ≤ m) (h5 : m < 5) :
      store k (2 * m + 1) (pair masterkey (8 * m)) i =
        if captureIndex i = 8 * m + 1 then roundKeys masterkey i else k i := by
    simp only [store_pair masterkey k m h5, captureIndex_eq_iff h1]
  obtain ⟨m, h1, h5, rfl⟩ | hnone : (∃ m, 1 ≤ m ∧ m < 5 ∧ 8 * m + 1 = index) ∨
      (index ≠ 9 ∧ index ≠ 17 ∧ index ≠ 25 ∧ index ≠ 33) := by
    by_cases hm : index % 8 = 1 ∧ 9 ≤ index ∧ index ≤ 33
    · exact .inl ⟨index / 8, by omega, by omega, by omega⟩
    · exact .inr (by omega)
  · rw [← hstore m h1 h5, Nat.add_sub_cancel]
    interval_cases m <;> rfl
  · obtain ⟨h9, h17, h25, h33⟩ := hnone
    have hcap : captureIndex i ≠ index := by
      unfold captureIndex steps
      split_ifs <;> omega
    rw [capture, if_neg h9, if_neg h17, if_neg h25, if_neg h33, if_neg hcap]

theorem store_halves (k : Nat → Block) (i : Nat) (hi : 1 ≤ i) :
    store k 1 (halves masterkey) i =
      if captureIndex i = 0 then roundKeys masterkey i else k i := by
  have hfirst : captureIndex i = 0 ↔ i = 2 * 0 + 1 ∨ i = 2 * 0 + 2 := by
    by_cases h2 : i ≤ 2
    · rw [captureIndex, if_pos h2]
      omega
    · rw [captureIndex, if_neg h2]
      omega
  simp only [hfirst]
  exact store_pair masterkey k 0 (by omega) i

end Keys

/-! ## Runs of the schedule -/

section Invariant
variable (masterkey : BitVec 256)

/-- The pair follows `index`, and so do the keys; a power-up leaves `index` past the schedule. -/
structure Valid (s : Registers) : Prop where
  tuple : 1 ≤ s.index → s.index ≤ 34 → s.tupleInter = pair masterkey (s.index - 1)
  keys : s.index ≤ 34 → ∀ i, 1 ≤ i → i ≤ 10 → captureIndex i < s.index →
    s.k i = roundKeys masterkey i
  others : ∀ i, i = 0 ∨ 10 < i → s.k i = 0
  done : s.terminated = true → s.k = roundKeys masterkey

theorem valid_init : Valid masterkey .init where
  tuple _ h34 := absurd h34 (by simp [Registers.init])
  keys h34 := absurd h34 (by simp [Registers.init])
  others _ _ := rfl
  done hdone := absurd hdone (by simp [Registers.init])

theorem valid_reset {s : Registers} (h : Valid masterkey s) : Valid masterkey (reset s) where
  tuple h1 := absurd h1 (by simp [reset])
  keys _ i _ _ hi := absurd hi (by simp [reset])
  others := h.others
  done h1 := absurd h1 (by simp [reset])

theorem edge_k {s : Registers} (h : Valid masterkey s) (hs : s.index < 34) (i : Nat) (h1 : 1 ≤ i)
    (hi : i ≤ 10) :
    (edge masterkey s).k i =
      if captureIndex i = s.index then roundKeys masterkey i else s.k i := by
  by_cases h0 : s.index = 0
  · rw [edge, if_pos hs, if_pos h0, h0]
    exact store_halves masterkey s.k i h1
  · rw [edge, if_pos hs, if_neg h0]
    simp only [h.tuple (by omega) (by omega)]
    exact capture_pair masterkey s.k s.index (by omega) i hi

theorem edge_k_others {s : Registers} {i : Nat} (hi : i = 0 ∨ 10 < i) :
    (edge masterkey s).k i = s.k i := by
  have hstore (k : Nat → Block) (m : Nat) (hm : m < 5) (tuple : Block × Block) :
      store k (2 * m + 1) tuple i = k i := by
    rw [store_apply, if_neg (by omega), if_neg (by omega)]
  have hcapture (index : Nat) (tuple : Block × Block) (k : Nat → Block) :
      capture index tuple k i = k i := by
    unfold capture
    split_ifs
    · exact hstore k 1 (by omega) tuple
    · exact hstore k 2 (by omega) tuple
    · exact hstore k 3 (by omega) tuple
    · exact hstore k 4 (by omega) tuple
    · rfl
  unfold edge
  split_ifs
  · exact hstore s.k 0 (by omega) _
  · exact hcapture _ _ _
  · rfl
  · rfl

theorem edge_index {s : Registers} (hs : s.index < 34) :
    (edge masterkey s).index = s.index + 1 ∧ (edge masterkey s).terminated = false := by
  by_cases h0 : s.index = 0
  · simp [edge, h0]
  · simp [edge, hs, h0]

theorem edge_tuple {s : Registers} (h : Valid masterkey s) (hs : s.index < 34) :
    (edge masterkey s).tupleInter = pair masterkey s.index := by
  by_cases h0 : s.index = 0
  · simp [edge, h0, pair]
  · obtain ⟨n, hn⟩ : ∃ n, s.index = n + 1 := ⟨s.index - 1, by omega⟩
    rw [edge, if_pos hs, if_neg h0, hn, pair, h.tuple (by omega) (by omega), hn]
    rfl

/-- All round keys stand before the edge that raises `terminated`. -/
theorem keys_complete {s : Registers} (h : Valid masterkey s) (hs : s.index = 34) :
    s.k = roundKeys masterkey := by
  funext i
  by_cases hi : i = 0 ∨ 10 < i
  · rw [h.others i hi, roundKeys, if_pos hi]
  · refine h.keys hs.le i (by omega) (by omega) ?_
    unfold captureIndex steps
    split_ifs <;> omega

theorem valid_edge {s : Registers} (h : Valid masterkey s) : Valid masterkey (edge masterkey s) := by
  rcases lt_trichotomy s.index 34 with hs | hs | hs
  · obtain ⟨hindex, hterm⟩ := edge_index masterkey hs
    refine ⟨?_, ?_, ?_, ?_⟩
    · intro _ _
      rw [edge_tuple masterkey h hs, hindex, Nat.add_sub_cancel]
    · intro _ i h1 hi hcap
      rw [edge_k masterkey h hs i h1 hi]
      split_ifs with heq
      · rfl
      · exact h.keys hs.le i h1 hi (by omega)
    · intro i hi
      rw [edge_k_others masterkey hi, h.others i hi]
    · intro hdone
      rw [hterm] at hdone
      contradiction
  · have hedge : edge masterkey s =
        { s with terminated := true, index := s.index + 1, cwTrigger := false } := by
      rw [edge, if_neg (by omega), if_pos hs]
    have hkeys := keys_complete masterkey h hs
    rw [hedge]
    exact ⟨fun _ h34 => absurd h34 (by simp [hs]), fun h34 => absurd h34 (by simp [hs]), h.others,
      fun _ => hkeys⟩
  · have hedge : edge masterkey s = { s with terminated := false, cwTrigger := false } := by
      rw [edge, if_neg (by omega), if_neg (by omega)]
    rw [hedge]
    exact ⟨h.tuple, h.keys, h.others, fun hdone => absurd hdone (by simp)⟩

/-- Keys that are complete stay so: a later run writes the same values again. -/
theorem ready_edge {s : Registers} (h : Valid masterkey s) (hk : s.k = roundKeys masterkey) :
    (edge masterkey s).k = roundKeys masterkey := by
  funext i
  by_cases hi : i = 0 ∨ 10 < i
  · rw [edge_k_others masterkey hi, hk]
  · by_cases hs : s.index < 34
    · rw [edge_k masterkey h hs i (by omega) (by omega), hk]
      split_ifs <;> rfl
    · have hsame : (edge masterkey s).k = s.k := by
        unfold edge
        split_ifs <;> rfl
      rw [hsame, hk]

end Invariant

/-! ## The schedule of the firmware -/

section Firmware
variable (masterkey : BitVec 256)

/-- The 32 bytes of the master key, most significant first. -/
def keyBytes : Fin 32 → Byte := toBytes (n := 32) masterkey

theorem bytes_extractLsb' (start : Nat) (i : Fin 16) :
    bytes (masterkey.extractLsb' start 128) i =
      masterkey.extractLsb' (start + 8 * (16 - 1 - i)) 8 := by
  apply slice_slice
  omega

theorem bytes_halves :
    (bytes (halves masterkey).1, bytes (halves masterkey).2) =
      Standard.keyPair (keyBytes masterkey) 0 := by
  refine Prod.ext (funext fun i => ?_) (funext fun i => ?_)
  · have hpos : 128 + 8 * (16 - 1 - i.val) = 8 * (32 - 1 - i.val) := by omega
    refine (bytes_extractLsb' masterkey 128 i).trans ?_
    simp only [Standard.keyPair, keyBytes, toBytes, Fin.val_castAdd, hpos]
  · have hpos : 0 + 8 * (16 - 1 - i.val) = 8 * (32 - 1 - (16 + i.val)) := by omega
    refine (bytes_extractLsb' masterkey 0 i).trans ?_
    simp only [Standard.keyPair, keyBytes, toBytes, Fin.val_natAdd, hpos]

theorem bytes_subKeysCi (n : Nat) (hn : n < 32) :
    bytes (subKeysCi.getD n 0) = Standard.iterationConstant (n + 1) := by
  have htable : ∀ n < 32, bytes (subKeysCi.getD n 0) = Kuznyechik.C.getD n 0 := by decide +kernel
  rw [htable n hn, Kuznyechik.C_getD_eq n hn]

theorem bytes_fStep (a1 a0 f_key : Block) :
    (bytes (fStep a1 a0 f_key).1, bytes (fStep a1 a0 f_key).2) =
      Standard.F (bytes f_key) (bytes a1, bytes a0) := by
  rw [fStep, bytes_xor, bytes_lStep, bytes_sStep, ARK, bytes_xor, Standard.F, Standard.X,
    Kuznyechik.lstep_eq_L, Kuznyechik.sstep_eq_S, LawfulXor.xor_comm (bytes a1)]

theorem bytes_pair (n : Nat) (hn : n ≤ 32) :
    (bytes (pair masterkey n).1, bytes (pair masterkey n).2) =
      Standard.keyPair (keyBytes masterkey) n := by
  induction n with
  | zero => exact bytes_halves masterkey
  | succ n ih =>
    rw [pair, bytes_fStep, bytes_subKeysCi n (by omega), ih (by omega), Standard.keyPair]

theorem bytes_roundKeys (g : Kuznyechik.Globals) (round : Nat) (h : round < 10) :
    bytes (roundKeys masterkey (round + 1)) =
      (Kuznyechik.setkey g (keyBytes masterkey)).trueRoundKey round := by
  have hpair := Prod.ext_iff.mp (bytes_pair masterkey (8 * (round / 2)) (by omega))
  rw [Kuznyechik.setkey, Kuznyechik.trueRoundKey_keyExpansion _ g round h, Standard.roundKey,
    roundKeys, if_neg (by omega), steps, Nat.add_sub_cancel]
  by_cases hround : round % 2 = 0
  · rw [if_pos (by omega), if_pos hround]
    exact hpair.1
  · rw [if_neg (by omega), if_neg hround]
    exact hpair.2

end Firmware

end KuznyechikDPA.SubKeySchedule

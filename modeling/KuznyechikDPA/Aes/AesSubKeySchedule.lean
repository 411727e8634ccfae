import KuznyechikDPA.Aes.KeyExpansion
import KuznyechikDPA.Foundation.ResetProcess
import Mathlib.Logic.Function.Basic

/-!
# The process of `AES_Sub_Key_Schedule.vhd`

Eight edges load the master key, then every further word takes three edges, counted by
`indexWasTaken`: load, transform, store. A reset clears `index` and leaves that phase and
`temp` alone, so the ninth word of the next run is computed from what the cut run has left
there. `index` starts at 60 and not past it, so the first edge already signals.
-/

namespace KuznyechikDPA.AesSubKeySchedule

open Aes256Pkg
open ResetProcess (Sample Clocked RunFrom)

/-- `w` has no initial value in the source and is zero in the device. -/
@[ext] structure Registers where
  index : Nat
  temp : Word
  w : Nat → Word
  indexWasTaken : Nat
  k : Nat → Block
  terminated : Bool
  cwTrigger : Bool

def Registers.init : Registers where
  index := 60
  temp := 0
  w := fun _ => 0
  indexWasTaken := 1
  k := fun _ => 0
  terminated := false
  cwTrigger := false

/-- The branch `reset = '1'`, taken at any time. -/
def reset (s : Registers) : Registers := { s with terminated := false, index := 0, cwTrigger := true }

def SWRW (val : Word) (ind : Nat) : Word := subWord (rotWord val) ^^^ rconArray.getD (ind / 8) 0

/-- The words `4 * i`, ..., `4 * i + 3` as one port. -/
def joined (w : Nat → Word) (i : Nat) : Block :=
  w (4 * i) ++ (w (4 * i + 1) ++ (w (4 * i + 2) ++ w (4 * i + 3)))

theorem append_inj {m n : Nat} {a c : BitVec m} {b d : BitVec n} (h : a ++ b = c ++ d) :
    a = c ∧ b = d := by
  have hhigh := congrArg (fun v => v.extractLsb' n m) h
  have hlow := congrArg (fun v => v.extractLsb' 0 n) h
  simp only [BitVec.extractLsb'_append_eq_left, BitVec.extractLsb'_append_eq_right] at hhigh hlow
  exact ⟨hhigh, hlow⟩

theorem joined_words {w w' : Nat → Word} {i : Nat} (h : joined w i = joined w' i) :
    w (4 * i) = w' (4 * i) ∧ w (4 * i + 1) = w' (4 * i + 1) ∧ w (4 * i + 2) = w' (4 * i + 2) ∧
      w (4 * i + 3) = w' (4 * i + 3) := by
  obtain ⟨h0, hrest⟩ := append_inj h
  obtain ⟨h1, hrest⟩ := append_inj hrest
  obtain ⟨h2, h3⟩ := append_inj hrest
  exact ⟨h0, h1, h2, h3⟩

theorem roundKey_eq_joined (subKeys : KeyArray) (i : Nat) :
    roundKey subKeys i = joined (fun j => subKeys j) i := rfl

theorem joined_zero (i : Nat) : joined (fun _ => 0) i = 0 := by
  rw [joined]
  decide

/-- The second of the three edges of a word. -/
def transform (index : Nat) (temp : Word) : Word :=
  if index ∈ [8, 16, 24, 32, 40, 48, 56] then SWRW temp index
  else if index ∈ [12, 20, 28, 36, 44, 52] then subWord temp
  else temp

def edge (masterkey : BitVec 256) (s : Registers) : Registers :=
  if s.index < 8 then
    { s with
      w := Function.update s.w s.index (masterkey.extractLsb' (255 - 32 * s.index - 31) 32)
      index := s.index + 1
      cwTrigger := false }
  else if s.index < 60 then
    if s.indexWasTaken = 1 then
      { s with temp := s.w (s.index - 1), indexWasTaken := 2, cwTrigger := false }
    else if s.indexWasTaken = 2 then
      { s with temp := transform s.index s.temp, indexWasTaken := 3, cwTrigger := false }
    else
      { s with
        w := Function.update s.w s.index (s.w (s.index - 8) ^^^ s.temp)
        index := s.index + 1
        indexWasTaken := 1
        cwTrigger := false }
  else if s.index = 60 then
    { s with
      terminated := true
      k := fun i => if i < 15 then joined s.w i else s.k i
      index := s.index + 1
      cwTrigger := false }
  else { s with terminated := false, cwTrigger := false }

/-- The data of an edge is `masterkey`. -/
def process : ResetProcess (BitVec 256) Registers where
  init := .init
  reset := reset
  edge := edge

/-- `terminated` becomes `'1'` at instant `t`. -/
structure Rises (p : Nat → Sample (BitVec 256)) (t : Nat) : Prop where
  low : (process.run p t).terminated = false
  high : (process.run p (t + 1)).terminated = true

theorem transform_eq {index : Nat} (h : 8 ≤ index) (temp : Word) :
    transform index temp = keyTransform index temp := by
  have h4 : index ∈ [4, 12, 20, 28, 36, 44, 52] ↔ index ∈ [12, 20, 28, 36, 44, 52] := by
    simp only [List.mem_cons, List.not_mem_nil, or_false]
    omega
  rw [transform, keyTransform]
  simp only [h4]
  rfl

/-! ## What the edges of a run compute -/

section Expansion
variable (masterkey : BitVec 256)

/-- What the micro-steps still ahead will add to word `i`. -/
def pendingWord (i : Nat) (s : Registers) : Word :=
  if s.indexWasTaken = 1 then keyTransform i (keyExp masterkey (i - 1))
  else if s.indexWasTaken = 2 then keyTransform i s.temp
  else s.temp

/-- What the ninth word gets in an undisturbed run. -/
def ninthTerm : Word := keyTransform 8 (keyExp masterkey 7)

/-- A run whose ninth word gets `first`: up to there the words are right, and if `first` is
right they all are. -/
structure Expands (first : Word) (s : Registers) : Prop where
  key : ∀ i < 8, i < s.index → s.w i = keyExp masterkey i
  start : s.index ≤ 8 → pendingWord masterkey 8 s = first
  ninth : 8 < s.index → s.w 8 = keyExp masterkey 0 ^^^ first
  words : first = ninthTerm masterkey → ∀ i < 60, i < s.index → s.w i = keyExp masterkey i
  pending : first = ninthTerm masterkey → 8 < s.index → s.index < 60 →
    pendingWord masterkey s.index s = keyTransform s.index (keyExp masterkey (s.index - 1))

theorem expands_reset (s : Registers) : Expands masterkey (pendingWord masterkey 8 s) (reset s) where
  key _ _ hi := absurd hi (Nat.not_lt_zero _)
  start _ := rfl
  ninth h8 := absurd h8 (Nat.not_lt_zero _)
  words _ _ _ hi := absurd hi (Nat.not_lt_zero _)
  pending _ h8 := absurd h8 (Nat.not_lt_zero _)

variable {masterkey} {first : Word} {s : Registers}

theorem keyExp_load {i : Nat} (h : i < 8) :
    masterkey.extractLsb' (255 - 32 * i - 31) 32 = keyExp masterkey i := by
  have hstart : 255 - 32 * i - 31 = 32 * (7 - i) := by omega
  rw [keyExp_key masterkey i h, hstart]

theorem expands_load (h : Expands masterkey first s) (hs : s.index < 8) :
    Expands masterkey first (edge masterkey s) := by
  have hedge : edge masterkey s =
      { s with
        w := Function.update s.w s.index (keyExp masterkey s.index)
        index := s.index + 1
        cwTrigger := false } := by
    rw [edge, if_pos hs, keyExp_load hs]
  have hword (i : Nat) (hi : i < s.index + 1) :
      Function.update s.w s.index (keyExp masterkey s.index) i = keyExp masterkey i := by
    obtain rfl | hlt : i = s.index ∨ i < s.index := by omega
    · rw [Function.update_self]
    · rw [Function.update_of_ne hlt.ne, h.key i (by omega) hlt]
  rw [hedge]
  exact ⟨fun i _ hi => hword i hi, fun _ => h.start hs.le, fun h8 => absurd h8 (by simp only; omega),
    fun _ i _ hi => hword i hi, fun _ h8 => absurd h8 (by simp only; omega)⟩

/-- The first two edges of a word keep what it will get, in a run that is right so far. -/
theorem pendingWord_edge (h8 : 8 ≤ s.index) (h60 : s.index < 60) (hphase : s.indexWasTaken = 1 ∨ s.indexWasTaken = 2)
    (hw : s.w (s.index - 1) = keyExp masterkey (s.index - 1)) :
    pendingWord masterkey s.index (edge masterkey s) = pendingWord masterkey s.index s := by
  rcases hphase with h1 | h2
  · simp [edge, pendingWord, h1, h60, Nat.not_lt.mpr h8, hw]
  · simp [edge, pendingWord, h2, h60, Nat.not_lt.mpr h8, transform_eq h8]

theorem expands_micro (h : Expands masterkey first s) (h8 : 8 ≤ s.index) (h60 : s.index < 60)
    (hphase : s.indexWasTaken = 1 ∨ s.indexWasTaken = 2) :
    Expands masterkey first (edge masterkey s) := by
  have hsame : (edge masterkey s).w = s.w ∧ (edge masterkey s).index = s.index := by
    rcases hphase with h1 | h2
    · simp [edge, h1, h60, Nat.not_lt.mpr h8]
    · simp [edge, h2, h60, Nat.not_lt.mpr h8]
  obtain ⟨hw, hindex⟩ := hsame
  refine ⟨?_, ?_, ?_, ?_, ?_⟩
  · rw [hw, hindex]
    exact h.key
  · rw [hindex]
    intro hle
    have heq : s.index = 8 := by omega
    have hkeep := pendingWord_edge h8 h60 hphase (h.key _ (by omega) (by omega))
    rw [heq] at hkeep
    rw [hkeep, h.start hle]
  · rw [hw, hindex]
    exact h.ninth
  · rw [hw, hindex]
    exact h.words
  · rw [hindex]
    intro hright hlt hlt60
    rw [pendingWord_edge h8 h60 hphase (h.words hright _ (by omega) (by omega)),
      h.pending hright hlt hlt60]

theorem expands_store (h : Expands masterkey first s) (h8 : 8 ≤ s.index) (h60 : s.index < 60)
    (hphase : ¬ (s.indexWasTaken = 1 ∨ s.indexWasTaken = 2)) :
    Expands masterkey first (edge masterkey s) := by
  obtain ⟨h1, h2⟩ := not_or.mp hphase
  have hedge : edge masterkey s =
      { s with
        w := Function.update s.w s.index (s.w (s.index - 8) ^^^ s.temp)
        index := s.index + 1
        indexWasTaken := 1
        cwTrigger := false } := by
    simp [edge, h1, h2, h60, Nat.not_lt.mpr h8]
  have hpending (i : Nat) : pendingWord masterkey i s = s.temp := by
    simp [pendingWord, h1, h2]
  -- the word stored is the next one of the recurrence
  have hnew (hright : first = ninthTerm masterkey) :
      s.w (s.index - 8) ^^^ s.temp = keyExp masterkey s.index := by
    have hold := h.words hright (s.index - 8) (by omega) (by omega)
    have htemp : s.temp = keyTransform s.index (keyExp masterkey (s.index - 1)) := by
      obtain heq | hlt : s.index = 8 ∨ 8 < s.index := by omega
      · rw [← hpending 8, h.start heq.le, hright, heq, ninthTerm]
      · rw [← hpending s.index, h.pending hright hlt h60]
    rw [hold, htemp, keyExp_step masterkey s.index h8 h60]
  rw [hedge]
  refine ⟨fun i hi hlt => ?_, fun hle => absurd hle (by simp only; omega), fun _ => ?_,
    fun hright i hi hlt => ?_, fun _ _ _ => rfl⟩
  · have hne : i ≠ s.index := by omega
    simp only [Function.update_of_ne hne]
    exact h.key i hi (by omega)
  · obtain heq | hlt : s.index = 8 ∨ 8 < s.index := by omega
    · simp only [heq, Function.update_self]
      rw [h.key 0 (by omega) (by omega), ← hpending 8, h.start heq.le]
    · simp only [Function.update_of_ne hlt.ne]
      exact h.ninth hlt
  · obtain rfl | hlt' : i = s.index ∨ i < s.index := by
      simp only at hlt
      omega
    · simp only [Function.update_self]
      exact hnew hright
    · simp only [Function.update_of_ne hlt'.ne]
      exact h.words hright i hi hlt'

theorem expands_rest (h : Expands masterkey first s) (h60 : 60 ≤ s.index) :
    Expands masterkey first (edge masterkey s) := by
  have hsame : (edge masterkey s).w = s.w ∧ s.index ≤ (edge masterkey s).index := by
    have h8 : ¬ s.index < 8 := by omega
    by_cases heq : s.index = 60
    · simp [edge, heq]
    · simp [edge, h8, Nat.not_lt.mpr h60, heq]
  obtain ⟨hw, hindex⟩ := hsame
  refine ⟨fun i hi _ => ?_, fun hle => by omega, fun _ => ?_, fun hright i hi _ => ?_,
    fun _ _ hlt => by omega⟩
  · rw [hw, h.key i hi (by omega)]
  · rw [hw, h.ninth (by omega)]
  · rw [hw, h.words hright i hi (by omega)]

theorem expands_edge (h : Expands masterkey first s) : Expands masterkey first (edge masterkey s) := by
  obtain hs | ⟨h8, h60⟩ | h60 : s.index < 8 ∨ (8 ≤ s.index ∧ s.index < 60) ∨ 60 ≤ s.index := by omega
  · exact expands_load h hs
  · by_cases hphase : s.indexWasTaken = 1 ∨ s.indexWasTaken = 2
    · exact expands_micro h h8 h60 hphase
    · exact expands_store h h8 h60 hphase
  · exact expands_rest h h60

/-- The ports of a complete run are right exactly if the ninth word got the right term. -/
theorem joined_eq_iff (h : Expands masterkey first s) (hs : s.index = 60) :
    (∀ i < 15, joined s.w i = roundKey (keyExp masterkey) i) ↔ first = ninthTerm masterkey := by
  constructor
  · intro hall
    have hport := (joined_words ((hall 2 (by omega)).trans (roundKey_eq_joined _ 2))).1
    have hninth := h.ninth (by omega)
    have hstep := keyExp_step masterkey 8 (by omega) (by omega)
    have hterm : keyExp masterkey 0 ^^^ first = keyExp masterkey 0 ^^^ ninthTerm masterkey :=
      hninth.symm.trans (hport.trans hstep)
    rw [BitVec.xor_comm _ first, BitVec.xor_comm _ (ninthTerm masterkey)] at hterm
    exact xor_left_inj'.mp hterm
  · intro hright i hi
    have hword (j : Nat) (hj : j < 60) : s.w j = keyExp masterkey j :=
      h.words hright j hj (by omega)
    rw [joined, roundKey, hword _ (by omega), hword _ (by omega), hword _ (by omega),
      hword _ (by omega)]

end Expansion

/-! ## Runs -/

/-- The phase counter stays in its range. -/
def PhaseInRange (s : Registers) : Prop :=
  s.indexWasTaken = 1 ∨ s.indexWasTaken = 2 ∨ s.indexWasTaken = 3

/-- What a reset may find: no word under way, or one whose `temp` already holds what the
ninth word of the new run needs. -/
def CleanRestart (masterkey : BitVec 256) (s : Registers) : Prop :=
  s.indexWasTaken = 1 ∨
    (s.indexWasTaken = 2 ∧ s.temp = masterkey.extractLsb' 0 32) ∨
    (s.indexWasTaken = 3 ∧ s.temp = SWRW (masterkey.extractLsb' 0 32) 8)

theorem phaseInRange_edge (masterkey : BitVec 256) {s : Registers} (h : PhaseInRange s) :
    PhaseInRange (edge masterkey s) := by
  unfold edge
  split_ifs
  · exact h
  · exact .inr (.inl rfl)
  · exact .inr (.inr rfl)
  · exact .inl rfl
  · exact h
  · exact h

theorem phaseInRange_run (p : Nat → Sample (BitVec 256)) (t : Nat) :
    PhaseInRange (process.run p t) :=
  ResetProcess.run_invariant (I := PhaseInRange) (.inl rfl) (fun _ h => h)
    (fun masterkey _ h => phaseInRange_edge masterkey h) t

theorem pendingWord_eq_iff (masterkey : BitVec 256) {s : Registers} (h : PhaseInRange s) :
    pendingWord masterkey 8 s = ninthTerm masterkey ↔ CleanRestart masterkey s := by
  have hninth : ninthTerm masterkey = keyTransform 8 (masterkey.extractLsb' 0 32) :=
    congrArg (keyTransform 8) (keyExp_key masterkey 7 (by omega))
  have hSWRW (v : Word) : SWRW v 8 = keyTransform 8 v := rfl
  rcases h with h1 | h2 | h3
  · have hpending : pendingWord masterkey 8 s = ninthTerm masterkey := by
      rw [pendingWord, if_pos h1, ninthTerm]
    simp [CleanRestart, h1, hpending]
  · have hpending : pendingWord masterkey 8 s = keyTransform 8 s.temp := by simp [pendingWord, h2]
    rw [hpending, hninth, (keyTransform_injective 8).eq_iff]
    simp [CleanRestart, h2]
  · have hpending : pendingWord masterkey 8 s = s.temp := by simp [pendingWord, h3]
    rw [hpending, hninth]
    simp [CleanRestart, h3, hSWRW]

section Runs
variable {masterkey : BitVec 256} {p : Nat → Sample (BitVec 256)} {r t : Nat}

theorem edge_terminated {s : Registers} :
    (edge masterkey s).terminated = true → s.index = 60 ∨ (s.index < 60 ∧ s.terminated = true) := by
  intro h
  unfold edge at h
  split_ifs at h with h8 h60 h1 h2 heq
  · exact .inr ⟨by omega, h⟩
  · exact .inr ⟨h60, h⟩
  · exact .inr ⟨h60, h⟩
  · exact .inr ⟨h60, h⟩
  · exact .inl heq

theorem clocked_of_rises (h : Rises p t) : Clocked p t ∧ (process.run p t).index = 60 := by
  obtain ⟨hlow, hhigh⟩ := h
  obtain ⟨hclock, hterm⟩ :=
    ResetProcess.clocked_of_rise (f := Registers.terminated) (fun _ => rfl) hlow hhigh
  rcases edge_terminated hterm with h60 | ⟨-, hstill⟩
  · exact ⟨hclock, h60⟩
  · rw [hlow] at hstill
    contradiction

theorem ports_of_rises (h : Rises p t) {i : Nat} (hi : i < 15) :
    (process.run p (t + 1)).k i = joined (process.run p t).w i := by
  obtain ⟨hclock, h60⟩ := clocked_of_rises h
  have hedge (masterkey : BitVec 256) {s : Registers} (hs : s.index = 60) :
      (edge masterkey s).k i = joined s.w i := by
    simp [edge, hs, hi]
  rw [ResetProcess.run_edge hclock]
  exact hedge (p t).data h60

theorem expands_run (hkey : ∀ t, (p t).data = masterkey) (h : ResetProcess.RunFrom p r t) (hr : r < t) :
    Expands masterkey (pendingWord masterkey 8 (process.run p r)) (process.run p t) := by
  refine h.invariant (I := fun _ => Expands masterkey (pendingWord masterkey 8 (process.run p r)))
    (expands_reset masterkey _) (fun _ _ _ hnow => hnow) (fun u _ _ _ hnow => ?_) hr le_rfl
  rw [hkey u]
  exact expands_edge hnow

/-- Before the first reset the words are zero, and at most one edge has found `index = 60`. -/
structure Unset (s : Registers) : Prop where
  index : 60 ≤ s.index
  w : ∀ i, s.w i = 0

theorem unset_edge (masterkey : BitVec 256) {s : Registers} (h : Unset s) :
    Unset (edge masterkey s) := by
  have h8 : ¬ s.index < 8 := by have := h.index; omega
  have h60 : ¬ s.index < 60 := by have := h.index; omega
  rw [edge, if_neg h8, if_neg h60]
  split_ifs with heq
  · exact ⟨by simp only; omega, h.w⟩
  · exact ⟨h.index, h.w⟩

/-- No master key expands to zero words. -/
theorem roundKey_ne_zero (masterkey : BitVec 256) :
    ¬ ∀ i < 15, roundKey (keyExp masterkey) i = 0 := by
  intro hall
  have hwords (i : Nat) (hi : i < 15) := joined_words
    ((roundKey_eq_joined _ i).symm.trans ((hall i hi).trans (joined_zero i).symm))
  have h0 : keyExp masterkey 0 = 0 := (hwords 0 (by omega)).1
  have h7 : keyExp masterkey 7 = 0 := (hwords 1 (by omega)).2.2.2
  have h8 : keyExp masterkey 8 = 0 := (hwords 2 (by omega)).1
  have hstep := keyExp_step masterkey 8 (by omega) (by omega)
  rw [h8, h0, h7] at hstep
  exact absurd hstep (by decide)

/-- At every rise of `terminated` the ports are the words of `keyExp`, four by four, exactly
if there has been a reset and the last one has not cut a word that the new run would finish. -/
theorem keys_eq_keyExp_iff (hkey : ∀ t, (p t).data = masterkey) (h : Rises p t) :
    (∀ i < 15, (process.run p (t + 1)).k i = roundKey (keyExp masterkey) i) ↔
      ∃ r < t, RunFrom p r (t + 1) ∧ CleanRestart masterkey (process.run p r) := by
  obtain ⟨hclock, h60⟩ := clocked_of_rises h
  have hports : (∀ i < 15, (process.run p (t + 1)).k i = roundKey (keyExp masterkey) i) ↔
      ∀ i < 15, joined (process.run p t).w i = roundKey (keyExp masterkey) i :=
    forall₂_congr fun i hi => by rw [ports_of_rises h hi]
  have hrun {r : Nat} (hr : r < t) (hrun : RunFrom p r t) :
      (∀ i < 15, joined (process.run p t).w i = roundKey (keyExp masterkey) i) ↔
        CleanRestart masterkey (process.run p r) :=
    (joined_eq_iff (expands_run hkey hrun hr) h60).trans
      (pendingWord_eq_iff masterkey (phaseInRange_run p r))
  rw [hports]
  constructor
  · intro hright
    obtain hunset | ⟨r, hr, hfrom⟩ := ResetProcess.exists_runFrom (P := process) (p := p) (I := Unset)
      ⟨le_rfl, fun _ => rfl⟩ (fun masterkey _ => unset_edge masterkey) t
    · refine absurd (fun i hi => ?_) (roundKey_ne_zero masterkey)
      rw [← hright i hi, joined, hunset.w, hunset.w, hunset.w, hunset.w]
      rfl
    · exact ⟨r, hr, hfrom.extend hclock.reset, (hrun hr hfrom).mp hright⟩
  · rintro ⟨r, hr, hfrom, hclean⟩
    exact (hrun hr (hfrom.shorten (by omega))).mpr hclean

end Runs

/-- With a stable master key the ports are right at every rise of `terminated` exactly if
every rise is that of a run whose reset was clean. -/
theorem keys_under_restarts_iff (masterkey : BitVec 256) (p : Nat → Sample (BitVec 256))
    (hkey : ∀ t, (p t).data = masterkey) :
    (∀ t, Rises p t → ∀ i < 15, (process.run p (t + 1)).k i = roundKey (keyExp masterkey) i) ↔
      ∀ t, Rises p t → ∃ r < t, RunFrom p r (t + 1) ∧ CleanRestart masterkey (process.run p r) :=
  forall₂_congr fun _ h => keys_eq_keyExp_iff hkey h

/-- The zero key, a reset at instant 0, and another one at instant 13, between the first and
the second edge of word 9. -/
def cutInput (t : Nat) : Sample (BitVec 256) where
  reset := t == 0 || t == 13
  rising := true
  data := 0

theorem rises_cutInput : Rises cutInput 177 := by
  constructor
  · decide +kernel
  · decide +kernel

theorem cutInput_not_clean :
    ¬ ∃ r < 177, RunFrom cutInput r 178 ∧ CleanRestart 0 (process.run cutInput r) := by
  rintro ⟨r, hr, hrun, hclean⟩
  have hreset : r = 0 ∨ r = 13 := by simpa [cutInput] using hrun.reset
  rcases hreset with rfl | rfl
  · have hquiet := hrun.quiet 13 (by omega) (by omega)
    contradiction
  · have hphase : (process.run cutInput 13).indexWasTaken = 2 := by decide +kernel
    have htemp : (process.run cutInput 13).temp ≠ 0 := by decide +kernel
    rcases hclean with h1 | ⟨-, hlast⟩ | ⟨h3, -⟩
    · omega
    · exact htemp hlast
    · omega

theorem keys_under_restarts_iff_cut :
    ¬ ∀ t, Rises cutInput t →
      ∀ i < 15, (process.run cutInput (t + 1)).k i = roundKey (keyExp 0) i := by
  intro hall
  have hiff := keys_under_restarts_iff 0 cutInput fun _ => rfl
  exact cutInput_not_clean (hiff.mp hall 177 rises_cutInput)

/-- After the second reset word 8 is computed from what word 9 has left in `temp`. -/
theorem cut_expansion_wrong :
    ¬ ∀ (masterkey : BitVec 256) (p : Nat → Sample (BitVec 256)), (∀ t, (p t).data = masterkey) →
      ∀ t, Rises p t →
        ∀ i < 15, (process.run p (t + 1)).k i = roundKey (keyExp masterkey) i := by
  intro hall
  have hkey (t : Nat) : (cutInput t).data = 0 := rfl
  have hright := hall 0 cutInput hkey 177 rises_cutInput
  exact cutInput_not_clean ((keys_eq_keyExp_iff hkey rises_cutInput).mp hright)

end KuznyechikDPA.AesSubKeySchedule

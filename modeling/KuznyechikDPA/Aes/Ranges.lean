import KuznyechikDPA.Aes.AesSubKeySchedule
import KuznyechikDPA.Aes.EncryptionMasked
import KuznyechikDPA.Foundation.Checked

/-!
# Declared ranges of the AES design

`index` of the key schedule is declared `0 to 60`, and the edge that finds 60 signals the end
and assigns 61. That edge ends every complete expansion, and it is also the first one after
power-up; nothing else leaves its range.
-/

namespace KuznyechikDPA

/-! ## The key schedule -/

namespace AesSubKeySchedule

open Aes256Pkg
open ResetProcess (Sample Clocked)

structure InRange (s : Registers) : Prop where
  index : (s.index : Int) ≤ 60
  phase : 1 ≤ (s.indexWasTaken : Int) ∧ (s.indexWasTaken : Int) ≤ 3

/-- `SWRW`, whose parameter and variable `indice` have ranges of their own. -/
def checkedSWRW (val : Word) (ind : Int) : Option Word := do
  let ind ← check 0 60 ind
  let indice ← check 0 60 (ind / 8)
  let i ← check 0 15 indice
  return subWord (rotWord val) ^^^ rconArray.getD i 0

def checkedTransform (index : Nat) (temp : Word) : Option Word :=
  if index ∈ [8, 16, 24, 32, 40, 48, 56] then checkedSWRW temp index
  else if index ∈ [12, 20, 28, 36, 44, 52] then some (subWord temp)
  else some temp

def checkedEdge (masterkey : BitVec 256) (s : Registers) : Option Registers :=
  if s.index < 8 then do
    let i ← check 0 59 s.index
    let _ ← check 0 255 (255 - 32 * s.index)
    let low ← check 0 255 (255 - 32 * s.index - 31)
    let index ← check 0 60 (s.index + 1)
    return { s with
      w := Function.update s.w i (masterkey.extractLsb' low 32)
      index := index
      cwTrigger := false }
  else if s.index < 60 then
    if s.indexWasTaken = 1 then do
      let i ← check 0 59 (s.index - 1)
      let indexWasTaken ← check 1 3 2
      return { s with temp := s.w i, indexWasTaken := indexWasTaken, cwTrigger := false }
    else if s.indexWasTaken = 2 then do
      let temp ← checkedTransform s.index s.temp
      let indexWasTaken ← check 1 3 3
      return { s with temp := temp, indexWasTaken := indexWasTaken, cwTrigger := false }
    else do
      let i ← check 0 59 s.index
      let j ← check 0 59 (s.index - 8)
      let index ← check 0 60 (s.index + 1)
      let indexWasTaken ← check 1 3 1
      return { s with
        w := Function.update s.w i (s.w j ^^^ s.temp)
        index := index
        indexWasTaken := indexWasTaken
        cwTrigger := false }
  else if s.index = 60 then do
    let index ← check 0 60 (s.index + 1)
    return { edge masterkey s with index := index }
  else return edge masterkey s

theorem checkedTransform_eq {index : Nat} (h : index < 60) (temp : Word) :
    checkedTransform index temp = some (transform index temp) := by
  obtain ⟨hparam, -⟩ := check_eq (a := 0) (b := 60) (v := index) (n := index) rfl (by omega) (by omega)
  obtain ⟨hvar, -⟩ := check_eq (a := 0) (b := 60) (v := (index : Int) / 8) (n := index / 8)
    (by omega) (by omega) (by omega)
  obtain ⟨hrcon, -⟩ := check_eq (a := 0) (b := 15) (v := (index / 8 : Nat)) (n := index / 8)
    rfl (by omega) (by omega)
  unfold checkedTransform transform
  split_ifs
  · simp only [checkedSWRW, hparam, hvar, hrcon, Option.bind_eq_bind, Option.bind_some]
    rfl
  · rfl
  · rfl

/-- Below 60 every edge passes all checks. -/
theorem checkedEdge_eq (masterkey : BitVec 256) {s : Registers} (h : InRange s) (hne : s.index ≠ 60) :
    checkedEdge masterkey s = some (edge masterkey s) ∧ InRange (edge masterkey s) := by
  obtain ⟨hindex, hphase⟩ := h
  obtain ⟨hword, -⟩ := check_eq (a := 0) (b := 59) (v := s.index) (n := s.index) rfl (by omega) (by omega)
  obtain ⟨hnext, hnext'⟩ := check_eq (a := 0) (b := 60) (v := s.index + 1) (n := s.index + 1)
    rfl (by omega) (by omega)
  have hone : check 1 3 1 = some 1 := rfl
  have htwo : check 1 3 2 = some 2 := rfl
  have hthree : check 1 3 3 = some 3 := rfl
  have hone' : 1 ≤ ((1 : Nat) : Int) ∧ ((1 : Nat) : Int) ≤ 3 := by omega
  have htwo' : 1 ≤ ((2 : Nat) : Int) ∧ ((2 : Nat) : Int) ≤ 3 := by omega
  have hthree' : 1 ≤ ((3 : Nat) : Int) ∧ ((3 : Nat) : Int) ≤ 3 := by omega
  unfold checkedEdge edge
  split_ifs with hkey hlow h1 h2
  · obtain ⟨hhigh, -⟩ := check_eq (a := 0) (b := 255) (v := 255 - 32 * s.index) (n := 255 - 32 * s.index)
      (by omega) (by omega) (by omega)
    obtain ⟨hend, -⟩ := check_eq (a := 0) (b := 255) (v := 255 - 32 * s.index - 31)
      (n := 255 - 32 * s.index - 31) (by omega) (by omega) (by omega)
    rw [hword, hhigh, hend, hnext]
    exact ⟨rfl, hnext', hphase⟩
  · obtain ⟨hprev, -⟩ := check_eq (a := 0) (b := 59) (v := s.index - 1) (n := s.index - 1)
      (by omega) (by omega) (by omega)
    rw [hprev, htwo]
    exact ⟨rfl, hindex, htwo'⟩
  · rw [checkedTransform_eq hlow, hthree]
    exact ⟨rfl, hindex, hthree'⟩
  · obtain ⟨hback, -⟩ := check_eq (a := 0) (b := 59) (v := s.index - 8) (n := s.index - 8)
      (by omega) (by omega) (by omega)
    rw [hword, hback, hnext, hone]
    exact ⟨rfl, hnext', hone'⟩
  · omega

/-- The signalling edge assigns 61. -/
theorem checkedEdge_last (masterkey : BitVec 256) {s : Registers} (h : s.index = 60) :
    checkedEdge masterkey s = none := by
  have hout : check 0 60 (s.index + 1) = none := check_eq_none (by omega)
  rw [checkedEdge, if_neg (by omega), if_neg (by omega), if_pos h, hout]
  rfl

theorem safeOn_iff (p : Nat → Sample (BitVec 256)) : process.SafeOn checkedEdge InRange p ↔
    ∀ t, Clocked p t → (process.run p t).index ≠ 60 :=
  ResetProcess.safeOn_iff (P := process) (Q := fun _ s => s.index ≠ 60) ⟨le_rfl, by decide⟩
    (fun _ h => ⟨Int.natCast_nonneg 60, h.phase⟩) (fun key _ h hne => checkedEdge_eq key h hne)
    (fun key _ _ hlast => checkedEdge_last key (not_not.mp hlast)) p

end AesSubKeySchedule

/-! ## The encryption -/

namespace Aes256EncryptionMasked

open Aes256Pkg
open ResetProcess (Sample)

def process : ResetProcess Ports Registers where
  init := .init
  reset := reset
  edge := edge

def InRange (s : Registers) : Prop := (s.tour : Int) ≤ 16

def checkedEdge (p : Ports) (s : Registers) : Option Registers :=
  if p.encDecSel = false then
    if s.tour = 0 then return edge p s
    else if s.tour < 14 then do
      let i ← check 0 14 s.tour
      let tour ← check 0 16 (s.tour + 1)
      return { s with
        interState := maskedRound s.interState (p.subKeys i) s.interMask
        interMask := maskOperation s.interMask
        tour := tour }
    else if s.tour = 14 then do
      let tour ← check 0 16 (s.tour + 1)
      return { edge p s with tour := tour }
    else return edge p s
  else
    if s.tour = 0 then return edge p s
    else if s.tour < 14 then do
      let i ← check 0 14 (14 - s.tour)
      let tour ← check 0 16 (s.tour + 1)
      return { s with
        interState := invMaskedRound s.interState (p.subKeys i) s.interMask
        interMask := invMaskOperation s.interMask
        tour := tour }
    else if s.tour = 14 then do
      let tour ← check 0 16 (s.tour + 1)
      return { edge p s with tour := tour }
    else return edge p s

theorem inRange_edge (p : Ports) {s : Registers} (h : InRange s) : InRange (edge p s) := by
  unfold InRange at h ⊢
  have hfinish : ((finish p s).tour : Int) ≤ 16 := by
    unfold finish
    split_ifs
    · exact h
    · exact Int.ofNat_le.mpr (Nat.zero_le 16)
  obtain hlow | hlast : s.tour ≤ 15 ∨ s.tour = 16 := by omega
  · have htour := tour_edge p s hlow
    omega
  · cases hsel : p.encDecSel with
    | false => simpa [edge, hsel, hlast] using hfinish
    | true => simp [edge, hsel, hlast]

theorem checkedEdge_eq (p : Ports) {s : Registers} (h : InRange s) :
    checkedEdge p s = some (edge p s) ∧ InRange (edge p s) := by
  have hnext (hle : s.tour ≤ 14) : check 0 16 (s.tour + 1) = some (s.tour + 1) :=
    (check_eq (n := s.tour + 1) rfl (by omega) (by omega)).1
  have hkey (hle : s.tour ≤ 14) : check 0 14 s.tour = some s.tour :=
    (check_eq rfl (by omega) (by omega)).1
  have hback (hle : s.tour ≤ 14) : check 0 14 (14 - s.tour) = some (14 - s.tour) :=
    (check_eq (by omega) (by omega) (by omega)).1
  refine ⟨?_, inRange_edge p h⟩
  unfold checkedEdge
  split_ifs with hmode hzero hlow hlast hzero hlow hlast
  · rfl
  · rw [hkey (by omega), hnext (by omega), edge, if_pos hmode, if_neg hzero, if_pos hlow]
    rfl
  · rw [hnext (by omega), edge, if_pos hmode, if_neg hzero, if_neg hlow, if_pos hlast]
    rfl
  · rfl
  · rfl
  · rw [hback (by omega), hnext (by omega), edge, if_neg hmode, if_neg hzero, if_pos hlow]
    rfl
  · rw [hnext (by omega), edge, if_neg hmode, if_neg hzero, if_neg hlow, if_pos hlast]
    rfl
  · rfl

theorem safeOn (p : Nat → Sample Ports) : process.SafeOn checkedEdge InRange p :=
  ResetProcess.safeOn_of_edges (P := process) (Int.ofNat_le.mpr (Nat.zero_le 16))
    (fun _ _ => Int.ofNat_le.mpr (Nat.zero_le 16)) (fun p _ h => checkedEdge_eq p h) p

end Aes256EncryptionMasked

/-! ## Both processes -/

namespace AesSubKeySchedule

open ResetProcess (Sample Clocked)

/-- The design keeps its ranges exactly as long as no edge of the schedule finds `index = 60`. -/
theorem aes_ranges_safe_iff (p : Nat → Sample (BitVec 256)) (q : Nat → Sample Aes256EncryptionMasked.Ports) :
    (process.SafeOn checkedEdge InRange p ∧
      Aes256EncryptionMasked.process.SafeOn Aes256EncryptionMasked.checkedEdge
        Aes256EncryptionMasked.InRange q) ↔
      ∀ t, Clocked p t → (process.run p t).index ≠ 60 := by
  rw [and_iff_left (Aes256EncryptionMasked.safeOn q)]
  exact safeOn_iff p

/-- The first edge after power-up leaves the range. -/
theorem aes_ranges_unsafe : ¬ process.SafeOn checkedEdge InRange fun _ => ⟨false, true, 0⟩ := by
  intro hsafe
  have hfirst := (hsafe 1).1
  have hstop : checkedEdge 0 process.init = none := checkedEdge_last 0 rfl
  have hnone : Machine.checkedRun (process.step? checkedEdge) process.init (fun _ => ⟨false, true, 0⟩) 1 =
      none := hstop
  rw [hnone] at hfirst
  contradiction

end AesSubKeySchedule
end KuznyechikDPA

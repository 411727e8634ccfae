import KuznyechikDPA.Foundation.ResetProcess
import KuznyechikDPA.Hardware.Core

/-!
# The Kuznyechik key schedule under restarts

`reset` of `Sub_Key_Schedule` is the pulse `full_data`, which may come at any instant, and
the master key is sampled at the edge that finds `index = 0`. Whatever a cut run has left
behind, the keys under `terminated` are those of the master key its own run has sampled.
-/

namespace KuznyechikDPA.SubKeySchedule

open ResetProcess (Sample Clocked RunFrom)

/-- The process of `Sub_Key_Schedule`; the data of an edge is `masterkey`. -/
def process : ResetProcess (BitVec 256) Registers where
  init := .init
  reset := reset
  edge := edge

/-- At instant `t` the clocked branch is taken with `index = n`. -/
structure EdgeAt (p : Nat → Sample (BitVec 256)) (n t : Nat) : Prop where
  clocked : Clocked p t
  index : (process.run p t).index = n

/-- `terminated` becomes `'1'` at instant `t`. -/
structure Rises (p : Nat → Sample (BitVec 256)) (t : Nat) : Prop where
  low : (process.run p t).terminated = false
  high : (process.run p (t + 1)).terminated = true

/-! ## One edge -/

section Edge

/-- `index` stays in its range, and `terminated` is high past the schedule only. -/
structure InRange (s : Registers) : Prop where
  index : s.index ≤ 35
  done : s.terminated = true → s.index = 35

theorem index_edge (masterkey : BitVec 256) {s : Registers} (hs : s.index ≤ 35) :
    (edge masterkey s).index = min (s.index + 1) 35 ∧
      ((edge masterkey s).terminated = true ↔ s.index = 34) := by
  obtain hlow | hlast | hidle : s.index < 34 ∨ s.index = 34 ∨ s.index = 35 := by omega
  · obtain ⟨hindex, hterm⟩ := edge_index masterkey hlow
    rw [hindex, hterm]
    exact ⟨by omega, by simp; omega⟩
  · simp [edge, hlast]
  · simp [edge, hidle]

theorem inRange_edge (masterkey : BitVec 256) {s : Registers} (h : InRange s) :
    InRange (edge masterkey s) := by
  obtain ⟨hindex, hterm⟩ := index_edge masterkey h.index
  constructor
  · omega
  · intro hdone
    have := hterm.mp hdone
    omega

theorem edge_masterkey (masterkey masterkey' : BitVec 256) {s : Registers} (hs : s.index ≠ 0) :
    edge masterkey s = edge masterkey' s := by
  simp only [edge, hs, if_false]

variable (p : Nat → Sample (BitVec 256)) (t : Nat)

theorem inRange_run : InRange (process.run p t) :=
  ResetProcess.run_invariant (I := InRange) ⟨le_rfl, fun h => absurd h Bool.false_ne_true⟩
    (fun _ _ => ⟨Nat.zero_le 35, fun h => absurd h Bool.false_ne_true⟩)
    (fun masterkey _ h => inRange_edge masterkey h) t

theorem others_run {i : Nat} (hi : i = 0 ∨ 10 < i) : (process.run p t).k i = 0 :=
  ResetProcess.run_invariant (I := fun s : Registers => s.k i = 0) rfl (fun _ h => h)
    (fun masterkey _ h => (edge_k_others masterkey hi).trans h) t

variable {p t}

/-- `terminated` rises at the edges that find `index = 34` and at no other instant. -/
theorem rises_iff : Rises p t ↔ EdgeAt p 34 t := by
  obtain ⟨hindex, hdone⟩ := inRange_run p t
  constructor
  · rintro ⟨hlow, hhigh⟩
    obtain ⟨hclock, hterm⟩ :=
      ResetProcess.clocked_of_rise (f := Registers.terminated) (fun _ => rfl) hlow hhigh
    exact ⟨hclock, (index_edge (p t).data hindex).2.mp hterm⟩
  · intro h
    have hlow : (process.run p t).terminated ≠ true := by
      intro hterm
      have h35 := hdone hterm
      have h34 := h.index
      omega
    refine ⟨by simpa using hlow, ?_⟩
    rw [ResetProcess.run_edge h.clocked]
    exact (index_edge (p t).data hindex).2.mpr h.index

end Edge

/-! ## One run of the schedule -/

section RunFrom
variable {p : Nat → Sample (BitVec 256)} {r e t : Nat}

/-- After the edge that has found `index = n` the count is past `n` for the rest of the run. -/
theorem index_past (h : RunFrom p r e) {n u : Nat} (hn : n < 35) (hru : r < u) (hedge : EdgeAt p n u)
    (hut : u < t) (ht : t ≤ e) : n < (process.run p t).index := by
  have hstart : n < (process.run p (u + 1)).index := by
    rw [ResetProcess.run_edge hedge.clocked]
    have hindex := (index_edge (p u).data (inRange_run p u).index).1
    have hat := hedge.index
    rw [← hat] at hn ⊢
    exact hindex ▸ (by omega)
  induction t, hut using Nat.le_induction with
  | base => exact hstart
  | succ t hut ih =>
    have hnow := ih (by omega)
    rcases ResetProcess.clocked_or_hold process (h.quiet t (by omega) (by omega)) with hclock | hsame
    · rw [ResetProcess.run_edge hclock]
      have hindex := (index_edge (p t).data (inRange_run p t).index).1
      exact hindex ▸ (by omega)
    · rwa [hsame]

/-- Two edges of one run that find the same `index` below 35 are the same edge. -/
theorem edgeAt_unique (h : RunFrom p r e) {n u : Nat} (hn : n < 35) (hru : r < u) (hu : u < e)
    (hedge : EdgeAt p n u) (hrt : r < t) (ht : t < e) (hedge' : EdgeAt p n t) : u = t := by
  rcases lt_trichotomy u t with hlt | heq | hlt
  · have hpast := index_past h hn hru hedge hlt ht.le
    exact absurd hedge'.index (by omega)
  · exact heq
  · have hpast := index_past h hn hrt hedge' hlt hu.le
    exact absurd hedge.index (by omega)

/-- At `index = 0` nothing is left of an earlier run that the schedule would still use. -/
theorem valid_of_index_zero (masterkey : BitVec 256) (h0 : (process.run p t).index = 0) :
    Valid masterkey (process.run p t) where
  tuple h1 := absurd h1 (by omega)
  keys _ i _ _ hi := absurd hi (by omega)
  others _ hi := others_run p t hi
  done hdone := absurd ((inRange_run p t).done hdone) (by omega)

/-- The edge at which the run has sampled the master key; what has been computed since then
is computed from it. -/
theorem loaded_of_runFrom (h : RunFrom p r t) (hr : r < t) :
    (process.run p t).index = 0 ∨
      ∃ t₀, r < t₀ ∧ t₀ < t ∧ EdgeAt p 0 t₀ ∧ Valid (p t₀).data (process.run p t) := by
  induction t, hr using Nat.le_induction with
  | base =>
    rw [ResetProcess.run_reset h.reset]
    exact .inl rfl
  | succ t hr ih =>
    have hrt : r < t := hr
    have hnow := ih (h.shorten (by omega))
    rcases ResetProcess.clocked_or_hold process (h.quiet t hrt (by omega)) with hclock | hsame
    · rw [ResetProcess.run_edge hclock]
      rcases hnow with h0 | ⟨t₀, hr₀, ht₀, hload, hvalid⟩
      · have hvalid := valid_edge (p t).data (valid_of_index_zero (p t).data h0)
        exact .inr ⟨t, hrt, by omega, ⟨hclock, h0⟩, hvalid⟩
      · have hpast : (process.run p t).index ≠ 0 := by
          have := index_past h (by omega) hr₀ hload ht₀ (by omega)
          omega
        have hvalid' := valid_edge (p t₀).data hvalid
        rw [edge_masterkey (p t₀).data (p t).data hpast] at hvalid'
        exact .inr ⟨t₀, hr₀, by omega, hload, hvalid'⟩
    · rw [hsame]
      rcases hnow with h0 | ⟨t₀, hr₀, ht₀, hload, hvalid⟩
      · exact .inl h0
      · exact .inr ⟨t₀, hr₀, by omega, hload, hvalid⟩

/-- The run in which `terminated` rises, and the edge at which it has sampled its key. -/
theorem keys_of_rises (h : Rises p t) :
    ∃ r t₀, RunFrom p r (t + 1) ∧ r < t₀ ∧ t₀ < t ∧ EdgeAt p 0 t₀ ∧
      (process.run p (t + 1)).k = roundKeys (p t₀).data := by
  have hedge := rises_iff.mp h
  have h34 := hedge.index
  have hidle (masterkey : BitVec 256) (s : Registers) (hs : s.index = 35) :
      (process.edge masterkey s).index = 35 := by
    have hindex := (index_edge masterkey hs.le).1
    rwa [hs] at hindex
  obtain h35 | ⟨r, hr, hrun⟩ := ResetProcess.exists_runFrom (P := process) (p := p)
    (I := fun s => s.index = 35) rfl hidle t
  · omega
  obtain h0 | ⟨t₀, hr₀, ht₀, hload, hvalid⟩ := loaded_of_runFrom hrun hr
  · omega
  refine ⟨r, t₀, hrun.extend hedge.clocked.reset, hr₀, ht₀, hload, ?_⟩
  have hafter := valid_edge (p t₀).data hvalid
  rw [edge_masterkey (p t₀).data (p t).data (by omega)] at hafter
  rw [ResetProcess.run_edge hedge.clocked]
  exact hafter.done ((index_edge (p t).data (inRange_run p t).index).2.mpr h34)

end RunFrom

/-- Whenever `terminated` rises, the ports carry the firmware's round keys of the master key
sampled at the one edge of the latest run that found `index = 0`. A run that reaches the edge
at `index = 34` raises `terminated` exactly once, any other run never. -/
theorem keys_under_restarts (p : Nat → Sample (BitVec 256)) :
    (∀ t, Rises p t → ∃ r t₀, RunFrom p r (t + 1) ∧
      (∀ u, r < u ∧ u ≤ t ∧ EdgeAt p 0 u ↔ u = t₀) ∧
      ∀ g round, round < 10 → bytes ((process.run p (t + 1)).k (round + 1)) =
        (Kuznyechik.setkey g (keyBytes (p t₀).data)).trueRoundKey round) ∧
    (∀ r e, RunFrom p r e → (∃ t, r < t ∧ t < e ∧ EdgeAt p 34 t) →
      ∃! t, r < t ∧ t < e ∧ Rises p t) ∧
    ∀ r e, RunFrom p r e → (¬ ∃ t, r < t ∧ t < e ∧ EdgeAt p 34 t) →
      ∀ t, r < t → t < e → ¬ Rises p t := by
  refine ⟨fun t h => ?_, ?_, ?_⟩
  · obtain ⟨r, t₀, hrun, hr₀, ht₀, hload, hkeys⟩ := keys_of_rises h
    refine ⟨r, t₀, hrun, fun u => ⟨fun ⟨hru, hut, hedge⟩ => ?_, ?_⟩, fun g round hround => ?_⟩
    · exact edgeAt_unique hrun (by omega) hru (by omega) hedge hr₀ (by omega) hload
    · rintro rfl
      exact ⟨hr₀, ht₀.le, hload⟩
    · rw [hkeys]
      exact bytes_roundKeys _ g round hround
  · rintro r e hrun ⟨t, hr, he, hedge⟩
    refine ⟨t, ⟨hr, he, rises_iff.mpr hedge⟩, ?_⟩
    rintro u ⟨hru, hue, hrises⟩
    exact edgeAt_unique hrun (by omega) hru hue (rises_iff.mp hrises) hr he hedge
  · intro r e _ hnone t hr he hrises
    exact hnone ⟨t, hr, he, rises_iff.mp hrises⟩

end SubKeySchedule

/-- The schedule inside the core is this process, with the master key held. -/
theorem Core.sks_run (masterkey : BitVec 256) (input : Nat → Sample) (t : Nat) :
    (Machine.run (step masterkey) .init input t).sks =
      SubKeySchedule.process.run (fun t => ⟨(input t).fullData, (input t).rising, masterkey⟩) t := by
  induction t with
  | zero => rfl
  | succ t ih =>
    rw [ResetProcess.run] at ih ⊢
    rw [Machine.run_succ, Machine.run_succ, ← ih]
    rfl

end KuznyechikDPA

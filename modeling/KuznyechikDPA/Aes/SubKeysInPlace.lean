import KuznyechikDPA.Aes.UartAes256Masked

/-!
# The round keys of the AES design

The schedule signals once right after power-up, when its words are still zero. From the
first block on, every signal comes with the expansion of the master key on the ports, and the
ports do not change any more.
-/

namespace KuznyechikDPA.UartAes256Masked
open Aes256Pkg AesSubKeySchedule
open UartStandardComplete (Input)
open ResetProcess (Sample Clocked)

/-- The ports after an expansion; there are fifteen of them. -/
def keys (i : Nat) : Block := if i < 15 then roundKey (keyExp masterkey) i else 0

variable (state outp : Block) (input : Nat → Input)

/-- What the key schedule samples. -/
def sksInput (t : Nat) : Sample (BitVec 256) where
  reset := (rxCollStep (input t) (run state outp input t)).fullData
  rising := lowClkRises (input t) (run state outp input t)
  data := masterkey

theorem sks_run (t : Nat) :
    (run state outp input t).sks = process.run (sksInput state outp input) t := by
  induction t with
  | zero => rfl
  | succ t ih =>
    rw [ResetProcess.run, Machine.run_succ, ← ResetProcess.run, ← ih]
    rfl

/-- A whole block has been received before instant `t` or with it. -/
def Heard (t : Nat) : Prop := ∃ u ≤ t, (run state outp input u).rxColl.fullData = true

variable {state outp input} {t : Nat}

theorem Heard.reset (h : Heard state outp input t) : ∃ r < t, (sksInput state outp input r).reset = true := by
  obtain ⟨u, hu, hfull⟩ := h
  rcases u with _ | u
  · exact absurd hfull Bool.false_ne_true
  · exact ⟨u, hu, hfull⟩

theorem Heard.before (h : Heard state outp input (t + 1))
    (hquiet : (sksInput state outp input t).reset = false) : Heard state outp input t := by
  obtain ⟨u, hu, hfull⟩ := h
  obtain hle | rfl : u ≤ t ∨ u = t + 1 := by omega
  · exact ⟨u, hle, hfull⟩
  · exact absurd (hquiet.symm.trans hfull) Bool.false_ne_true

theorem Heard.later (h : Heard state outp input t) : Heard state outp input (t + 1) := by
  obtain ⟨u, hu, hfull⟩ := h
  exact ⟨u, by omega, hfull⟩

/-- No reset of the schedule finds a word under way. -/
theorem cleanRestart (hreset : (sksInput state outp input t).reset = true) :
    CleanRestart masterkey (process.run (sksInput state outp input) t) := by
  rw [← sks_run]
  exact .inl (rxComp_full (inPlace_run state outp input t) hreset).1

/-! ## The signal of the schedule -/

theorem terminated_run (h : (run state outp input t).sks.index ≤ 60) :
    (run state outp input t).sks.terminated = false := by
  rw [sks_run] at h ⊢
  refine ResetProcess.run_invariant (P := process)
    (I := fun s : AesSubKeySchedule.Registers => s.index ≤ 60 → s.terminated = false) (fun _ => rfl)
    (fun _ _ _ => rfl) (fun masterkey s hs => ?_) t h
  change (edge masterkey s).index ≤ 60 → (edge masterkey s).terminated = false
  unfold edge
  split_ifs with h8 h60 h1 h2 heq
  · exact fun _ => hs (by omega)
  · exact fun _ => hs (by omega)
  · exact fun _ => hs (by omega)
  · exact fun _ => hs (by omega)
  · intro hle
    simp only at hle
    omega
  · exact fun _ => rfl

theorem rises_of_edge (hclock : Clocked (sksInput state outp input) t)
    (h60 : (run state outp input t).sks.index = 60) : Rises (sksInput state outp input) t := by
  constructor
  · rw [← sks_run]
    exact terminated_run h60.le
  · have hedge {s : AesSubKeySchedule.Registers} (hs : s.index = 60) :
        (edge masterkey s).terminated = true := by
      simp [edge, hs]
    rw [sks_run] at h60
    rw [ResetProcess.run_edge hclock]
    exact hedge h60

theorem keys_rise (hrise : Rises (sksInput state outp input) t) {i : Nat} (hi : i < 15) :
    (Heard state outp input t → (run state outp input (t + 1)).sks.k i = keys i) ∧
      (¬ Heard state outp input t → (run state outp input (t + 1)).sks.k i = 0) := by
  obtain ⟨hclock, -⟩ := clocked_of_rises hrise
  rw [sks_run]
  refine ⟨fun hheard => ?_, fun hnone => ?_⟩
  · obtain ⟨r, hr, hreset⟩ := hheard.reset
    obtain ⟨u, hu, -, hrun⟩ := ResetProcess.exists_runFrom_of_reset hreset hr
    rw [keys, if_pos hi]
    have hkey (t : Nat) : (sksInput state outp input t).data = masterkey := rfl
    exact (keys_eq_keyExp_iff hkey hrise).mpr
      ⟨u, hu, hrun.extend hclock.reset, cleanRestart hrun.reset⟩ i hi
  · rw [ports_of_rises hrise hi]
    obtain hunset | ⟨r, hr, hrun⟩ := ResetProcess.exists_runFrom (P := process)
      (p := sksInput state outp input) (I := Unset) ⟨le_rfl, fun _ => rfl⟩
      (fun masterkey _ => unset_edge masterkey) t
    · rw [joined, hunset.w, hunset.w, hunset.w, hunset.w]
      exact joined_zero i
    · exact absurd ⟨r + 1, hr, hrun.reset⟩ hnone

/-! ## Whole runs -/

/-- What an instant can do to ports and signal. -/
inductive Next (state outp : Block) (input : Nat → Input) (t : Nat) : Prop where
  | reset (hk : (run state outp input (t + 1)).sks.k = (run state outp input t).sks.k)
      (hlow : (run state outp input (t + 1)).sks.terminated = false)
  | rise (hquiet : (sksInput state outp input t).reset = false)
      (hrise : Rises (sksInput state outp input) t)
  | hold (hquiet : (sksInput state outp input t).reset = false)
      (hsame : (run state outp input (t + 1)).sks = (run state outp input t).sks)

theorem k_edge {s : AesSubKeySchedule.Registers} (h : s.index ≠ 60) :
    (edge masterkey s).k = s.k ∧
      ((edge masterkey s).terminated = true → s.index < 60 ∧ s.terminated = true) := by
  unfold edge
  split_ifs with h8 h60 h1 h2
  · exact ⟨rfl, fun hon => ⟨by omega, hon⟩⟩
  · exact ⟨rfl, fun hon => ⟨h60, hon⟩⟩
  · exact ⟨rfl, fun hon => ⟨h60, hon⟩⟩
  · exact ⟨rfl, fun hon => ⟨h60, hon⟩⟩
  · exact ⟨rfl, fun hon => hon.elim⟩

theorem next_run (state outp : Block) (input : Nat → Input) (t : Nat) : Next state outp input t := by
  have hnext : (run state outp input (t + 1)).sks =
      ResetProcess.step process (sksInput state outp input t) (run state outp input t).sks := rfl
  rw [ResetProcess.step] at hnext
  cases hreset : (sksInput state outp input t).reset with
  | true =>
    rw [if_pos hreset] at hnext
    exact .reset (by rw [hnext]; rfl) (by rw [hnext]; rfl)
  | false =>
    rw [hreset, if_neg Bool.false_ne_true] at hnext
    cases hrising : (sksInput state outp input t).rising with
    | false =>
      rw [hrising, if_neg Bool.false_ne_true] at hnext
      exact .hold hreset hnext
    | true =>
      by_cases h60 : (run state outp input t).sks.index = 60
      · exact .rise hreset (rises_of_edge ⟨hreset, hrising⟩ h60)
      · rw [if_pos hrising] at hnext
        obtain ⟨hk, hterm⟩ := k_edge h60
        refine .reset (by rw [hnext]; exact hk) (Bool.eq_false_iff.mpr fun hon => ?_)
        rw [hnext] at hon
        -- below 60 the signal is low
        obtain ⟨hlow, hhigh⟩ := hterm hon
        exact absurd ((terminated_run hlow.le).symm.trans hhigh) Bool.false_ne_true

/-- The ports at instant `t`, and what they are while `terminated` is high. -/
structure InStep (state outp : Block) (input : Nat → Input) (t : Nat) : Prop where
  ports : (run state outp input t).sks.k = (fun _ => 0) ∨
    ((run state outp input t).sks.k = keys ∧ Heard state outp input t)
  signal : (run state outp input t).sks.terminated = true → Heard state outp input t →
    (run state outp input t).sks.k = keys

theorem k_rise (h : InStep state outp input t) (hrise : Rises (sksInput state outp input) t) :
    (Heard state outp input t → (run state outp input (t + 1)).sks.k = keys) ∧
      (¬ Heard state outp input t → (run state outp input (t + 1)).sks.k = fun _ => 0) := by
  have hbeyond {i : Nat} (hi : ¬ i < 15) : (run state outp input (t + 1)).sks.k i = 0 := by
    obtain ⟨hclock, h60⟩ := clocked_of_rises hrise
    have hedge {s : AesSubKeySchedule.Registers} (hs : s.index = 60) :
        (edge masterkey s).k i = s.k i := by
      simp [edge, hs, hi]
    rw [sks_run, ResetProcess.run_edge hclock]
    refine (hedge h60).trans ?_
    rw [← sks_run]
    rcases h.ports with hzero | ⟨hkeys, -⟩
    · rw [hzero]
    · rw [hkeys, keys, if_neg hi]
  constructor
  · intro hheard
    funext i
    by_cases hi : i < 15
    · exact (keys_rise hrise hi).1 hheard
    · rw [hbeyond hi, keys, if_neg hi]
  · intro hnone
    funext i
    by_cases hi : i < 15
    · exact (keys_rise hrise hi).2 hnone
    · exact hbeyond hi

theorem inStep_step (h : InStep state outp input t) : InStep state outp input (t + 1) := by
  cases next_run state outp input t with
  | reset hk hlow =>
    refine ⟨?_, fun hon => absurd (hlow.symm.trans hon) Bool.false_ne_true⟩
    rw [hk]
    exact h.ports.imp_right fun hheard => ⟨hheard.1, hheard.2.later⟩
  | rise hquiet hrise =>
    obtain ⟨hheard, hnone⟩ := k_rise h hrise
    refine ⟨?_, fun _ hall => hheard (hall.before hquiet)⟩
    by_cases hcase : Heard state outp input t
    · exact .inr ⟨hheard hcase, hcase.later⟩
    · exact .inl (hnone hcase)
  | hold hquiet hsame =>
    refine ⟨?_, fun hon hheard => ?_⟩
    · rw [hsame]
      exact h.ports.imp_right fun hheard => ⟨hheard.1, hheard.2.later⟩
    · rw [hsame] at hon ⊢
      exact h.signal hon (hheard.before hquiet)

theorem inStep_run (t : Nat) : InStep state outp input t := by
  induction t with
  | zero => exact ⟨.inl rfl, fun hon => absurd hon Bool.false_ne_true⟩
  | succ t ih => exact inStep_step ih

theorem keys_next (hheard : Heard state outp input t) (h : (run state outp input t).sks.k = keys) :
    (run state outp input (t + 1)).sks.k = keys := by
  cases next_run state outp input t with
  | reset hk _ => exact hk.trans h
  | rise _ hrise => exact (k_rise (inStep_run t) hrise).1 hheard
  | hold _ hsame => rw [hsame, h]

theorem k_unheard (hnone : ¬ Heard state outp input t) : (run state outp input t).sks.k = fun _ => 0 := by
  rcases (inStep_run t).ports with hzero | ⟨-, hheard⟩
  · exact hzero
  · exact absurd hheard hnone

end KuznyechikDPA.UartAes256Masked

import KuznyechikDPA.Hardware.MaskedCompleteEncryption
import KuznyechikDPA.Foundation.Distribution

/-!
# What an edge of the masked process shows of its register

A power trace follows the bits of `inter_state` that flip at an edge. In the rounds the
register is the unmasked state under a power of the linear layer of the mask, and the flips
are those of the unmasked state under what one more linear layer changes of it: both are
bijections of the mask.
-/

namespace KuznyechikDPA

/-- How many bits of two vectors differ. -/
def hammingDistance (a b : Block) : Nat :=
  (List.range 128).countP fun i => a.getLsbD i != b.getLsbD i

theorem hammingDistance_eq (a b : Block) : hammingDistance a b = hammingDistance (a ^^^ b) 0 := by
  unfold hammingDistance
  apply List.countP_congr
  intro i _
  have hzero : (0 : Block).getLsbD i = false := BitVec.getLsbD_zero
  rw [BitVec.getLsbD_xor, hzero]
  cases a.getLsbD i <;> cases b.getLsbD i <;> decide

theorem xor_bijective (c : Block) : Function.Bijective fun v : Block => c ^^^ v :=
  (xor_right_involutive c).bijective

theorem distribution_of_bijective {observe : Block → Block} (h : Function.Bijective observe) :
    distribution observe = PMF.uniformOfFintype Block :=
  uniform_map_equiv (Equiv.ofBijective observe h)

namespace MaskedCompleteEncryption

open GrasshopperPkg
open CompleteEncryption (Env Presents)

/-- The linear layer that the mask goes through in a round. -/
def moveMask (encDecSel : Bool) : Block → Block := if encDecSel = false then lStep else invLStep

theorem moveMask_bijective (encDecSel : Bool) : Function.Bijective (moveMask encDecSel) := by
  cases encDecSel with
  | false => exact lStep_bijective
  | true => exact invLStep_bijective

theorem change_moveMask_bijective (encDecSel : Bool) :
    Function.Bijective (change (moveMask encDecSel)) := by
  cases encDecSel with
  | false => exact change_lStep_bijective
  | true => exact change_invLStep_bijective

theorem mask_stage_eq (p : Ports) (n : Nat) (hn : n ≤ 9) :
    (engine.stage p n).mask = (moveMask p.encDecSel)^[n] p.mask := by
  rw [mask_stage p n hn]
  cases p.encDecSel with
  | false => rfl
  | true => rfl

theorem stage_congr {p p' : CompleteEncryption.Ports} (henv : p.env = p'.env)
    (hplain : p.plain = p'.plain) (n : Nat) :
    CompleteEncryption.engine.stage p n = CompleteEncryption.engine.stage p' n := by
  rw [CompleteEncryption.stage_eq, CompleteEncryption.stage_eq, henv, hplain]

section Rounds
variable {env : Env} {plain : Block} {q : Block → Nat → Ports} {s : Registers}
variable (hq : ∀ m, Presents env plain fun t => (q m t).toPorts) (hmask : ∀ m, (q m 0).mask = m)
variable (hs : s.tour = 0)
include hq hmask hs

/-- After the start edge and `n` rounds the register is a word that the mask does not enter,
under the mask moved `n` times. -/
theorem exists_unmasked (n : Nat) (hn : n ≤ 9) :
    ∃ c, ∀ m, (Machine.run edge s (q m) (n + 1)).tour = n + 1 ∧
      (Machine.run edge s (q m) (n + 1)).interState = c ^^^ (moveMask env.encDecSel)^[n] m := by
  refine ⟨CompleteEncryption.engine.stage (q 0 0).toPorts n, fun m => ?_⟩
  have hrun := Machine.run_hom (s := s) (q m) toEngine_edge (n + 1)
  have henv (t : Nat) (ht : t ≤ 10) : (q m t).env = (q m 0).env := by
    rw [(hq m).env t (by omega), (hq m).env 0 (by omega)]
  have hwork := engine.working_run (s := s.toEngine) hs (hq m).start henv n (by change n ≤ 10; omega)
  rw [← hrun] at hwork
  have hsecret := secret_stage (q m 0) n
  have hsame : CompleteEncryption.engine.stage (q m 0).toPorts n =
      CompleteEncryption.engine.stage (q 0 0).toPorts n := by
    apply stage_congr
    · rw [(hq m).env 0 (by omega), (hq 0).env 0 (by omega)]
    · rw [(hq m).plain, (hq 0).plain]
  have hsel : (q m 0).encDecSel = env.encDecSel := congrArg Env.encDecSel ((hq m).env 0 (by omega))
  have hdatum := congrArg Shares.state hwork.datum
  refine ⟨hwork.tour, hdatum.trans ?_⟩
  rw [Shares.state_eq, hsecret, hsame, mask_stage_eq _ n hn, hsel, hmask m]

/-- In every round the register, and what the edge changes of it, are bijections of the mask;
under a uniform mask both are uniform, and so the Hamming distance of the two values of the
register is distributed as the weight of a uniform vector, whatever block and keys are. -/
theorem transition_bijective (t : Nat) (h1 : 1 ≤ t) (h9 : t ≤ 9) :
    (∀ m, (Machine.run edge s (q m) t).tour = t) ∧
      Function.Bijective (fun m =>
        (Machine.run edge s (q m) t).interState ^^^ (Machine.run edge s (q m) (t + 1)).interState) ∧
      Function.Bijective (fun m => (Machine.run edge s (q m) t).interState) ∧
      distribution (fun m => (Machine.run edge s (q m) t).interState) = PMF.uniformOfFintype Block ∧
      distribution (fun m => hammingDistance (Machine.run edge s (q m) t).interState
          (Machine.run edge s (q m) (t + 1)).interState) =
        (PMF.uniformOfFintype Block).map fun v => hammingDistance v 0 := by
  obtain ⟨n, rfl⟩ : ∃ n, t = n + 1 := ⟨t - 1, by omega⟩
  obtain ⟨c, hbefore⟩ := exists_unmasked hq hmask hs n (by omega)
  obtain ⟨d, hafter⟩ := exists_unmasked hq hmask hs (n + 1) (by omega)
  have hiterate := (moveMask_bijective env.encDecSel).iterate n
  have hvalue : Function.Bijective fun m => (Machine.run edge s (q m) (n + 1)).interState := by
    have hform : (fun m => (Machine.run edge s (q m) (n + 1)).interState) =
        (fun v => c ^^^ v) ∘ (moveMask env.encDecSel)^[n] := funext fun m => (hbefore m).2
    rw [hform]
    exact (xor_bijective c).comp hiterate
  have hflips : Function.Bijective fun m => (Machine.run edge s (q m) (n + 1)).interState ^^^
      (Machine.run edge s (q m) (n + 1 + 1)).interState := by
    have hform : (fun m => (Machine.run edge s (q m) (n + 1)).interState ^^^
        (Machine.run edge s (q m) (n + 1 + 1)).interState) =
        (fun v => (c ^^^ d) ^^^ v) ∘ change (moveMask env.encDecSel) ∘ (moveMask env.encDecSel)^[n] := by
      funext m
      rw [(hbefore m).2, (hafter m).2, Function.iterate_succ_apply', xor_xor_xor_comm]
      rfl
    rw [hform]
    exact (xor_bijective (c ^^^ d)).comp ((change_moveMask_bijective env.encDecSel).comp hiterate)
  refine ⟨fun m => (hbefore m).1, hflips, hvalue, distribution_of_bijective hvalue, ?_⟩
  have hweight := congrArg (PMF.map fun v => hammingDistance v 0) (distribution_of_bijective hflips)
  rw [← hweight, distribution, distribution, PMF.map_comp]
  congr 1
  funext m
  exact hammingDistance_eq _ _

end Rounds

theorem transition_bijective_steady :
    Function.Bijective fun m =>
      (Machine.run edge .init (fun _ => steadyPorts 1 m true) 9).interState ^^^
        (Machine.run edge .init (fun _ => steadyPorts 1 m true) 10).interState := by
  have hq (m : Block) := presents_steadyPorts 1 m true
  have hs : Registers.init.tour = 0 := rfl
  exact (transition_bijective hq (fun _ => rfl) hs 9 (by omega) (by omega)).2.1

end MaskedCompleteEncryption
end KuznyechikDPA

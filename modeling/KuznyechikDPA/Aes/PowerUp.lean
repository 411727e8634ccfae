import KuznyechikDPA.Aes.Timeline

/-!
# The block that nobody has sent

After power-up the schedule is as if it had just expanded a key, with zeros for round keys. The
design encrypts the zero block under them, and answers.
-/

namespace KuznyechikDPA.UartAes256Masked
open Aes256Pkg
open UartStandardComplete (Input)
open Aes256EncryptionMasked (engine)

section PowerUp
variable {state outp : Block} {input : Nat → Input} {n : Nat}
variable (hreset : ∀ j < n, (input j).reset = false) (hsel : ∀ j < n, (input j).encDecSel = false)
include hreset

theorem quiet_start (hcount : slowEdges state outp input 0 n ≤ 36) :
    (run state outp input n).rxColl.plain = 0 ∧ (run state outp input n).rxColl.fullData = false := by
  have hwithin : Within 164 (run state outp input 0) := Nat.zero_le _
  obtain ⟨-, hplain, hfull⟩ := quiet_run (n := n) hwithin (.inr rfl)
    (by simpa only [Nat.zero_add] using hreset) (by omega)
  rw [Nat.zero_add] at hplain hfull
  refine ⟨hplain, ?_⟩
  rcases n with _ | n
  · rfl
  · exact hfull (by omega)

theorem unheard_start (hcount : slowEdges state outp input 0 n ≤ 36) : ¬ Heard state outp input n := by
  rintro ⟨u, hu, hfull⟩
  have hmono : slowEdges state outp input 0 u ≤ slowEdges state outp input 0 n := Nat.count_monotone _ hu
  have hquiet := (quiet_start (fun j hj => hreset j (by omega)) (hmono.trans hcount)).2
  exact absurd (hquiet.symm.trans hfull) Bool.false_ne_true

/-- Nobody has started the generator. -/
theorem prng_start (hcount : slowEdges state outp input 0 n ≤ 36) :
    (run state outp input n).prng.canRun = false ∧ (run state outp input n).prng.outp = outp := by
  induction n with
  | zero => exact ⟨rfl, rfl⟩
  | succ n ih =>
    have hmono : slowEdges state outp input 0 n ≤ slowEdges state outp input 0 (n + 1) :=
      Nat.count_monotone _ (Nat.le_succ n)
    have hbefore : ∀ j < n, (input j).reset = false := fun j hj => hreset j (by omega)
    obtain ⟨hrun, hout⟩ := ih hbefore (hmono.trans hcount)
    have hquiet := (quiet_start hbefore (hmono.trans hcount)).2
    have hnext : (run state outp input (n + 1)).prng = (run state outp input n).prng := by
      have hprng : (run state outp input (n + 1)).prng =
          prngStep (input n) (run state outp input n) := rfl
      rw [hprng, prngStep, Lfsr.edge, prngPorts, hquiet, if_neg Bool.false_ne_true, hrun,
        if_neg Bool.false_ne_true, ite_self]
    rw [hnext]
    exact ⟨hrun, hout⟩

include hsel

/-- The ports of the encryption at its first start. -/
def FirstStart (outp : Block) (b : Aes256EncryptionMasked.Ports) : Prop :=
  b.encDecSel = false ∧ (b.subKeys = fun _ => 0) ∧ b.plain = 0 ∧ b.mask = outp

theorem stage_start {R : Prop} (hcount : slowEdges state outp input 0 n ≤ 17)
    (hR : ∀ j < n, R → (input j).rising = true → 164 + slowEdges state outp input 0 j ≤ 180 →
      (txCollStep (input j) (run state outp input j)).doneTransmit = true) :
    Stage (fun _ => 0) (FirstStart outp) 0 R (164 + slowEdges state outp input 0 n)
      (run state outp input n) := by
  have hwithin : Within 164 (run state outp input 0) := Nat.zero_le _
  have hstage : Stage (fun _ => 0) (FirstStart outp) 0 R 164 (run state outp input 0) :=
    .expanding le_rfl rfl rfl rfl
  have hmono {j : Nat} (hj : j ≤ n) : slowEdges state outp input 0 j ≤ 36 := by
    have hle : slowEdges state outp input 0 j ≤ slowEdges state outp input 0 n := Nat.count_monotone _ hj
    omega
  have hports (j : Nat) (hj : j ≤ n) : (run state outp input j).sks.k = fun _ => 0 :=
    k_unheard (unheard_start (fun i hi => hreset i (by omega)) (hmono hj))
  have hfirst (j : Nat) (hj : j < n) : FirstStart outp (encryptPorts (input j) (run state outp input j)) := by
    have hbefore : ∀ i < j + 1, (input i).reset = false := fun i hi => hreset i (by omega)
    exact ⟨hsel j hj, hports j (by omega), (quiet_start hbefore (hmono hj)).1,
      (prng_start hbefore (hmono hj)).2⟩
  have hall := stage_run (n := n) hstage hwithin (.inr rfl) (by simpa only [Nat.zero_add] using hreset)
    (by simpa only [Nat.zero_add] using hsel) (by omega)
    (by simpa only [Nat.zero_add] using fun j hj _ => hports j hj)
    (by simpa only [Nat.zero_add] using fun j hj _ => hfirst j hj)
    (by simpa only [Nat.zero_add] using hR)
  rwa [Nat.zero_add] at hall

theorem silent_start (hcount : slowEdges state outp input 0 n ≤ 16) :
    (run state outp input n).encrypt.canTransmit = false := by
  have hstage : Stage (fun _ => 0) (FirstStart outp) 0 False (164 + slowEdges state outp input 0 n)
      (run state outp input n) :=
    stage_start hreset hsel (by omega) (fun _ _ hfalse => hfalse.elim)
  exact hstage.silent (paced_run state outp input n) (by omega)

theorem txColl_start (hoff : ∀ j < n, (run state outp input j).encrypt.canTransmit = false) :
    UartStandardComplete.ReplyRests (run state outp input n).txColl := by
  induction n with
  | zero => exact ⟨rfl, rfl, rfl, rfl⟩
  | succ n ih =>
    have hnow := ih (fun j hj => hreset j (by omega)) (fun j hj => hsel j (by omega))
      (fun j hj => hoff j (by omega))
    have hnext : (run state outp input (n + 1)).txColl = txCollStep (input n) (run state outp input n) :=
      rfl
    rw [hnext, txCollStep, hreset n (by omega), if_neg Bool.false_ne_true]
    split_ifs
    · exact UartStandardComplete.replyRests_edge hnow (hoff n (by omega))
    · exact hnow

/-- Nothing is sent before the first announcement, and the collector says that it is done. -/
theorem doneTransmit_start (hrise : (input n).rising = true) (hquiet : (input n).reset = false)
    (hcount : slowEdges state outp input 0 n ≤ 16) :
    (txCollStep (input n) (run state outp input n)).doneTransmit = true := by
  have hoff (j : Nat) (hj : j ≤ n) : (run state outp input j).encrypt.canTransmit = false := by
    have hmono : slowEdges state outp input 0 j ≤ slowEdges state outp input 0 n := Nat.count_monotone _ hj
    exact silent_start (fun i hi => hreset i (by omega)) (fun i hi => hsel i (by omega)) (by omega)
  have hrests : UartStandardComplete.ReplyRests (run state outp input n).txColl :=
    txColl_start hreset hsel fun j hj => hoff j hj.le
  have hlow : (txCollPorts (run state outp input n)).startTransmit = false := hoff n le_rfl
  have hcpt := hrests.cpt
  have hnone : ¬ ((txCollPorts (run state outp input n)).startTransmit = true ∧
      (run state outp input n).txColl.cpt = 16) := by simp [hlow]
  rw [txCollStep, hquiet, hrise, if_neg Bool.false_ne_true, if_pos rfl, TxCollecteur.edge,
    if_neg hnone, if_neg (by omega), if_neg (by omega)]

end PowerUp

end KuznyechikDPA.UartAes256Masked

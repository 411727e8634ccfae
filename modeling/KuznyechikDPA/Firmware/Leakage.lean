import KuznyechikDPA.Firmware.MaskedRefinement
import KuznyechikDPA.Foundation.Distribution

/-!
# What the masked encryption computes on the way

A `Probe` names a step of a masked encryption; `observe` is the byte the firmware holds
there. The masked words are functions of the first share alone and look the same for
every plaintext. The two words of the table lookup are the exception: the mask is taken
off to form the index, so index and looked up byte are those of the unmasked cipher.
-/

namespace KuznyechikDPA

/-- The steps of a masked encryption that work on bytes; rounds count from zero. -/
inductive Probe where
  | maskAddition
  | addRoundKey (round : Fin 10)
  | sboxIndex (round : Fin 9)
  | sboxRead (round : Fin 9)
  | sboxOutput (round : Fin 9)
  | linear (round : Fin 9) (steps : Nat)

/-- The probes other than the lookup of a table entry. -/
def Probe.Masked : Probe → Prop
  | sboxIndex _ => False
  | sboxRead _ => False
  | _ => True

namespace Masked

open Kuznyechik (sbox addRoundKey sstep rstep lstep)
open Shares (secret)

section Trace
variable (k : Nat → State) (input mask : State)

/-- `*state` and `mask` before a turn of the loop of `Cipher`. -/
def before (round : Nat) : Shares State :=
  (List.range round).foldl (encRound k) (maskState ⟨input, mask⟩)

def withKey (round : Nat) : Shares State :=
  { before k input mask round with
    state := addRoundKey k round (before k input mask round).state }

/-- The byte at position `i` of a step; after sixteen R steps the linear layer is complete. -/
def observe (i : Fin 16) : Probe → Byte
  | .maskAddition => (maskState ⟨input, mask⟩).state i
  | .addRoundKey round => (withKey k input mask round).state i
  | .sboxIndex round => (withKey k input mask round).state i ^^^ (withKey k input mask round).mask i
  | .sboxRead round =>
      sbox.get ((withKey k input mask round).state i ^^^ (withKey k input mask round).mask i)
  | .sboxOutput round => (maskedSstep (withKey k input mask round)).state i
  | .linear round steps => rstep^[steps] (maskedSstep (withKey k input mask round)).state i

theorem cipher_eq_withKey : cipher k (maskState ⟨input, mask⟩) = withKey k input mask 9 := rfl

theorem before_succ (round : Nat) :
    before k input mask (round + 1) = encRound k (before k input mask round) round := by
  rw [before, List.range_succ, List.foldl_append]
  rfl

/-- The state of the unmasked cipher before a round. -/
def plainBefore (round : Nat) : State := (List.range round).foldl (Kuznyechik.encRound k) input

theorem secret_before (round : Nat) :
    (before k input mask round).secret = plainBefore k input round :=
  (Shares.secret_foldl (secret_encRound k) _ _).trans
    (congrArg (List.foldl _ · _) (Shares.secret_split mask input))

theorem mask_before (round : Nat) : (before k input mask round).mask = lstep^[round] mask := by
  induction round with
  | zero => rfl
  | succ round ih =>
    rw [before_succ, Function.iterate_succ_apply', ← ih]
    rfl

/-- The input of the substitution in a round of the unmasked cipher. -/
def plainIndex (round : Nat) : State := addRoundKey k round (plainBefore k input round)

theorem secret_withKey (round : Nat) :
    (withKey k input mask round).secret = plainIndex k input round :=
  (secret_addRoundKey k round _).trans
    (congrArg (addRoundKey k round) (secret_before k input mask round))

theorem state_withKey (round : Nat) :
    (withKey k input mask round).state = plainIndex k input round ^^^ lstep^[round] mask := by
  rw [Shares.state_eq, secret_withKey, ← mask_before k input]
  rfl

theorem state_maskedSstep (round : Nat) :
    (maskedSstep (withKey k input mask round)).state =
      sstep (plainIndex k input round) ^^^ lstep^[round] mask := by
  rw [Shares.state_eq, secret_maskedSstep, secret_withKey, ← mask_before k input]
  rfl

/-- The lookup takes the mask off. -/
theorem observe_sboxIndex (i : Fin 16) (round : Fin 9) :
    observe k input mask i (.sboxIndex round) = plainIndex k input round i :=
  congrFun (secret_withKey k input mask round) i

end Trace

/-! ## Distributions -/

section Distributions
variable (k : Nat → State)

theorem bijective_lstep_iterate (n : Nat) : Function.Bijective lstep^[n] :=
  Kuznyechik.lstep_bijective.iterate n

/-- Everything but the table lookup looks the same for every plaintext. -/
theorem distribution_observe {probe : Probe} (h : probe.Masked) (i : Fin 16) (input input' : State) :
    distribution (fun mask => observe k input mask i probe) =
      distribution fun mask => observe k input' mask i probe := by
  cases probe with
  | maskAddition => exact distribution_masked Function.bijective_id (fun s : State => s i) _ _
  | addRoundKey round =>
    simp only [observe, state_withKey]
    exact distribution_masked (bijective_lstep_iterate round) (fun s : State => s i) _ _
  | sboxIndex round => exact h.elim
  | sboxRead round => exact h.elim
  | sboxOutput round =>
    simp only [observe, state_maskedSstep]
    exact distribution_masked (bijective_lstep_iterate round) (fun s : State => s i) _ _
  | linear round steps =>
    simp only [observe, state_maskedSstep]
    exact distribution_masked (bijective_lstep_iterate round) (fun s => rstep^[steps] s i) _ _

theorem distribution_sboxIndex (round : Fin 9) (i : Fin 16) (input : State) :
    distribution (fun mask => observe k input mask i (.sboxIndex round)) =
      PMF.pure (plainIndex k input round i) := by
  simp only [observe_sboxIndex]
  exact distribution_const _

theorem distribution_sboxRead (round : Fin 9) (i : Fin 16) (input : State) :
    distribution (fun mask => observe k input mask i (.sboxRead round)) =
      PMF.pure (sbox.get (plainIndex k input round i)) := by
  have hread (mask : State) : observe k input mask i (.sboxRead round) =
      sbox.get (plainIndex k input round i) :=
    congrArg sbox.get (observe_sboxIndex k input mask i round)
  simp only [hread]
  exact distribution_const _

end Distributions

end Masked
end KuznyechikDPA

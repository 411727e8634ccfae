import KuznyechikDPA.Hardware.MaskedCompleteEncryption
import KuznyechikDPA.Firmware.Leakage

/-!
# What the masked process computes on the way

The same probes on `masked_complete_encryption.vhd` in encryption mode, where round `r`
is the working edge at tour `r + 1`. The mask that the state carries at that tour is
`lStep^[r]` of the mask port, a bijection of it, so the two designs leak alike: nothing
but the table lookup depends on the plaintext, and the lookup depends on nothing else.
-/

namespace KuznyechikDPA.MaskedCompleteEncryption

open GrasshopperPkg

section Trace
variable (subKeys : Nat → Block) (plain mask : Block)

/-- The ports at the start edge of an encryption. -/
def startPorts : Ports where
  plain := plain
  subKeys := subKeys
  canStart := true
  transmitBefore := true
  encDecSel := false
  mask := mask

/-- `inter_state` and `inter_mask` before the edge at tour `r + 1`. -/
def before (r : Nat) : Shares Block := engine.stage (startPorts subKeys plain mask) r

/-- The two arguments of `masked_sStep`; the round key is added to the first. -/
def withKey (r : Nat) : Shares Block :=
  { before subKeys plain mask r with
    state := ARK (before subKeys plain mask r).state (subKeys (r + 1)) }

def substituted (r : Nat) : Block :=
  maskedSStep (withKey subKeys plain mask r).state (withKey subKeys plain mask r).mask

def observe (i : Fin 16) : Probe → Byte
  | .maskAddition => bytes (plain ^^^ mask) i
  | .addRoundKey r => bytes (withKey subKeys plain mask r).state i
  | .sboxIndex r =>
      bytes (withKey subKeys plain mask r).state i ^^^ bytes (withKey subKeys plain mask r).mask i
  | .sboxRead r =>
      sboxArray.get
        (bytes (withKey subKeys plain mask r).state i ^^^ bytes (withKey subKeys plain mask r).mask i)
  | .sboxOutput r => bytes (substituted subKeys plain mask r) i
  | .linear r steps => bytes (rStep^[steps] (substituted subKeys plain mask r)) i

theorem before_succ (r : Nat) (hr : r < 9) :
    before subKeys plain mask (r + 1) =
      ⟨lStep (substituted subKeys plain mask r), lStep (withKey subKeys plain mask r).mask⟩ := by
  have hlow : r + 1 < 10 := by omega
  have henv : (startPorts subKeys plain mask).env = ⟨false, subKeys⟩ := rfl
  rw [before, BlockEngine.stage]
  simp [engine, work, henv, hlow, substituted, withKey, before, maskedRound]

/-- The input of the substitution in a round of the unmasked design. -/
def plainIndex (r : Nat) : Block :=
  ARK (CompleteEncryption.engine.stage (startPorts subKeys plain 0).toPorts r) (subKeys (r + 1))

theorem secret_withKey (r : Nat) :
    (withKey subKeys plain mask r).secret = plainIndex subKeys plain r :=
  (Shares.secret_add _ _).trans
    (congrArg (ARK · (subKeys (r + 1))) (secret_stage (startPorts subKeys plain mask) r))

theorem mask_withKey (r : Nat) (hr : r ≤ 9) : (withKey subKeys plain mask r).mask = lStep^[r] mask :=
  (mask_stage (startPorts subKeys plain mask) r hr).trans (if_pos rfl)

theorem state_withKey (r : Nat) (hr : r ≤ 9) :
    (withKey subKeys plain mask r).state = plainIndex subKeys plain r ^^^ lStep^[r] mask := by
  rw [Shares.state_eq, secret_withKey, mask_withKey subKeys plain mask r hr]

theorem substituted_eq (r : Nat) (hr : r ≤ 9) :
    substituted subKeys plain mask r = sStep (plainIndex subKeys plain r) ^^^ lStep^[r] mask := by
  have hsecret := secret_withKey subKeys plain mask r
  rw [Shares.secret] at hsecret
  rw [substituted, maskedSStep_eq, hsecret, mask_withKey subKeys plain mask r hr]

/-- The lookup takes the mask off. -/
theorem observe_sboxIndex (i : Fin 16) (r : Fin 9) :
    observe subKeys plain mask i (.sboxIndex r) = bytes (plainIndex subKeys plain r) i := by
  rw [← secret_withKey subKeys plain mask, Shares.secret, bytes_xor]
  rfl

end Trace

/-! ## Distributions -/

section Distributions
variable (subKeys : Nat → Block)

theorem bijective_lStep_iterate (n : Nat) : Function.Bijective lStep^[n] := lStep_bijective.iterate n

/-- Everything but the table lookup looks the same for every plaintext. -/
theorem distribution_observe {probe : Probe} (h : probe.Masked) (i : Fin 16) (plain plain' : Block) :
    distribution (fun mask => observe subKeys plain mask i probe) =
      distribution fun mask => observe subKeys plain' mask i probe := by
  cases probe with
  | maskAddition => exact distribution_masked Function.bijective_id (fun v => bytes v i) _ _
  | addRoundKey r =>
    have hr : r.val ≤ 9 := by omega
    simp only [observe, state_withKey _ _ _ _ hr]
    exact distribution_masked (bijective_lStep_iterate r) (fun v => bytes v i) _ _
  | sboxIndex r => exact h.elim
  | sboxRead r => exact h.elim
  | sboxOutput r =>
    have hr : r.val ≤ 9 := by omega
    simp only [observe, substituted_eq _ _ _ _ hr]
    exact distribution_masked (bijective_lStep_iterate r) (fun v => bytes v i) _ _
  | linear r steps =>
    have hr : r.val ≤ 9 := by omega
    simp only [observe, substituted_eq _ _ _ _ hr]
    exact distribution_masked (bijective_lStep_iterate r) (fun v => bytes (rStep^[steps] v) i) _ _

theorem distribution_sboxIndex (r : Fin 9) (i : Fin 16) (plain : Block) :
    distribution (fun mask => observe subKeys plain mask i (.sboxIndex r)) =
      PMF.pure (bytes (plainIndex subKeys plain r) i) := by
  simp only [observe_sboxIndex]
  exact distribution_const _

theorem distribution_sboxRead (r : Fin 9) (i : Fin 16) (plain : Block) :
    distribution (fun mask => observe subKeys plain mask i (.sboxRead r)) =
      PMF.pure (sboxArray.get (bytes (plainIndex subKeys plain r) i)) := by
  have hread (mask : Block) : observe subKeys plain mask i (.sboxRead r) =
      sboxArray.get (bytes (plainIndex subKeys plain r) i) :=
    congrArg sboxArray.get (observe_sboxIndex subKeys plain mask i r)
  simp only [hread]
  exact distribution_const _

end Distributions

end KuznyechikDPA.MaskedCompleteEncryption

/-! ## Both designs -/

namespace KuznyechikDPA

end KuznyechikDPA

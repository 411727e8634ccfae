import KuznyechikDPA.Foundation.Feistel
import KuznyechikDPA.Hardware.ScheduleRestarts
import Mathlib.Logic.Equiv.Fin.Basic

/-!
# The last two round keys determine the master key

The key schedule is a Feistel network of 32 steps on the two halves of the master key, and
its last pair is the ninth and the tenth round key. Every pair of round keys is therefore
that of exactly one master key, in the firmware and in the device.
-/

namespace KuznyechikDPA

/-! ## The standard's schedule -/

namespace Standard

theorem keyPair_eq_network (key : Fin 32 → Byte) (n : Nat) : keyPair key n =
    Feistel.network (fun n a => L (S (X (iterationConstant (n + 1)) a))) n (keyPair key 0) := by
  induction n with
  | zero => rfl
  | succ n ih => exact congrArg (F (iterationConstant (n + 1))) ih

theorem keyPair_zero_bijective : Function.Bijective fun key : Fin 32 → Byte => keyPair key 0 :=
  (Fin.appendEquiv 16 16).symm.bijective

theorem keyPair_bijective (n : Nat) : Function.Bijective fun key : Fin 32 → Byte => keyPair key n := by
  simp only [keyPair_eq_network _ n]
  exact (Feistel.network_bijective _ n).comp keyPair_zero_bijective

end Standard

/-! ## The firmware -/

/-- `trueRoundKey[8]` and `trueRoundKey[9]` are the last pair. -/
theorem Kuznyechik.lastPair_eq (g : Globals) (key : Fin 32 → Byte) :
    ((setkey g key).trueRoundKey 8, (setkey g key).trueRoundKey 9) = Standard.keyPair key 32 := by
  rw [setkey, trueRoundKey_keyExpansion key g 8 (by decide), trueRoundKey_keyExpansion key g 9 (by decide)]
  exact Prod.ext (roundKey_even key 4) (roundKey_odd key 4)

namespace SubKeySchedule

open ResetProcess (Sample Clocked RunFrom)

/-! ## The device -/

/-- What `k9` and `k10` carry after a run with this master key. -/
def lastPair (masterkey : BitVec 256) : Block × Block := (roundKeys masterkey 9, roundKeys masterkey 10)

theorem keyBytes_bijective : Function.Bijective keyBytes := by
  constructor
  · exact toBytes_injective (n := 32)
  · exact fun key => ⟨ofBytes key, toBytes_ofBytes key⟩

theorem bytes_bijective : Function.Bijective bytes :=
  ⟨bytes_injective, fun s => ⟨block s, bytes_block s⟩⟩

theorem bytes_lastPair (masterkey : BitVec 256) :
    (bytes (lastPair masterkey).1, bytes (lastPair masterkey).2) =
      Standard.keyPair (keyBytes masterkey) 32 :=
  bytes_pair masterkey 32 le_rfl

theorem lastPair_bijective : Function.Bijective lastPair := by
  have hsemi : Prod.map bytes bytes ∘ lastPair =
      (fun key => Standard.keyPair key 32) ∘ keyBytes := funext bytes_lastPair
  have hpair := bytes_bijective.prodMap bytes_bijective
  rw [← hpair.of_comp_iff' lastPair, hsemi]
  exact (Standard.keyPair_bijective 32).comp keyBytes_bijective

/-- A reset and then an edge at every instant. -/
def oneRun (masterkey : BitVec 256) (t : Nat) : Sample (BitVec 256) where
  reset := t == 0
  rising := t != 0
  data := masterkey

theorem index_oneRun (masterkey : BitVec 256) (n : Nat) :
    (process.run (oneRun masterkey) (n + 1)).index = min n 35 := by
  induction n with
  | zero => rfl
  | succ n ih =>
    have hclock : Clocked (oneRun masterkey) (n + 1) := ⟨rfl, rfl⟩
    rw [ResetProcess.run_edge hclock]
    refine (index_edge _ (inRange_run _ _).index).1.trans ?_
    rw [ih]
    omega

theorem rises_oneRun (masterkey : BitVec 256) : Rises (oneRun masterkey) 35 :=
  rises_iff.mpr ⟨⟨rfl, rfl⟩, index_oneRun masterkey 34⟩

/-- The map from master keys to the last two round keys is a bijection: that of the firmware,
whatever it has computed before, and that of the device, whatever its runs have been. -/
theorem lastRoundKeys_bijective :
    (∀ g, Function.Bijective fun key =>
      ((Kuznyechik.setkey g key).trueRoundKey 8, (Kuznyechik.setkey g key).trueRoundKey 9)) ∧
    ∃ last : BitVec 256 → Block × Block, Function.Bijective last ∧
      (∀ p t, Rises p t → ∃ r t₀, RunFrom p r (t + 1) ∧ r < t₀ ∧ t₀ < t ∧ EdgeAt p 0 t₀ ∧
        ((process.run p (t + 1)).k 9, (process.run p (t + 1)).k 10) = last (p t₀).data) ∧
      ∀ masterkey, ∃ p t, (∀ u, (p u).data = masterkey) ∧ Rises p t := by
  constructor
  · intro g
    simp only [Kuznyechik.lastPair_eq]
    exact Standard.keyPair_bijective 32
  · refine ⟨lastPair, lastPair_bijective, ?_, ?_⟩
    · intro p t hrises
      obtain ⟨r, t₀, hrun, hr, ht, hload, hkeys⟩ := keys_of_rises hrises
      refine ⟨r, t₀, hrun, hr, ht, hload, ?_⟩
      rw [hkeys]
      rfl
    · exact fun masterkey => ⟨oneRun masterkey, 35, fun _ => rfl, rises_oneRun masterkey⟩

end SubKeySchedule
end KuznyechikDPA

import KuznyechikDPA.Hardware.CompleteEncryption
import KuznyechikDPA.Hardware.SubKeySchedule
import Mathlib.Order.Monotone.Basic
import Mathlib.Data.Nat.Count

/-!
# Key schedule and encryption on their common clock

`Sub_Key_Schedule` feeds `complete_encryption` with its key ports and, as `can_start`,
with `terminated`. One step is one instant at which `LOWclk` may rise and at which the
asynchronous resets of the two processes, `full_data` and `reset`, are sampled. At an
edge the encryption reads the outputs of the schedule from before the edge.
-/

namespace KuznyechikDPA.Core

structure Sample where
  rising : Bool
  fullData : Bool
  reset : Bool
  plain : Block
  transmitBefore : Bool
  encDecSel : Bool

@[ext] structure Registers where
  sks : SubKeySchedule.Registers
  encrypt : CompleteEncryption.Registers

def Registers.init : Registers where
  sks := .init
  encrypt := .init

/-- The port map of `encrypt`. -/
def ports (e : Sample) (s : Registers) : CompleteEncryption.Ports where
  plain := e.plain
  subKeys := s.sks.k
  canStart := s.sks.terminated
  transmitBefore := e.transmitBefore
  encDecSel := e.encDecSel

def step (masterkey : BitVec 256) (e : Sample) (s : Registers) : Registers where
  sks :=
    if e.fullData then SubKeySchedule.reset s.sks
    else if e.rising then SubKeySchedule.edge masterkey s.sks
    else s.sks
  encrypt :=
    if e.reset then CompleteEncryption.reset s.encrypt
    else if e.rising then CompleteEncryption.edge (ports e s) s.encrypt
    else s.encrypt

/-! ## The keys -/

section Keys
variable (masterkey : BitVec 256)
open SubKeySchedule (Valid roundKeys)

theorem valid_step (e : Sample) (s : Registers) (h : Valid masterkey s.sks) :
    Valid masterkey (step masterkey e s).sks := by
  unfold step
  cases e.fullData
  · cases e.rising
    · exact h
    · exact SubKeySchedule.valid_edge masterkey h
  · exact SubKeySchedule.valid_reset masterkey h

theorem valid_run (input : Nat → Sample) (t : Nat) :
    Valid masterkey (Machine.run (step masterkey) .init input t).sks :=
  Machine.run_invariant (I := fun s : Registers => Valid masterkey s.sks) input
    (SubKeySchedule.valid_init masterkey) (valid_step masterkey) t

theorem ready_step (e : Sample) {s : Registers} (h : Valid masterkey s.sks)
    (hk : s.sks.k = roundKeys masterkey) : (step masterkey e s).sks.k = roundKeys masterkey := by
  unfold step
  cases e.fullData
  · cases e.rising
    · exact hk
    · exact SubKeySchedule.ready_edge masterkey h hk
  · exact hk

/-- From the moment `terminated` has been signalled the key ports never change again. -/
theorem ready_after (input : Nat → Sample) (t : Nat)
    (hdone : (Machine.run (step masterkey) .init input t).sks.terminated = true) (j : Nat) :
    (Machine.run (step masterkey) .init input (t + j)).sks.k = roundKeys masterkey := by
  induction j with
  | zero => exact (valid_run masterkey input t).done hdone
  | succ j ih => exact ready_step masterkey _ (valid_run masterkey input (t + j)) ih

end Keys

/-! ## One block -/

section Block
variable (masterkey : BitVec 256) (input : Nat → Sample) (t n : Nat)

/-- At instant `t` the encryption, at rest, samples `can_start` high; up to the `n`-th
instant after that there is no reset and `enc_dec_sel` is stable. -/
structure Starts : Prop where
  terminated : (Machine.run (step masterkey) .init input t).sks.terminated = true
  rest : (Machine.run (step masterkey) .init input t).encrypt.tour = 0
  rising : (input t).rising = true
  quiet : ∀ j ≤ n, (input (t + j)).reset = false
  stable : ∀ j ≤ n, (input (t + j)).encDecSel = (input t).encDecSel

/-- How many of the `n` instants after `t` are edges of the slow clock. -/
def edgesAfter : Nat := Nat.count (fun j => (input (t + 1 + j)).rising = true) n

variable {masterkey input t n}

theorem Starts.env (h : Starts masterkey input t n) (j : Nat) (hj : j ≤ n) :
    (ports (input (t + j)) (Machine.run (step masterkey) .init input (t + j))).env =
      ⟨(input t).encDecSel, SubKeySchedule.roundKeys masterkey⟩ := by
  rw [CompleteEncryption.Ports.env, ports, h.stable j hj,
    ready_after masterkey input t h.terminated j]

theorem encrypt_step {e : Sample} {s : Registers} (hreset : e.reset = false) :
    (step masterkey e s).encrypt =
      if e.rising then CompleteEncryption.edge (ports e s) s.encrypt else s.encrypt := by
  simp only [step, hreset, Bool.false_eq_true, if_false]

/-- As many working edges as slow clock edges have passed. -/
theorem working_after (h : Starts masterkey input t (n + 1))
    (hcount : edgesAfter input t n ≤ 10) :
    CompleteEncryption.engine.Working
      (ports (input t) (Machine.run (step masterkey) .init input t)) (edgesAfter input t n)
      (Machine.run (step masterkey) .init input (t + 1 + n)).encrypt.toEngine := by
  induction n with
  | zero =>
    have hstart : (input t).reset = false := h.quiet 0 (by omega)
    rw [Nat.add_zero, Machine.run_succ, encrypt_step hstart, if_pos h.rising,
      CompleteEncryption.toEngine_edge]
    exact CompleteEncryption.engine.working_start h.rest h.terminated
  | succ n ih =>
    have hpos : t + 1 + n = t + (n + 1) := by ring
    have hshort : Starts masterkey input t (n + 1) :=
      ⟨h.terminated, h.rest, h.rising, fun j hj => h.quiet j (by omega),
        fun j hj => h.stable j (by omega)⟩
    rw [edgesAfter, Nat.count_succ] at hcount ⊢
    rw [← Nat.add_assoc, Machine.run_succ, encrypt_step (hpos ▸ h.quiet (n + 1) (by omega))]
    have hwork := ih hshort (by unfold edgesAfter; omega)
    by_cases hrise : (input (t + 1 + n)).rising = true
    · rw [if_pos hrise, if_pos hrise, CompleteEncryption.toEngine_edge]
      rw [if_pos hrise] at hcount
      refine CompleteEncryption.engine.working_step hwork (Nat.lt_of_succ_le hcount) ?_
      have henv := h.env (n + 1) (by omega)
      rw [← hpos] at henv
      exact henv.trans (h.env 0 (by omega)).symm
    · rw [if_neg hrise, if_neg hrise]
      exact hwork

/-- The eleventh slow clock edge after the start finds the encryption at tour 11 and loads what
the firmware computes after `kuznyechik_setkey` with the same key. -/
theorem cipher_eq_firmware (g : Kuznyechik.Globals) (h : Starts masterkey input t (n + 1))
    (hcount : edgesAfter input t n = 10) (hlast : (input (t + 1 + n)).rising = true) :
    (Machine.run (step masterkey) .init input (t + 1 + n)).encrypt.tour = 11 ∧
      bytes (Machine.run (step masterkey) .init input (t + 2 + n)).encrypt.cipher =
        (let g := Kuznyechik.setkey g (SubKeySchedule.keyBytes masterkey)
         let block := bytes (input t).plain
         if (input t).encDecSel = false then Kuznyechik.crypto g block
         else Kuznyechik.decrypto g block) := by
  have hwork := working_after h (by omega)
  rw [hcount] at hwork
  refine ⟨hwork.tour, ?_⟩
  have hnext : t + 2 + n = t + 1 + n + 1 := by ring
  have hreset : (input (t + 1 + n)).reset = false := by
    have hq := h.quiet (n + 1) le_rfl
    have hpos : t + (n + 1) = t + 1 + n := by omega
    rwa [hpos] at hq
  have hcipher := CompleteEncryption.engine.output_of_working
    (i := ports (input (t + 1 + n)) (Machine.run (step masterkey) .init input (t + 1 + n))) hwork
  rw [CompleteEncryption.blockResult_eq, ← CompleteEncryption.toEngine_edge] at hcipher
  have henv := h.env 0 (by omega)
  rw [Nat.add_zero] at henv
  rw [hnext, Machine.run_succ, encrypt_step hreset, if_pos hlast]
  refine (congrArg bytes hcipher).trans ?_
  rw [henv]
  have hkeys := SubKeySchedule.bytes_roundKeys masterkey g
  cases (input t).encDecSel
  · exact CompleteEncryption.bytes_transform_encrypt hkeys _
  · exact CompleteEncryption.bytes_transform_decrypt hkeys _

end Block

/-- One pulse of `full_data`, then a slow clock edge at every instant. -/
def pulseInput (plain : Block) (t : Nat) : Sample where
  rising := t != 0
  fullData := t == 0
  reset := false
  plain := plain
  transmitBefore := true
  encDecSel := false

/-- The master key of `UART_STANDARD_COMPLETE`. -/
def masterkey : BitVec 256 := 0x8899aabbccddeeff0011223344556677fedcba98765432100123456789abcdef

theorem cipher_eq_firmware_pulse :
    bytes (Machine.run (step masterkey) .init
        (pulseInput 0x1122334455667700ffeeddccbbaa9988) 48).encrypt.cipher =
      Kuznyechik.crypto (Kuznyechik.setkey .init (SubKeySchedule.keyBytes masterkey))
        (bytes 0x1122334455667700ffeeddccbbaa9988) :=
  have hstarts : Starts masterkey (pulseInput 0x1122334455667700ffeeddccbbaa9988) 36 11 :=
    ⟨by decide +kernel, by decide +kernel, by decide, by decide, by decide⟩
  (cipher_eq_firmware (n := 10) .init hstarts (by decide) (by decide)).2

end KuznyechikDPA.Core

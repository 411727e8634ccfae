import KuznyechikDPA.Hardware.PkgRefinement
import KuznyechikDPA.Firmware.Inverse
import KuznyechikDPA.Foundation.BlockEngine

/-!
# The process of `complete_encryption.vhd`

`edge` is the branch taken at a rising edge of `clk`: every right-hand side reads the
registers before the edge. The key ports are one function read at `1, ..., 10`, as the
array `subKeys` is. Ports that VHDL leaves undefined at power-up are zero here; `'U'` is
not `'1'`, and nothing reads `cipher` before it is loaded.
-/

namespace KuznyechikDPA.CompleteEncryption

open GrasshopperPkg

structure Ports where
  plain : Block
  subKeys : Nat → Block
  canStart : Bool
  transmitBefore : Bool
  encDecSel : Bool

@[ext] structure Registers where
  tour : Nat
  interState : Block
  memCipher : Block
  cipher : Block
  canTransmit : Bool

def Registers.init : Registers where
  tour := 0
  interState := 0
  memCipher := 0
  cipher := 0
  canTransmit := false

/-- The branch `reset = '1'`, taken at any time; `mem_cipher` is not cleared. -/
def reset (s : Registers) : Registers := { s with cipher := 0, canTransmit := false, tour := 0 }

/-- The branch `tour = 11`, the same in both modes. -/
def finish (p : Ports) (s : Registers) : Registers :=
  if p.transmitBefore ∧ s.memCipher ≠ s.interState then
    { s with cipher := s.interState, canTransmit := true, memCipher := s.interState }
  else
    { s with cipher := s.interState, canTransmit := false, tour := 0 }

def edge (p : Ports) (s : Registers) : Registers :=
  if p.encDecSel = false then
    if s.tour = 0 then
      if p.canStart then { s with tour := 1, interState := p.plain, canTransmit := false } else s
    else if s.tour < 10 then
      { s with interState := GrasshopperPkg.round s.interState (p.subKeys s.tour), tour := s.tour + 1 }
    else if s.tour = 10 then
      { s with interState := ARK s.interState (p.subKeys s.tour), tour := s.tour + 1 }
    else if s.tour = 11 then finish p s
    else s
  else
    if s.tour = 0 then
      if p.canStart then { s with tour := 1, interState := p.plain, canTransmit := false } else s
    else if s.tour < 10 then
      { s with interState := invRound s.interState (p.subKeys (11 - s.tour)), tour := s.tour + 1 }
    else if s.tour = 10 then
      { s with interState := ARK s.interState (p.subKeys 1), tour := s.tour + 1 }
    else if s.tour = 11 then finish p s
    else s

/-! ## The process as a block engine -/

/-- Mode and round keys, what the working edges read. -/
structure Env where
  encDecSel : Bool
  subKeys : Nat → Block

def Ports.env (p : Ports) : Env := ⟨p.encDecSel, p.subKeys⟩

def work (env : Env) (tour : Nat) (state : Block) : Block :=
  if env.encDecSel = false then
    if tour < 10 then GrasshopperPkg.round state (env.subKeys tour) else ARK state (env.subKeys 10)
  else
    if tour < 10 then invRound state (env.subKeys (11 - tour)) else ARK state (env.subKeys 1)

def engine : BlockEngine Ports Env Block Block where
  starts := Ports.canStart
  ready := Ports.transmitBefore
  env := Ports.env
  load := Ports.plain
  work := work
  tours := 10
  result := id
  mark := id

def Registers.toEngine (s : Registers) : BlockEngine.Registers Block Block where
  tour := s.tour
  datum := s.interState
  memory := s.memCipher
  output := s.cipher
  transmit := s.canTransmit

theorem toEngine_finish (p : Ports) (s : Registers) :
    (finish p s).toEngine = engine.publish p s.toEngine := apply_ite Registers.toEngine _ _ _

/-- The two modes differ in `work` only. -/
theorem edge_eq (p : Ports) (s : Registers) :
    edge p s =
      if s.tour = 0 then
        if p.canStart then { s with tour := 1, interState := p.plain, canTransmit := false } else s
      else if s.tour ≤ 10 then
        { s with interState := work p.env s.tour s.interState, tour := s.tour + 1 }
      else if s.tour = 11 then finish p s
      else s := by
  obtain h | h | h | h : s.tour = 0 ∨ (s.tour ≠ 0 ∧ s.tour < 10) ∨ s.tour = 10 ∨ 10 < s.tour := by
    omega
  · simp [edge, h]
  · simp [edge, work, Ports.env, h, h.2.le]
    split <;> rfl
  · simp [edge, work, Ports.env, h]
    split <;> rfl
  · have hzero : s.tour ≠ 0 := by omega
    have hlow : ¬ s.tour < 10 := by omega
    have hten : s.tour ≠ 10 := by omega
    have hlate : ¬ s.tour ≤ 10 := by omega
    simp [edge, hzero, hlow, hten, hlate]

theorem toEngine_edge (p : Ports) (s : Registers) :
    (edge p s).toEngine = engine.edge p s.toEngine := by
  rw [edge_eq, BlockEngine.edge, ← toEngine_finish]
  simp only [apply_ite Registers.toEngine]
  rfl

/-! ## The value of a block -/

/-- What the working edges make of a block: nine rounds and a last key addition. -/
def transform (env : Env) (plain : Block) : Block :=
  work env 10 ((List.range 9).foldl (fun state r => work env (r + 1) state) plain)

theorem stage_eq (p : Ports) (n : Nat) :
    engine.stage p n = (List.range n).foldl (fun state r => work p.env (r + 1) state) p.plain := by
  induction n with
  | zero => rfl
  | succ n ih =>
    rw [List.range_succ, List.foldl_append, BlockEngine.stage, ih]
    rfl

theorem blockResult_eq (p : Ports) : engine.blockResult p = transform p.env p.plain := by
  rw [BlockEngine.blockResult, stage_eq]
  rfl

/-- The samples of a run that starts with the block `plain`, mode and keys held through tour 11;
the other ports may do anything after the start edge. -/
structure Presents (env : Env) (plain : Block) (p : Nat → Ports) : Prop where
  start : (p 0).canStart = true
  plain : (p 0).plain = plain
  env : ∀ t ≤ 11, (p t).env = env

theorem run_cipher {env : Env} {plain : Block} {p : Nat → Ports} (hp : Presents env plain p)
    {s : Registers} (hs : s.tour = 0) :
    (Machine.run edge s p 11).tour = 11 ∧
      (Machine.run edge s p 12).cipher = transform env plain := by
  have hrun := Machine.run_hom (s := s) p toEngine_edge
  have henv (t : Nat) (ht : t ≤ 10) : (p t).env = (p 0).env := by
    rw [hp.env t (by omega), hp.env 0 (by omega)]
  obtain ⟨htour, hout⟩ := engine.run_output (s := s.toEngine) hs hp.start henv
  rw [← hrun] at htour hout
  refine ⟨htour, hout.trans ?_⟩
  rw [blockResult_eq, hp.env 0 (by omega), hp.plain]

section Firmware
variable {k : Nat → State} {subKeys : Nat → Block}
variable (h : ∀ round < 10, bytes (subKeys (round + 1)) = k round)
include h

theorem bytes_work_encrypt (r : Nat) (hr : r < 9) (state : Block) :
    bytes (work ⟨false, subKeys⟩ (r + 1) state) = Kuznyechik.encRound k (bytes state) r := by
  rw [work, if_pos rfl, if_pos (by omega), bytes_round, h r (by omega)]
  rfl

theorem bytes_work_decrypt (r : Nat) (hr : r < 9) (state : Block) :
    bytes (work ⟨true, subKeys⟩ (r + 1) state) = Kuznyechik.decRound k (bytes state) (9 - r) := by
  have hkey : 11 - (r + 1) = 9 - r + 1 := by omega
  rw [work, if_neg (by simp), if_pos (by omega), bytes_invRound, hkey, h (9 - r) (by omega)]
  rfl

theorem bytes_transform_encrypt (plain : Block) :
    bytes (transform ⟨false, subKeys⟩ plain) = Kuznyechik.cipher k (bytes plain) := by
  have hrounds := List.foldl_rel (l := List.range 9) (r := fun v s => bytes v = s)
    (f := fun state r => work ⟨false, subKeys⟩ (r + 1) state) (g := Kuznyechik.encRound k)
    (a := plain) rfl fun r hr v s hv => by
      rw [bytes_work_encrypt h r (List.mem_range.mp hr), hv]
  rw [transform, work, if_pos rfl, if_neg (by omega), ARK, bytes_xor, hrounds, h 9 (by omega)]
  rfl

theorem bytes_transform_decrypt (plain : Block) :
    bytes (transform ⟨true, subKeys⟩ plain) = Kuznyechik.invCipher k (bytes plain) := by
  have hrounds := List.foldl_rel (l := List.range 9) (r := fun v s => bytes v = s)
    (f := fun state r => work ⟨true, subKeys⟩ (r + 1) state)
    (g := fun s r => Kuznyechik.decRound k s (9 - r)) (a := plain) rfl fun r hr v s hv => by
      rw [bytes_work_decrypt h r (List.mem_range.mp hr), hv]
  rw [transform, work, if_neg (by simp), if_neg (by omega), ARK, bytes_xor, hrounds, h 0 (by omega)]
  have hdown : [9, 8, 7, 6, 5, 4, 3, 2, 1] = (List.range 9).map fun r => 9 - r := by decide
  rw [Kuznyechik.invCipher, hdown, List.foldl_map]
  rfl

end Firmware

end KuznyechikDPA.CompleteEncryption

import KuznyechikDPA.Hardware.MaskedCompleteEncryption
import KuznyechikDPA.Foundation.Replies

/-!
# Which blocks are answered

The host of `Multiple_acquisitions.py` sends a block and waits for the reply. Over runs
of either design in which every block is presented at tour 0 and is finished while
`transmit_before` is high, `mem_cipher` decides what is answered: a block whose
`inter_state` at tour 11 equals the remembered one gets no reply.
-/

namespace KuznyechikDPA

open GrasshopperPkg

/-! ## The unmasked design -/

namespace CompleteEncryption

/-- The samples with a `can_start` pulse. -/
def presented (p : Nat → Ports) (T : Nat) : List Ports :=
  ((List.range T).map p).filter Ports.canStart

/-- What `cipher` holds, once for every clock period in which `can_transmit` is high. -/
def replies (p : Nat → Ports) (T : Nat) : List Block :=
  ((List.range T).map fun t => Machine.run edge .init p (t + 1)).flatMap
    fun s => if s.canTransmit then [s.cipher] else []

structure HostWaits (p : Nat → Ports) (T : Nat) : Prop where
  prompt : ∀ t < T, (p t).canStart = true → (Machine.run edge .init p t).tour = 0
  ready : ∀ t < T, (Machine.run edge .init p t).tour = 11 →
    (Machine.run edge .init p t).canTransmit = false → (p t).transmitBefore = true
  steady : ∀ t, t + 1 < T → (Machine.run edge .init p (t + 1)).tour ≠ 0 →
    (p (t + 1)).env = (p t).env
  rest : (Machine.run edge .init p T).tour = 0

def result (p : Ports) : Block := transform p.env p.plain

theorem toEngine_run (p : Nat → Ports) :
    (fun t => (Machine.run edge .init p t).toEngine) =
      Machine.run engine.edge Registers.init.toEngine p :=
  funext (Machine.run_hom p toEngine_edge)

theorem hostWaits_iff (p : Nat → Ports) (T : Nat) :
    HostWaits p T ↔
      engine.Orderly (Machine.run engine.edge Registers.init.toEngine p) p T := by
  rw [← toEngine_run]
  constructor
  · exact fun h => ⟨h.prompt, h.ready, h.steady, h.rest⟩
  · exact fun h => ⟨h.prompt, h.ready, h.steady, h.rest⟩

theorem replies_complete {p : Nat → Ports} {T : Nat} (h : HostWaits p T) :
    replies p T = (presented p T).map result ↔
      List.IsChain (· ≠ ·) (0 :: (presented p T).map result) := by
  have hreplies : replies p T =
      BlockEngine.replies (fun t => (Machine.run edge .init p t).toEngine) T := by
    rw [replies, BlockEngine.replies, List.flatMap_map, List.flatMap_map]
    rfl
  have hresult : engine.blockResult = result := funext blockResult_eq
  have hmark : engine.blockMark = result := hresult
  have hiff := BlockEngine.replies_complete_iff rfl rfl ((hostWaits_iff _ T).mp h)
  rw [hresult, hmark, ← toEngine_run, ← hreplies] at hiff
  exact hiff

end CompleteEncryption

/-! ## The masked design -/

namespace MaskedCompleteEncryption

def presented (q : Nat → Ports) (T : Nat) : List Ports :=
  ((List.range T).map q).filter fun p => p.canStart

def replies (q : Nat → Ports) (T : Nat) : List Block :=
  ((List.range T).map fun t => Machine.run edge .init q (t + 1)).flatMap
    fun s => if s.canTransmit then [s.cipher] else []

structure HostWaits (q : Nat → Ports) (T : Nat) : Prop where
  prompt : ∀ t < T, (q t).canStart = true → (Machine.run edge .init q t).tour = 0
  ready : ∀ t < T, (Machine.run edge .init q t).tour = 11 →
    (Machine.run edge .init q t).canTransmit = false → (q t).transmitBefore = true
  steady : ∀ t, t + 1 < T → (Machine.run edge .init q (t + 1)).tour ≠ 0 →
    (q (t + 1)).env = (q t).env
  rest : (Machine.run edge .init q T).tour = 0

def result (q : Ports) : Block := CompleteEncryption.transform q.env q.plain

/-- The mask of a block after nine moves through the linear layer of its direction. -/
def movedMask (q : Ports) : Block :=
  if q.encDecSel = false then lStep^[9] q.mask else invLStep^[9] q.mask

/-- The masked state that `mem_cipher` is compared with. -/
def maskedResult (q : Ports) : Block := result q ^^^ movedMask q

theorem blockMark_eq (q : Ports) : engine.blockMark q = maskedResult q := by
  have hlast : (engine.stage q 10).mask = (engine.stage q 9).mask := by
    cases hsel : q.encDecSel <;>
      simp [BlockEngine.stage, engine, work, CompleteEncryption.Ports.env, hsel]
  have hsecret : (engine.stage q 10).secret = result q := blockResult_eq q
  have hmask : (engine.stage q 10).mask = movedMask q := hlast.trans (mask_stage q 9 le_rfl)
  rw [maskedResult, ← hsecret, ← hmask]
  exact (xor_cancel_right _ _).symm

theorem toEngine_run (q : Nat → Ports) :
    (fun t => (Machine.run edge .init q t).toEngine) =
      Machine.run engine.edge Registers.init.toEngine q :=
  funext (Machine.run_hom q toEngine_edge)

theorem hostWaits_iff (q : Nat → Ports) (T : Nat) :
    HostWaits q T ↔
      engine.Orderly (Machine.run engine.edge Registers.init.toEngine q) q T := by
  rw [← toEngine_run]
  constructor
  · exact fun h => ⟨h.prompt, h.ready, h.steady, h.rest⟩
  · exact fun h => ⟨h.prompt, h.ready, h.steady, h.rest⟩

theorem replies_complete {q : Nat → Ports} {T : Nat} (h : HostWaits q T) :
    replies q T = (presented q T).map result ↔
      List.IsChain (· ≠ ·) (0 :: (presented q T).map maskedResult) := by
  have hreplies : replies q T =
      BlockEngine.replies (fun t => (Machine.run edge .init q t).toEngine) T := by
    rw [replies, BlockEngine.replies, List.flatMap_map, List.flatMap_map]
    rfl
  have hresult : engine.blockResult = result := funext blockResult_eq
  have hmark : engine.blockMark = maskedResult := funext blockMark_eq
  have hiff := BlockEngine.replies_complete_iff rfl rfl ((hostWaits_iff _ T).mp h)
  rw [hresult, hmark, ← toEngine_run, ← hreplies] at hiff
  exact hiff

end MaskedCompleteEncryption

/-! ## Both designs -/

/-- Under a host that waits, no reply is lost if and only if the first result is not zero and
no result equals the one before it; the masked design looks at the masked results. -/
theorem no_lost_replies_iff {p : Nat → CompleteEncryption.Ports} {T : Nat}
    (hp : CompleteEncryption.HostWaits p T) {q : Nat → MaskedCompleteEncryption.Ports} {U : Nat}
    (hq : MaskedCompleteEncryption.HostWaits q U) :
    (CompleteEncryption.replies p T =
        (CompleteEncryption.presented p T).map CompleteEncryption.result ↔
      List.IsChain (· ≠ ·)
        (0 :: (CompleteEncryption.presented p T).map CompleteEncryption.result)) ∧
    (MaskedCompleteEncryption.replies q U =
        (MaskedCompleteEncryption.presented q U).map MaskedCompleteEncryption.result ↔
      List.IsChain (· ≠ ·)
        (0 :: (MaskedCompleteEncryption.presented q U).map
          MaskedCompleteEncryption.maskedResult)) :=
  ⟨CompleteEncryption.replies_complete hp, MaskedCompleteEncryption.replies_complete hq⟩

/-- One block presented twice under one mask, to a receiver that is always ready. -/
def twice (plain mask : Block) (t : Nat) : MaskedCompleteEncryption.Ports where
  plain := plain
  subKeys := fun _ => 0x8899aabbccddeeff0011223344556677
  canStart := t == 0 || t == 13
  transmitBefore := true
  encDecSel := false
  mask := mask

theorem twice_canStart (plain mask : Block) (t : Nat) :
    (twice plain mask t).canStart = true ↔ t = 0 ∨ t = 13 := by
  simp [twice]

theorem twice_env (plain mask : Block) (t : Nat) :
    (twice plain mask t).env = ⟨false, fun _ => 0x8899aabbccddeeff0011223344556677⟩ := rfl

theorem CompleteEncryption.hostWaits_twice (plain mask : Block) :
    CompleteEncryption.HostWaits (fun t => (twice plain mask t).toPorts) 26 := by
  rw [CompleteEncryption.hostWaits_iff]
  exact CompleteEncryption.engine.orderly_pair rfl (n := 13) rfl
    (fun t _ => twice_canStart plain mask t) (fun _ => rfl)
    (fun t => (twice_env plain mask t).trans (twice_env plain mask 0).symm)

theorem MaskedCompleteEncryption.hostWaits_twice (plain mask : Block) :
    MaskedCompleteEncryption.HostWaits (twice plain mask) 26 := by
  rw [MaskedCompleteEncryption.hostWaits_iff]
  exact MaskedCompleteEncryption.engine.orderly_pair rfl (n := 13) rfl
    (fun t _ => twice_canStart plain mask t) (fun _ => rfl)
    (fun t => (twice_env plain mask t).trans (twice_env plain mask 0).symm)

theorem not_isChain_ne_twice (m r : Block) : ¬ List.IsChain (· ≠ ·) [m, r, r] := by simp

/-- Neither design answers the second of two equal blocks under one mask. -/
theorem no_lost_replies_iff_twice :
    CompleteEncryption.replies (fun t => (twice 1 0xff t).toPorts) 26 ≠
        (CompleteEncryption.presented (fun t => (twice 1 0xff t).toPorts) 26).map
          CompleteEncryption.result ∧
      MaskedCompleteEncryption.replies (twice 1 0xff) 26 ≠
        (MaskedCompleteEncryption.presented (twice 1 0xff) 26).map
          MaskedCompleteEncryption.result := by
  obtain ⟨hplain, hmasked⟩ := no_lost_replies_iff (CompleteEncryption.hostWaits_twice 1 0xff)
    (MaskedCompleteEncryption.hostWaits_twice 1 0xff)
  constructor
  · rw [ne_eq, hplain]
    exact not_isChain_ne_twice 0 (CompleteEncryption.result (twice 1 0xff 0).toPorts)
  · rw [ne_eq, hmasked]
    exact not_isChain_ne_twice 0 (MaskedCompleteEncryption.maskedResult (twice 1 0xff 0))

theorem second_reply_lost :
    ¬ ∀ (p : Nat → CompleteEncryption.Ports) (T : Nat), CompleteEncryption.HostWaits p T →
      CompleteEncryption.replies p T =
        (CompleteEncryption.presented p T).map CompleteEncryption.result := by
  intro h
  have hwaits := CompleteEncryption.hostWaits_twice 0 0
  have hchain := (CompleteEncryption.replies_complete hwaits).mp (h _ _ hwaits)
  exact not_isChain_ne_twice 0 (CompleteEncryption.result (twice 0 0 0).toPorts) hchain

end KuznyechikDPA

import KuznyechikDPA.Hardware.ReplyPath

/-!
# Replies of seventeen bytes

A reply is loaded as the sixteen bytes of `cipher` and a zero byte, and leaves collector and
transmitter as idle as it has found them. Only a reset that comes at the wrap of the bit counter
makes a difference: until the next reply `number_bits` goes on counting, and a reply that begins
at the wrong count loses its first byte.
-/

namespace KuznyechikDPA
namespace ReplyPath

open TUart (maxClkCount)

/-- From the idle instant `a` on all replies are loaded as they are due, and after each of them collector
and transmitter are idle again, with `done_transmit` high. -/
structure Serialised (g : UartGenerics) (input : Nat → Input) (a : Nat) : Prop where
  loads : ∀ n, Idle (run g input (a + n)) → collected (loaded g input) a n = collected (due g input) a n
  returns : ∀ n, ∃ m ≥ n, Idle (run g input (a + m))
  done : ∀ n > 0, Idle (run g input (a + n)) → (run g input (a + n)).txColl.doneTransmit = true

variable {g : UartGenerics} {input : Nat → Input} {a : Nat}

theorem collected_due {t m : Nat} (hm : 0 < m) (hidle : Idle (run g input t))
    (hstart : (input t).startTransmit = true) (hbusy : ∀ j, 0 < j → j < m → ¬ Idle (run g input (t + j))) :
    collected (due g input) t m = List.ofFn (bytes (input t).cipher) ++ [0] := by
  obtain ⟨n, rfl⟩ := Nat.exists_eq_add_of_le hm
  have hnone : collected (due g input) (t + 1) n = [] := by
    refine collected_nil fun k hk => if_neg fun hall => ?_
    rw [Nat.add_assoc] at hall
    exact hbusy (1 + k) (by omega) (by omega) hall.1
  rw [collected_add, collected_one, hnone, List.append_nil, due, if_pos ⟨hidle, hstart⟩]

theorem temp_of_start {t : Nat} (hidle : Idle (run g input t)) (hstart : (input t).startTransmit = true)
    (hrising : (input t).rising = true) (hreset : (input t).reset = false) :
    (run g input (t + 1)).txColl.tempTxReady = true := by
  have hedge := TxCollecteur.edge_offer (p := txCollPorts (input t) (run g input t))
    (Nat.le_of_eq hidle.1) hidle.2.1 (fun _ => hstart) hidle.2.2
  rw [coll_edge g input hrising hreset, hedge]

section Session
variable (h : Session g input a)
include h

theorem Session.idle_next {t : Nat} (ht : a ≤ t) (hidle : Idle (run g input t))
    (hquiet : (input t).startTransmit = false) : Idle (run g input (t + 1)) := by
  obtain ⟨hready, hstart⟩ := hidle.ready g (invariant_run g input t)
  have hedge := TxCollecteur.edge_hold (p := txCollPorts (input t) (run g input t))
    (Nat.le_of_eq hidle.1) (fun _ => hquiet) (fun hne => absurd hidle.1 hne)
  have hwait := hready.wait (p := txCompPorts (input t) (run g input t)) (h.reset t ht) hstart
  rw [← h.coll ht] at hedge
  rw [← h.comp ht] at hwait
  refine ⟨?_, ?_, hwait.ready⟩
  · rw [hedge]
    exact hidle.1
  · rw [hedge]
    exact hidle.2.1

theorem Session.done {t : Nat} (ht : a ≤ t) (hidle : Idle (run g input (t + 1))) :
    (run g input (t + 1)).txColl.doneTransmit = true := by
  obtain ⟨hcpt, htemp, -⟩ := hidle
  rw [h.coll ht] at hcpt htemp ⊢
  exact TxCollecteur.doneTransmit_edge _ (invariant_run g input t).cpt hcpt htemp

theorem Session.episodes (hN : 3 ≤ maxClkCount g) :
    Episodes a (fun t => Idle (run g input t)) (fun t => (input t).startTransmit = true)
      (fun t => ¬ Stuck (run g input t)) (loaded g input) (due g input) where
  wait t ht hidle hquiet := by
    have hinit := (TUart.txReady_iff.mp hidle.2.2).1
    have hnone : loaded g input t = [] := by
      rw [h.loaded_eq ht]
      exact TUart.loaded_of_ne (by rw [hinit]; decide)
    refine ⟨h.idle_next ht hidle (Bool.eq_false_iff.mpr hquiet), ?_⟩
    rw [hnone, due, if_neg fun hall => hquiet hall.2]
  job t ht hidle hstart := by
    obtain ⟨m, hm, hnext, hbusy, hstuck, hfree⟩ := h.reply hN ht hidle hstart
    refine ⟨m, hm, hnext, hbusy, ?_⟩
    rw [collected_due hm hidle hstart hbusy]
    have hfull : rest (input t).cipher 16 = List.ofFn (bytes (input t).cipher) ++ [0] :=
      rest_eq (input t).cipher (Nat.le_refl 16)
    constructor
    · intro heq hbad
      rw [hstuck hbad, ← hfull] at heq
      exact absurd (congrArg List.length heq) (Nat.ne_of_lt (Nat.lt_succ_self _))
    · intro hgood
      rw [hfree hgood, hfull]

/-- All replies of a session are right exactly when none of them begins with `shift_data` high and
`number_bits` at 7. -/
theorem serialised_iff (hN : 3 ≤ maxClkCount g) : Serialised g input a ↔
    ∀ n, Idle (run g input (a + n)) → (input (a + n)).startTransmit = true → ¬ Stuck (run g input (a + n)) := by
  have hepisodes := h.episodes hN
  rw [← hepisodes.collected_eq_iff h.idle]
  refine ⟨fun hall => hall.loads, fun hloads => ⟨hloads, hepisodes.returns h.idle, fun n hn => ?_⟩⟩
  obtain ⟨k, rfl⟩ := Nat.exists_eq_add_of_le hn
  rw [Nat.add_comm 1 k, ← Nat.add_assoc]
  exact h.done (Nat.le_add_right a k)

end Session

/-- A reply from power-up, with a short bit time. -/
theorem serialised_iff_once : Serialised ⟨3, 1⟩ (fun t => ⟨true, false, 0x0102, t == 2 || t == 3⟩) 2 := by
  have hrun : Idle (run ⟨3, 1⟩ (fun t => ⟨true, false, 0x0102, t == 2 || t == 3⟩) 2) := by decide
  have hlater : ¬ (run ⟨3, 1⟩ (fun t => ⟨true, false, 0x0102, t == 2 || t == 3⟩) 3).txColl.tempTxReady =
      false := by decide
  have htimes {t : Nat} (hstart : (t == 2 || t == 3) = true) : t = 2 ∨ t = 3 := by
    rwa [Bool.or_eq_true, beq_iff_eq, beq_iff_eq] at hstart
  have hsession : Session ⟨3, 1⟩ (fun t => ⟨true, false, 0x0102, t == 2 || t == 3⟩) 2 := by
    refine ⟨hrun, fun _ _ => rfl, fun _ _ => rfl, fun t _ hidle hstart => ?_, fun t _ _ htemp hbusy => ?_,
      fun _ _ _ => rfl⟩
    · rcases htimes hstart with rfl | rfl
      · rfl
      · exact absurd hidle.2.1 hlater
    · refine Bool.eq_false_iff.mpr fun hstart => ?_
      rcases htimes hstart with rfl | rfl
      · exact absurd (hbusy.symm.trans hrun.2.2) Bool.false_ne_true
      · exact absurd htemp hlater
  refine (serialised_iff hsession (by decide)).mpr fun n _ hstart hstuck => ?_
  rcases htimes hstart with htwo | hthree
  · rw [htwo] at hstuck
    exact absurd hstuck.1 (by decide)
  · rw [hthree] at hstuck
    exact absurd hstuck.1 (by decide)

/-! ## A reply without its first byte -/

open UartStandardComplete (generics)

/-- A reply begins at power-up and is reset when the bit counter wraps; the next one begins when
`number_bits` is 7. -/
def unluckyInput (t : Nat) : Input where
  rising := true
  reset := t == 872
  cipher := 0
  startTransmit := t == 0 || t == 1 || t == 6083 || t == 6084

/-- The start bit of the first byte. -/
structure StartBit (n : Nat) (s : Registers) : Prop where
  state : s.txComp.state = .shift
  counter : s.txComp.clkCounter = n
  shiftData : s.txComp.shiftData = false
  numberBits : s.txComp.numberBits = 0
  doneShifting : s.txComp.doneShifting = false

theorem startBit_run {n : Nat} (hn : n ≤ 868) : StartBit n (run generics unluckyInput (4 + n)) := by
  induction n with
  | zero => constructor <;> rfl
  | succ n ih =>
    obtain ⟨hstate, hcounter, hshift, hbits, hdone⟩ := ih (by omega)
    have hreset : (unluckyInput (4 + n)).reset = false := beq_eq_false_iff_ne.mpr (by omega)
    have hcomp : (run generics unluckyInput (4 + (n + 1))).txComp =
        TUart.edge generics (txCompPorts (unluckyInput (4 + n)) (run generics unluckyInput (4 + n)))
          (run generics unluckyInput (4 + n)).txComp := rfl
    have hwrap : ¬ n = maxClkCount generics := by
      have hmax : maxClkCount generics = 868 := by decide
      omega
    have hmax : ¬ (0 : Nat) = TUart.maxBits := by decide
    have hload : ¬ TUart.State.shift = .load := by decide
    obtain ⟨hnext, hcount, hdone', hcounter', hshift'⟩ :=
      TUart.edge_of_shift (g := generics)
        (p := txCompPorts (unluckyInput (4 + n)) (run generics unluckyInput (4 + n))) hstate hreset
    rw [← hcomp] at hnext hcount hdone' hcounter' hshift'
    refine ⟨?_, ?_, ?_, ?_, ?_⟩
    · rw [hnext, hdone, if_neg Bool.false_ne_true]
    · rw [hcounter', hcounter, if_neg hwrap]
    · rw [hshift', hcounter, decide_eq_false hwrap]
    · rw [hcount, hbits, hshift, if_neg hmax]
      rfl
    · rw [hdone', hbits, hdone, decide_eq_false hmax]
      rfl

/-- After the reset `number_bits` counts. -/
structure Counting (n : Nat) (s : Registers) : Prop where
  held : Held 16 s
  within : TUart.ReadyWithin generics (5210 - n) s.txComp
  reg : 0 < n → s.txComp.txReadyReg = true
  shiftData : s.txComp.shiftData = true
  numberBits : s.txComp.numberBits = n % 11

theorem counting_zero : Counting 0 (run generics unluckyInput 873) := by
  obtain ⟨hstate, hcounter, -, -, -⟩ := startBit_run (Nat.le_refl 868)
  have hcoll : (run generics unluckyInput 873).txColl =
      TxCollecteur.reset (run generics unluckyInput 872).txColl := rfl
  have hcomp : (run generics unluckyInput 873).txComp = TUart.edge generics
      (txCompPorts (unluckyInput 872) (run generics unluckyInput 872)) (run generics unluckyInput 872).txComp :=
    rfl
  have hmax : 868 = maxClkCount generics := by decide
  have hdelay : TUart.maxClkCountDelay generics = 5208 := by decide
  refine ⟨?_, ⟨?_, ?_, fun _ => by omega⟩, fun hpos => absurd hpos (Nat.lt_irrefl 0), ?_, ?_⟩
  · constructor <;> rw [hcoll] <;> rfl
  · rw [hcomp]
    rfl
  · rw [hcomp]
    rfl
  · rw [hcomp, (TUart.clock_edge _ _ _).2, if_pos hstate, hcounter]
    exact decide_eq_true hmax
  · rw [hcomp]
    rfl

theorem counting_run (n : Nat) (hn : n ≤ 5210) : Counting n (run generics unluckyInput (873 + n)) := by
  induction n with
  | zero => exact counting_zero
  | succ n ih =>
    obtain ⟨⟨hcpt, htemp, hstart⟩, hwithin, -, hshift, hbits⟩ := ih (by omega)
    have hreset : (unluckyInput (873 + n)).reset = false := beq_eq_false_iff_ne.mpr (by omega)
    have hquiet : (unluckyInput (873 + n)).startTransmit = false := by
      simp only [unluckyInput, Bool.or_eq_false_iff, beq_eq_false_iff_ne]
      omega
    have hwithin' : TUart.ReadyWithin generics (5210 - (n + 1) + 1)
        (run generics unluckyInput (873 + n)).txComp := by
      have hless : 5210 - (n + 1) + 1 = 5210 - n := by omega
      rwa [hless]
    have hedge := TxCollecteur.edge_hold
      (p := txCollPorts (unluckyInput (873 + n)) (run generics unluckyInput (873 + n)))
      (Nat.le_of_eq hcpt) (fun _ => hquiet) (fun hne => absurd hcpt hne)
    obtain ⟨hnext, hreg⟩ := TUart.readyWithin_edge
      (p := txCompPorts (unluckyInput (873 + n)) (run generics unluckyInput (873 + n)))
      (invariant_run generics unluckyInput (873 + n)).settled hwithin' hreset hstart
    obtain ⟨hshift', hbits'⟩ := TUart.init_edge (g := generics)
      (p := txCompPorts (unluckyInput (873 + n)) (run generics unluckyInput (873 + n))) hreset hwithin.state
    rw [← coll_edge generics unluckyInput rfl hreset] at hedge
    rw [← comp_edge generics unluckyInput rfl] at hnext hreg hshift' hbits'
    rw [hshift, hbits, TUart.tick] at hbits'
    refine ⟨⟨?_, ?_, ?_⟩, hnext, fun _ => hreg, hshift'.trans hshift, ?_⟩
    · exact (congrArg TxCollecteur.Registers.cpt hedge).trans hcpt
    · exact (congrArg TxCollecteur.Registers.tempTxReady hedge).trans htemp
    · exact congrArg TxCollecteur.Registers.startTx hedge
    · have hten : TUart.maxBits = 10 := rfl
      rw [Bool.toNat_true] at hbits'
      rw [← Nat.add_assoc, hbits']
      split_ifs <;> omega

theorem idle_unlucky : Idle (run generics unluckyInput 6083) := by
  obtain ⟨⟨hcpt, htemp, -⟩, hwithin, hreg, -, -⟩ := counting_run 5210 (Nat.le_refl _)
  exact ⟨hcpt, htemp, TUart.txReady_of_readyWithin hwithin (hreg (by decide))⟩

theorem stuck_unlucky : Stuck (run generics unluckyInput 6083) := by
  obtain ⟨-, -, -, hshift, hbits⟩ := counting_run 5210 (Nat.le_refl _)
  exact ⟨hshift, hbits⟩

theorem session_unlucky : Session generics unluckyInput 6083 := by
  have hidle := idle_unlucky
  have hlater : (run generics unluckyInput 6084).txColl.tempTxReady = true :=
    temp_of_start hidle rfl rfl rfl
  have htimes {t : Nat} (ht : 6083 ≤ t) (hstart : (unluckyInput t).startTransmit = true) :
      t = 6083 ∨ t = 6084 := by
    simp only [unluckyInput, Bool.or_eq_true, beq_iff_eq] at hstart
    omega
  refine ⟨hidle, fun _ _ => rfl, fun t ht => beq_eq_false_iff_ne.mpr (by omega), ?_, ?_, fun _ _ _ => rfl⟩
  · intro t ht hat hstart
    rcases htimes ht hstart with rfl | rfl
    · rfl
    · exact absurd (hat.2.1.symm.trans hlater) Bool.false_ne_true
  · intro t ht _ htemp hbusy
    refine Bool.eq_false_iff.mpr fun hstart => ?_
    rcases htimes ht hstart with rfl | rfl
    · exact absurd (hbusy.symm.trans hidle.2.2) Bool.false_ne_true
    · exact absurd (htemp.symm.trans hlater) Bool.false_ne_true

/-- At the generics of the designs, a reply after this reset is not serialised. -/
theorem first_byte_lost : Session generics unluckyInput 6083 ∧ ¬ Serialised generics unluckyInput 6083 := by
  refine ⟨session_unlucky, fun hall => ?_⟩
  have hepisodes := session_unlucky.episodes (by decide)
  exact (hepisodes.collected_eq_iff idle_unlucky).mp hall.loads 0 idle_unlucky rfl stuck_unlucky

end ReplyPath

/-! ## The designs -/

namespace UartStandardComplete

/-- What the collector sees of the unmasked design. -/
def replyInput (input : Nat → Input) (t : Nat) : ReplyPath.Input where
  rising := (input t).rising
  reset := (input t).reset
  cipher := (run input t).core.encrypt.cipher
  startTransmit := (run input t).core.encrypt.canTransmit

theorem run_replyPath (input : Nat → Input) (t : Nat) :
    ReplyPath.run generics (replyInput input) t = ⟨(run input t).txColl, (run input t).txComp⟩ := by
  induction t with
  | zero => rfl
  | succ t ih =>
    rw [ReplyPath.run, Machine.run_succ]
    refine (congrArg (ReplyPath.step generics (replyInput input t)) ih).trans ?_
    rfl

end UartStandardComplete

namespace UartMaskedComplete
open UartStandardComplete (Input generics)

def replyInput (state outp : Block) (input : Nat → Input) (t : Nat) : ReplyPath.Input where
  rising := (input t).rising
  reset := (input t).reset
  cipher := (run state outp input t).encrypt.cipher
  startTransmit := (run state outp input t).encrypt.canTransmit

theorem run_replyPath (state outp : Block) (input : Nat → Input) (t : Nat) :
    ReplyPath.run generics (replyInput state outp input) t =
      ⟨(run state outp input t).txColl, (run state outp input t).txComp⟩ := by
  induction t with
  | zero => rfl
  | succ t ih =>
    rw [ReplyPath.run, Machine.run_succ]
    refine (congrArg (ReplyPath.step generics (replyInput state outp input t)) ih).trans ?_
    rfl

end UartMaskedComplete
end KuznyechikDPA

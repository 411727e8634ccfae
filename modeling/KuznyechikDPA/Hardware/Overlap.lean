import KuznyechikDPA.Hardware.ReplyContents
import KuznyechikDPA.Hardware.Timeline

/-!
# A block that overtakes a reply

A reply takes at least fourteen times `byteTime` from its second byte to its sixteenth,
longer than a block needs to arrive. When the host sends two blocks without a pause, the
second result is therefore loaded into `cipher` in the middle of the first reply.
-/

namespace KuznyechikDPA.UartStandardComplete

open TUart (Settled Paced byteTime remaining)

/-! ## The length of a reply -/

/-- A reply under way that lasts for at least `left` more edges. -/
structure Sending (left : Nat) (s : Registers) : Prop where
  settled : Settled s.txComp
  paced : Paced generics s.txComp
  pos : 1 ≤ s.txColl.cpt
  cpt : s.txColl.cpt ≤ 15
  pulse : s.txColl.startTx = s.txColl.tempTxReady
  ready : s.txColl.startTx = true → TUart.txReady s.txComp = true
  left : left ≤ s.txColl.cpt * byteTime generics +
    if s.txColl.startTx then 0 else remaining generics s.txComp

theorem three_le_maxClkCount : 3 ≤ TUart.maxClkCount generics := by decide

theorem maxClkCountDelay_le :
    TUart.maxClkCountDelay generics ≤ 9 * (TUart.maxClkCount generics + 1) := by decide

/-- Not more than one edge is lost at every edge, and the last byte is still to come. -/
theorem sending_step {i : Input} {s : Registers} {left : Nat} (h : Sending (left + 1) s)
    (hleft : byteTime generics ≤ left) (hreset : i.reset = false) (hrise : i.rising = true) :
    Sending left (step i s) := by
  have hpos := h.pos
  have hbound := h.left
  have hcomp := txComp_edge (s := s) hrise
  have hsettled := settled_step (i := i) h.settled
  have hpaced : Paced generics (step i s).txComp := by
    rw [hcomp]
    exact TUart.paced_edge three_le_maxClkCount h.paced hreset
  have hrun : remaining generics s.txComp ≤ remaining generics (step i s).txComp + 1 := by
    rw [hcomp]
    exact TUart.remaining_edge three_le_maxClkCount maxClkCountDelay_le h.settled h.paced hreset
  have hedge := TxCollecteur.edge_cases (txCollPorts s) (s := s.txColl) (by have := h.cpt; omega)
  have htx : (step i s).txColl = TxCollecteur.edge (txCollPorts s) s.txColl := by
    simp only [step, txCollStep, hreset, hrise, Bool.false_eq_true, if_false, if_true]
  rw [← htx] at hedge
  generalize hnext : (step i s).txColl = next at hedge
  have hsend (hready : next.startTx = true → TUart.txReady (step i s).txComp = true)
      (hpos' : 1 ≤ next.cpt) (hcpt' : next.cpt ≤ 15) (hpulse' : next.startTx = next.tempTxReady)
      (hleft' : left ≤ next.cpt * byteTime generics +
        if next.startTx then 0 else remaining generics (step i s).txComp) :
      Sending left (step i s) := by
    subst hnext
    exact ⟨hsettled, hpaced, hpos', hcpt', hpulse', hready, hleft'⟩
  cases hedge with
  | first _ h16 => have hcpt := h.cpt; omega
  | second _ h16 => have hcpt := h.cpt; omega
  | offer hcpt hready htemp =>
    have hlow := h.pulse.trans htemp
    rw [hlow, if_neg Bool.false_ne_true, TUart.remaining_of_txReady h.settled hready] at hbound
    refine hsend (fun _ => ?_) hpos hcpt rfl (Nat.le_of_succ_le hbound)
    rw [hcomp]
    exact TUart.txReady_edge h.settled hready hreset hlow
  | next _ hcpt hready htemp =>
    have hup := h.pulse.trans htemp
    rw [hup, if_pos rfl, Nat.add_zero] at hbound
    have hbyte : remaining generics (step i s).txComp = byteTime generics := by
      rw [hcomp]
      exact TUart.remaining_start h.settled hready hreset hup
    obtain ⟨m, hm⟩ := Nat.exists_eq_add_of_le' hpos
    rw [hm, Nat.add_mul, Nat.one_mul] at hbound
    -- the last byte would need the whole potential
    have hmany : m ≠ 0 := by
      rintro rfl
      omega
    refine hsend (fun hhigh => absurd hhigh Bool.false_ne_true) ?_ ?_ rfl ?_
    · simp only
      omega
    · simp only
      omega
    · simp only [hm, Nat.add_sub_cancel, hbyte, Bool.false_eq_true, if_false]
      omega
  | last hzero => omega
  | wait hcpt hbusy =>
    have hlow : s.txColl.startTx = false := by
      by_contra hup
      exact absurd (hbusy.symm.trans (h.ready (Bool.of_not_eq_false hup))) Bool.false_ne_true
    rw [hlow, if_neg Bool.false_ne_true] at hbound
    refine hsend (fun hhigh => absurd hhigh Bool.false_ne_true) hpos hcpt ?_ ?_
    · exact hlow.symm.trans h.pulse
    · simp only [Bool.false_eq_true, if_false]
      omega
  | rest _ h16 => have hcpt := h.cpt; omega

theorem paced_run {input : Nat → Input} (h : Steady input) (t : Nat) :
    Settled (run input t).txComp ∧ Paced generics (run input t).txComp := by
  induction t with
  | zero => exact ⟨TUart.settled_init, TUart.paced_init generics⟩
  | succ t ih =>
    rw [run, Machine.run_succ, ← run]
    refine ⟨settled_step ih.1, ?_⟩
    rw [txComp_edge (h.rising t)]
    exact TUart.paced_edge three_le_maxClkCount ih.2 (h.reset t)

/-- A reply that has handed over its first byte is under way for a long time. -/
theorem sending_run {input : Nat → Input} (h : Steady input) {t : Nat}
    (hcpt : (run input t).txColl.cpt = 15) (hstart : (run input t).txColl.startTx = false)
    (htemp : (run input t).txColl.tempTxReady = false) {n : Nat} (hn : n ≤ 14 * byteTime generics) :
    Sending (15 * byteTime generics - n) (run input (t + n)) := by
  induction n with
  | zero =>
    obtain ⟨hsettled, hpaced⟩ := paced_run h t
    refine ⟨hsettled, hpaced, ?_, ?_, hstart.trans htemp.symm, ?_, ?_⟩
    · rw [Nat.add_zero, hcpt]
      decide
    · exact hcpt.le
    · exact fun hup => absurd (hstart.symm.trans hup) Bool.false_ne_true
    · rw [Nat.add_zero, hcpt]
      omega
  | succ n ih =>
    have hleft : 15 * byteTime generics - n = 15 * byteTime generics - (n + 1) + 1 := by omega
    have hbefore := ih (by omega)
    rw [hleft] at hbefore
    rw [← Nat.add_assoc, run, Machine.run_succ, ← run]
    exact sending_step hbefore (by omega) (h.reset _) (h.rising _)

/-! ## The first reply -/

section FirstReply
variable {input : Nat → Input} (h : Steady input) {start duration : Nat} {plain : Block}
variable (hblock : BlockAt input start duration plain)
variable {bs : List Byte} (hwait : Waiting bs (run input start))
include h hblock hwait

theorem silent_before {n : Nat} (hn : n ≤ 564) :
    (run input (start + n)).core.encrypt.canTransmit = false := by
  rcases Nat.lt_or_ge n 433 with hearly | hlate
  · rw [encrypt_before h hblock hwait.encrypt.tour hwait.sks.terminated (by omega)]
    exact hwait.encrypt.canTransmit
  · obtain ⟨j, rfl⟩ := Nat.exists_eq_add_of_le hlate
    rw [← Nat.add_assoc]
    exact (silent_block h hblock hwait.encrypt.tour hwait.sks.terminated (by omega)).2

/-- Until the first result is announced nothing is sent. -/
theorem rests_before {n : Nat} (hn : n ≤ 565) :
    ReplyRests (run input (start + n)).txColl := by
  induction n with
  | zero => exact hwait.txColl
  | succ n ih =>
    have hoff := silent_before h hblock hwait (n := n) (by omega)
    rw [← Nat.add_assoc, run, Machine.run_succ, ← run]
    simp only [step, txCollStep, h.reset, h.rising, Bool.false_eq_true, if_false, if_true]
    exact replyRests_edge (ih (by omega)) hoff

theorem memCipher_before {n : Nat} (hn : n ≤ 564) :
    (run input (start + n)).core.encrypt.memCipher = 0 := by
  induction n with
  | zero => exact hwait.encrypt.memCipher
  | succ n ih =>
    have hmem := ih (by omega)
    have hoff := silent_before h hblock hwait hn
    rw [← Nat.add_assoc, run, Machine.run_succ, ← run, encrypt_edge (h.reset _)] at hoff ⊢
    split_ifs at hoff ⊢
    · rw [CompleteEncryption.memCipher_edge hoff, hmem]
    · exact hmem

/-- The first result is announced when it is not zero. -/
theorem announced_block (hne : (run input (start + 565)).core.encrypt.cipher ≠ 0) :
    (run input (start + 565)).core.encrypt.canTransmit = true ∧
      (run input (start + 565)).core.encrypt.tour = 11 ∧
      (run input (start + 565)).core.encrypt.memCipher =
        (run input (start + 565)).core.encrypt.interState := by
  have hphase := hblock.phase
  have htour : (run input (start + 564)).core.encrypt.tour = 11 :=
    (silent_block h hblock hwait.encrypt.tour hwait.sks.terminated (n := 131) le_rfl).1
  have hrests := rests_before h hblock hwait (n := 564) (by decide)
  have hmem := memCipher_before h hblock hwait (n := 564) le_rfl
  have hoff := silent_before h hblock hwait (n := 564) le_rfl
  have hlow : lowClkRises (input (start + 564)) (run input (start + 564)) = true :=
    (lowClkRises_run h _).mpr (by omega)
  have hdone : (coreSample (input (start + 564)) (run input (start + 564))).transmitBefore = true := by
    have hnone : (txCollPorts (run input (start + 564))).startTransmit = false := hoff
    have hedge := TxCollecteur.edge_cases (txCollPorts (run input (start + 564)))
      (s := (run input (start + 564)).txColl) hrests.cpt.le
    simp only [coreSample, txCollStep, h.reset, h.rising, Bool.false_eq_true, if_false, if_true]
    generalize TxCollecteur.edge _ _ = next at hedge
    have hcpt := hrests.cpt
    cases hedge with
    | rest => rfl
    | first hup => exact absurd (hnone.symm.trans hup) Bool.false_ne_true
    | second hup => exact absurd (hnone.symm.trans hup) Bool.false_ne_true
    | _ => omega
  have hstep : (run input (start + 565)).core.encrypt =
      CompleteEncryption.finish
        (Core.ports (coreSample (input (start + 564)) (run input (start + 564)))
          (run input (start + 564)).core) (run input (start + 564)).core.encrypt := by
    rw [run, Machine.run_succ, ← run, encrypt_edge (h.reset _), if_pos hlow,
      CompleteEncryption.edge_eq, if_neg (by omega), if_neg (by omega), if_pos htour]
  rw [hstep] at hne ⊢
  unfold CompleteEncryption.finish at hne ⊢
  split_ifs at hne ⊢ with hnew
  · exact ⟨rfl, htour, rfl⟩
  · exact absurd ⟨hdone, fun heq => hne (heq.symm.trans hmem)⟩ hnew

end FirstReply

theorem encrypt_still {input : Nat → Input} (h : Steady input) {t : Nat} (hphase : t % 12 = 6)
    {n : Nat} (hn : n ≤ 11) :
    (run input (t + n)).core.encrypt = (run input t).core.encrypt := by
  induction n with
  | zero => rfl
  | succ n ih =>
    have hlow : ¬ lowClkRises (input (t + n)) (run input (t + n)) = true := fun hup => by
      have hmod := (lowClkRises_run h _).mp hup
      omega
    rw [← Nat.add_assoc, run, Machine.run_succ, ← run, encrypt_edge (h.reset _), if_neg hlow,
      ih (by omega)]

section Announcement
variable {input : Nat → Input} (h : Steady input) {t : Nat} (hphase : t % 12 = 6)
include h hphase

/-- Two edges after an announcement the first byte has been handed over. -/
theorem reply_begins (hon : (run input t).core.encrypt.canTransmit = true) (hrests : ReplyRests (run input t).txColl) :
    (run input (t + 2)).txColl.cpt = 15 ∧ (run input (t + 2)).txColl.startTx = false ∧
      (run input (t + 2)).txColl.tempTxReady = false := by
  have hon' : (run input (t + 1)).core.encrypt.canTransmit = true := by
    rw [encrypt_still h hphase (n := 1) (by decide)]
    exact hon
  have hnext (m : Nat) : (run input (m + 1)).txColl =
      TxCollecteur.edge (txCollPorts (run input m)) (run input m).txColl := by
    rw [run, Machine.run_succ, ← run]
    simp only [step, txCollStep, h.reset, h.rising, Bool.false_eq_true, if_false, if_true]
  have hone := hnext t
  rw [TxCollecteur.edge, if_pos ⟨hon, hrests.cpt⟩, if_pos hrests.tempTxReady] at hone
  have hcpt : (run input (t + 1)).txColl.cpt = 16 := by
    rw [hone]
    exact hrests.cpt
  have htemp : ¬ (run input (t + 1)).txColl.tempTxReady = false := by
    rw [hone]
    exact fun hlow => Bool.false_ne_true hlow.symm
  have htwo := hnext (t + 1)
  rw [TxCollecteur.edge, if_pos ⟨hon', hcpt⟩, if_neg htemp, hcpt] at htwo
  rw [htwo]
  exact ⟨rfl, rfl, rfl⟩

theorem tour_after (htour : (run input t).core.encrypt.tour = 11)
    (hmem : (run input t).core.encrypt.memCipher = (run input t).core.encrypt.interState) :
    (run input (t + 12)).core.encrypt.tour = 0 := by
  have hlow : lowClkRises (input (t + 11)) (run input (t + 11)) = true :=
    (lowClkRises_run h _).mpr (by omega)
  have hstill := encrypt_still h hphase (n := 11) le_rfl
  have hstep : run input (t + 12) = step (input (t + 11)) (run input (t + 11)) := rfl
  rw [hstep, encrypt_edge (h.reset _), if_pos hlow, hstill,
    CompleteEncryption.edge_of_announced htour hmem]

end Announcement

/-! ## Two blocks without a pause -/

section Stream
variable {input : Nat → Input} {bs : Nat → Byte} {duration t : Nat}
variable (hstream : Stream bs duration fun m => input (t + m))
variable (hholds : Holds [] (run input t).rxColl) (hfull : (run input t).rxColl.fullData = false)
variable (hidle : RUart.Idle (run input t).rxComp)
variable (hlong : RUart.deliveryTime generics + 1 < duration)
include hstream hholds hfull hidle hlong

/-- The next sixteen frames of a stream: `full_data` rises with the last one only, the block stays
in `plain` for nearly a frame, and the collector is ready for the next sixteen. -/
theorem next_block :
    (∀ n ≤ 15 * duration + RUart.deliveryTime generics,
      (run input (t + n)).rxColl.fullData = false) ∧
    (run input (t + 15 * duration + RUart.deliveryTime generics + 1)).rxColl.fullData = true ∧
    List.ofFn (bytes (run input
      (t + 15 * duration + RUart.deliveryTime generics + 1)).rxColl.plain) =
        (List.range 16).map bs ∧
    (∀ n, n + 1 < duration →
      (run input (t + 15 * duration + RUart.deliveryTime generics + 1 + (n + 1))).rxColl =
        { (run input (t + 15 * duration + RUart.deliveryTime generics + 1)).rxColl with
          fullData := false }) ∧
    Holds [] (run input (t + 16 * duration)).rxColl ∧
    (run input (t + 16 * duration)).rxColl.fullData = false ∧
    RUart.Idle (run input (t + 16 * duration)).rxComp := by
  have hrun (n : Nat) : run input (t + n) =
      Machine.run step (run input t) (fun m => input (t + m)) n := Machine.run_add _ _ _ _ _
  obtain ⟨hbefore, hraised, hempty, hplain⟩ := full_stream hholds hstream hidle (k := 15) rfl
  have hquiet (n : Nat) (hn : n + 1 < duration) := quiet_stream hstream hidle 15 hn
  have hlast : (run input (t + 16 * duration)).rxColl =
      { (run input (t + (15 * duration + RUart.deliveryTime generics + 1))).rxColl with
        fullData := false } := by
    obtain ⟨d, hd⟩ := Nat.exists_eq_add_of_lt hlong
    have hpos : 16 * duration = 15 * duration + RUart.deliveryTime generics + 1 + (d + 1) := by omega
    rw [hrun, hrun, hpos]
    exact hquiet d (by omega)
  simp only [Nat.add_assoc t] at *
  refine ⟨fun n hn => ?_, ?_, ?_, fun n hn => ?_, ?_, ?_, ?_⟩
  · rw [hrun]
    exact hbefore n hn hfull
  · rw [hrun]
    exact hraised
  · rw [hrun]
    exact hplain
  · rw [hrun, hrun]
    exact hquiet n hn
  · rw [hlast, hrun]
    exact ⟨hempty.count, hempty.plain⟩
  · rw [hlast]
  · rw [hrun]
    exact idle_stream hstream hidle 16

end Stream

/-- Two blocks, byte by byte. -/
def twoBlocks (first second : Fin 16 → Byte) (k : Nat) : Byte :=
  if k < 16 then first (Fin.ofNat 16 k) else second (Fin.ofNat 16 k)

/-- A host that sends two blocks without a pause, a frame every 8700 edges, and goes on with the
second one. -/
def overlapInput (first second : Fin 16 → Byte) : Nat → Input :=
  lineInput 8700 (twoBlocks first second)

theorem bytes_of_range {plain : Block} {bs : Nat → Byte} {block : Fin 16 → Byte}
    (h : List.ofFn (bytes plain) = (List.range 16).map bs)
    (hbs : ∀ k < 16, bs k = block (Fin.ofNat 16 k)) : bytes plain = block := by
  apply List.ofFn_injective
  rw [h]
  refine List.ext_getElem (by simp) fun k hk hk' => ?_
  rw [List.length_map, List.length_range] at hk
  rw [List.getElem_map, List.getElem_range, hbs k hk, List.getElem_ofFn]
  exact congrArg block (Fin.ext (Nat.mod_eq_of_lt hk))

section Overlap
variable (first second : Fin 16 → Byte)

theorem steady_overlapInput : Steady (overlapInput first second) :=
  ⟨fun _ => rfl, fun _ => rfl, fun _ => rfl⟩

theorem stream_overlapInput (k : Nat) :
    Stream (fun j => twoBlocks first second (k + j)) 8700
      fun m => overlapInput first second (k * 8700 + m) := by
  have hall : Stream (twoBlocks first second) 8700 (overlapInput first second) :=
    stream_lineInput (by rw [deliveryTime_eq]; decide)
  exact hall.shift k

theorem blocks_overlapInput :
    (∀ n ≤ 138749, (run (overlapInput first second) n).rxColl.fullData = false) ∧
    BlockAt (overlapInput first second) 138749 139199 (block first) ∧
    BlockAt (overlapInput first second) 277949 8000 (block second) := by
  have hlong : RUart.deliveryTime generics + 1 < 8700 := by rw [deliveryTime_eq]; decide
  have hone := next_block (t := 0) (by simpa using stream_overlapInput first second 0)
    (holds_nil rfl) rfl idle_init hlong
  simp only [deliveryTime_eq, Nat.zero_add, Nat.reduceMul, Nat.reduceAdd] at hone
  obtain ⟨hbefore, hfull, hplain, hkeep, hholds, hlow, hidle⟩ := hone
  have htwo := next_block (t := 139200) (stream_overlapInput first second 16) hholds hlow hidle hlong
  simp only [deliveryTime_eq, Nat.reduceMul, Nat.reduceAdd] at htwo
  obtain ⟨hbefore', hfull', hplain', hkeep', _⟩ := htwo
  have hfirst : (run (overlapInput first second) 138750).rxColl.plain = block first := by
    apply bytes_injective
    rw [bytes_block]
    exact bytes_of_range hplain fun k hk => by simp [twoBlocks, hk]
  have hsecond : (run (overlapInput first second) 277950).rxColl.plain = block second := by
    apply bytes_injective
    rw [bytes_block]
    refine bytes_of_range hplain' fun k hk => ?_
    have hidx : Fin.ofNat 16 (16 + k) = Fin.ofNat 16 k := Fin.ext (Nat.add_mod_left 16 k)
    rw [twoBlocks, if_neg (by omega), hidx]
  refine ⟨fun n hn => hbefore n hn, ⟨by decide, hfull, fun m h1 hm => ?_, fun m hm => ?_, by decide⟩,
    ⟨by decide, hfull', fun m h1 hm => ?_, fun m hm => ?_, by decide⟩⟩
  · obtain ⟨d, rfl⟩ := Nat.exists_eq_add_of_le' h1
    by_cases hd : d + 1 < 8700
    · rw [hkeep d hd]
    · have hpos : 138749 + 1 + (d + 1) = 139200 + (d + 1 - 450) := by omega
      rw [hpos]
      exact hbefore' _ (by omega)
  · rcases m with _ | m
    · simp only [Nat.reduceAdd]
      exact hfirst
    · simp only [hkeep m (by omega), hfirst]
  · obtain ⟨d, rfl⟩ := Nat.exists_eq_add_of_le' h1
    rw [hkeep' d (by omega)]
  · rcases m with _ | m
    · simp only [Nat.reduceAdd]
      exact hsecond
    · simp only [hkeep' m (by omega), hsecond]

theorem waiting_first :
    ∃ bs, Waiting bs (run (overlapInput first second) 138749) := by
  have hstream := stream_overlapInput first second 0
  simp only [Nat.zero_mul, Nat.zero_add] at hstream
  have hreceived := received_stream hstream idle_init 15 (n := 8249) (by decide)
  rw [deliveryTime_eq, if_pos le_rfl, List.append_nil] at hreceived
  refine ⟨_, waiting_run waiting_init (overlapInput first second) 138749
    (fun m _ hr => absurd hr Bool.false_ne_true) ?_⟩
  simp only [Nat.reduceMul, Nat.reduceAdd] at hreceived
  rw [hreceived, List.length_map, List.length_range]
  decide

/-- When the second block starts, the encryption has long finished the first one. -/
theorem rest_second {r : Block} (hr : r ≠ 0)
    (hcipher : (run (overlapInput first second) 139314).core.encrypt.cipher = r) :
    (run (overlapInput first second) 277949).core.encrypt.tour = 0 ∧
      (run (overlapInput first second) 277949).core.sks.terminated = false := by
  have hsteady := steady_overlapInput first second
  obtain ⟨_, hblock, _⟩ := blocks_overlapInput first second
  obtain ⟨bs, hwait⟩ := waiting_first first second
  obtain ⟨_, htour, hmem⟩ := announced_block hsteady hblock hwait (by rw [hcipher]; exact hr)
  have hafter := tour_after hsteady (t := 139314) (by decide) htour hmem
  have hcounts {m : Nat} (hm : m ≤ 139199) :=
    counts_run hsteady hblock.phase hblock.full hblock.quiet hm
  constructor
  · have hrest := encrypt_rest_run hsteady hafter 138623 fun m hm hlow => ?_
    · rw [hrest]
      exact hafter
    · have hpos : 139314 + 12 + m = 138749 + 1 + (576 + m) := by omega
      rw [hpos, (hcounts (m := 576 + m) (by omega)).terminated]
      exact decide_eq_false (by omega)
  · have hlast := (hcounts (m := 139199) le_rfl).terminated
    exact hlast

theorem cipher_overlapInput
    (hfirst : Kuznyechik.crypto (Kuznyechik.setkey .init (SubKeySchedule.keyBytes Core.masterkey))
      first ≠ 0) :
    bytes (run (overlapInput first second) 139314).core.encrypt.cipher =
        Kuznyechik.crypto (Kuznyechik.setkey .init (SubKeySchedule.keyBytes Core.masterkey)) first ∧
      bytes (run (overlapInput first second) 278514).core.encrypt.cipher =
        Kuznyechik.crypto (Kuznyechik.setkey .init (SubKeySchedule.keyBytes Core.masterkey))
          second ∧
      (run (overlapInput first second) 139316).core.encrypt.cipher =
        (run (overlapInput first second) 139314).core.encrypt.cipher ∧
      ∀ n ≤ 139198, TxCollecteur.MidReply (run (overlapInput first second) (139316 + n)).txColl := by
  have hsteady := steady_overlapInput first second
  obtain ⟨_, hblock, hblock'⟩ := blocks_overlapInput first second
  obtain ⟨bs, hwait⟩ := waiting_first first second
  have hone := cipher_block hsteady hblock hwait.encrypt.tour hwait.sks.terminated
  rw [bytes_block] at hone
  have hne : (run (overlapInput first second) 139314).core.encrypt.cipher ≠ 0 := by
    intro hzero
    rw [hzero] at hone
    exact hfirst (hone.symm.trans (by decide))
  obtain ⟨htour, hterm⟩ := rest_second first second hne rfl
  have htwo := cipher_block hsteady hblock' htour hterm
  rw [bytes_block] at htwo
  obtain ⟨hon, _⟩ := announced_block hsteady hblock hwait hne
  have hrests := rests_before hsteady hblock hwait (n := 565) le_rfl
  obtain ⟨hcpt, hstart, htemp⟩ := reply_begins hsteady (t := 139314) (by decide) hon hrests
  refine ⟨hone, htwo, ?_, fun n hn => ?_⟩
  · rw [encrypt_still hsteady (t := 139314) (n := 2) (by decide) (by decide)]
  · have hsending := sending_run hsteady hcpt hstart htemp (n := n) (hn.trans (by decide))
    exact .inl ⟨hsending.pos, hsending.cpt⟩

end Overlap

/-- The block with a given encryption. -/
def blockOf (result : Block) : Fin 16 → Byte :=
  Kuznyechik.decrypto (Kuznyechik.setkey .init (SubKeySchedule.keyBytes Core.masterkey))
    (bytes result)

theorem crypto_blockOf (result : Block) :
    Kuznyechik.crypto (Kuznyechik.setkey .init (SubKeySchedule.keyBytes Core.masterkey))
      (blockOf result) = bytes result :=
  Kuznyechik.cipher_invCipher _ _

end KuznyechikDPA.UartStandardComplete

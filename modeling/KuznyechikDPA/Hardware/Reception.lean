import KuznyechikDPA.Hardware.UartStandardComplete
import KuznyechikDPA.Uart.RUartReception

/-!
# Receiving a block

`received` lists the bytes that `rUART` has delivered. While fewer than sixteen have
arrived the design is `Waiting`: the collector holds them from the top of `plain`
downwards and nothing else has begun. The sixteenth byte raises `full_data`.
-/

namespace KuznyechikDPA.UartStandardComplete

/-- The byte that the collector takes at this instant. -/
def arrived (i : Input) (s : Registers) : List Byte :=
  if i.rising ∧ i.reset = false ∧ RUart.dataValid s.rxComp = true then [RUart.dataOut s.rxComp]
  else []

/-- The bytes taken in the first `n` instants. -/
def received (s : Registers) (later : Nat → Input) : Nat → List Byte
  | 0 => []
  | n + 1 => received s later n ++ arrived (later n) (Machine.run step s later n)

theorem arrived_of_reset {i : Input} (s : Registers) (h : i.reset = true) : arrived i s = [] := by
  rw [arrived, if_neg fun hall => ?_]
  simp [h] at hall

/-! ## The collector -/

/-- `plain` holds the bytes received so far, the first one in the top slice. -/
structure Holds (bs : List Byte) (s : RxCollecteur.Registers) : Prop where
  count : s.cpt + bs.length = 15
  plain : ∀ (n : Nat) (hn : n < bs.length), bytes s.plain (Fin.ofNat 16 n) = bs[n]

theorem holds_nil {s : RxCollecteur.Registers} (h : s.cpt = 15) : Holds [] s :=
  ⟨h, fun _ hn => absurd hn (Nat.not_lt_zero _)⟩

/-- Every byte goes into the slice below the bytes before it. -/
theorem bytes_store {bs : List Byte} {s : RxCollecteur.Registers} (h : Holds bs s) (b : Byte)
    {n : Nat} (hn : n < (bs ++ [b]).length) :
    bytes (RxCollecteur.store s.plain s.cpt b) (Fin.ofNat 16 n) = (bs ++ [b])[n] := by
  have hcount := h.count
  rw [List.length_append, List.length_singleton] at hn
  have hslot : 15 - s.cpt = bs.length := by omega
  rw [RxCollecteur.store, bytes_block, hslot, Function.update_apply, List.getElem_append]
  split_ifs with heq hlt hlt
  · have hval := congrArg Fin.val heq
    simp only [Fin.ofNat] at hval
    omega
  · simp only [List.getElem_singleton]
  · exact h.plain n hlt
  · have hlast : n = bs.length := by omega
    exact absurd (congrArg (Fin.ofNat 16) hlast) heq

theorem holds_store {bs : List Byte} {s : RxCollecteur.Registers} (h : Holds bs s) (b : Byte)
    (hshort : bs.length < 15) :
    Holds (bs ++ [b]) (RxCollecteur.edge b true s) ∧
      (RxCollecteur.edge b true s).fullData = false := by
  have hcount := h.count
  have hmore : s.cpt ≠ 0 := by omega
  have hnext : s.cpt - 1 + (bs ++ [b]).length = 15 := by
    rw [List.length_append, List.length_singleton]
    omega
  rw [RxCollecteur.edge, if_pos rfl, if_pos hmore]
  exact ⟨⟨hnext, fun n hn => bytes_store h b hn⟩, rfl⟩

/-- The sixteenth byte completes the block, and the collector starts over. -/
theorem full_of_holds {bs : List Byte} {s : RxCollecteur.Registers} (h : Holds bs s) (b : Byte)
    (hlast : bs.length = 15) :
    (RxCollecteur.edge b true s).fullData = true ∧ Holds [] (RxCollecteur.edge b true s) ∧
      List.ofFn (bytes (RxCollecteur.edge b true s).plain) = bs ++ [b] := by
  have hcount := h.count
  have hzero : ¬ s.cpt ≠ 0 := by omega
  rw [RxCollecteur.edge, if_pos rfl, if_neg hzero]
  refine ⟨rfl, holds_nil rfl, List.ext_getElem ?_ fun n h16 hn => ?_⟩
  · rw [List.length_ofFn, List.length_append, List.length_singleton, hlast]
  · rw [List.length_ofFn] at h16
    rw [List.getElem_ofFn, ← bytes_store h b hn]
    exact congrArg _ (Fin.ext (Nat.mod_eq_of_lt h16).symm)

/-- A reset keeps the count of the bytes but not the bytes. -/
theorem holds_step {i : Input} {bs : List Byte} {s : Registers} (h : Holds bs s.rxColl)
    (hreset : i.reset = true → bs = []) (hshort : (bs ++ arrived i s).length < 16) :
    Holds (bs ++ arrived i s) (step i s).rxColl ∧
      (s.rxColl.fullData = false → (step i s).rxColl.fullData = false) := by
  simp only [step, rxCollStep]
  split_ifs with hr hrise
  · rw [arrived_of_reset s hr, List.append_nil, hreset hr]
    rw [hreset hr] at h
    exact ⟨holds_nil h.count, fun _ => rfl⟩
  · have hlow : i.reset = false := Bool.eq_false_iff.mpr hr
    by_cases hvalid : RUart.dataValid s.rxComp = true
    · rw [arrived, if_pos ⟨hrise, hlow, hvalid⟩] at hshort ⊢
      rw [List.length_append, List.length_singleton] at hshort
      rw [hvalid]
      obtain ⟨hholds, hfull⟩ := holds_store h (RUart.dataOut s.rxComp) (by omega)
      exact ⟨hholds, fun _ => hfull⟩
    · rw [arrived, if_neg fun hall => hvalid hall.2.2, List.append_nil, Bool.eq_false_iff.mpr hvalid]
      exact ⟨⟨h.count, h.plain⟩, fun _ => rfl⟩
  · rw [arrived, if_neg fun hall => hrise hall.1, List.append_nil]
    exact ⟨h, id⟩

theorem holds_run {bs : List Byte} {s : Registers} (h : Holds bs s.rxColl) (later : Nat → Input)
    (n : Nat) (hreset : ∀ m < n, (later m).reset = false)
    (hshort : (bs ++ received s later n).length < 16) :
    Holds (bs ++ received s later n) (Machine.run step s later n).rxColl ∧
      (s.rxColl.fullData = false → (Machine.run step s later n).rxColl.fullData = false) := by
  induction n with
  | zero => rwa [received, List.append_nil, Machine.run_zero, and_iff_left id]
  | succ n ih =>
    rw [received, ← List.append_assoc] at hshort ⊢
    have hshort' := hshort
    rw [List.length_append] at hshort'
    obtain ⟨hholds, hfull⟩ := ih (fun m hm => hreset m (by omega)) (by omega)
    have hlow := hreset n (Nat.lt_succ_self n)
    obtain ⟨hholds', hfull'⟩ := holds_step hholds (by simp [hlow]) hshort
    exact ⟨hholds', fun h0 => hfull' (hfull h0)⟩

theorem full_step {i : Input} {bs : List Byte} {s : Registers} (h : Holds bs s.rxColl)
    (hlast : bs.length = 15) (harrived : arrived i s ≠ []) :
    (step i s).rxColl.fullData = true ∧ Holds [] (step i s).rxColl ∧
      List.ofFn (bytes (step i s).rxColl.plain) = bs ++ arrived i s := by
  unfold arrived at harrived ⊢
  split_ifs at harrived ⊢ with hall
  · obtain ⟨hrise, hreset, hvalid⟩ := hall
    have hrx : (step i s).rxColl = RxCollecteur.edge (RUart.dataOut s.rxComp) true s.rxColl := by
      simp only [step, rxCollStep, hreset, hrise, hvalid, Bool.false_eq_true, if_false, if_true]
    rw [hrx]
    exact full_of_holds h _ hlast
  · exact absurd rfl harrived

/-! ## The other components -/

/-- The key schedule between two runs. -/
structure ScheduleRests (s : SubKeySchedule.Registers) : Prop where
  index : s.index = 35
  terminated : s.terminated = false
  cwTrigger : s.cwTrigger = false

theorem scheduleRests_edge (masterkey : BitVec 256) {s : SubKeySchedule.Registers}
    (h : ScheduleRests s) : ScheduleRests (SubKeySchedule.edge masterkey s) := by
  rw [SubKeySchedule.edge, if_neg (by rw [h.index]; decide), if_neg (by rw [h.index]; decide)]
  exact ⟨h.index, rfl, rfl⟩

/-- The encryption before its first block. -/
structure BlockRests (s : CompleteEncryption.Registers) : Prop where
  tour : s.tour = 0
  memCipher : s.memCipher = 0
  cipher : s.cipher = 0
  canTransmit : s.canTransmit = false

theorem blockRests_reset {s : CompleteEncryption.Registers} (h : s.memCipher = 0) :
    BlockRests (CompleteEncryption.reset s) := ⟨rfl, h, rfl, rfl⟩

theorem blockRests_edge {p : CompleteEncryption.Ports} {s : CompleteEncryption.Registers}
    (h : BlockRests s) (hstart : p.canStart = false) :
    BlockRests (CompleteEncryption.edge p s) := by
  rw [CompleteEncryption.edge_eq, if_pos h.tour, hstart]
  exact h

/-- The sending side before its first reply. -/
structure ReplyRests (s : TxCollecteur.Registers) : Prop where
  cpt : s.cpt = 16
  tempTxReady : s.tempTxReady = false
  dataToTx : s.dataToTx = 0
  startTx : s.startTx = false

theorem replyRests_reset (s : TxCollecteur.Registers) : ReplyRests (TxCollecteur.reset s) :=
  ⟨rfl, rfl, rfl, rfl⟩

theorem replyRests_edge {p : TxCollecteur.Ports} {s : TxCollecteur.Registers} (h : ReplyRests s)
    (hstart : p.startTransmit = false) : ReplyRests (TxCollecteur.edge p s) := by
  have hnone : ¬ (p.startTransmit = true ∧ s.cpt = 16) := by simp [hstart]
  have hcpt := h.cpt
  rw [TxCollecteur.edge, if_neg hnone, if_neg (by omega), if_neg (by omega)]
  exact ⟨hcpt, h.tempTxReady, rfl, rfl⟩

/-! ## Fewer than sixteen bytes -/

structure Waiting (bs : List Byte) (s : Registers) : Prop where
  rxColl : Holds bs s.rxColl
  fullData : s.rxColl.fullData = false
  sks : ScheduleRests s.core.sks
  encrypt : BlockRests s.core.encrypt
  txColl : ReplyRests s.txColl

theorem waiting_init : Waiting [] .init where
  rxColl := holds_nil rfl
  fullData := rfl
  sks := ⟨rfl, rfl, rfl⟩
  encrypt := ⟨rfl, rfl, rfl, rfl⟩
  txColl := ⟨rfl, rfl, rfl, rfl⟩

theorem waiting_step {i : Input} {bs : List Byte} {s : Registers} (h : Waiting bs s)
    (hreset : i.reset = true → bs = []) (hshort : (bs ++ arrived i s).length < 16) :
    Waiting (bs ++ arrived i s) (step i s) := by
  obtain ⟨hrx, hfull⟩ := holds_step h.rxColl hreset hshort
  have hnone : (coreSample i s).fullData = false := hfull h.fullData
  refine ⟨hrx, hnone, ?_, ?_, ?_⟩
  · simp only [step, Core.step, hnone, Bool.false_eq_true, if_false]
    split_ifs
    · exact scheduleRests_edge Core.masterkey h.sks
    · exact h.sks
  · simp only [step, Core.step]
    split_ifs
    · exact blockRests_reset h.encrypt.memCipher
    · exact blockRests_edge h.encrypt h.sks.terminated
    · exact h.encrypt
  · simp only [step, txCollStep]
    split_ifs
    · exact replyRests_reset _
    · exact replyRests_edge h.txColl h.encrypt.canTransmit
    · exact h.txColl

/-- A run that has received fewer than sixteen bytes is waiting; a reset before the first byte
does no harm. -/
theorem waiting_run {s : Registers} (h : Waiting [] s) (later : Nat → Input) (n : Nat)
    (hreset : ∀ m < n, (later m).reset = true → received s later m = [])
    (hshort : (received s later n).length < 16) :
    Waiting (received s later n) (Machine.run step s later n) := by
  induction n with
  | zero => exact h
  | succ n ih =>
    have hshort' := hshort
    rw [received, List.length_append] at hshort'
    refine waiting_step (ih (fun m hm => hreset m (by omega)) (by omega)) ?_ hshort
    exact hreset n (Nat.lt_succ_self n)

/-! ## Frames on the line -/

theorem four_le_maxBitCount : 4 ≤ RUart.maxBitCount generics := by decide

theorem received_add (s : Registers) (later : Nat → Input) (a n : Nat) :
    received s later (a + n) =
      received s later a ++ received (Machine.run step s later a) (fun m => later (a + m)) n := by
  induction n with
  | zero => exact (List.append_nil _).symm
  | succ n ih => rw [← Nat.add_assoc, received, received, ih, List.append_assoc, Machine.run_add]

theorem length_received_mono (s : Registers) (later : Nat → Input) {m n : Nat} (h : m ≤ n) :
    (received s later m).length ≤ (received s later n).length := by
  obtain ⟨d, rfl⟩ := Nat.exists_eq_add_of_le h
  rw [received_add, List.length_append]
  exact Nat.le_add_right _ _

theorem rxComp_run (s : Registers) (later : Nat → Input) (n : Nat)
    (hrise : ∀ m < n, (later m).rising = true) :
    (Machine.run step s later n).rxComp =
      Machine.run (RUart.edge generics) s.rxComp (fun m => rxCompPorts (later m)) n := by
  induction n with
  | zero => rfl
  | succ n ih =>
    rw [Machine.run_succ, Machine.run_succ, ← ih fun m hm => hrise m (by omega)]
    exact if_pos (hrise n (Nat.lt_succ_self n))

theorem received_high {s : Registers} (hidle : RUart.Idle s.rxComp) {later : Nat → Input} (n : Nat)
    (hline : ∀ m < n, (later m).rx = true) :
    RUart.Idle (Machine.run step s later n).rxComp ∧ received s later n = [] := by
  induction n with
  | zero => exact ⟨hidle, rfl⟩
  | succ n ih =>
    obtain ⟨hn, hnone⟩ := ih fun m hm => hline m (by omega)
    have hvalid : RUart.dataValid (Machine.run step s later n).rxComp = false := by
      simp [RUart.dataValid, hn.ready.state]
    rw [received, hnone, arrived,
      if_neg fun hall => Bool.false_ne_true (hvalid.symm.trans hall.2.2)]
    refine ⟨?_, rfl⟩
    simp only [Machine.run_succ, step]
    split_ifs
    · exact RUart.idle_edge four_le_maxBitCount hn fun _ => hline n (Nat.lt_succ_self n)
    · exact hn

section Frame
variable {b : Byte} {duration : Nat} {later : Nat → Input} {s : Registers}

theorem arrived_frame
    (hframe : RUart.Frame generics b duration fun m => rxCompPorts (later m))
    (hrise : ∀ m < duration, (later m).rising = true) (hidle : RUart.Idle s.rxComp) {n : Nat}
    (hn : n < duration) :
    arrived (later n) (Machine.run step s later n) =
      if n = RUart.deliveryTime generics then [b] else [] := by
  have hrun := rxComp_run s later n fun m hm => hrise m (by omega)
  have hvalid := RUart.dataValid_frame four_le_maxBitCount hframe hidle hn.le
  rw [← hrun] at hvalid
  split_ifs with htime
  · have hbyte := (RUart.delivers_frame four_le_maxBitCount hframe hidle).dataOut
    rw [← htime, ← hrun] at hbyte
    rw [arrived, if_pos ⟨hrise n hn, hframe.reset n hn, hvalid.mpr htime⟩, hbyte]
  · exact if_neg fun hall => htime (hvalid.mp hall.2.2)

theorem received_frame
    (hframe : RUart.Frame generics b duration fun m => rxCompPorts (later m))
    (hrise : ∀ m < duration, (later m).rising = true) (hidle : RUart.Idle s.rxComp) {n : Nat}
    (hn : n ≤ duration) :
    received s later n = if n ≤ RUart.deliveryTime generics then [] else [b] := by
  induction n with
  | zero => exact (if_pos (Nat.zero_le _)).symm
  | succ n ih =>
    rw [received, ih (by omega), arrived_frame hframe hrise hidle hn]
    split_ifs <;> first | rfl | omega

/-- Frames one after the other, without a reset. -/
structure Stream (bs : Nat → Byte) (duration : Nat) (later : Nat → Input) : Prop where
  rising : ∀ n, (later n).rising = true
  frame : ∀ k, RUart.Frame generics (bs k) duration fun m => rxCompPorts (later (k * duration + m))

variable {bs : Nat → Byte}

theorem Stream.reset (h : Stream bs duration later) (n : Nat) : (later n).reset = false := by
  have hlong := (h.frame 0).long
  have hlow := (h.frame (n / duration)).reset (n % duration) (Nat.mod_lt _ (by omega))
  rwa [Nat.mul_comm, Nat.div_add_mod] at hlow

theorem idle_stream (h : Stream bs duration later) (hidle : RUart.Idle s.rxComp) (k : Nat) :
    RUart.Idle (Machine.run step s later (k * duration)).rxComp := by
  induction k with
  | zero => rwa [Nat.zero_mul]
  | succ k ih =>
    have hlong := (h.frame k).long
    rw [Nat.add_mul, Nat.one_mul, Machine.run_add, rxComp_run _ _ _ fun m _ => h.rising _]
    exact RUart.idle_frame four_le_maxBitCount (h.frame k) ih
      (by unfold RUart.deliveryTime; omega) le_rfl

theorem received_stream (h : Stream bs duration later) (hidle : RUart.Idle s.rxComp) (k : Nat)
    {n : Nat} (hn : n ≤ duration) :
    received s later (k * duration + n) =
      (List.range k).map bs ++ if n ≤ RUart.deliveryTime generics then [] else [bs k] := by
  have hlast (k n : Nat) (hn : n ≤ duration) :=
    received_frame (h.frame k) (fun m _ => h.rising _) (idle_stream h hidle k) hn
  rw [received_add, hlast k n hn]
  congr 1
  induction k with
  | zero => rw [Nat.zero_mul, received, List.range_zero, List.map_nil]
  | succ k ih =>
    have hlong := (h.frame k).long
    rw [Nat.add_mul, Nat.one_mul, received_add, ih, hlast k _ le_rfl, List.range_succ, List.map_append,
      if_neg (by unfold RUart.deliveryTime; omega)]
    rfl

/-- The sixteenth byte in the collector since it was empty completes the block, and it does so for
the first time. -/
theorem full_stream {before : List Byte} (hholds : Holds before s.rxColl)
    (h : Stream bs duration later) (hidle : RUart.Idle s.rxComp) {k : Nat}
    (hk : before.length + k = 15) :
    (∀ n ≤ k * duration + RUart.deliveryTime generics, s.rxColl.fullData = false →
      (Machine.run step s later n).rxColl.fullData = false) ∧
    (Machine.run step s later (k * duration + RUart.deliveryTime generics + 1)).rxColl.fullData =
      true ∧
    Holds [] (Machine.run step s later
      (k * duration + RUart.deliveryTime generics + 1)).rxColl ∧
    List.ofFn (bytes (Machine.run step s later
      (k * duration + RUart.deliveryTime generics + 1)).rxColl.plain) =
        before ++ (List.range (k + 1)).map bs := by
  have hlong := (h.frame k).long
  have hD : RUart.deliveryTime generics < duration := by unfold RUart.deliveryTime; omega
  have hreceived := received_stream h hidle k hD.le
  rw [if_pos le_rfl, List.append_nil] at hreceived
  have hlength : (received s later (k * duration + RUart.deliveryTime generics)).length = k := by
    rw [hreceived, List.length_map, List.length_range]
  have hbefore (n : Nat) (hn : n ≤ k * duration + RUart.deliveryTime generics) :=
    holds_run hholds later n (fun m _ => h.reset m) (by
      rw [List.length_append]
      have hmono := length_received_mono s later hn
      omega)
  have harrived : arrived (later (k * duration + RUart.deliveryTime generics))
      (Machine.run step s later (k * duration + RUart.deliveryTime generics)) = [bs k] := by
    rw [Machine.run_add, arrived_frame (h.frame k) (fun m _ => h.rising _) (idle_stream h hidle k) hD,
      if_pos rfl]
  have hlast := full_step (i := later (k * duration + RUart.deliveryTime generics))
    (hbefore _ le_rfl).1 (by rw [List.length_append, hlength, hk]) (by simp [harrived])
  rw [harrived, hreceived, List.append_assoc] at hlast
  rw [List.range_succ, List.map_append]
  exact ⟨fun n hn => (hbefore n hn).2, hlast⟩

theorem Stream.shift (h : Stream bs duration later) (k : Nat) :
    Stream (fun j => bs (k + j)) duration fun m => later (k * duration + m) := by
  refine ⟨fun n => h.rising _, fun j => ?_⟩
  have hframe := h.frame (k + j)
  simp only [Nat.add_mul, Nat.add_assoc] at hframe
  exact hframe

theorem arrived_stream (h : Stream bs duration later) (hidle : RUart.Idle s.rxComp) (k : Nat)
    {n : Nat} (hn : n < duration) :
    arrived (later (k * duration + n)) (Machine.run step s later (k * duration + n)) =
      if n = RUart.deliveryTime generics then [bs k] else [] := by
  rw [Machine.run_add]
  exact arrived_frame (h.frame k) (fun m _ => h.rising _) (idle_stream h hidle k) hn

theorem rxColl_quiet {i : Input} (hrise : i.rising = true) (hreset : i.reset = false)
    (hnone : arrived i s = []) :
    (step i s).rxColl = { s.rxColl with fullData := false } := by
  have hvalid : RUart.dataValid s.rxComp = false := by
    by_contra hne
    rw [arrived, if_pos ⟨hrise, hreset, Bool.of_not_eq_false hne⟩] at hnone
    exact absurd hnone (List.cons_ne_nil _ _)
  simp only [step, rxCollStep, hreset, hrise, hvalid, RxCollecteur.edge, Bool.false_eq_true, if_false,
    if_true]

/-- After a byte has been taken the collector keeps its contents until the next one. -/
theorem quiet_stream (h : Stream bs duration later) (hidle : RUart.Idle s.rxComp) (k : Nat) {n : Nat}
    (hn : n + 1 < duration) :
    (Machine.run step s later
      (k * duration + RUart.deliveryTime generics + 1 + (n + 1))).rxColl =
      { (Machine.run step s later (k * duration + RUart.deliveryTime generics + 1)).rxColl with
        fullData := false } := by
  have hlong := (h.frame k).long
  have hD : RUart.deliveryTime generics < duration := by unfold RUart.deliveryTime; omega
  have hnone (m : Nat) (hm : m + 1 < duration) :
      arrived (later (k * duration + RUart.deliveryTime generics + 1 + m))
        (Machine.run step s later (k * duration + RUart.deliveryTime generics + 1 + m)) = [] := by
    by_cases hsame : RUart.deliveryTime generics + 1 + m < duration
    · have harrived := arrived_stream h hidle k hsame
      rw [if_neg (by omega)] at harrived
      simpa only [Nat.add_assoc] using harrived
    · have hpos : k * duration + RUart.deliveryTime generics + 1 + m =
          (k + 1) * duration + (RUart.deliveryTime generics + 1 + m - duration) := by
        rw [Nat.add_mul, Nat.one_mul]
        omega
      rw [hpos, arrived_stream h hidle (k + 1) (by omega), if_neg (by omega)]
  induction n with
  | zero => exact rxColl_quiet (h.rising _) (h.reset _) (hnone 0 hn)
  | succ n ih =>
    have hstep := rxColl_quiet (h.rising _) (h.reset _) (hnone (n + 1) hn)
    have hlast : Machine.run step s later
        (k * duration + RUart.deliveryTime generics + 1 + (n + 1 + 1)) =
      step (later (k * duration + RUart.deliveryTime generics + 1 + (n + 1)))
        (Machine.run step s later (k * duration + RUart.deliveryTime generics + 1 + (n + 1))) := rfl
    rw [hlast, hstep, ih (by omega)]

/-- A host that begins a frame every `duration` edges. -/
def lineInput (duration : Nat) (bs : Nat → Byte) (t : Nat) : Input where
  rising := true
  reset := false
  rx := RUart.frameLine generics (bs (t / duration)) (t % duration)
  encDecSel := false

theorem stream_lineInput (hlong : RUart.deliveryTime generics < duration) :
    Stream bs duration (lineInput duration bs) := by
  refine ⟨fun _ => rfl, fun k => ?_⟩
  refine RUart.frame_frameLine four_le_maxBitCount (bs k) hlong fun n hn => ?_
  rw [rxCompPorts, lineInput, Nat.mul_comm, Nat.mul_add_div (by omega), Nat.div_eq_of_lt hn,
    Nat.mul_add_mod, Nat.mod_eq_of_lt hn, Nat.add_zero]

end Frame

theorem idle_init : RUart.Idle Registers.init.rxComp := ⟨⟨rfl, rfl, rfl, rfl⟩, rfl⟩

theorem deliveryTime_eq : RUart.deliveryTime generics = 8249 := by decide

end KuznyechikDPA.UartStandardComplete

import KuznyechikDPA.Uart.Loopback
import KuznyechikDPA.Uart.TUartLoads

/-!
# Bytes on a wire

A line that carries frames with any pauses between them is read byte by byte. What `tUART` puts on its
line is what it has loaded, so a receiver on that line signals the loaded bytes, also when the
sender changes `data_in` between its start pulse and the load.
-/

namespace KuznyechikDPA.RUart

variable {g : UartGenerics} {ports : Nat → Ports} {t t' : Nat} {bs : List Byte}

/-- From instant `t` to instant `t'` the line carries the bytes. -/
inductive Carries (g : UartGenerics) (ports : Nat → Ports) : Nat → List Byte → Nat → Prop
  | nil {t : Nat} : Carries g ports t [] t
  | pause {t t' : Nat} {bs : List Byte} (reset : (ports t).reset = false)
      (high : (ports t).dataIn = true) (later : Carries g ports (t + 1) bs t') : Carries g ports t bs t'
  | frame {t t' d : Nat} {b : Byte} {bs : List Byte} (frame : Frame g b d fun m => ports (t + m))
      (later : Carries g ports (t + d) bs t') : Carries g ports t (b :: bs) t'

/-- The same line, `d` edges later. -/
theorem Carries.shift {ports' : Nat → Ports} {d : Nat} (hline : ∀ m, ports' (d + m) = ports m)
    (h : Carries g ports t bs t') : Carries g ports' (d + t) bs (d + t') := by
  induction h with
  | nil => exact .nil
  | pause reset high _ ih =>
    rw [← hline] at reset high
    exact .pause reset high ih
  | @frame t _ l _ _ frame _ ih =>
    have hsame : (fun m => ports' (d + t + m)) = fun m => ports (t + m) := by
      funext m
      rw [Nat.add_assoc, hline]
    rw [← Nat.add_assoc] at ih
    exact .frame (hsame ▸ frame) ih

/-- A frame every `duration` edges. -/
theorem carries_of_frames {duration : Nat} (h : ∀ k (hk : k < bs.length),
    Frame g bs[k] duration fun m => ports (t + k * duration + m)) :
    Carries g ports t bs (t + bs.length * duration) := by
  induction bs generalizing t with
  | nil =>
    rw [List.length_nil, Nat.zero_mul]
    exact .nil
  | cons b bs ih =>
    have hfirst : Frame g b duration fun m => ports (t + m) := by
      simpa using h 0 (Nat.succ_pos _)
    have hlater : Carries g ports (t + duration) bs (t + duration + bs.length * duration) := by
      refine ih fun k hk => ?_
      have hpos : t + (k + 1) * duration = t + duration + k * duration := by
        rw [Nat.add_mul, Nat.one_mul]
        omega
      rw [← hpos]
      exact h (k + 1) (Nat.succ_lt_succ hk)
    have hend : t + (b :: bs).length * duration = t + duration + bs.length * duration := by
      rw [List.length_cons, Nat.add_mul, Nat.one_mul]
      omega
    rw [hend]
    exact .frame hfirst hlater

/-- The byte that the receiver signals. -/
def signalled (s : Registers) : List Byte := if dataValid s then [dataOut s] else []

theorem signalled_of_idle {s : Registers} (h : Idle s) : signalled s = [] := by
  apply if_neg
  simp [dataValid, h.ready.state]

section Receiver
variable (hM : 4 ≤ maxBitCount g) {regs : Nat → Registers}
variable (hregs : ∀ n, regs (n + 1) = edge g (ports n) (regs n))
include hregs

theorem run_regs (t n : Nat) :
    regs (t + n) = Machine.run (edge g) (regs t) (fun m => ports (t + m)) n := by
  induction n with
  | zero => rfl
  | succ n ih => rw [Machine.run_succ, ← ih, ← Nat.add_assoc, hregs]

include hM

theorem collected_frame {d : Nat} {b : Byte} (hframe : Frame g b d fun m => ports (t + m))
    (hidle : Idle (regs t)) : collected (fun k => signalled (regs k)) t d = [b] := by
  have hvalid (k : Nat) (hk : k ≤ d) : dataValid (regs (t + k)) = true ↔ k = deliveryTime g := by
    rw [run_regs hregs]
    exact dataValid_frame hM hframe hidle hk
  have hdelivers := delivers_frame hM hframe hidle
  rw [← run_regs hregs] at hdelivers
  have hlong : deliveryTime g < d := hframe.long
  obtain ⟨n, rfl⟩ := Nat.exists_eq_add_of_le hlong
  have hnone (k : Nat) (hk : k ≤ deliveryTime g + 1 + n) (hne : k ≠ deliveryTime g) :
      signalled (regs (t + k)) = [] :=
    if_neg (mt (hvalid k hk).mp hne)
  have hbyte : signalled (regs (t + deliveryTime g)) = [b] := by
    rw [signalled, if_pos ((hvalid _ (by omega)).mpr rfl), hdelivers.dataOut]
  have hbefore : collected (fun k => signalled (regs k)) t (deliveryTime g) = [] := by
    apply collected_nil
    intro k hk
    exact hnone k (by omega) (by omega)
  have hafter : collected (fun k => signalled (regs k)) (t + (deliveryTime g + 1)) n = [] := by
    apply collected_nil
    intro k hk
    rw [Nat.add_assoc]
    exact hnone _ (by omega) (by omega)
  rw [collected_add, collected_succ, hbefore, hbyte, hafter]
  rfl

/-- The bytes on the line are signalled once each, in their order, and nothing else is. -/
theorem Carries.received (h : Carries g ports t bs t') (hidle : Idle (regs t)) :
    ∃ n, t + n = t' ∧ collected (fun k => signalled (regs k)) t n = bs ∧ Idle (regs t') := by
  induction h with
  | nil => exact ⟨0, rfl, rfl, hidle⟩
  | @pause t t' bs reset high _ ih =>
    have hnext : Idle (regs (t + 1)) := by
      rw [hregs]
      exact idle_edge hM hidle fun _ => high
    obtain ⟨n, hn, hbytes, hend⟩ := ih hnext
    refine ⟨1 + n, by omega, ?_, hend⟩
    rw [collected_add, collected_one, signalled_of_idle hidle, hbytes]
    rfl
  | @frame t t' d b bs frame _ ih =>
    have hnext : Idle (regs (t + d)) := by
      rw [run_regs hregs]
      exact idle_frame hM frame hidle frame.long (Nat.le_refl d)
    obtain ⟨n, hn, hbytes, hend⟩ := ih hnext
    refine ⟨d + n, by omega, ?_, hend⟩
    rw [collected_add, collected_frame hM hregs frame hidle, hbytes]
    rfl

/-- The first byte takes a frame. -/
theorem Carries.quiet (h : Carries g ports t bs t') (hidle : Idle (regs t)) {n : Nat}
    (hn : n ≤ deliveryTime g) (hend : t + n ≤ t') : collected (fun k => signalled (regs k)) t n = [] := by
  induction h generalizing n with
  | nil =>
    obtain rfl : n = 0 := by omega
    rfl
  | @pause t t' bs reset high _ ih =>
    rcases n with _ | n
    · rfl
    · have hnext : Idle (regs (t + 1)) := by
        rw [hregs]
        exact idle_edge hM hidle fun _ => high
      rw [Nat.add_comm n 1, collected_add, collected_one, signalled_of_idle hidle,
        ih hnext (by omega) (by omega)]
      rfl
  | @frame t t' d b bs frame _ _ =>
    have hlong := frame.long
    apply collected_nil
    intro k hk
    apply if_neg
    rw [run_regs hregs, dataValid_frame hM frame hidle (by unfold deliveryTime at hn; omega)]
    omega

/-- A line that stays high carries nothing. -/
theorem silent_of_high (hidle : Idle (regs t)) {n : Nat} (hhigh : ∀ m < n, (ports (t + m)).dataIn = true) :
    Idle (regs (t + n)) ∧ collected (fun k => signalled (regs k)) t n = [] := by
  induction n with
  | zero => exact ⟨hidle, rfl⟩
  | succ n ih =>
    obtain ⟨hend, hnone⟩ := ih fun m hm => hhigh m (by omega)
    constructor
    · rw [← Nat.add_assoc, hregs]
      exact idle_edge hM hend fun _ => hhigh n (Nat.lt_succ_self n)
    · rw [collected_succ, hnone, signalled_of_idle hend]
      rfl

end Receiver
end KuznyechikDPA.RUart

namespace KuznyechikDPA.TUart

/-- Between two bytes, whether or not the delay after the last one is over. -/
structure Vacant (g : UartGenerics) (s : Registers) : Prop where
  settled : Settled s
  wrapped : Wrapped g s
  state : s.state = .init
  reg : s.txReadyReg = true

theorem Vacant.launch {g : UartGenerics} {p : Ports} {s : Registers} (h : Vacant g s)
    (hreset : p.reset = false) (hstart : p.start = true) :
    Launched g (edge g p s) ∧ (edge g p s).txReadyReg = false := by
  have hlead : s.startCountLead = false := by
    by_contra hon
    have hbusy := h.settled.lead (Bool.of_not_eq_false hon)
    exact absurd (hbusy.symm.trans h.reg) Bool.false_ne_true
  obtain ⟨hstate, hnext, hfollow, hreg, -, -⟩ :=
    edge_of_init (g := g) h.state (startTrans_of_lead hlead) hreset
  refine ⟨⟨settled_edge g p s, wrapped_edge h.wrapped p, hstate, hnext.trans hstart, hfollow.trans hlead⟩, ?_⟩
  rw [hreg, hstart]
  rfl

end KuznyechikDPA.TUart

namespace KuznyechikDPA.Loopback

variable {g : UartGenerics} {input : Nat → TUart.Ports}

/-- A sender that gives start pulses between two bytes only. -/
structure Polite (g : UartGenerics) (input : Nat → TUart.Ports) : Prop where
  reset : ∀ t, (input t).reset = false
  free : ∀ t, (input t).start = true →
    (run g input t).tx.state = .init ∧ (run g input t).tx.txReadyReg = true

/-- What `tUART` loads at edge `t`. -/
def loads (g : UartGenerics) (input : Nat → TUart.Ports) (t : Nat) : List Byte :=
  TUart.loaded (input t) (run g input t).tx

/-- Every byte is shown from its start pulse on as it is at the load. -/
def early (input : Nat → TUart.Ports) (t : Nat) : TUart.Ports :=
  { input t with
    dataIn :=
      if (input t).start = true then (input (t + 2)).dataIn
      else if t ≠ 0 ∧ (input (t - 1)).start = true then (input (t + 1)).dataIn
      else (input t).dataIn }

theorem settled_wrapped_run (t : Nat) :
    TUart.Settled (run g input t).tx ∧ TUart.Wrapped g (run g input t).tx := by
  induction t with
  | zero => exact ⟨TUart.settled_init, TUart.wrapped_init g⟩
  | succ t ih => exact ⟨TUart.settled_edge g _ _, TUart.wrapped_edge ih.2 _⟩

theorem tx_succ (t : Nat) : (run g input (t + 1)).tx = TUart.edge g (input t) (run g input t).tx := rfl

/-- `data_in` is read at the load only. -/
theorem edge_dataIn (p : TUart.Ports) {d : Byte} {s : TUart.Registers}
    (h : s.state = .load → d = p.dataIn) :
    TUart.edge g { p with dataIn := d } s = TUart.edge g p s := by
  by_cases hload : s.state = .load
  · rw [h hload]
  · have hlow : TUart.loadData s = false := decide_eq_false hload
    have hbits : TUart.countBitsProc { p with dataIn := d } s = TUart.countBitsProc p s := by
      simp only [TUart.countBitsProc, hlow, Bool.false_eq_true, if_false]
    unfold TUart.edge
    rw [hbits]

section Polite
variable (h : Polite g input)
include h

theorem start_of_unfree {t : Nat} (hnot : (run g input t).tx.state = .init →
    (run g input t).tx.txReadyReg = false) : (input t).start = false := by
  by_contra hon
  obtain ⟨hstate, hreg⟩ := h.free t (Bool.of_not_eq_false hon)
  exact absurd ((hnot hstate).symm.trans hreg) Bool.false_ne_true

/-- The two edges after a start pulse. -/
theorem after_start {t : Nat} (hstart : (input t).start = true) :
    (run g input (t + 1)).tx.state = .init ∧ (input (t + 1)).start = false ∧
      (run g input (t + 2)).tx.state = .load ∧ (input (t + 2)).start = false := by
  have hfree : TUart.Vacant g (run g input t).tx :=
    ⟨(settled_wrapped_run t).1, (settled_wrapped_run t).2, (h.free t hstart).1, (h.free t hstart).2⟩
  obtain ⟨hlaunched, hreg⟩ := hfree.launch (h.reset t) hstart
  rw [← tx_succ] at hlaunched hreg
  have hnone := start_of_unfree h fun _ => hreg
  obtain ⟨hload, -⟩ := hlaunched.load (h.reset (t + 1)) hnone
  rw [← tx_succ] at hload
  refine ⟨hlaunched.state, hnone, hload.state, start_of_unfree h fun hinit => ?_⟩
  have himpossible := hload.state.symm.trans hinit
  contradiction

theorem early_of_load {t : Nat} (hload : (run g input t).tx.state = .load) :
    (early input t).dataIn = (input t).dataIn := by
  have hnone : ¬ (input t).start = true := by
    rw [start_of_unfree h]
    · exact Bool.false_ne_true
    · intro hinit
      have himpossible := hload.symm.trans hinit
      contradiction
  have hbefore : ¬ (t ≠ 0 ∧ (input (t - 1)).start = true) := by
    rintro ⟨hpos, hstart⟩
    have hinit := (after_start h hstart).1
    rw [Nat.sub_add_cancel (by omega), hload] at hinit
    contradiction
  rw [early, if_neg hnone, if_neg hbefore]

theorem run_early (t : Nat) : run g (early input) t = run g input t := by
  induction t with
  | zero => rfl
  | succ t ih =>
    apply Registers.ext
    · rw [tx_succ, tx_succ, ih]
      exact edge_dataIn (input t) (early_of_load h)
    · rw [run, Machine.run_succ, ← run, ih]
      rfl

theorem orderly_early : Orderly g (early input) where
  reset t := h.reset t
  free t hstart := by
    rw [run_early h]
    exact h.free t hstart
  held t hstart := by
    have hon : (input t).start = true := hstart
    obtain ⟨-, hone, -, htwo⟩ := after_start h hon
    have hdata : (early input t).dataIn = (input (t + 2)).dataIn := if_pos hon
    constructor
    · rw [hdata, early, if_neg (by rw [hone]; decide), if_pos ⟨Nat.succ_ne_zero t, hon⟩]
    · rw [hdata, early, if_neg (by rw [htwo]; decide), if_neg]
      rintro ⟨-, hlate⟩
      have hpos : t + 2 - 1 = t + 1 := rfl
      rw [hpos, hone] at hlate
      contradiction

variable (hN : 20 ≤ TUart.maxClkCount g)
include hN

theorem loads_start {t : Nat} (hstart : (input t).start = true) :
    loads g input (t + 2) = [(input (t + 2)).dataIn] := by
  have horderly := orderly_early h
  have hrests := (orderly_renewal hN horderly).rests_of_start rests_init t (by rwa [Nat.zero_add])
  rw [Nat.zero_add] at hrests
  obtain ⟨⟨c, -, hrest⟩, -⟩ := hrests
  obtain ⟨-, hloading⟩ := tx_loading horderly hrest hstart
  rw [run_early h] at hloading
  have hnow : TUart.loadData (run g input (t + 2)).tx = true := decide_eq_true hloading.state
  rw [loads, TUart.loaded, if_pos ⟨h.reset _, by rw [hloading.numberBits]; decide, hnow⟩]

omit hN in
theorem loads_none {t : Nat} (hnone : ∀ u, u + 2 = t → (input u).start = false) :
    loads g input t = [] := by
  apply TUart.loaded_of_ne
  intro hload
  rcases t with _ | t
  · contradiction
  have htrans : TUart.startTrans (run g input t).tx = true := by
    rw [tx_succ] at hload
    cases hstate : (run g input t).tx.state with
    | init =>
      by_contra hoff
      simp [TUart.edge, TUart.settle, TUart.nxtState, hstate, hoff, h.reset t] at hload
    | load => simp [TUart.edge, TUart.settle, TUart.nxtState, hstate, h.reset t] at hload
    | shift =>
      simp only [TUart.edge, TUart.settle, TUart.nxtState, hstate, h.reset t] at hload
      split_ifs at hload
  rcases t with _ | t
  · contradiction
  · have hlead : (run g input (t + 1)).tx.startCountLead = (input t).start := by
      rw [tx_succ]
      simp [TUart.edge, TUart.settle, h.reset t]
    rw [TUart.startTrans, hlead, hnone t rfl] at htrans
    contradiction

theorem marked_loads (n : Nat) : marked (fun t => (early input t).start) (fun t => (early input t).dataIn) n =
    collected (loads g input) 0 (n + 2) := by
  induction n with
  | zero =>
    symm
    apply collected_nil
    intro k hk
    apply loads_none h
    omega
  | succ n ih =>
    have hnext : collected (loads g input) 0 (n + 1 + 2) =
        collected (loads g input) 0 (n + 2) ++ loads g input (n + 2) := by
      have hsplit := collected_succ (loads g input) 0 (n + 2)
      rwa [Nat.zero_add] at hsplit
    rw [marked_succ, ih, hnext]
    by_cases hstart : (input n).start = true
    · have hdata : (early input n).dataIn = (input (n + 2)).dataIn := if_pos hstart
      have hearly : (early input n).start = true := hstart
      rw [if_pos hearly, hdata, loads_start h hN hstart]
    · have hearly : ¬ (early input n).start = true := hstart
      have hnone : loads g input (n + 2) = [] := by
        apply loads_none h
        intro u hu
        obtain rfl : u = n := Nat.add_right_cancel hu
        exact Bool.eq_false_iff.mpr hstart
      rw [if_neg hearly, hnone]

/-- The receiver signals what the transmitter has loaded. -/
theorem received_loads (n : Nat) :
    received g input (n + latency g) = collected (loads g input) 0 (n + 2) := by
  have horderly := orderly_early h
  have hrenewal := orderly_renewal hN horderly
  have hvalid := hrenewal.answers_iff rests_init
  have hsame : received g input = received g (early input) := by
    unfold received
    simp only [run_early h]
  rw [hsame, ← marked_loads h hN]
  refine marked_shift hvalid ?_ n
  intro u hstart
  have hrests := hrenewal.rests_of_start rests_init u (by rwa [Nat.zero_add])
  rw [Nat.zero_add] at hrests
  obtain ⟨⟨c, hc, htx⟩, hrx⟩ := hrests
  have hlong : c ≤ TUart.lastPosition g := by
    unfold TUart.lastPosition
    omega
  obtain ⟨m, hm⟩ := Nat.exists_eq_add_of_le hlong
  exact delivers_job hN horderly hc htx hstart hm.symm hrx

end Polite
end KuznyechikDPA.Loopback

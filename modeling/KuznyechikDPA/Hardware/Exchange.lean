import KuznyechikDPA.Hardware.BlockService

/-!
# From one wire to the other

A host sends the bytes of a block in frames on the line that `rUART` reads, keeps the line high for at
least `exchangeTime` edges and then sends the next block. What a receiver of its own reads from the line
that `tUART` drives are the replies to these blocks and nothing else.
-/

namespace KuznyechikDPA
open UartStandardComplete (Input generics rxCompPorts Holds four_le_maxBitCount)
open Shell (Ticks Polite)
open ReplyPath (Idling)

variable {σ ι : Type}

/-! ## The host's line -/

/-- The line from the host. -/
def line (input : Nat → Input) (t : Nat) : RUart.Ports := rxCompPorts (input t)

/-- The host's line from instant `t` on: the frames of one block after the other, each with a pause after
it in which the design can reply. -/
inductive Asks (pause : Nat) (input : Nat → Input) : Nat → List Block → Prop
  | done {t : Nat} (high : ∀ k, (input (t + k)).rx = true) : Asks pause input t []
  | ask {t t' d : Nat} {plain : Block} {blocks : List Block}
      (carries : RUart.Carries generics (line input) t (List.ofFn (bytes plain)) t')
      (long : pause ≤ d) (high : ∀ k < d, (input (t' + k)).rx = true)
      (later : Asks pause input (t' + d) blocks) : Asks pause input t (plain :: blocks)

/-- The same line, `d` edges later. -/
theorem Asks.shift {pause d t : Nat} {input input' : Nat → Input} {blocks : List Block}
    (hline : ∀ m, input' (d + m) = input m) (h : Asks pause input t blocks) :
    Asks pause input' (d + t) blocks := by
  induction h with
  | @done t high =>
    refine .done fun k => ?_
    rw [Nat.add_assoc, hline]
    exact high k
  | @ask t t' l plain blocks carries long high _ ih =>
    have hports : ∀ m, line input' (d + m) = line input m := fun m => congrArg rxCompPorts (hline m)
    rw [← Nat.add_assoc] at ih
    refine .ask (carries.shift hports) long (fun k hk => ?_) ih
    rw [Nat.add_assoc, hline]
    exact high k hk

/-- A host that sends one block, a frame every 9000 edges. -/
def oneBlock (plain : Block) (t : Nat) : Input where
  rising := true
  reset := false
  rx :=
    if t < 16 * 9000 then RUart.frameLine generics (bytes plain (Fin.ofNat 16 (t / 9000))) (t % 9000)
    else true
  encDecSel := false

theorem asks_oneBlock (pause : Nat) (plain : Block) : Asks pause (oneBlock plain) 0 [plain] := by
  have hcarries : RUart.Carries generics (line (oneBlock plain)) 0 (List.ofFn (bytes plain))
      (0 + (List.ofFn (bytes plain)).length * 9000) := by
    apply RUart.carries_of_frames
    intro k hk
    rw [List.length_ofFn] at hk
    refine RUart.frame_frameLine four_le_maxBitCount _
      (by rw [UartStandardComplete.deliveryTime_eq]; decide) fun n hn => ?_
    have hlow : 0 + k * 9000 + n < 16 * 9000 := by omega
    have hdiv : (0 + k * 9000 + n) / 9000 = k := by omega
    have hmod : (0 + k * 9000 + n) % 9000 = n := by omega
    have hk' : Fin.ofNat 16 k = ⟨k, hk⟩ := Fin.ext (Nat.mod_eq_of_lt hk)
    simp only [line, rxCompPorts, oneBlock, if_pos hlow, hdiv, hmod, hk', List.getElem_ofFn]
  rw [List.length_ofFn] at hcarries
  have hhigh (t : Nat) : (oneBlock plain (0 + 16 * 9000 + t)).rx = true := if_neg (by omega)
  refine .ask hcarries (Nat.le_refl pause) (fun k _ => hhigh k) (.done fun k => ?_)
  rw [Nat.add_assoc (0 + 16 * 9000)]
  exact hhigh _

/-- The replies to jobs with these marks. -/
def answers (result : ι → Block) : Block → List (ι × Block) → List Byte
  | _, [] => []
  | mem, (x, mark) :: jobs => reply mem mark (result x) ++ answers result mark jobs

namespace Design
variable (D : Design σ) (s₀ : σ) (input : Nat → Input)

def run (t : Nat) : σ := Machine.run D.step s₀ input t

/-- `rUART` at instant `t`. -/
def receiver (t : Nat) : RUart.Registers := (D.shell (D.run s₀ input t)).rxComp

/-- The byte that `rUART` signals at instant `t`. -/
def hears (t : Nat) : List Byte := (D.shell (D.run s₀ input t)).hears

/-- What `tUART` loads at instant `t`. -/
def loads (t : Nat) : List Byte := (D.shell (D.run s₀ input t)).loaded (input t)

/-- A receiver on the line that `tUART` drives. -/
def host (t : Nat) : RUart.Registers :=
  Machine.run (RUart.edge generics) .init
    (fun k => ⟨false, TUart.dataOut (D.shell (D.run s₀ input k)).txComp⟩) t

/-- The bytes that the host has read in the first `n` instants. -/
def heard (n : Nat) : List Byte := collected (fun t => RUart.signalled (D.host s₀ input t)) 0 n

theorem shell_succ (t : Nat) : D.shell (D.run s₀ input (t + 1)) =
    (D.shell (D.run s₀ input t)).step (input t) (D.cipher (D.run s₀ input t))
      (D.canTransmit (D.run s₀ input t)) :=
  D.shell_step _ _

theorem hears_length (t : Nat) : (D.hears s₀ input t).length ≤ 1 := by
  rcases (D.shell (D.run s₀ input t)).hears_cases with hnone | ⟨b, hbyte⟩
  · rw [hears, hnone]
    exact Nat.zero_le 1
  · rw [hears, hbyte]
    exact Nat.le_refl 1

end Design

namespace Service
variable {D : Design σ} {sel : Bool} (V : Service D sel ι) {s₀ : σ} {input : Nat → Input} {x : ι}
  {mem plain : Block} {t n m : Nat} {got sent : List Byte}

/-- At rest after at most `m` edges, with the bytes `got` of the next block. -/
structure Listens (mem : Block) (m : Nat) (got : List Byte) (s : σ) : Prop where
  divider : (D.shell s).clkCounter ≤ 5
  rests : V.Rests mem s
  sending : Idling generics m (D.shell s).replyPath
  holds : Holds got (D.shell s).rxColl

/-- Busy with the job `x`, or done with it. -/
structure Serves (mem : Block) (x : ι) (n : Nat) (sent : List Byte) (s : σ) : Prop where
  divider : (D.shell s).clkCounter ≤ 5
  holds : Holds [] (D.shell s).rxColl
  answers : V.Answering mem x n sent s ∨ V.Answered mem x n sent s

variable {V}

theorem Listens.polite {s : σ} (h : V.Listens mem m got s) : (D.shell s).Polite :=
  polite_of_idling h.sending

section Run
variable (h : ∀ t, Ticks sel (input t))
include h

theorem receiver_succ (t : Nat) : D.receiver s₀ input (t + 1) =
    RUart.edge generics (line input t) (D.receiver s₀ input t) := by
  rw [Design.receiver, D.shell_succ]
  exact if_pos (h t).rising

/-! ## Before a block is complete -/

theorem listens_step (hl : V.Listens mem m got (D.run s₀ input t))
    (hshort : (got ++ D.hears s₀ input t).length < 16) :
    V.Listens mem (m - 1) (got ++ D.hears s₀ input t) (D.run s₀ input (t + 1)) ∧
      D.loads s₀ input t = [] := by
  obtain ⟨hholds, hfull⟩ := Shell.holds_step (h t) hl.holds hshort
  obtain ⟨hrests, -⟩ := V.rests_step hl.rests (h t) hfull
  obtain ⟨hsending, -, hquiet⟩ := idle_wait (h t) hl.sending (V.rests_silent hl.rests)
  have hshell := D.shell_succ s₀ input t
  refine ⟨⟨?_, hrests, hsending, ?_⟩, hquiet⟩
  · rw [hshell]
    exact Shell.clkCounter_step hl.divider
  · rw [hshell]
    exact hholds

theorem listens_run (hl : V.Listens mem m got (D.run s₀ input t))
    (hshort : (got ++ collected (D.hears s₀ input) t n).length < 16) :
    V.Listens mem (m - n) (got ++ collected (D.hears s₀ input) t n) (D.run s₀ input (t + n)) ∧
      collected (D.loads s₀ input) t n = [] ∧ ∀ k < n, (D.shell (D.run s₀ input (t + k))).Polite := by
  induction n with
  | zero =>
    have hnone : collected (D.hears s₀ input) t 0 = [] := rfl
    rw [hnone, List.append_nil]
    exact ⟨hl, rfl, fun k hk => absurd hk (Nat.not_lt_zero k)⟩
  | succ n ih =>
    rw [collected_succ, ← List.append_assoc] at hshort ⊢
    have hless : (got ++ collected (D.hears s₀ input) t n).length < 16 := by
      rw [List.length_append] at hshort
      omega
    obtain ⟨hlistens, hnone, hpolite⟩ := ih hless
    obtain ⟨hnext, hquiet⟩ := listens_step h hlistens hshort
    refine ⟨hnext, ?_, fun k hk => ?_⟩
    · rw [collected_succ, hnone, hquiet]
      rfl
    · obtain hlt | rfl : k < n ∨ k = n := by omega
      · exact hpolite k hlt
      · exact hlistens.polite

/-! ## The block and its reply -/

/-- The sixteenth byte. -/
theorem listens_full {b : Byte} (hl : V.Listens mem 0 got (D.run s₀ input t)) (hlast : got.length = 15)
    (hbyte : D.hears s₀ input t = [b]) (hplain : List.ofFn (bytes plain) = got ++ [b]) :
    V.Serves mem (V.job plain) V.exchangeTime [] (D.run s₀ input (t + 1)) ∧ D.loads s₀ input t = [] := by
  obtain ⟨hon, hholds, hbytes⟩ := UartStandardComplete.full_of_holds hl.holds b hlast
  have hshell := D.shell_succ s₀ input t
  have hcoll := Shell.rxCollStep_byte (h t) hbyte
  rw [← hcoll] at hon hholds hbytes
  have hblock : ((D.shell (D.run s₀ input t)).rxCollStep (input t)).plain = plain :=
    bytes_injective (List.ofFn_injective (hbytes.trans hplain.symm))
  have hrest : V.Resting mem 0 (D.run s₀ input t) := ⟨hl.rests, hl.sending⟩
  obtain ⟨hanswers, hquiet⟩ := hrest.begin (h t) hon
  rw [hblock] at hanswers
  refine ⟨⟨?_, ?_, .inl hanswers⟩, hquiet⟩
  · rw [hshell]
    exact Shell.clkCounter_step hl.divider
  · rw [hshell]
    exact hholds

theorem serves_step (hs : V.Serves mem x n sent (D.run s₀ input t)) (hnone : D.hears s₀ input t = []) :
    (D.shell (D.run s₀ input t)).Polite ∧
      V.Serves mem x (n - 1) (sent ++ D.loads s₀ input t) (D.run s₀ input (t + 1)) := by
  have hcoll := Shell.rxCollStep_quiet (h t) hnone
  have hshell := D.shell_succ s₀ input t
  have hdivider : (D.shell (D.run s₀ input (t + 1))).clkCounter ≤ 5 := by
    rw [hshell]
    exact Shell.clkCounter_step hs.divider
  have hrx : (D.shell (D.run s₀ input (t + 1))).rxColl =
      { (D.shell (D.run s₀ input t)).rxColl with fullData := false } := by
    rw [hshell]
    exact hcoll
  have hholds : Holds [] (D.shell (D.run s₀ input (t + 1))).rxColl := by
    rw [hrx]
    exact ⟨hs.holds.count, hs.holds.plain⟩
  rcases hs.answers with hanswers | ⟨mark, hmark, rfl, hrest⟩
  · have hnext := hanswers.step (h t) hs.divider hnone
    exact ⟨hanswers.polite, hdivider, hholds, hnext⟩
  · have hfull : ((D.shell (D.run s₀ input t)).rxCollStep (input t)).fullData = false := by rw [hcoll]
    obtain ⟨hrest', hquiet⟩ := hrest.wait (h t) hfull
    have hnothing : D.loads s₀ input t = [] := hquiet
    rw [hnothing, List.append_nil]
    exact ⟨polite_of_idling hrest.sending, hdivider, hholds, .inr ⟨mark, hmark, rfl, hrest'⟩⟩

theorem serves_run (hs : V.Serves mem x n sent (D.run s₀ input t))
    (hnone : collected (D.hears s₀ input) t m = []) :
    (∀ k < m, (D.shell (D.run s₀ input (t + k))).Polite) ∧
      V.Serves mem x (n - m) (sent ++ collected (D.loads s₀ input) t m) (D.run s₀ input (t + m)) := by
  induction m with
  | zero =>
    have hnothing : collected (D.loads s₀ input) t 0 = [] := rfl
    rw [hnothing, List.append_nil]
    exact ⟨fun k hk => absurd hk (Nat.not_lt_zero k), hs⟩
  | succ m ih =>
    rw [collected_succ] at hnone
    obtain ⟨hbefore, hnow⟩ := List.append_eq_nil_iff.mp hnone
    obtain ⟨hpolite, hserves⟩ := ih hbefore
    obtain ⟨hpolite', hnext⟩ := serves_step h hserves hnow
    refine ⟨fun k hk => ?_, ?_⟩
    · obtain hlt | rfl : k < m ∨ k = m := by omega
      · exact hpolite k hlt
      · exact hpolite'
    · rw [collected_succ, ← List.append_assoc]
      exact hnext

/-- After enough edges the reply is complete. -/
theorem serves_end (hs : V.Serves mem x n [] (D.run s₀ input t)) (hnone : collected (D.hears s₀ input) t m = [])
    (hn : n ≤ m) : ∃ mark, V.Mark x mark ∧ V.Listens mark 0 [] (D.run s₀ input (t + m)) ∧
      collected (D.loads s₀ input) t m = reply mem mark (V.result x) ∧
      ∀ k < m, (D.shell (D.run s₀ input (t + k))).Polite := by
  obtain ⟨hpolite, hdone⟩ := serves_run h hs hnone
  rw [Nat.sub_eq_zero_of_le hn, List.nil_append] at hdone
  rcases hdone.answers with hanswers | ⟨mark, hmark, hsent, hover⟩
  · exact absurd (hanswers.pos hdone.divider) (Nat.lt_irrefl 0)
  · exact ⟨mark, hmark, ⟨hdone.divider, hover.rests, hover.sending, hdone.holds⟩, hsent, hpolite⟩

/-! ## One question -/

/-- The frames of a block and a pause after them, seen by a design at rest. -/
theorem question_answered {t' d : Nat} (hl : V.Listens mem m [] (D.run s₀ input t))
    (hm : m ≤ RUart.deliveryTime generics) (hidle : RUart.Idle (D.receiver s₀ input t))
    (hcarries : RUart.Carries generics (line input) t (List.ofFn (bytes plain)) t')
    (hlong : V.exchangeTime ≤ d) (hhigh : ∀ k < d, (input (t' + k)).rx = true) :
    ∃ n mark, t + n = t' + d ∧ V.Mark (V.job plain) mark ∧
      V.Listens mark 0 [] (D.run s₀ input (t + n)) ∧ RUart.Idle (D.receiver s₀ input (t + n)) ∧
      collected (D.loads s₀ input) t n = reply mem mark (V.result (V.job plain)) ∧
      ∀ k < n, (D.shell (D.run s₀ input (t + k))).Polite := by
  have hregs : ∀ t, D.receiver s₀ input (t + 1) =
      RUart.edge generics (line input t) (D.receiver s₀ input t) := receiver_succ h
  obtain ⟨n, hn, hbytes, hend⟩ := hcarries.received four_le_maxBitCount hregs hidle
  obtain ⟨hrest, hsilent⟩ := RUart.silent_of_high four_le_maxBitCount hregs hend hhigh
  -- the last of the sixteen bytes
  have hsixteen : (List.ofFn (bytes plain)).length = 16 := List.length_ofFn
  have hne : List.ofFn (bytes plain) ≠ [] := List.ne_nil_of_length_eq_add_one hsixteen
  obtain ⟨xs, x, hxs⟩ : ∃ xs x, List.ofFn (bytes plain) = xs ++ [x] :=
    ⟨_, _, (List.dropLast_append_getLast hne).symm⟩
  have hlength : xs.length = 15 := by
    rw [hxs, List.length_append, List.length_singleton] at hsixteen
    omega
  obtain ⟨k, l, rfl, hbefore, hlast, hafter⟩ :=
    collected_last (D.hears_length s₀ input) (hbytes.trans hxs)
  have hlate : RUart.deliveryTime generics ≤ k := by
    by_contra hearly
    have hquiet := hcarries.quiet four_le_maxBitCount hregs hidle (n := k + 1) (by omega) (by omega)
    have hnone : collected (D.hears s₀ input) t (k + 1) = [] := hquiet
    rw [collected_succ, hlast] at hnone
    exact absurd (List.append_eq_nil_iff.mp hnone).2 (List.cons_ne_nil _ _)
  obtain ⟨hlistens, hquiet, hpolite⟩ := listens_run h hl (n := k) (by
    rw [hbefore, List.nil_append, hlength]
    decide)
  rw [hbefore, List.nil_append, Nat.sub_eq_zero_of_le (Nat.le_trans hm hlate)] at hlistens
  obtain ⟨hserves, hquiet'⟩ := listens_full h hlistens hlength hlast hxs
  have hnothing : collected (D.hears s₀ input) (t + k + 1) (l + d) = [] := by
    have hpos : t + k + 1 + l = t' := by omega
    rw [collected_add, hafter, hpos]
    exact hsilent
  obtain ⟨mark, hmark, hover, hsent, hpolite'⟩ :=
    serves_end h hserves hnothing (Nat.le_trans hlong (Nat.le_add_left _ _))
  have hend' : t + (k + 1 + (l + d)) = t' + d := by omega
  have hpos : t + (k + 1 + (l + d)) = t + k + 1 + (l + d) := by omega
  refine ⟨k + 1 + (l + d), mark, hend', hmark, ?_, ?_, ?_, fun j hj => ?_⟩
  · rwa [hpos]
  · rw [hend']
    exact hrest
  · rw [collected_add, collected_succ, hquiet, hquiet', ← Nat.add_assoc, hsent]
    rfl
  · obtain hlt | rfl | ⟨j, rfl⟩ : j < k ∨ j = k ∨ ∃ j', j = k + 1 + j' := by
      by_cases hlow : j ≤ k
      · omega
      · exact .inr (.inr ⟨j - (k + 1), by omega⟩)
    · exact hpolite j hlt
    · exact hlistens.polite
    · have hpos' : t + (k + 1 + j) = t + k + 1 + j := by omega
      rw [hpos']
      exact hpolite' j (by omega)

/-! ## All questions -/

theorem silence (hl : V.Listens mem m [] (D.run s₀ input t)) (hidle : RUart.Idle (D.receiver s₀ input t))
    (hhigh : ∀ k, (input (t + k)).rx = true) (n : Nat) :
    collected (D.loads s₀ input) t n = [] ∧ (D.shell (D.run s₀ input (t + n))).Polite := by
  have hsilent : collected (D.hears s₀ input) t n = [] :=
    (RUart.silent_of_high four_le_maxBitCount (receiver_succ h) hidle fun k _ => hhigh k).2
  obtain ⟨hlistens, hnone, -⟩ := listens_run h hl (n := n) (by
    rw [hsilent]
    decide)
  exact ⟨hnone, hlistens.polite⟩

/-- The design loads the replies to all blocks, and its transmitter is never hurried. -/
theorem asks_answered {blocks : List Block} (hasks : Asks V.exchangeTime input t blocks) :
    ∀ {mem : Block} {m : Nat}, V.Listens mem m [] (D.run s₀ input t) →
      m ≤ RUart.deliveryTime generics → RUart.Idle (D.receiver s₀ input t) →
      (∃ jobs n, jobs.map Prod.fst = blocks.map V.job ∧ (∀ job ∈ jobs, V.Mark job.1 job.2) ∧
        ∀ k, collected (D.loads s₀ input) t (n + k) = answers V.result mem jobs) ∧
      ∀ k, (D.shell (D.run s₀ input (t + k))).Polite := by
  induction hasks with
  | done high =>
    intro mem m hl _ hidle
    have hsilence := silence h hl hidle high
    refine ⟨⟨[], 0, rfl, fun job hjob => absurd hjob List.not_mem_nil, fun k => ?_⟩,
      fun k => (hsilence k).2⟩
    rw [Nat.zero_add]
    exact (hsilence k).1
  | @ask t t' d plain blocks carries long high _ ih =>
    intro mem m hl hm hidle
    obtain ⟨n, mark, hn, hmark, hlistens, hidle', hloads, hpolite⟩ :=
      question_answered h hl hm hidle carries long high
    rw [← hn] at ih
    obtain ⟨⟨jobs, n', hjobs, hmarks, hlater⟩, hpolite'⟩ := ih hlistens (Nat.zero_le _) hidle'
    refine ⟨⟨(V.job plain, mark) :: jobs, n + n', ?_, ?_, fun k => ?_⟩, fun k => ?_⟩
    · rw [List.map_cons, List.map_cons, hjobs]
    · intro job hjob
      rcases List.mem_cons.mp hjob with rfl | hlast
      · exact hmark
      · exact hmarks job hlast
    · rw [Nat.add_assoc, collected_add, hloads, hlater]
      rfl
    · by_cases hk : k < n
      · exact hpolite k hk
      · obtain ⟨l, rfl⟩ := Nat.exists_eq_add_of_le (Nat.le_of_not_lt hk)
        rw [← Nat.add_assoc]
        exact hpolite' l

/-! ## The host's receiver -/

variable (hinit : (D.shell s₀).txComp = .init)
include hinit

theorem loopback_run (t : Nat) :
    Loopback.run generics (fun k => ⟨(input k).reset, (D.shell (D.run s₀ input k)).txColl.startTx,
      (D.shell (D.run s₀ input k)).txColl.dataToTx⟩) t =
      ⟨(D.shell (D.run s₀ input t)).txComp, D.host s₀ input t⟩ := by
  induction t with
  | zero =>
    apply Loopback.Registers.ext
    · exact hinit.symm
    · rfl
  | succ t ih =>
    rw [Loopback.run, Machine.run_succ, ← Loopback.run, ih, D.shell_succ]
    apply Loopback.Registers.ext
    · exact (if_pos (h t).rising).symm
    · simp only [Loopback.step, Loopback.rxPorts, (h t).reset]
      rfl

theorem heard_loads (hpolite : ∀ t, (D.shell (D.run s₀ input t)).Polite) (n : Nat) :
    D.heard s₀ input (n + Loopback.latency generics) = collected (D.loads s₀ input) 0 (n + 2) := by
  have hrun := loopback_run h hinit
  have hsender : Loopback.Polite generics fun k => ⟨(input k).reset,
      (D.shell (D.run s₀ input k)).txColl.startTx, (D.shell (D.run s₀ input k)).txColl.dataToTx⟩ := by
    refine ⟨fun t => (h t).reset, fun t hstart => ?_⟩
    rw [hrun]
    exact hpolite t hstart
  have hreceived := Loopback.received_loads hsender (by decide) n
  have hheard (m : Nat) : D.heard s₀ input m = Loopback.received generics (fun k => ⟨(input k).reset,
      (D.shell (D.run s₀ input k)).txColl.startTx, (D.shell (D.run s₀ input k)).txColl.dataToTx⟩) m := by
    simp only [Design.heard, collected, Loopback.received, marked, hrun, Nat.zero_add, RUart.signalled]
  have hloads : Loopback.loads generics (fun k => ⟨(input k).reset,
      (D.shell (D.run s₀ input k)).txColl.startTx, (D.shell (D.run s₀ input k)).txColl.dataToTx⟩) =
      D.loads s₀ input := by
    funext t
    rw [Loopback.loads, hrun]
    rfl
  rw [hheard, hreceived, hloads]

/-- A host hears what the design loads, if the design loads these bytes and then nothing. -/
theorem heard_all {bs : List Byte} (hloads : ∀ k, collected (D.loads s₀ input) 0 (n + k) = bs)
    (hpolite : ∀ t, (D.shell (D.run s₀ input t)).Polite) :
    (∀ k, D.heard s₀ input k <+: bs) ∧ ∃ n, ∀ k, D.heard s₀ input (n + k) = bs := by
  have hall (k : Nat) : D.heard s₀ input (n + Loopback.latency generics + k) = bs := by
    have hheard := heard_loads h hinit hpolite (n + k)
    have hpos : n + k + Loopback.latency generics = n + Loopback.latency generics + k := by omega
    rw [hpos] at hheard
    rw [hheard, Nat.add_assoc, hloads (k + 2)]
  refine ⟨fun l => ?_, n + Loopback.latency generics, hall⟩
  have hmore : D.heard s₀ input l <+: D.heard s₀ input (l + (n + Loopback.latency generics)) := by
    unfold Design.heard
    rw [collected_add]
    exact List.prefix_append _ _
  rw [Nat.add_comm l, hall l] at hmore
  exact hmore

end Run

/-! ## From power-up -/

section PowerUp
variable (h : ∀ t, Ticks sel (input t)) {blocks : List Block} (hshell : D.shell s₀ = .init)
include h hshell

omit h in
theorem idle_init : RUart.Idle (D.receiver s₀ input 0) := by
  rw [Design.receiver, Design.run, Machine.run_zero, hshell]
  exact UartStandardComplete.idle_init

/-- A design that rests at power-up: the host hears the replies to its blocks, in order, and nothing
else. -/
theorem heard_answers (hasks : Asks V.exchangeTime input 0 blocks) (hrests : V.Rests mem s₀) :
    ∃ jobs, jobs.map Prod.fst = blocks.map V.job ∧ (∀ job ∈ jobs, V.Mark job.1 job.2) ∧
      (∀ n, D.heard s₀ input n <+: answers V.result mem jobs) ∧
      ∃ n, ∀ k, D.heard s₀ input (n + k) = answers V.result mem jobs := by
  have hl : V.Listens mem 5209 [] (D.run s₀ input 0) := by
    refine ⟨?_, hrests, ?_, ?_⟩
    · rw [Design.run, Machine.run_zero, hshell]
      exact Nat.zero_le 5
    · rw [Design.run, Machine.run_zero, hshell]
      exact ReplyPath.idling_init
    · rw [Design.run, Machine.run_zero, hshell]
      exact UartStandardComplete.holds_nil rfl
  have hinit : (D.shell s₀).txComp = .init := by rw [hshell]; rfl
  obtain ⟨⟨jobs, n, hjobs, hmarks, hloads⟩, hpolite⟩ :=
    asks_answered h hasks hl (by decide) (idle_init hshell)
  simp only [Nat.zero_add] at hpolite
  exact ⟨jobs, hjobs, hmarks, heard_all h hinit hloads hpolite⟩

/-- A design that is busy at power-up, with a host that waits for its reply. -/
theorem heard_greeting {d : Nat} (hhigh : ∀ k < d, (input k).rx = true)
    (hasks : Asks V.exchangeTime input d blocks) (hserves : V.Serves mem x n [] s₀) (hn : n ≤ d) :
    ∃ jobs, jobs.map Prod.fst = x :: blocks.map V.job ∧ (∀ job ∈ jobs, V.Mark job.1 job.2) ∧
      (∀ n, D.heard s₀ input n <+: answers V.result mem jobs) ∧
      ∃ n, ∀ k, D.heard s₀ input (n + k) = answers V.result mem jobs := by
  have hinit : (D.shell s₀).txComp = .init := by rw [hshell]; rfl
  have hline : ∀ k < d, (input (0 + k)).rx = true := fun k hk => by rw [Nat.zero_add]; exact hhigh k hk
  have hregs : ∀ t, D.receiver s₀ input (t + 1) =
      RUart.edge generics (line input t) (D.receiver s₀ input t) := receiver_succ h
  obtain ⟨hidle, hsilent⟩ := RUart.silent_of_high four_le_maxBitCount hregs (idle_init hshell) hline
  have hnothing : collected (D.hears s₀ input) 0 d = [] := hsilent
  obtain ⟨mark, hmark, hlistens, hloads, hpolite⟩ := serves_end h (t := 0) hserves hnothing hn
  rw [← Nat.zero_add d] at hasks
  obtain ⟨⟨jobs, m, hjobs, hmarks, hlater⟩, hpolite'⟩ :=
    asks_answered h hasks hlistens (Nat.zero_le _) hidle
  simp only [Nat.zero_add] at hpolite hpolite' hlater
  have hall (k : Nat) : collected (D.loads s₀ input) 0 (d + m + k) =
      answers V.result mem ((x, mark) :: jobs) := by
    rw [Nat.add_assoc, collected_add, hloads, Nat.zero_add, hlater]
    rfl
  refine ⟨(x, mark) :: jobs, ?_, fun job hjob => ?_, heard_all h hinit hall fun k => ?_⟩
  · rw [List.map_cons, hjobs]
  · rcases List.mem_cons.mp hjob with rfl | hlast
    · exact hmark
    · exact hmarks job hlast
  · by_cases hk : k < d
    · exact hpolite k hk
    · obtain ⟨l, rfl⟩ := Nat.exists_eq_add_of_le (Nat.le_of_not_lt hk)
      exact hpolite' l

end PowerUp
end Service
end KuznyechikDPA

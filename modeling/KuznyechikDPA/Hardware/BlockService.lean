import KuznyechikDPA.Hardware.Shell

/-!
# One block in a design, edge by edge

Key schedule and encryption serve a block in a number of edges of `LOWclk`; the result is announced if
its mark is not the one remembered. What a design owes here are the laws of `Service`. From these its reply
follows: the bytes that `tUART` loads, and a bound on the edges of `clk` until the design rests again.
-/

namespace KuznyechikDPA
open UartStandardComplete (Input generics)
open Shell (Ticks)
open ReplyPath (Owing Idling Hurried replyTime)

variable {σ ι : Type} {D : Design σ} {sel : Bool}

/-- How a design serves blocks in mode `sel`: at rest it remembers the mark of the block announced last,
and `c` edges of `LOWclk` after `full_data` it is in stage `c` of a job. -/
structure Service (D : Design σ) (sel : Bool) (ι : Type) where
  time : Nat
  job : Block → ι
  result : ι → Block
  Mark : ι → Block → Prop
  Rests : Block → σ → Prop
  Stage : Block → ι → Nat → σ → Prop
  Announces : Block → Block → σ → Prop
  rests_silent : ∀ {mem s}, Rests mem s → D.canTransmit s = false
  rests_step : ∀ {mem s i}, Rests mem s → Ticks sel i → ((D.shell s).rxCollStep i).fullData = false →
    Rests mem (D.step i s) ∧ D.cipher (D.step i s) = D.cipher s
  rests_full : ∀ {mem s i}, Rests mem s → Ticks sel i → ((D.shell s).rxCollStep i).fullData = true →
    Stage mem (job ((D.shell s).rxCollStep i).plain) 0 (D.step i s)
  stage_silent : ∀ {mem x c s}, Stage mem x c s → D.canTransmit s = false
  stage_lt : ∀ {mem x c s}, Stage mem x c s → c < time
  stage_low : ∀ {mem x c s i}, Stage mem x c s → Ticks sel i → (D.shell s).hears = [] →
    (D.shell s).lowClkRises i = false → Stage mem x c (D.step i s)
  stage_rise : ∀ {mem x c s i}, Stage mem x c s → Ticks sel i → (D.shell s).hears = [] →
    (D.shell s).lowClkRises i = true → c + 1 < time → Stage mem x (c + 1) (D.step i s)
  stage_last : ∀ {mem x c s i}, Stage mem x c s → Ticks sel i → (D.shell s).hears = [] →
    (D.shell s).lowClkRises i = true → c + 1 = time →
    ((D.shell s).replyStep i (D.cipher s) (D.canTransmit s)).txColl.doneTransmit = true →
    ∃ mark, Mark x mark ∧ (mem ≠ mark → Announces mark (result x) (D.step i s)) ∧
      (mem = mark → Rests mark (D.step i s))
  announces_signals : ∀ {mark cipher s}, Announces mark cipher s →
    D.canTransmit s = true ∧ D.cipher s = cipher
  announces_low : ∀ {mark cipher s i}, Announces mark cipher s → Ticks sel i → (D.shell s).hears = [] →
    (D.shell s).lowClkRises i = false → Announces mark cipher (D.step i s)
  announces_rise : ∀ {mark cipher s i}, Announces mark cipher s → Ticks sel i →
    (D.shell s).hears = [] → (D.shell s).lowClkRises i = true →
    Rests mark (D.step i s) ∧ D.cipher (D.step i s) = cipher

/-- The reply to a block with this mark and result, when `mem` is remembered. -/
def reply (mem mark result : Block) : List Byte :=
  if mem = mark then [] else List.ofFn (bytes result) ++ [0]

theorem reply_rest {mem mark result : Block} (h : mem ≠ mark) :
    reply mem mark result = ReplyPath.rest result 16 := by
  rw [reply, if_neg h, ReplyPath.rest_eq _ (Nat.le_refl 16)]
  rfl

namespace Service

variable (V : Service D sel ι) {x : ι} {mem mark : Block} {n : Nat} {sent : List Byte} {i : Input} {s : σ}

/-- Between two blocks, with a transmitter that is ready after at most `n` edges. -/
structure Resting (mem : Block) (n : Nat) (s : σ) : Prop where
  rests : V.Rests mem s
  sending : Idling generics n (D.shell s).replyPath

/-- From `full_data` to the end of the reply. -/
def exchangeTime : Nat := V.time * 12 + replyTime generics

/-- Of the reply to the job `x` the design has loaded `sent`, and it rests again after at most `n` edges. -/
inductive Answering (mem : Block) (x : ι) (n : Nat) (sent : List Byte) (s : σ) : Prop
  | computes {c : Nat} (stage : V.Stage mem x c s) (sending : Idling generics n (D.shell s).replyPath)
      (hn : (V.time - c) * 12 + replyTime generics ≤ n + (D.shell s).phase) (none : sent = [])
  | raised {mark : Block} (hmark : V.Mark x mark) (new : mem ≠ mark)
      (announces : V.Announces mark (V.result x) s) (sending : Idling generics n (D.shell s).replyPath)
      (zero : (D.shell s).phase = 0) (hn : replyTime generics ≤ n) (none : sent = [])
  | hurried {mark : Block} (hmark : V.Mark x mark) (new : mem ≠ mark)
      (announces : V.Announces mark (V.result x) s)
      (hurry : Hurried generics (V.result x) (D.shell s).replyPath) (one : (D.shell s).phase = 1)
      (hn : replyTime generics ≤ n + 1) (none : sent = [])
  | announced {mark : Block} {bs : List Byte} (hmark : V.Mark x mark) (new : mem ≠ mark)
      (announces : V.Announces mark (V.result x) s)
      (owing : Owing generics (V.result x) n bs (D.shell s).replyPath) (pos : 1 ≤ (D.shell s).phase)
      (first : (D.shell s).phase = 1 →
        (D.shell s).txColl.cpt = 16 ∧ (D.shell s).txColl.tempTxReady = true)
      (later : 2 ≤ (D.shell s).phase →
        (D.shell s).txColl.cpt ≤ 15 ∧ 17 ≤ (D.shell s).txColl.cpt + (D.shell s).phase)
      (hsent : sent ++ bs = reply mem mark (V.result x))
  | replies {mark : Block} {bs : List Byte} (hmark : V.Mark x mark) (new : mem ≠ mark)
      (rests : V.Rests mark s) (hcipher : D.cipher s = V.result x)
      (owing : Owing generics (V.result x) n bs (D.shell s).replyPath)
      (under : (D.shell s).txColl.cpt = 16 → (D.shell s).txColl.tempTxReady = false)
      (hsent : sent ++ bs = reply mem mark (V.result x))

/-- The reply to the job `x` is complete. -/
def Answered (mem : Block) (x : ι) (n : Nat) (sent : List Byte) (s : σ) : Prop :=
  ∃ mark, V.Mark x mark ∧ sent = reply mem mark (V.result x) ∧ V.Resting mark n s

variable {V}

theorem polite_of_idling (h : Idling generics n (D.shell s).replyPath) : (D.shell s).Polite := by
  intro hstart
  exact absurd (h.start.symm.trans hstart) Bool.false_ne_true

theorem Answering.polite (h : V.Answering mem x n sent s) : (D.shell s).Polite := by
  cases h with
  | computes _ sending _ _ => exact polite_of_idling sending
  | raised _ _ _ sending _ _ _ => exact polite_of_idling sending
  | hurried _ _ _ hurry _ _ _ => exact fun _ => ⟨hurry.vacant.state, hurry.vacant.reg⟩
  | announced _ _ _ owing _ _ _ _ => exact owing.polite
  | replies _ _ _ _ owing _ _ => exact owing.polite

theorem Answering.pos (h : V.Answering mem x n sent s) (hdiv : (D.shell s).clkCounter ≤ 5) : 0 < n := by
  have hphase := Shell.phase_le hdiv
  have htime : 17 * 7 ≤ replyTime generics := Nat.mul_le_mul_left 17 (ReplyPath.slot_pos generics)
  cases h with
  | computes stage _ hn _ =>
    have hc := V.stage_lt stage
    omega
  | raised _ _ _ _ _ hn _ => omega
  | hurried _ _ _ _ _ hn _ => omega
  | announced _ _ _ owing _ _ _ _ => exact owing.pos
  | replies _ _ _ _ owing _ _ => exact owing.pos

theorem replyPath_step (i : Input) (s : σ) : (D.shell (D.step i s)).replyPath =
    ReplyPath.step generics (Shell.replyPorts i (D.cipher s) (D.canTransmit s)) (D.shell s).replyPath := by
  rw [D.shell_step]
  rfl

section Step
variable (hticks : Ticks sel i)
include hticks

theorem idle_wait (h : Idling generics n (D.shell s).replyPath) (hsilent : D.canTransmit s = false) :
    Idling generics (n - 1) (D.shell (D.step i s)).replyPath ∧
      ((D.shell s).replyStep i (D.cipher s) (D.canTransmit s)).txColl.doneTransmit = true ∧
      (D.shell s).loaded i = [] := by
  rw [replyPath_step]
  exact h.step hticks.rising hticks.reset hsilent

theorem Resting.wait (h : V.Resting mem n s) (hfull : ((D.shell s).rxCollStep i).fullData = false) :
    V.Resting mem (n - 1) (D.step i s) ∧ (D.shell s).loaded i = [] := by
  obtain ⟨hrests, -⟩ := V.rests_step h.rests hticks hfull
  obtain ⟨hsending, -, hnone⟩ := idle_wait hticks h.sending (V.rests_silent h.rests)
  exact ⟨⟨hrests, hsending⟩, hnone⟩

/-- A complete block is taken up. -/
theorem Resting.begin (h : V.Resting mem 0 s) (hfull : ((D.shell s).rxCollStep i).fullData = true) :
    V.Answering mem (V.job ((D.shell s).rxCollStep i).plain) V.exchangeTime [] (D.step i s) ∧
      (D.shell s).loaded i = [] := by
  obtain ⟨hsending, -, hnone⟩ := idle_wait hticks h.sending (V.rests_silent h.rests)
  have hlater := hsending.mono (Nat.zero_le V.exchangeTime)
  exact ⟨.computes (V.rests_full h.rests hticks hfull) hlater (Nat.le_add_right _ _) rfl, hnone⟩

variable (hdiv : (D.shell s).clkCounter ≤ 5) (hnone : (D.shell s).hears = [])
include hdiv hnone

/-- One edge later. -/
def Advances (V : Service D sel ι) (mem : Block) (x : ι) (n : Nat) (sent : List Byte) (i : Input) (s : σ) :
    Prop :=
  V.Answering mem x (n - 1) (sent ++ (D.shell s).loaded i) (D.step i s) ∨
    V.Answered mem x (n - 1) (sent ++ (D.shell s).loaded i) (D.step i s)

omit hnone in
theorem low_of_phase (hphase : (D.shell s).phase ≠ 11) : (D.shell s).lowClkRises i = false :=
  Bool.eq_false_iff.mpr (mt (Shell.lowClkRises_iff hticks hdiv).mp hphase)

omit hdiv hnone in
theorem txColl_next (hcpt : (D.shell s).txColl.cpt ≤ 16) :
    TxCollecteur.Edge ⟨D.cipher s, D.canTransmit s, TUart.txReady (D.shell s).txComp⟩ (D.shell s).txColl
      (D.shell (D.step i s)).txColl := by
  rw [D.shell_step]
  exact Shell.txColl_cases hticks hcpt

omit hnone in
theorem phase_next : (D.shell (D.step i s)).phase =
    if (D.shell s).phase = 11 then 0 else (D.shell s).phase + 1 := by
  rw [D.shell_step]
  exact Shell.phase_step hticks hdiv

theorem computes_step {c : Nat} (stage : V.Stage mem x c s)
    (sending : Idling generics n (D.shell s).replyPath)
    (hn : (V.time - c) * 12 + replyTime generics ≤ n + (D.shell s).phase) : V.Advances mem x n [] i s := by
  obtain ⟨hsending, hdone, hquiet⟩ := idle_wait hticks sending (V.stage_silent stage)
  have hnext := phase_next hticks hdiv
  have hc := V.stage_lt stage
  rw [Advances, hquiet]
  by_cases hphase : (D.shell s).phase = 11
  · have hrise := (Shell.lowClkRises_iff hticks hdiv).mpr hphase
    rw [if_pos hphase] at hnext
    by_cases hlast : c + 1 = V.time
    · obtain ⟨mark, hmark, hnew, hold⟩ := V.stage_last stage hticks hnone hrise hlast hdone
      by_cases hsame : mem = mark
      · refine .inr ⟨mark, hmark, ?_, hold hsame, hsending⟩
        rw [reply, if_pos hsame]
        rfl
      · exact .inl (.raised hmark hsame (hnew hsame) hsending hnext (by omega) rfl)
    · have hstage := V.stage_rise stage hticks hnone hrise (by omega)
      exact .inl (.computes hstage hsending (by omega) rfl)
  · rw [if_neg hphase] at hnext
    have hstage := V.stage_low stage hticks hnone (low_of_phase hticks hdiv hphase)
    exact .inl (.computes hstage hsending (by omega) rfl)

theorem raised_step (hmark : V.Mark x mark) (new : mem ≠ mark) (announces : V.Announces mark (V.result x) s)
    (sending : Idling generics n (D.shell s).replyPath) (zero : (D.shell s).phase = 0)
    (hn : replyTime generics ≤ n) : V.Advances mem x n [] i s := by
  obtain ⟨hsignal, hcipher⟩ := V.announces_signals announces
  obtain ⟨hbegun, hquiet, hcpt, htemp⟩ := sending.begin
    (i := Shell.replyPorts i (D.cipher s) (D.canTransmit s)) hticks.rising hticks.reset hsignal
  have hquiet' : (D.shell s).loaded i = [] := hquiet
  have hports : (Shell.replyPorts i (D.cipher s) (D.canTransmit s)).cipher = V.result x := hcipher
  have hnext := phase_next hticks hdiv
  have hannounces := V.announces_low announces hticks hnone (low_of_phase hticks hdiv (by omega))
  rw [if_neg (by omega)] at hnext
  rw [hports, ← replyPath_step] at hbegun
  rw [← replyPath_step] at hcpt htemp
  rw [Advances, hquiet']
  rcases hbegun with howing | hhurry
  · refine .inl (.announced hmark new hannounces (howing.mono (by omega)) (by omega) ?_ (by omega) ?_)
    · exact fun _ => ⟨hcpt, htemp⟩
    · rw [reply_rest new]
      rfl
  · exact .inl (.hurried hmark new hannounces hhurry (by omega) (by omega) rfl)

theorem hurried_step (hmark : V.Mark x mark) (new : mem ≠ mark)
    (announces : V.Announces mark (V.result x) s)
    (hurry : Hurried generics (V.result x) (D.shell s).replyPath) (one : (D.shell s).phase = 1)
    (hn : replyTime generics ≤ n + 1) : V.Advances mem x n [] i s := by
  obtain ⟨hsignal, -⟩ := V.announces_signals announces
  obtain ⟨howing, hquiet, hcpt⟩ := hurry.step
    (i := Shell.replyPorts i (D.cipher s) (D.canTransmit s)) hticks.rising hticks.reset hsignal
  have hquiet' : (D.shell s).loaded i = [] := hquiet
  have hnext := phase_next hticks hdiv
  have hannounces := V.announces_low announces hticks hnone (low_of_phase hticks hdiv (by omega))
  rw [if_neg (by omega)] at hnext
  rw [← replyPath_step] at howing hcpt
  have hcpt' : (D.shell (D.step i s)).txColl.cpt = 15 := hcpt
  rw [Advances, hquiet']
  refine .inl (.announced hmark new hannounces (howing.mono (by omega)) (by omega) (by omega) ?_ ?_)
  · omega
  · rw [reply_rest new]
    rfl

theorem announced_step {bs : List Byte} (hmark : V.Mark x mark) (new : mem ≠ mark)
    (announces : V.Announces mark (V.result x) s)
    (owing : Owing generics (V.result x) n bs (D.shell s).replyPath) (pos : 1 ≤ (D.shell s).phase)
    (first : (D.shell s).phase = 1 →
      (D.shell s).txColl.cpt = 16 ∧ (D.shell s).txColl.tempTxReady = true)
    (later : 2 ≤ (D.shell s).phase →
      (D.shell s).txColl.cpt ≤ 15 ∧ 17 ≤ (D.shell s).txColl.cpt + (D.shell s).phase)
    (hsent : sent ++ bs = reply mem mark (V.result x)) : V.Advances mem x n sent i s := by
  obtain ⟨hsignal, hcipher⟩ := V.announces_signals announces
  have hphase := Shell.phase_le hdiv
  have hnext := phase_next hticks hdiv
  have hrange : (D.shell s).txColl.cpt ≤ 16 := by
    by_cases hone : (D.shell s).phase = 1
    · exact Nat.le_of_eq (first hone).1
    · exact Nat.le_succ_of_le (later (by omega)).1
  -- the collector is past its first byte after the next edge
  have hcoll : (D.shell (D.step i s)).txColl.cpt ≤ 15 ∧
      17 ≤ (D.shell (D.step i s)).txColl.cpt + ((D.shell s).phase + 1) := by
    have hedge := txColl_next hticks hrange
    generalize (D.shell (D.step i s)).txColl = next at hedge ⊢
    by_cases hone : (D.shell s).phase = 1
    · obtain ⟨hcpt, htemp⟩ := first hone
      cases hedge with
      | first _ _ hfalse => exact absurd (hfalse.symm.trans htemp) Bool.false_ne_true
      | rest hoff => exact absurd (hoff.symm.trans hsignal) Bool.false_ne_true
      | _ =>
        simp only
        omega
    · obtain ⟨hcpt, hbound⟩ := later (by omega)
      cases hedge <;> simp only <;> omega
  obtain ⟨bs', rfl, hafter⟩ := owing.step (i := Shell.replyPorts i (D.cipher s) (D.canTransmit s))
    hticks.rising hticks.reset (by decide) hcipher (fun _ _ => hsignal) (fun hcpt htemp => by
      have hcpt' : (D.shell s).txColl.cpt = 16 := hcpt
      have htemp' : (D.shell s).txColl.tempTxReady = false := htemp
      by_cases hone : (D.shell s).phase = 1
      · exact absurd (htemp'.symm.trans (first hone).2) Bool.false_ne_true
      · have hlow := (later (by omega)).1
        omega)
  have hloaded : ReplyPath.loadedAt (Shell.replyPorts i (D.cipher s) (D.canTransmit s))
      (D.shell s).replyPath = (D.shell s).loaded i := rfl
  rw [hloaded, ← List.append_assoc] at hsent
  rw [← replyPath_step] at hafter
  rcases hafter with howing | ⟨-, hfree⟩
  · by_cases hlast : (D.shell s).phase = 11
    · have hrise := (Shell.lowClkRises_iff hticks hdiv).mpr hlast
      obtain ⟨hrests, hcipher'⟩ := V.announces_rise announces hticks hnone hrise
      refine .inl (.replies hmark new hrests hcipher' howing (fun hcpt => ?_) hsent)
      omega
    · rw [if_neg hlast] at hnext
      have hannounces := V.announces_low announces hticks hnone (low_of_phase hticks hdiv hlast)
      refine .inl (.announced hmark new hannounces howing (by omega) (by omega) (fun _ => ?_) hsent)
      rw [hnext]
      exact hcoll
  · have hcpt : (D.shell (D.step i s)).txColl.cpt = 16 := hfree.held.cpt
    omega

omit hdiv in
theorem replies_step {bs : List Byte} (hmark : V.Mark x mark) (new : mem ≠ mark)
    (rests : V.Rests mark s) (hcipher : D.cipher s = V.result x)
    (owing : Owing generics (V.result x) n bs (D.shell s).replyPath)
    (under : (D.shell s).txColl.cpt = 16 → (D.shell s).txColl.tempTxReady = false)
    (hsent : sent ++ bs = reply mem mark (V.result x)) : V.Advances mem x n sent i s := by
  have hfull : ((D.shell s).rxCollStep i).fullData = false := by
    rw [Shell.rxCollStep_quiet hticks hnone]
  have hsilent := V.rests_silent rests
  obtain ⟨hrests, hsame⟩ := V.rests_step rests hticks hfull
  have hunder : (D.shell (D.step i s)).txColl.cpt = 16 →
      (D.shell (D.step i s)).txColl.tempTxReady = false := by
    have hrange : (D.shell s).txColl.cpt ≤ 16 := owing.range
    have hedge := txColl_next hticks hrange
    generalize (D.shell (D.step i s)).txColl = next at hedge
    intro hcpt
    cases hedge with
    | first hon => exact absurd (hsilent.symm.trans hon) Bool.false_ne_true
    | second => rfl
    | offer hlow => simp only at hcpt; omega
    | next => rfl
    | last => rfl
    | wait hlow => simp only at hcpt; omega
    | rest _ hfull => exact under hfull
  obtain ⟨bs', rfl, hafter⟩ := owing.step (i := Shell.replyPorts i (D.cipher s) (D.canTransmit s))
    hticks.rising hticks.reset (by decide) hcipher
    (fun hcpt htemp => absurd ((under hcpt).symm.trans htemp) Bool.false_ne_true) (fun _ _ => hsilent)
  have hloaded : ReplyPath.loadedAt (Shell.replyPorts i (D.cipher s) (D.canTransmit s))
      (D.shell s).replyPath = (D.shell s).loaded i := rfl
  rw [hloaded, ← List.append_assoc] at hsent
  rw [← replyPath_step] at hafter
  rcases hafter with howing | ⟨rfl, hfree⟩
  · exact .inl (.replies hmark new hrests (hsame.trans hcipher) howing hunder hsent)
  · rw [List.append_nil] at hsent
    exact .inr ⟨mark, hmark, hsent, hrests, .free hfree⟩

theorem Answering.step (h : V.Answering mem x n sent s) : V.Advances mem x n sent i s := by
  cases h with
  | computes stage sending hn none =>
    subst none
    exact computes_step hticks hdiv hnone stage sending hn
  | raised hmark new announces sending zero hn none =>
    subst none
    exact raised_step hticks hdiv hnone hmark new announces sending zero hn
  | hurried hmark new announces hurry one hn none =>
    subst none
    exact hurried_step hticks hdiv hnone hmark new announces hurry one hn
  | announced hmark new announces owing pos first later hsent =>
    exact announced_step hticks hdiv hnone hmark new announces owing pos first later hsent
  | replies hmark new rests hcipher owing under hsent =>
    exact replies_step hticks hnone hmark new rests hcipher owing under hsent

end Step
end Service
end KuznyechikDPA

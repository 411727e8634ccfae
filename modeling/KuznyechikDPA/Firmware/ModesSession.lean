import KuznyechikDPA.Firmware.AesModes
import KuznyechikDPA.Firmware.Session

/-!
# Sessions of the mode program

The arrays of `encrypt` hold the block that the mode carries, so what the device has sent for the
callbacks that have run is the row of their blocks in that mode, from the zero block on. A new
key does not start a new row.
-/

namespace KuznyechikDPA.AesModes
open SimpleSerial (Cmd code simpleserialPut simpleserialPut_eq upperHex replyLine getCommand getCommand_mem)
open AesIndependant
open AesStandard (KeySize)
open BlockModes (Mode)

universe u

/-! ## The row of a session -/

def keyOf (payload : List Byte) (n : Nat) : Byte := payload.getD n 0

def blockOf (payload : List Byte) : State := fun i => payload.getD i 0

/-- AES-128 under a payload. -/
def permutationOf (payload : List Byte) : Equiv.Perm State :=
  AvrCryptoLib.permutation .aes128 (keyOf payload)

/-- The key after a callback. -/
def nextKey (key : List Byte) (call : Call) : List Byte :=
  if call.fp = .updateKey then call.payload else key

/-- The blocks that callbacks ask to encrypt, each with the permutation of its time. -/
def row (key : List Byte) : List Call → List (Equiv.Perm State × State)
  | [] => []
  | call :: calls =>
    (if call.fp = .encrypt then [(permutationOf key, blockOf call.payload)] else []) ++
      row (nextKey key call) calls

/-- The step of the one-byte counter. -/
def increment (v : State) : State := Function.update v 0 (v 0 + 1)

def acknowledgement (ret : Byte) : List Byte := code 'z' :: upperHex ret ++ [code '\n']

/-- The lines that answer a row of callbacks when these are the encrypted blocks. -/
def transcript : List State → List Call → List Byte
  | _, [] => []
  | blocks, call :: calls =>
    if call.fp = .encrypt then
      replyLine (blocks.headD 0) ++ acknowledgement call.ret ++ transcript blocks.tail calls
    else acknowledgement call.ret ++ transcript blocks calls

theorem row_append (key : List Byte) (calls rest : List Call) :
    row key (calls ++ rest) = row key calls ++ row (calls.foldl nextKey key) rest := by
  induction calls generalizing key with
  | nil => rfl
  | cons call calls ih => rw [List.cons_append, row, ih, row, List.foldl_cons, List.append_assoc]

theorem transcript_append (blocks later : List State) (calls rest : List Call)
    (h : (calls.filter fun call => call.fp = .encrypt).length = blocks.length) :
    transcript (blocks ++ later) (calls ++ rest) = transcript blocks calls ++ transcript later rest := by
  induction calls generalizing blocks with
  | nil =>
    have hnone : blocks = [] := List.length_eq_zero_iff.mp h.symm
    rw [hnone]
    rfl
  | cons call calls ih =>
    rw [List.cons_append, transcript, transcript]
    by_cases hcall : call.fp = .encrypt
    · rw [List.filter_cons_of_pos (by simpa using hcall), List.length_cons] at h
      rcases blocks with _ | ⟨block, blocks⟩
      · simp at h
      · rw [if_pos hcall, if_pos hcall, List.cons_append, List.headD_cons, List.headD_cons,
          List.tail_cons, List.tail_cons, ih blocks (by simpa using h), List.append_assoc _ _ (transcript later rest)]
    · rw [List.filter_cons_of_neg (by simpa using hcall)] at h
      rw [if_neg hcall, if_neg hcall, ih blocks h, List.append_assoc]

theorem length_row (key : List Byte) (calls : List Call) :
    (row key calls).length = (calls.filter fun call => call.fp = .encrypt).length := by
  induction calls generalizing key with
  | nil => rfl
  | cons call calls ih =>
    rw [row, List.length_append, ih]
    by_cases hcall : call.fp = .encrypt
    · rw [if_pos hcall, List.filter_cons_of_pos (by simpa using hcall), List.length_cons, Nat.add_comm]
      rfl
    · rw [if_neg hcall, List.filter_cons_of_neg (by simpa using hcall), List.length_nil, Nat.zero_add]

/-! ## One block -/

section Block
variable {σ : Type u} {mode : Mode} {aes : AesIndep σ} {Keyed : (Nat → Byte) → σ → Prop}
variable (hconforms : Conforms aes Keyed)

/-- The arrays hold the carried block. -/
def Chained (mode : Mode) (v : State) (g : Globals σ) : Prop :=
  match mode with
  | .ecb => True
  | .cbc | .cfb => g.ct = v
  | .ofb => g.output = v
  | .ctr => g.input = v

/-- The AES branch holds the key of a payload. -/
def Holds (Keyed : (Nat → Byte) → σ → Prop) (key : List Byte) (g : Globals σ) : Prop :=
  ∃ k, Keyed k g.aes ∧ ∀ n < 16, k n = keyOf key n

include hconforms

theorem Holds.enc_eq {key : List Byte} {g : Globals σ} (h : Holds Keyed key g) (pt : State) :
    (aes.enc pt g.aes).2 = permutationOf key pt := by
  obtain ⟨k, hkeyed, hbytes⟩ := h
  have hcongr : ∀ n < 4 * KeySize.aes128.nk, k n = keyOf key n := hbytes
  rw [hconforms.enc k g.aes pt hkeyed, KeySize.cipher_congr hcongr]
  rfl

theorem Holds.encrypt {key : List Byte} {g : Globals σ} (h : Holds Keyed key g) (pt : State) :
    Holds Keyed key (encrypt mode aes g pt) := by
  obtain ⟨k, hkeyed, hbytes⟩ := h
  exact ⟨k, hconforms.keeps k g.aes _ hkeyed, hbytes⟩

/-- `encrypt` is a step of the mode. -/
theorem encrypt_step {key : List Byte} {g : Globals σ} {v : State} (h : Holds Keyed key g)
    (hchained : Chained mode v g) (pt : State) :
    (encrypt mode aes g pt).ct = (mode.encryptStep increment v (permutationOf key) pt).2 ∧
      Chained mode (mode.encryptStep increment v (permutationOf key) pt).1 (encrypt mode aes g pt) := by
  have henc := h.enc_eq hconforms
  cases mode with
  | ecb => exact ⟨henc pt, trivial⟩
  | cbc =>
    have hv : g.ct = v := hchained
    have hct : (AesModes.encrypt .cbc aes g pt).ct = permutationOf key (pt ^^^ v) := by
      rw [← hv]
      exact henc (pt ^^^ g.ct)
    exact ⟨hct, hct⟩
  | cfb =>
    have hv : g.ct = v := hchained
    have hct : (AesModes.encrypt .cfb aes g pt).ct = permutationOf key v ^^^ pt := by
      rw [← hv, ← henc g.ct]
      rfl
    exact ⟨hct, hct⟩
  | ofb =>
    have hv : g.output = v := hchained
    have hout : (AesModes.encrypt .ofb aes g pt).output = permutationOf key v := by
      rw [← hv]
      exact henc g.output
    refine ⟨?_, hout⟩
    rw [Mode.encryptStep, ← hout]
    rfl
  | ctr =>
    have hv : g.input = v := hchained
    have hct : (AesModes.encrypt .ctr aes g pt).ct = permutationOf key (increment v) ^^^ pt := by
      rw [← hv, ← henc (increment g.input)]
      rfl
    exact ⟨hct, congrArg increment hv⟩

end Block

/-! ## Runs of the main loop -/

/-- The key after a row of callbacks. -/
def currentKey (calls : List Call) : List Byte := calls.foldl nextKey defaultKey

/-- What holds between two calls of `simpleserial_get`. -/
structure Consistent {σ : Type u} (mode : Mode) (Keyed : (Nat → Byte) → σ → Prop) (d : Device σ) : Prop where
  commands : d.commands = mainCommands
  keyed : Holds Keyed (currentKey d.calls) d.globals
  chained : Chained mode (mode.carried increment 0 (row defaultKey d.calls)) d.globals
  sent : d.sent = transcript (mode.encrypt increment 0 (row defaultKey d.calls)) d.calls

section Runs
variable {σ : Type u} {mode : Mode} {aes : AesIndep σ} {Keyed : (Nat → Byte) → σ → Prop}

theorem len_of_mem {cmd : Cmd Callback} (h : cmd ∈ mainCommands) :
    (cmd.fp = .updateKey → cmd.len = 16) ∧ (cmd.fp = .encrypt → cmd.len = 16) := by
  revert cmd
  decide

theorem getD_payload (data_buf : Nat → Byte) {len n : Nat} (h : n < len) :
    ((List.range len).map data_buf).getD n 0 = data_buf n := by
  simp [List.getD_eq_getElem?_getD, h]

theorem put_acknowledgement (ret : Byte) : simpleserialPut (code 'z') [ret] = acknowledgement ret := by
  rw [simpleserialPut_eq]
  rfl

theorem put_reply (block : State) : simpleserialPut (code 'r') (List.ofFn block) = replyLine block := by
  rw [simpleserialPut_eq]
  rfl

theorem consistent_boot (hconforms : Conforms aes Keyed) (s : σ) : Consistent mode Keyed (boot aes s) where
  commands := rfl
  keyed := ⟨_, hconforms.key _ _, fun _ _ => rfl⟩
  chained := by cases mode <;> trivial
  sent := rfl

variable (hconforms : Conforms aes Keyed) {d : Device σ}

/-- What is left to show after a callback. -/
theorem Consistent.of_call (h : Consistent mode Keyed d) (call : Call) {g : Globals σ} {bytes : List Byte}
    (hkeyed : Holds Keyed (nextKey (currentKey d.calls) call) g)
    (hchained : Chained mode (mode.carried increment
      (mode.carried increment 0 (row defaultKey d.calls)) (row (currentKey d.calls) [call])) g)
    (hbytes : bytes = transcript (mode.encrypt increment
      (mode.carried increment 0 (row defaultKey d.calls)) (row (currentKey d.calls) [call])) [call]) :
    Consistent mode Keyed
      { globals := g, commands := d.commands, sent := d.sent ++ bytes, calls := d.calls ++ [call] } where
  commands := h.commands
  keyed := by
    rw [currentKey, List.foldl_append]
    exact hkeyed
  chained := by
    rw [row_append, Mode.carried_append]
    exact hchained
  sent := by
    have hlength : (d.calls.filter fun call => call.fp = .encrypt).length =
        (mode.encrypt increment 0 (row defaultKey d.calls)).length := by
      rw [Mode.length_encrypt, length_row]
    rw [row_append, Mode.encrypt_append, transcript_append _ _ _ _ hlength, ← h.sent, hbytes]
    rfl

include hconforms

theorem Consistent.respond (h : Consistent mode Keyed d) {cmd : Cmd Callback} (hcmd : cmd ∈ mainCommands)
    (data_buf : Nat → Byte) (ret : Byte) : Consistent mode Keyed (d.respond mode aes cmd data_buf ret) := by
  obtain ⟨hkey, hpt⟩ := len_of_mem hcmd
  obtain ⟨c, len, fp⟩ := cmd
  cases fp with
  | updateKey =>
    obtain rfl : len = 16 := hkey rfl
    refine h.of_call ⟨.updateKey, (List.range 16).map data_buf, ret⟩ ?_ ?_ (put_acknowledgement ret)
    · exact ⟨data_buf, hconforms.key _ _, fun n hn => (getD_payload data_buf hn).symm⟩
    · have hchained := h.chained
      cases mode <;> exact hchained
  | encrypt =>
    obtain rfl : len = 16 := hpt rfl
    have hblock : blockOf ((List.range 16).map data_buf) = fun i : Fin 16 => data_buf i.val :=
      funext fun i => getD_payload data_buf i.isLt
    have hrow : row (currentKey d.calls) [⟨.encrypt, (List.range 16).map data_buf, ret⟩] =
        [(permutationOf (currentKey d.calls), fun i : Fin 16 => data_buf i.val)] := by
      rw [← hblock]
      rfl
    obtain ⟨hct, hchained⟩ := encrypt_step hconforms h.keyed h.chained fun i => data_buf i.val
    have hsent : (d.respond mode aes ⟨c, 16, .encrypt⟩ data_buf ret).sent = d.sent ++
        (replyLine (encrypt mode aes d.globals fun i => data_buf i.val).ct ++ acknowledgement ret) := by
      rw [Device.respond, ← put_reply, ← put_acknowledgement, ← List.append_assoc]
      rfl
    have hdevice : d.respond mode aes ⟨c, 16, .encrypt⟩ data_buf ret =
        { globals := encrypt mode aes d.globals fun i => data_buf i.val
          commands := d.commands
          sent := (d.respond mode aes ⟨c, 16, .encrypt⟩ data_buf ret).sent
          calls := d.calls ++ [⟨.encrypt, (List.range 16).map data_buf, ret⟩] } := rfl
    rw [hdevice, hsent]
    refine h.of_call ⟨.encrypt, (List.range 16).map data_buf, ret⟩ ?_ ?_ ?_
    · exact h.keyed.encrypt hconforms _
    · rw [hrow]
      exact hchained
    · rw [hct, hrow]
      exact (List.append_nil _).symm
  | noOp =>
    exact h.of_call ⟨.noOp, (List.range len).map data_buf, ret⟩ h.keyed h.chained (put_acknowledgement ret)

theorem Consistent.mainLoop (h : Consistent mode Keyed d) (stack : Nat → Nat → Byte) (ret : Nat → Byte)
    (n : Nat) (stream : List Byte) :
    Consistent mode Keyed (AesModes.mainLoop mode aes stack ret n d stream).1 := by
  induction n generalizing stack ret d stream with
  | zero => exact h
  | succ n ih =>
    rw [AesModes.mainLoop, Device.simpleserialGet, h.commands]
    rcases hread : getCommand mainCommands (stack 0) stream with _ | ⟨_ | ⟨cmd, data⟩, rest⟩
    · exact h
    · exact ih h _ _ rest
    · exact ih (h.respond hconforms (getCommand_mem hread) data (ret 0)) _ _ rest

end Runs

/-! ## What the host sees -/

section Host
variable (mode : Mode) (branch : Branch) (s : branch.Globals)
  (stack : Nat → Nat → Byte) (ret : Nat → Byte) (stream : List Byte) (n : Nat)

/-- The callbacks of the first `n` turns. -/
def callsOf : List Call := (mainLoop mode branch.aes stack ret n (boot branch.aes s) stream).1.calls

/-- The blocks of the device's mode. -/
def cipherBlocks : List State :=
  mode.encrypt increment 0 (row defaultKey (callsOf mode branch s stack ret stream n))

/-- The blocks that the callbacks asked to encrypt. -/
def plainBlocks (calls : List Call) : List State :=
  (calls.filter fun call => call.fp = .encrypt).map fun call => blockOf call.payload

theorem map_snd_row (key : List Byte) (calls : List Call) :
    (row key calls).map Prod.snd = plainBlocks calls := by
  induction calls generalizing key with
  | nil => rfl
  | cons call calls ih =>
    rw [row, List.map_append, ih, plainBlocks, plainBlocks]
    by_cases hcall : call.fp = .encrypt
    · rw [if_pos hcall, List.filter_cons_of_pos (by simpa using hcall)]
      rfl
    · rw [if_neg hcall, List.filter_cons_of_neg (by simpa using hcall)]
      rfl

theorem iterate_increment (v : State) (n : Nat) :
    increment^[n] v = Function.update v 0 (v 0 + BitVec.ofNat 8 n) := by
  induction n with
  | zero => simp
  | succ n ih =>
    rw [Function.iterate_succ_apply', ih, increment, Function.update_self, Function.update_idem,
      BitVec.add_assoc, BitVec.ofNat_add]
    rfl

theorem iterate_increment_inj (n m : Nat) :
    increment^[n] 0 = increment^[m] 0 ↔ n % 256 = m % 256 := by
  rw [iterate_increment, iterate_increment]
  constructor
  · intro h
    have hbyte := congrFun h 0
    rw [Function.update_self, Function.update_self, BitVec.add_right_inj] at hbyte
    have hnat := congrArg BitVec.toNat hbyte
    rwa [BitVec.toNat_ofNat, BitVec.toNat_ofNat] at hnat
  · intro h
    have hbyte : BitVec.ofNat 8 n = BitVec.ofNat 8 m := by
      apply BitVec.eq_of_toNat_eq
      rwa [BitVec.toNat_ofNat, BitVec.toNat_ofNat]
    rw [hbyte]

/-- In counter mode two blocks of a session under one key show the exclusive or of their plain texts
exactly when a multiple of 256 lies between them. -/
theorem counter_repeats_iff {i j : Nat} {E : Equiv.Perm State} {p q : State}
    (hi : (row defaultKey (callsOf .ctr branch s stack ret stream n))[i]? = some (E, p))
    (hj : (row defaultKey (callsOf .ctr branch s stack ret stream n))[j]? = some (E, q)) :
    (cipherBlocks .ctr branch s stack ret stream n).getD i 0 ^^^
        (cipherBlocks .ctr branch s stack ret stream n).getD j 0 = p ^^^ q ↔ i % 256 = j % 256 := by
  have hc : (Mode.ctr.encrypt increment 0 (row defaultKey (callsOf .ctr branch s stack ret stream n)))[i]? =
      some _ := Mode.getElem?_encrypt_ctr 0 hi
  have hd : (Mode.ctr.encrypt increment 0 (row defaultKey (callsOf .ctr branch s stack ret stream n)))[j]? =
      some _ := Mode.getElem?_encrypt_ctr 0 hj
  rw [cipherBlocks, List.getD_eq_getElem?_getD, List.getD_eq_getElem?_getD, hc, hd, Option.getD_some,
    Option.getD_some, Mode.ctr_repeats_iff 0 hi hj hc hd, iterate_increment_inj]
  omega

/-- The line that asks for the zero block. -/
def zeroLine : List Byte := code 'p' :: List.replicate 32 (code '0') ++ [code '\n']

/-- The first two blocks of a session differ, as their plain texts do not. -/
theorem counter_repeats_iff_two :
    (cipherBlocks .ctr .simpleaes ⟨⟨0, 0⟩, 0⟩ (fun _ _ => 0) (fun _ => 0) (zeroLine ++ zeroLine) 2).getD 0 0 ^^^
      (cipherBlocks .ctr .simpleaes ⟨⟨0, 0⟩, 0⟩ (fun _ _ => 0) (fun _ => 0) (zeroLine ++ zeroLine) 2).getD 1 0 ≠
        blockOf (List.replicate 16 0) ^^^ blockOf (List.replicate 16 0) := by
  have hiff := counter_repeats_iff .simpleaes ⟨⟨0, 0⟩, 0⟩ (fun _ _ => 0) (fun _ => 0) (zeroLine ++ zeroLine) 2
    (i := 0) (j := 1) (E := permutationOf defaultKey) (p := blockOf (List.replicate 16 0))
    (q := blockOf (List.replicate 16 0)) rfl rfl
  intro h
  exact absurd (hiff.mp h) (by decide)

end Host

end KuznyechikDPA.AesModes

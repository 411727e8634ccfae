import KuznyechikDPA.Firmware.Conformance
import KuznyechikDPA.Firmware.Inverse
import KuznyechikDPA.Firmware.LineGrammar

/-!
# Sessions of the firmware

What the device holds and has sent after any number of turns of its main loop is determined
by the callbacks that have run: the round keys are the key schedule of the latest key, and
every callback is answered under the key of its time.
-/

namespace KuznyechikDPA.SimpleSerial
open Kuznyechik

/-! ## The answers -/

def keyOf (payload : List Byte) : Fin 32 → Byte := fun i => payload.getD i 0

def blockOf (payload : List Byte) : State := fun i => payload.getD i 0

/-- The key after a callback. -/
def nextKey (key : List Byte) (call : Callback × List Byte) : List Byte :=
  if call.1 = .getKey then call.2 else key

/-- The payload of the last `get_key`, at first the default key. -/
def currentKey (calls : List (Callback × List Byte)) : List Byte := calls.foldl nextKey defaultKey

/-- Decryption under the round keys of the standard. -/
def decryption (key : Fin 32 → Byte) (a : State) : State := invCipher (Standard.roundKey key) a

def upperDigit (n : Nat) : Byte :=
  if n < 10 then code '0' + BitVec.ofNat 8 n else code 'A' + BitVec.ofNat 8 (n - 10)

def upperHex (b : Byte) : List Byte := [upperDigit (b.toNat / 16), upperDigit (b.toNat % 16)]

/-- The line with the result of a block. -/
def replyLine (block : State) : List Byte :=
  code 'r' :: (List.ofFn block).flatMap upperHex ++ [code '\n']

def acknowledgement : List Byte := ['z', '0', '0', '\n'].map code

/-- What a callback is answered under a key. -/
def answer (key : List Byte) : Callback × List Byte → List Byte
  | (.getPt, payload) => replyLine (Standard.E (keyOf key) (blockOf payload)) ++ acknowledgement
  | (.getDc, payload) => replyLine (decryption (keyOf key) (blockOf payload)) ++ acknowledgement
  | _ => acknowledgement

/-- The answers to a row of callbacks. -/
def transcript (key : List Byte) : List (Callback × List Byte) → List Byte
  | [] => []
  | call :: calls => answer key call ++ transcript (nextKey key call) calls

theorem transcript_concat (key : List Byte) (calls : List (Callback × List Byte))
    (call : Callback × List Byte) :
    transcript key (calls ++ [call]) = transcript key calls ++ answer (calls.foldl nextKey key) call := by
  induction calls generalizing key with
  | nil => simp [transcript]
  | cons first calls ih =>
    rw [List.cons_append, transcript, ih, transcript, List.foldl_cons, List.append_assoc]

theorem currentKey_concat (calls : List (Callback × List Byte)) (call : Callback × List Byte) :
    currentKey (calls ++ [call]) = nextKey (currentKey calls) call := by
  rw [currentKey, List.foldl_append]
  rfl

/-! ## The output -/

theorem putNibbles_eq (b : Byte) : putNibbles b = upperHex b := by
  have hentry := forall_of_allBytes (p := fun b => putNibbles b == upperHex b) (by decide +kernel) b
  exact beq_iff_eq.mp hentry

theorem simpleserialPut_eq (c : Byte) (output : List Byte) :
    simpleserialPut c output = c :: output.flatMap upperHex ++ [code '\n'] := by
  rw [simpleserialPut, List.flatMap_congr fun b _ => putNibbles_eq b]

theorem simpleserialPut_zero : simpleserialPut (code 'z') [0x00] = acknowledgement := by decide

/-! ## The ciphers under the round keys -/

/-- The round keys of a device are the key schedule of a payload. -/
def Device.Keyed (d : Device) (key : List Byte) : Prop :=
  ∀ round < 10, d.globals.trueRoundKey round = Standard.roundKey (keyOf key) round

theorem addRoundKey_congr {k k' : Nat → State} {round : Nat} (h : k round = k' round) (a : State) :
    addRoundKey k round a = addRoundKey k' round a := by
  funext i
  simp only [addRoundKey, h]

theorem invCipher_congr {k k' : Nat → State} (h : ∀ round < 10, k round = k' round) (a : State) :
    invCipher k a = invCipher k' a := by
  have hlt : ∀ round ∈ [9, 8, 7, 6, 5, 4, 3, 2, 1], round < 10 := by decide
  have hrounds : [9, 8, 7, 6, 5, 4, 3, 2, 1].foldl
        (fun state round => invSstep (invLstep (addRoundKey k round state))) a =
      [9, 8, 7, 6, 5, 4, 3, 2, 1].foldl
        (fun state round => invSstep (invLstep (addRoundKey k' round state))) a := by
    refine List.foldl_ext _ _ _ fun state round hround => ?_
    rw [addRoundKey_congr (h round (hlt round hround))]
  rw [invCipher, invCipher, hrounds, addRoundKey_congr (h 0 (by omega))]

theorem E_decryption (key : Fin 32 → Byte) (a : State) : Standard.E key (decryption key a) = a := by
  rw [← cipher_eq_E key _ fun _ _ => rfl]
  exact cipher_invCipher (Standard.roundKey key) a

/-! ## One callback -/

namespace Device
variable {d : Device} {key : List Byte}

theorem Keyed.crypto_eq (h : d.Keyed key) (a : State) :
    crypto d.globals a = Standard.E (keyOf key) a := cipher_eq_E (keyOf key) _ h a

theorem Keyed.decrypto_eq (h : d.Keyed key) (a : State) :
    decrypto d.globals a = decryption (keyOf key) a := invCipher_congr h a

theorem storeState_globals (s : State) (buffer : Option Buffer) :
    (d.storeState s buffer).globals = d.globals := by
  obtain ⟨tmp, data_buf, hstore⟩ := d.storeState_eq s buffer
  rw [hstore]

theorem putBlock_storeState (s : State) :
    ((d.storeState s (some .dataBuf)).putBlock .dataBuf).sent = d.sent ++ replyLine s := by
  have hblock : (List.range 16).map ((d.storeState s (some .dataBuf)).contents .dataBuf) =
      List.ofFn s := by
    rw [List.ofFn_eq_map, ← List.map_coe_finRange_eq_range, List.map_map]
    apply List.map_congr_left
    intro i _
    simp [storeState, contents]
  rw [putBlock, hblock, simpleserialPut_eq]
  rfl

theorem len_of_mem {cmd : SsCmd} (h : cmd ∈ mainCommands) :
    (cmd.fp = .getKey → cmd.len = 32) ∧ (cmd.fp = .getPt → cmd.len = 16) ∧
      (cmd.fp = .getDc → cmd.len = 16) := by
  revert cmd
  decide

theorem keyOf_payload {len : Nat} (h : len = 32) (data_buf : Nat → Byte) :
    keyOf ((List.range len).map data_buf) = fun i : Fin 32 => data_buf i.val := by
  funext i
  simp [keyOf, h]

theorem blockOf_payload {len : Nat} (h : len = 16) (data_buf : Nat → Byte) :
    blockOf ((List.range len).map data_buf) = fun i : Fin 16 => data_buf i.val := by
  funext i
  simp [blockOf, h]

variable {cmd : SsCmd} (hcmd : cmd ∈ mainCommands) (data_buf : Nat → Byte)
include hcmd

/-- A callback leaves the round keys to be the schedule of the current key. -/
theorem Keyed.respond (h : d.Keyed key) :
    (d.respond cmd data_buf).Keyed (nextKey key (cmd.fp, (List.range cmd.len).map data_buf)) := by
  obtain ⟨hkey, -, -⟩ := len_of_mem hcmd
  intro round hround
  have hold := h round hround
  cases hfp : cmd.fp with
  | checkVersion => simpa [Device.respond, hfp, run, checkVersion, nextKey, send] using hold
  | getKey =>
    have hnew := trueRoundKey_keyExpansion (keyOf ((List.range cmd.len).map data_buf)) d.globals round hround
    rw [keyOf_payload (hkey hfp)] at hnew
    rw [nextKey, if_pos rfl, keyOf_payload (hkey hfp)]
    simpa [Device.respond, hfp, run, getKey, send, kuznyechikSetkey, setkey, deref, contents] using hnew
  | getPt =>
    simpa [Device.respond, hfp, run, getPt, nextKey, send, putBlock, kuznyechikCrypto, storeState_globals]
      using hold
  | getDc =>
    simpa [Device.respond, hfp, run, getDc, nextKey, send, putBlock, kuznyechikDecrypto, storeState_globals]
      using hold
  | reset => simpa [Device.respond, hfp, run, reset, nextKey, send] using hold

/-- A callback is answered under the current key. -/
theorem Keyed.respond_sent (h : d.Keyed key) :
    (d.respond cmd data_buf).sent =
      d.sent ++ answer key (cmd.fp, (List.range cmd.len).map data_buf) := by
  obtain ⟨-, hpt, hdc⟩ := len_of_mem hcmd
  cases hfp : cmd.fp with
  | checkVersion =>
    rw [Device.respond]
    simp only [hfp, run, checkVersion, send, simpleserialPut_zero]
    rfl
  | getKey =>
    rw [Device.respond]
    simp only [hfp, run, getKey, kuznyechikSetkey, send, simpleserialPut_zero]
    rfl
  | getPt =>
    rw [Device.respond]
    simp only [hfp, run, getPt, send, simpleserialPut_zero]
    rw [kuznyechikCrypto, putBlock_storeState, answer, blockOf_payload (hpt hfp), List.append_assoc,
      ← h.crypto_eq]
    rfl
  | getDc =>
    rw [Device.respond]
    simp only [hfp, run, getDc, send, simpleserialPut_zero]
    rw [kuznyechikDecrypto, putBlock_storeState, answer, blockOf_payload (hdc hfp), List.append_assoc,
      ← h.decrypto_eq]
    rfl
  | reset =>
    rw [Device.respond]
    simp only [hfp, run, reset, send, simpleserialPut_zero]
    rfl

end Device

/-! ## Runs of the main loop -/

/-- What holds between two calls of `simpleserial_get`. -/
structure Device.Consistent (d : Device) : Prop where
  commands : d.commands = mainCommands
  keyed : d.Keyed (currentKey d.calls)
  sent : d.sent = hello ++ transcript defaultKey d.calls

theorem consistent_boot : boot.Consistent where
  commands := rfl
  keyed := trueRoundKey_keyExpansion (keyOf defaultKey) Globals.init
  sent := rfl

theorem readCommand_mem {commands : List SsCmd} {data_buf data : Nat → Byte} {input rest : List Byte}
    {cmd : SsCmd} (h : readCommand commands data_buf input = some (some (cmd, data), rest)) :
    cmd ∈ commands := by
  rcases input with _ | ⟨c, input⟩
  · contradiction
  rw [readCommand] at h
  rcases hfind : findCmd commands c with _ | found
  · rw [hfind] at h
    simp at h
  · have hmem := List.mem_of_find?_eq_some hfind
    rw [hfind] at h
    simp only at h
    split at h
    · contradiction
    · simp at h
    · contradiction
    · split at h
      · simp only [Option.some.injEq, Prod.mk.injEq, Option.map_eq_some_iff] at h
        obtain ⟨⟨_, _, rfl, _⟩, _⟩ := h
        exact hmem
      · simp at h

namespace Device.Consistent
variable {d d' : Device}

theorem respond (h : d.Consistent) {cmd : SsCmd} (hcmd : cmd ∈ mainCommands) (data_buf : Nat → Byte) :
    (d.respond cmd data_buf).Consistent where
  commands := (d.respond_commands cmd data_buf).trans h.commands
  keyed := by
    rw [d.respond_calls, currentKey_concat]
    exact h.keyed.respond hcmd data_buf
  sent := by
    rw [h.keyed.respond_sent hcmd, h.sent, d.respond_calls, transcript_concat, List.append_assoc]
    rfl

/-- A call of `simpleserial_get` runs one callback or changes nothing. -/
theorem simpleserialGet (h : d.Consistent) {data_buf : Nat → Byte} {input rest : List Byte}
    (hget : d.simpleserialGet data_buf input = some (d', rest)) :
    d'.Consistent ∧ (d' = d ∨ ∃ call, d'.calls = d.calls ++ [call]) := by
  rw [Device.simpleserialGet, h.commands] at hget
  rcases hread : readCommand mainCommands data_buf input with _ | ⟨_ | ⟨cmd, data⟩, rest⟩
  · rw [hread] at hget
    contradiction
  · rw [hread] at hget
    obtain ⟨rfl, -⟩ := Prod.mk.inj (Option.some.inj hget)
    exact ⟨h, .inl rfl⟩
  · rw [hread] at hget
    obtain ⟨rfl, -⟩ := Prod.mk.inj (Option.some.inj hget)
    exact ⟨h.respond (readCommand_mem hread) data, .inr ⟨_, d.respond_calls cmd data⟩⟩

theorem mainLoop (h : d.Consistent) (stack : Nat → Nat → Byte) (n : Nat) (input : List Byte) :
    (mainLoop stack n d input).1.Consistent := by
  induction n generalizing stack d input with
  | zero => exact h
  | succ n ih =>
    rw [SimpleSerial.mainLoop]
    rcases hget : d.simpleserialGet (stack 0) input with _ | ⟨d', rest⟩
    · exact h
    · exact ih (h.simpleserialGet hget).1 _ rest

/-- Calls are only added, and without a new one the device is as before. -/
theorem mainLoop_grows (h : d.Consistent) (stack : Nat → Nat → Byte) (n : Nat) (input : List Byte) :
    (SimpleSerial.mainLoop stack n d input).1 = d ∨
      d.calls.length < (SimpleSerial.mainLoop stack n d input).1.calls.length := by
  induction n generalizing stack d input with
  | zero => exact .inl rfl
  | succ n ih =>
    rw [SimpleSerial.mainLoop]
    rcases hget : d.simpleserialGet (stack 0) input with _ | ⟨d', rest⟩
    · exact .inl rfl
    · obtain ⟨hd', rfl | ⟨call, hcall⟩⟩ := h.simpleserialGet hget
      · exact ih h _ rest
      · have hlength : d'.calls.length = d.calls.length + 1 := by rw [hcall, List.length_append]; rfl
        rcases ih hd' (fun i => stack (i + 1)) rest with heq | hlt
        · exact .inr (by simp only [heq]; omega)
        · exact .inr (by simp only; omega)

/-- Turns without a callback leave the device as it is. -/
theorem mainLoop_add (h : d.Consistent) (stack : Nat → Nat → Byte) (n m : Nat) (input : List Byte)
    (hcalls : (SimpleSerial.mainLoop stack (n + m) d input).1.calls =
      (SimpleSerial.mainLoop stack n d input).1.calls) :
    (SimpleSerial.mainLoop stack (n + m) d input).1 = (SimpleSerial.mainLoop stack n d input).1 := by
  induction n generalizing stack d input with
  | zero =>
    rw [Nat.zero_add] at hcalls ⊢
    rcases h.mainLoop_grows stack m input with heq | hlt
    · exact heq
    · rw [hcalls] at hlt
      exact absurd hlt (Nat.lt_irrefl _)
  | succ n ih =>
    rw [Nat.add_right_comm, SimpleSerial.mainLoop, SimpleSerial.mainLoop] at hcalls ⊢
    rcases hget : d.simpleserialGet (stack 0) input with _ | ⟨d', rest⟩
    · rfl
    · rw [hget] at hcalls
      exact ih (h.simpleserialGet hget).1 _ rest hcalls

end Device.Consistent

end KuznyechikDPA.SimpleSerial

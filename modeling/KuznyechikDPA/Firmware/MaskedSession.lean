import KuznyechikDPA.Firmware.MaskedRefinement
import KuznyechikDPA.Firmware.Session

/-!
# The program `simpleserial-kuznyechik_masked.c`

It is the unmasked program with the two calls of the cipher exchanged: it has the same
callbacks, table, default key and greeting. Its memory is that of the unmasked one, the mask and
the state of the generator.
-/

namespace KuznyechikDPA.Masked
open SimpleSerial (Buffer Callback SsCmd readCommand simpleserialPut code hello)

universe u

structure Device (σ : Type u) extends SimpleSerial.Device where
  mask : State
  generator : σ

namespace Device
variable {σ : Type u} (libc : Libc σ) (d : Device σ)

/-- The globals of `kuznyechik_masked.c`. -/
def maskedGlobals : Masked.Globals σ :=
  { toGlobals := d.globals, mask := d.mask, generator := d.generator }

/-- Writes the globals and the block of a cipher back. -/
def store (result : Masked.Globals σ × State) (buffer : Option Buffer) : Device σ where
  toDevice := { d.toDevice with globals := result.1.toGlobals }.storeState result.2 buffer
  mask := result.1.mask
  generator := result.1.generator

def kuznyechikSetkey (key : Buffer) : Device σ := { d with toDevice := d.toDevice.kuznyechikSetkey key }

def maskedKuznyechikCrypto (input : Buffer) : Device σ :=
  let d := { d with state := some input }
  d.store (maskedCrypto libc d.maskedGlobals fun i => d.deref d.state i) d.state

def maskedKuznyechikDecrypto (input : Buffer) : Device σ :=
  let d := { d with state := some input }
  d.store (maskedDecrypto libc d.maskedGlobals fun i => d.deref d.state i) d.state

def putBlock (pt : Buffer) : Device σ := { d with toDevice := d.toDevice.putBlock pt }

def send (bytes : List Byte) : Device σ := { d with toDevice := d.toDevice.send bytes }

def getKey (k : Buffer) : Byte × Device σ := (0x00, d.kuznyechikSetkey k)

def getPt (pt : Buffer) : Byte × Device σ := (0x00, (d.maskedKuznyechikCrypto libc pt).putBlock pt)

def getDc (pt : Buffer) : Byte × Device σ := (0x00, (d.maskedKuznyechikDecrypto libc pt).putBlock pt)

def checkVersion (_ : Buffer) : Byte × Device σ := (0x00, d)

def reset (_ : Buffer) : Byte × Device σ := (0x00, d)

def run : Callback → Buffer → Byte × Device σ
  | .checkVersion => d.checkVersion
  | .getKey => d.getKey
  | .getPt => d.getPt libc
  | .getDc => d.getDc libc
  | .reset => d.reset

/-- The callback and the acknowledgement of version 1.1. -/
def respond (cmd : SsCmd) (data_buf : Nat → Byte) : Device σ :=
  let d := { d with
    data_buf := data_buf
    calls := d.calls ++ [(cmd.fp, (List.range cmd.len).map data_buf)] }
  (d.run libc cmd.fp .dataBuf).2.send (simpleserialPut (code 'z') [(d.run libc cmd.fp .dataBuf).1])

/-- One call with `data_buf` as the stack leaves it. -/
def simpleserialGet (data_buf : Nat → Byte) (input : List Byte) : Option (Device σ × List Byte) :=
  match readCommand d.commands data_buf input with
  | none => none
  | some (none, rest) => some (d, rest)
  | some (some (cmd, data), rest) => some (d.respond libc cmd data, rest)

end Device

section Program
variable {σ : Type u} (libc : Libc σ) (generator : σ)

/-- Static storage and the frame of `main` before its first statement. -/
def powerUp : Device σ where
  toDevice := SimpleSerial.powerUp
  mask := 0
  generator := generator

/-- `main` up to its loop. -/
def boot : Device σ :=
  { ((powerUp generator).kuznyechikSetkey .tmp).send hello with commands := SimpleSerial.mainCommands }

/-- The first `n` calls of `while(1)`, as far as the stream goes. -/
def mainLoop (stack : Nat → Nat → Byte) : Nat → Device σ → List Byte → Device σ × List Byte
  | 0, d, input => (d, input)
  | n + 1, d, input =>
    match d.simpleserialGet libc (stack 0) input with
    | none => (d, input)
    | some (d, rest) => mainLoop (fun i => stack (i + 1)) n d rest

/-! ## Against the unmasked program -/

variable {generator}

theorem toGlobals_maskedCrypto (g : Masked.Globals σ) (input : State) :
    (maskedCrypto libc g input).1.toGlobals = g.toGlobals := toGlobals_genMask libc g input

theorem toGlobals_maskedDecrypto (g : Masked.Globals σ) (input : State) :
    (maskedDecrypto libc g input).1.toGlobals = g.toGlobals := toGlobals_genMask libc g input

namespace Device
variable {d : Device σ}

/-- Apart from the mask and the generator a masked block leaves what a plain one does. -/
theorem toDevice_crypto (input : Buffer) :
    (d.maskedKuznyechikCrypto libc input).toDevice = d.toDevice.kuznyechikCrypto input := by
  rw [maskedKuznyechikCrypto, store, toGlobals_maskedCrypto, maskedCrypto_output]
  rfl

theorem toDevice_decrypto (input : Buffer) :
    (d.maskedKuznyechikDecrypto libc input).toDevice = d.toDevice.kuznyechikDecrypto input := by
  rw [maskedKuznyechikDecrypto, store, toGlobals_maskedDecrypto, maskedDecrypto_output]
  rfl

theorem toDevice_run (fp : Callback) (buffer : Buffer) :
    (d.run libc fp buffer).1 = (d.toDevice.run fp buffer).1 ∧
      (d.run libc fp buffer).2.toDevice = (d.toDevice.run fp buffer).2 := by
  cases fp with
  | checkVersion => exact ⟨rfl, rfl⟩
  | getKey => exact ⟨rfl, rfl⟩
  | getPt => exact ⟨rfl, congrArg (fun d => d.putBlock buffer) (toDevice_crypto libc buffer)⟩
  | getDc => exact ⟨rfl, congrArg (fun d => d.putBlock buffer) (toDevice_decrypto libc buffer)⟩
  | reset => exact ⟨rfl, rfl⟩

theorem toDevice_respond (cmd : SsCmd) (data_buf : Nat → Byte) :
    (d.respond libc cmd data_buf).toDevice = d.toDevice.respond cmd data_buf := by
  obtain ⟨hret, hdevice⟩ := toDevice_run libc (d := { d with
    data_buf := data_buf
    calls := d.calls ++ [(cmd.fp, (List.range cmd.len).map data_buf)] }) cmd.fp .dataBuf
  rw [respond, send, hret, hdevice]
  rfl

end Device

/-- Turn for turn the two programs read the same and leave the same memory. -/
theorem toDevice_mainLoop (stack : Nat → Nat → Byte) (n : Nat) (d : Device σ) (input : List Byte) :
    (mainLoop libc stack n d input).1.toDevice = (SimpleSerial.mainLoop stack n d.toDevice input).1 ∧
      (mainLoop libc stack n d input).2 = (SimpleSerial.mainLoop stack n d.toDevice input).2 := by
  induction n generalizing stack d input with
  | zero => exact ⟨rfl, rfl⟩
  | succ n ih =>
    rw [mainLoop, SimpleSerial.mainLoop, Device.simpleserialGet, SimpleSerial.Device.simpleserialGet]
    rcases readCommand d.commands (stack 0) input with _ | ⟨_ | ⟨cmd, data⟩, rest⟩
    · exact ⟨rfl, rfl⟩
    · exact ih _ d rest
    · have hnext := ih (fun i => stack (i + 1)) (d.respond libc cmd data) rest
      rwa [Device.toDevice_respond] at hnext

end Program

/-- From power-up, whatever `rand` returns and whatever the two programs find on their stacks: after any
number of turns on any stream the masked program has run the same callbacks as the unmasked one and
has sent the same bytes. -/
theorem masked_program_eq {σ : Type u} (libc : Libc σ) (generator : σ) (stack stack' : Nat → Nat → Byte)
    (stream : List Byte) (n : Nat) :
    (mainLoop libc stack n (boot generator) stream).1.calls =
        (SimpleSerial.mainLoop stack' n SimpleSerial.boot stream).1.calls ∧
      (mainLoop libc stack n (boot generator) stream).1.sent =
        (SimpleSerial.mainLoop stack' n SimpleSerial.boot stream).1.sent := by
  have hboot : (boot generator).toDevice = SimpleSerial.boot := rfl
  have hdevice := (toDevice_mainLoop libc stack n (boot generator) stream).1
  have hcalls : (SimpleSerial.mainLoop stack n SimpleSerial.boot stream).1.calls =
      (SimpleSerial.mainLoop stack' n SimpleSerial.boot stream).1.calls := by
    rw [SimpleSerial.mainLoop_calls stack n _ stream rfl, SimpleSerial.mainLoop_calls stack' n _ stream rfl]
  have hsent := (SimpleSerial.consistent_boot.mainLoop stack n stream).sent
  have hsent' := (SimpleSerial.consistent_boot.mainLoop stack' n stream).sent
  rw [hdevice, hboot]
  exact ⟨hcalls, by rw [hsent, hsent', hcalls]⟩

end KuznyechikDPA.Masked

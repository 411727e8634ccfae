import KuznyechikDPA.Firmware.AesIndependant
import KuznyechikDPA.Firmware.CommandTable
import KuznyechikDPA.Foundation.BlockModes

/-!
# The program `simpleserial-aes.c`

`BLOCK_MODE` is a constant of the build and a parameter here; the AES is any branch of
`aes-independant.c`. The callbacks are declared `void`, but `simpleserial_get` sends what it takes for
their return code: any byte.
-/

namespace KuznyechikDPA.AesModes
open SimpleSerial AesIndependant
open BlockModes (Mode)

universe u

/-- The state of the AES branch, `ct`, and the static arrays of `encrypt`. -/
structure Globals (σ : Type u) where
  aes : σ
  ct : State
  input : State
  output : State

inductive Callback where
  | updateKey
  | encrypt
  | noOp
  deriving DecidableEq

/-- A callback that has run: its argument, and the byte sent for it. -/
structure Call where
  fp : Callback
  payload : List Byte
  ret : Byte

structure Device (σ : Type u) where
  globals : Globals σ
  commands : List (Cmd Callback)
  sent : List Byte
  calls : List Call

section Program
variable {σ : Type u} (mode : Mode) (aes : AesIndep σ)

/-- `encrypt` up to `simpleserial_put`. -/
def encrypt (g : Globals σ) (pt : State) : Globals σ :=
  let input : State := match mode with
    | .ecb => pt
    | .cbc => fun i => pt i ^^^ g.ct i
    | .cfb => g.ct
    | .ofb => g.output
    | .ctr => Function.update g.input 0 (g.input 0 + 1)
  let result := aes.enc input g.aes
  let output := result.2
  let ct : State := match mode with
    | .ecb | .cbc => output
    | .cfb | .ofb | .ctr => fun i => output i ^^^ pt i
  { aes := result.1
    ct := ct
    -- only CTR reads it again
    input := input
    output := output }

def Device.send (d : Device σ) (bytes : List Byte) : Device σ := { d with sent := d.sent ++ bytes }

def Device.updateKey (d : Device σ) (k : Nat → Byte) : Device σ :=
  { d with globals := { d.globals with aes := aes.key k d.globals.aes } }

def Device.encrypt (d : Device σ) (pt : State) : Device σ :=
  let g := AesModes.encrypt mode aes d.globals pt
  { d with globals := g }.send (simpleserialPut (code 'r') (List.ofFn g.ct))

/-- The callback, and the acknowledgement with what is in the return register. -/
def Device.respond (d : Device σ) (cmd : Cmd Callback) (data_buf : Nat → Byte) (ret : Byte) : Device σ :=
  let call : Call := ⟨cmd.fp, (List.range cmd.len).map data_buf, ret⟩
  let d := { d with calls := d.calls ++ [call] }
  let d := match cmd.fp with
    | .updateKey => d.updateKey aes data_buf
    | .encrypt => d.encrypt mode aes fun i => data_buf i
    | .noOp => d
  d.send (simpleserialPut (code 'z') [ret])

/-- One call of `simpleserial_get`. -/
def Device.simpleserialGet (d : Device σ) (data_buf : Nat → Byte) (ret : Byte) (stream : List Byte) :
    Option (Device σ × List Byte) :=
  match getCommand d.commands data_buf stream with
  | none => none
  | some (none, rest) => some (d, rest)
  | some (some (cmd, data), rest) => some (d.respond mode aes cmd data ret, rest)

/-- `DEFAULT_KEY`. -/
def defaultKey : List Byte := [
  0x2b, 0x7e, 0x15, 0x16, 0x28, 0xae, 0xd2, 0xa6, 0xab, 0xf7, 0x15, 0x88, 0x09, 0xcf, 0x4f, 0x3c]

def mainCommands : List (Cmd Callback) :=
  let commands := (addcmd [] (code 'k') 16 .updateKey).2
  let commands := (addcmd commands (code 'p') 16 .encrypt).2
  (addcmd commands (code 'x') 0 .noOp).2

/-- `main` up to its loop. The arrays are static, so they start at zero. -/
def boot (s : σ) : Device σ where
  globals := { aes := aes.key (fun i => defaultKey.getD i 0) (aes.init s), ct := 0, input := 0, output := 0 }
  commands := mainCommands
  sent := []
  calls := []

/-- The first `n` calls of `while(1)`, as far as the stream goes; `stack i` and `ret i` are what call
`i` finds in `data_buf` and sends for the return code. -/
def mainLoop (stack : Nat → Nat → Byte) (ret : Nat → Byte) :
    Nat → Device σ → List Byte → Device σ × List Byte
  | 0, d, stream => (d, stream)
  | n + 1, d, stream =>
    match d.simpleserialGet mode aes (stack 0) (ret 0) stream with
    | none => (d, stream)
    | some (d, rest) => mainLoop (fun i => stack (i + 1)) (fun i => ret (i + 1)) n d rest

end Program
end KuznyechikDPA.AesModes

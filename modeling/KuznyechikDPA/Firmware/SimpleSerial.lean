import KuznyechikDPA.Firmware.Kuznyechik

/-!
# The module `simpleserial.c` and the program `simpleserial-kuznyechik.c`

`getch` blocks, so a call of `simpleserial_get` on a finite stream may never return, and
then has had no effect. The buffer `data_buf` is on the stack: what it holds on entry is
arbitrary, and pointers to it stay in `Key` and `state` after the call.
-/

namespace KuznyechikDPA.SimpleSerial

/-- The code of a character. -/
def code (c : Char) : Byte := BitVec.ofNat 8 c.toNat

/-! ## Lines and digits -/

def hexLookup : List Byte :=
  ['0', '1', '2', '3', '4', '5', '6', '7', '8', '9', 'A', 'B', 'C', 'D', 'E', 'F'].map code

/-- The branches of `hex_decode` for one digit; `none` stands for `return 1`. -/
def nibble (n : Byte) : Option Byte :=
  if code '0' ≤ n ∧ n ≤ code '9' then some (n - code '0')
  else if code 'A' ≤ n ∧ n ≤ code 'F' then some (n - code 'A' + 10)
  else if code 'a' ≤ n ∧ n ≤ code 'f' then some (n - code 'a' + 10)
  else none

def hexDecodeStep (ascii_buf : List Byte) (data_buf : Nat → Byte) (i : Nat) : Option (Nat → Byte) :=
  match nibble (ascii_buf.getD (2 * i + 1) 0), nibble (ascii_buf.getD (2 * i) 0) with
  | some lo, some hi => some (Function.update data_buf i (lo ||| (hi <<< 4)))
  | _, _ => none

def hexDecode (len : Nat) (ascii_buf : List Byte) (data_buf : Nat → Byte) : Option (Nat → Byte) :=
  (List.range len).foldlM (hexDecodeStep ascii_buf) data_buf

def isNewline (c : Byte) : Bool := c == code '\n' || c == code '\r'

def putNibbles (b : Byte) : List Byte :=
  [hexLookup.getD (b >>> 4).toNat 0, hexLookup.getD (b &&& 0xF).toNat 0]

/-- What `simpleserial_put` sends. -/
def simpleserialPut (c : Byte) (output : List Byte) : List Byte :=
  c :: output.flatMap putNibbles ++ [code '\n']

/-! ## Commands -/

inductive Callback where
  | checkVersion
  | getKey
  | getPt
  | getDc
  | reset
  deriving DecidableEq

structure SsCmd where
  c : Byte
  len : Nat
  fp : Callback

/-- The return code, and the table after the call. -/
def simpleserialAddcmd (commands : List SsCmd) (c : Byte) (len : Nat) (fp : Callback) :
    Nat × List SsCmd :=
  if 10 ≤ commands.length then (1, commands)
  else if 64 ≤ len then (1, commands)
  else (0, commands ++ [⟨c, len, fp⟩])

def simpleserialInit (commands : List SsCmd) : List SsCmd :=
  (simpleserialAddcmd commands (code 'v') 0 .checkVersion).2

/-- The search of the command table. -/
def findCmd (commands : List SsCmd) (c : Byte) : Option SsCmd := commands.find? fun cmd => cmd.c == c

/-- The loop that fills `ascii_buf`: `none` while `getch` blocks, no buffer after an early
line end. -/
def receive : Nat → List Byte → Option (Option (List Byte) × List Byte)
  | 0, input => some (some [], input)
  | _ + 1, [] => none
  | n + 1, c :: rest =>
    if isNewline c then some (none, rest)
    else (receive n rest).map fun (ascii_buf, rest) => (ascii_buf.map (c :: ·), rest)

/-- `simpleserial_get` up to the callback: the command with `data_buf`, if the call gets
there, and what is left of the stream. -/
def readCommand (commands : List SsCmd) (data_buf : Nat → Byte) :
    List Byte → Option (Option (SsCmd × (Nat → Byte)) × List Byte)
  | [] => none
  | c :: rest =>
    match findCmd commands c with
    | none => some (none, rest)
    | some cmd =>
      match receive (2 * cmd.len) rest with
      | none => none
      | some (none, rest) => some (none, rest)
      | some (some _, []) => none
      | some (some ascii_buf, c :: rest) =>
        if isNewline c then
          some ((hexDecode cmd.len ascii_buf data_buf).map fun data => (cmd, data), rest)
        else some (none, rest)

/-! ## The device -/

/-- The arrays that `Key` and `state` may point to. -/
inductive Buffer where
  | tmp
  | dataBuf

/-- `calls` records the callbacks with the first `len` bytes of their argument; `sent` is what
has been put on the line. -/
structure Device where
  globals : Kuznyechik.Globals
  Key : Option Buffer
  state : Option Buffer
  tmp : Nat → Byte
  data_buf : Nat → Byte
  commands : List SsCmd
  sent : List Byte
  calls : List (Callback × List Byte)

namespace Device
variable (d : Device)

def contents : Buffer → Nat → Byte
  | .tmp => d.tmp
  | .dataBuf => d.data_buf

/-- What a pointer reads; the null pointer is never read. -/
def deref : Option Buffer → Nat → Byte
  | none => fun _ => 0
  | some buffer => d.contents buffer

/-- Writes a state through a pointer. -/
def storeState (s : State) : Option Buffer → Device
  | none => d
  | some .tmp => { d with tmp := fun i => if i < 16 then s (Fin.ofNat 16 i) else d.tmp i }
  | some .dataBuf => { d with data_buf := fun i => if i < 16 then s (Fin.ofNat 16 i) else d.data_buf i }

def send (bytes : List Byte) : Device := { d with sent := d.sent ++ bytes }

def kuznyechikSetkey (key : Buffer) : Device :=
  let d := { d with Key := some key }
  { d with globals := Kuznyechik.setkey d.globals fun i => d.deref d.Key i }

def kuznyechikCrypto (input : Buffer) : Device :=
  let d := { d with state := some input }
  d.storeState (Kuznyechik.crypto d.globals fun i => d.deref d.state i) d.state

def kuznyechikDecrypto (input : Buffer) : Device :=
  let d := { d with state := some input }
  d.storeState (Kuznyechik.decrypto d.globals fun i => d.deref d.state i) d.state

/-- The reply `r` with the block that a pointer reads. -/
def putBlock (pt : Buffer) : Device :=
  d.send (simpleserialPut (code 'r') ((List.range 16).map (d.contents pt)))

def getKey (k : Buffer) : Byte × Device := (0x00, d.kuznyechikSetkey k)

def getPt (pt : Buffer) : Byte × Device := (0x00, (d.kuznyechikCrypto pt).putBlock pt)

def getDc (pt : Buffer) : Byte × Device := (0x00, (d.kuznyechikDecrypto pt).putBlock pt)

def checkVersion (_ : Buffer) : Byte × Device := (0x00, d)

def reset (_ : Buffer) : Byte × Device := (0x00, d)

def run : Callback → Buffer → Byte × Device
  | .checkVersion => d.checkVersion
  | .getKey => d.getKey
  | .getPt => d.getPt
  | .getDc => d.getDc
  | .reset => d.reset

/-- The callback and the acknowledgement of version 1.1. -/
def respond (cmd : SsCmd) (data_buf : Nat → Byte) : Device :=
  let d := { d with
    data_buf := data_buf
    calls := d.calls ++ [(cmd.fp, (List.range cmd.len).map data_buf)] }
  (d.run cmd.fp .dataBuf).2.send (simpleserialPut (code 'z') [(d.run cmd.fp .dataBuf).1])

/-- One call with `data_buf` as the stack leaves it. -/
def simpleserialGet (data_buf : Nat → Byte) (input : List Byte) : Option (Device × List Byte) :=
  match readCommand d.commands data_buf input with
  | none => none
  | some (none, rest) => some (d, rest)
  | some (some (cmd, data), rest) => some (d.respond cmd data, rest)

end Device

/-! ## The main program -/

/-- The initialiser of `tmp` in `main`. -/
def defaultKey : List Byte := [
  0x88, 0x99, 0xaa, 0xbb, 0xcc, 0xdd, 0xee, 0xff, 0x00, 0x11, 0x22, 0x33, 0x44, 0x55, 0x66, 0x77,
  0xfe, 0xdc, 0xba, 0x98, 0x76, 0x54, 0x32, 0x10, 0x01, 0x23, 0x45, 0x67, 0x89, 0xab, 0xcd, 0xef]

def hello : List Byte := ['h', 'e', 'l', 'l', 'o', '\n'].map code

def mainCommands : List SsCmd :=
  let commands := simpleserialInit []
  let commands := (simpleserialAddcmd commands (code 'k') 32 .getKey).2
  let commands := (simpleserialAddcmd commands (code 'p') 16 .getPt).2
  let commands := (simpleserialAddcmd commands (code 'd') 16 .getDc).2
  (simpleserialAddcmd commands (code 'x') 0 .reset).2

/-- Static storage and the frame of `main` before its first statement. -/
def powerUp : Device where
  globals := .init
  Key := none
  state := none
  tmp := fun i => defaultKey.getD i 0
  data_buf := fun _ => 0
  commands := []
  sent := []
  calls := []

/-- `main` up to its loop. -/
def boot : Device := { (powerUp.kuznyechikSetkey .tmp).send hello with commands := mainCommands }

/-- The first `n` calls of `while(1)`, as far as the stream goes; `stack i` is what call `i`
finds in `data_buf`. -/
def mainLoop (stack : Nat → Nat → Byte) : Nat → Device → List Byte → Device × List Byte
  | 0, d, input => (d, input)
  | n + 1, d, input =>
    match d.simpleserialGet (stack 0) input with
    | none => (d, input)
    | some (d, rest) => mainLoop (fun i => stack (i + 1)) n d rest

end KuznyechikDPA.SimpleSerial

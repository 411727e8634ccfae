import KuznyechikDPA.Firmware.SimpleSerial
import KuznyechikDPA.Foundation.LineReader

/-!
# The lines that the firmware answers

A call of `simpleserial_get` is an attempt of a line reader whose letters are the commands
of `main`. The call gives up in the middle of a line after a letter it does not know and
after a line that goes on too long, and what follows is read as a new line.
-/

namespace KuznyechikDPA.SimpleSerial

/-! ## Digits -/

def isHexDigit (n : Byte) : Bool :=
  (code '0' ≤ n && n ≤ code '9') || (code 'A' ≤ n && n ≤ code 'F') || (code 'a' ≤ n && n ≤ code 'f')

/-- The value of a hexadecimal digit of either case. -/
def digitValue (n : Byte) : Nat :=
  if n ≤ code '9' then n.toNat - 48 else if n ≤ code 'F' then n.toNat - 55 else n.toNat - 87

/-- The bytes that a row of digits spells, the high digit of each first. -/
def decoded : List Byte → List Byte
  | hi :: lo :: rest => BitVec.ofNat 8 (16 * digitValue hi + digitValue lo) :: decoded rest
  | _ => []

theorem nibble_eq (n : Byte) :
    nibble n = if isHexDigit n then some (BitVec.ofNat 8 (digitValue n)) else none := by
  have hentry := forall_of_allBytes (p := fun n =>
    nibble n == if isHexDigit n then some (BitVec.ofNat 8 (digitValue n)) else none)
    (by decide +kernel) n
  exact beq_iff_eq.mp hentry

theorem digitValue_lt {n : Byte} (h : isHexDigit n = true) : digitValue n < 16 := by
  have hentry := forall_of_allBytes (p := fun n => !isHexDigit n || decide (digitValue n < 16))
    (by decide +kernel) n
  simpa [h] using hentry

theorem or_shift {hi lo : Nat} (hhi : hi < 16) (hlo : lo < 16) :
    BitVec.ofNat 8 lo ||| (BitVec.ofNat 8 hi <<< 4) = BitVec.ofNat 8 (16 * hi + lo) := by
  have hall : ∀ hi < 16, ∀ lo < 16,
      BitVec.ofNat 8 lo ||| (BitVec.ofNat 8 hi <<< 4) = BitVec.ofNat 8 (16 * hi + lo) := by decide
  exact hall hi hhi lo hlo

theorem decoded_getD (digits : List Byte) (i : Nat) (h : 2 * i + 1 < digits.length) :
    (decoded digits).getD i 0 =
      BitVec.ofNat 8 (16 * digitValue (digits.getD (2 * i) 0) + digitValue (digits.getD (2 * i + 1) 0)) := by
  induction digits using decoded.induct generalizing i with
  | case1 hi lo rest ih =>
    cases i with
    | zero => rfl
    | succ i =>
      have hrest := ih i (by simp at h; omega)
      have hindex : 2 * (i + 1) = 2 * i + 1 + 1 := by omega
      rw [decoded, List.getD_cons_succ, hrest, hindex, List.getD_cons_succ, List.getD_cons_succ,
        List.getD_cons_succ, List.getD_cons_succ]
  | case2 digits hshort =>
    rcases digits with _ | ⟨hi, _ | ⟨lo, rest⟩⟩
    · simp at h
    · simp at h
    · exact absurd rfl (hshort hi lo rest)

theorem length_decoded (digits : List Byte) : (decoded digits).length = digits.length / 2 := by
  induction digits using decoded.induct with
  | case1 hi lo rest ih =>
    rw [decoded, List.length_cons, List.length_cons, List.length_cons, ih]
    omega
  | case2 digits hshort =>
    rcases digits with _ | ⟨hi, _ | ⟨lo, rest⟩⟩
    · simp [decoded]
    · simp [decoded]
    · exact absurd rfl (hshort hi lo rest)

theorem hexDecodeStep_eq (ascii_buf : List Byte) (data : Nat → Byte) (i : Nat) :
    hexDecodeStep ascii_buf data i =
      if isHexDigit (ascii_buf.getD (2 * i + 1) 0) ∧ isHexDigit (ascii_buf.getD (2 * i) 0) then
        some (Function.update data i (BitVec.ofNat 8
          (16 * digitValue (ascii_buf.getD (2 * i) 0) + digitValue (ascii_buf.getD (2 * i + 1) 0))))
      else none := by
  rw [hexDecodeStep, nibble_eq, nibble_eq]
  cases hlo : isHexDigit (ascii_buf.getD (2 * i + 1) 0) with
  | false => simp
  | true =>
    cases hhi : isHexDigit (ascii_buf.getD (2 * i) 0) with
    | false => simp
    | true =>
      have hbyte := or_shift (digitValue_lt hhi) (digitValue_lt hlo)
      rw [if_pos rfl, if_pos rfl, if_pos ⟨rfl, rfl⟩, ← hbyte]

theorem hexDecode_upto (ascii_buf : List Byte) (data_buf : Nat → Byte) (n : Nat)
    (h : 2 * n ≤ ascii_buf.length) :
    hexDecode n ascii_buf data_buf =
      if ∀ i < 2 * n, isHexDigit (ascii_buf.getD i 0) = true then
        some fun i => if i < n then (decoded ascii_buf).getD i 0 else data_buf i
      else none := by
  induction n with
  | zero => simp [hexDecode]
  | succ n ih =>
    have hfold : hexDecode (n + 1) ascii_buf data_buf =
        (hexDecode n ascii_buf data_buf).bind fun data => hexDecodeStep ascii_buf data n := by
      rw [hexDecode, List.range_succ, List.foldlM_append, hexDecode]
      simp only [List.foldlM_cons, List.foldlM_nil, bind_pure]
      rfl
    have hlast : (∀ i < 2 * (n + 1), isHexDigit (ascii_buf.getD i 0) = true) ↔
        (∀ i < 2 * n, isHexDigit (ascii_buf.getD i 0) = true) ∧
          isHexDigit (ascii_buf.getD (2 * n + 1) 0) = true ∧ isHexDigit (ascii_buf.getD (2 * n) 0) = true := by
      constructor
      · intro hall
        exact ⟨fun i hi => hall i (by omega), hall _ (by omega), hall _ (by omega)⟩
      · rintro ⟨hall, hlo, hhi⟩ i hi
        obtain hlt | rfl | rfl : i < 2 * n ∨ i = 2 * n ∨ i = 2 * n + 1 := by omega
        · exact hall i hlt
        · exact hhi
        · exact hlo
    rw [hfold, ih (by omega)]
    by_cases hall : ∀ i < 2 * n, isHexDigit (ascii_buf.getD i 0) = true
    · rw [if_pos hall, Option.bind_some, hexDecodeStep_eq]
      by_cases hpair : isHexDigit (ascii_buf.getD (2 * n + 1) 0) = true ∧
          isHexDigit (ascii_buf.getD (2 * n) 0) = true
      · rw [if_pos hpair, if_pos (hlast.mpr ⟨hall, hpair⟩), ← decoded_getD ascii_buf n (by omega)]
        congr 1
        funext i
        obtain hlt | rfl | hgt : i < n ∨ i = n ∨ n < i := by omega
        · rw [Function.update_of_ne hlt.ne, if_pos hlt, if_pos (by omega)]
        · rw [Function.update_self, if_pos (by omega)]
        · rw [Function.update_of_ne hgt.ne', if_neg (by omega), if_neg (by omega)]
      · rw [if_neg hpair, if_neg fun hcontra => hpair (hlast.mp hcontra).2]
    · rw [if_neg hall, if_neg fun hcontra => hall (hlast.mp hcontra).1]
      rfl

/-- `hex_decode` accepts digits of either case and decodes them. -/
theorem hexDecode_eq {len : Nat} {ascii_buf : List Byte} (h : ascii_buf.length = 2 * len)
    (data_buf : Nat → Byte) :
    hexDecode len ascii_buf data_buf =
      if ascii_buf.all isHexDigit then
        some fun i => if i < len then (decoded ascii_buf).getD i 0 else data_buf i
      else none := by
  have hall : (∀ i < 2 * len, isHexDigit (ascii_buf.getD i 0) = true) ↔ ascii_buf.all isHexDigit = true := by
    rw [List.all_eq_true, List.forall_mem_iff_getElem, ← h]
    apply forall₂_congr
    intro i hi
    rw [List.getD_eq_getElem _ _ hi]
  rw [hexDecode_upto ascii_buf data_buf len h.ge]
  simp only [hall]

/-- The payload that a callback sees. -/
theorem map_hexDecode {len : Nat} {ascii_buf : List Byte} (h : ascii_buf.length = 2 * len)
    (data_buf : Nat → Byte) :
    ((List.range len).map fun i => if i < len then (decoded ascii_buf).getD i 0 else data_buf i) =
      decoded ascii_buf := by
  have hlength := length_decoded ascii_buf
  apply List.ext_getElem
  · rw [List.length_map, List.length_range]
    omega
  · intro i hi hi'
    rw [List.length_map, List.length_range] at hi
    rw [List.getElem_map, List.getElem_range, if_pos hi, List.getD_eq_getElem _ _ hi']

/-! ## The reader -/

/-- The commands of `main` by their letters. -/
def mainCmd (c : Byte) : Option SsCmd := findCmd mainCommands c

theorem mainCmd_newline {c : Byte} (h : isNewline c = true) : mainCmd c = none := by
  rw [isNewline, Bool.or_eq_true, beq_iff_eq, beq_iff_eq] at h
  rcases h with rfl | rfl
  · rfl
  · rfl

/-- A letter of a command asks for two digits a byte. -/
def reader : LineReader Byte where
  size c := (mainCmd c).map fun cmd => 2 * cmd.len
  isEnd := isNewline
  size_of_isEnd c h := by rw [mainCmd_newline h]; rfl

/-- The argument of a command consists of digits. -/
def accepts (x : Byte × List Byte) : Bool := x.2.all isHexDigit

/-- The callback of a command, with the payload of its digits. -/
def callOf (x : Byte × List Byte) : Callback × List Byte :=
  (((mainCmd x.1).map SsCmd.fp).getD .checkVersion, decoded x.2)

/-- The callback that a line asks for: a registered letter and `2 * len` digits. -/
def lineCall (line : List Byte) : Option (Callback × List Byte) :=
  ((reader.lineCommand line).filter accepts).map callOf

/-- A line that begins with skipped pieces, letters that are not registered and registered
ones with one character more than they ask for, and goes on with a command. -/
def HidesCommand (line : List Byte) : Prop := reader.Hides accepts line

theorem receive_eq (n : Nat) (input : List Byte) : receive n input = reader.receive n input := by
  induction n generalizing input with
  | zero => rfl
  | succ n ih =>
    cases input with
    | nil => rfl
    | cons c input => rw [receive, LineReader.receive, ih]; rfl

/-- A call reads what the reader attempts, decodes it, and leaves the same rest. -/
theorem readCommand_cases (data_buf : Nat → Byte) (input : List Byte) :
    (reader.attempt input = none ∧ readCommand mainCommands data_buf input = none) ∨
    (∃ found rest, reader.attempt input = some (found, rest) ∧
      found.filter accepts = none ∧ readCommand mainCommands data_buf input = some (none, rest)) ∨
    ∃ x cmd data rest, reader.attempt input = some (some x, rest) ∧ accepts x = true ∧
      readCommand mainCommands data_buf input = some (some (cmd, data), rest) ∧
      callOf x = (cmd.fp, (List.range cmd.len).map data) := by
  rcases input with _ | ⟨c, input⟩
  · exact .inl ⟨rfl, rfl⟩
  have hsize : reader.size c = (findCmd mainCommands c).map fun cmd => 2 * cmd.len := rfl
  rw [LineReader.attempt, readCommand, hsize]
  rcases hfind : findCmd mainCommands c with _ | cmd
  · exact .inr (.inl ⟨none, input, rfl, rfl, rfl⟩)
  rw [Option.map_some]
  simp only [receive_eq]
  rcases reader.receive_cases (2 * cmd.len) input with ⟨hnone, _⟩ | ⟨part, e, rest, hearly, _⟩ |
    ⟨ascii_buf, rest, hfull, _, hlength, _⟩
  · rw [hnone]
    exact .inl ⟨rfl, rfl⟩
  · rw [hearly]
    exact .inr (.inl ⟨none, rest, rfl, rfl, rfl⟩)
  rw [hfull]
  rcases rest with _ | ⟨e, rest⟩
  · exact .inl ⟨rfl, rfl⟩
  cases he : isNewline e with
  | false => exact .inr (.inl ⟨none, rest, by simp [reader, he], rfl, by simp [he]⟩)
  | true =>
    cases hdigits : ascii_buf.all isHexDigit with
    | false =>
      refine .inr (.inl ⟨some (c, ascii_buf), rest, by simp [reader, he], ?_, ?_⟩)
      · rw [Option.filter_some, accepts, hdigits]
        rfl
      · simp [he, hexDecode_eq hlength, hdigits]
    | true =>
      refine .inr (.inr ⟨(c, ascii_buf), cmd,
        fun i => if i < cmd.len then (decoded ascii_buf).getD i 0 else data_buf i, rest,
        by simp [reader, he], hdigits, ?_, ?_⟩)
      · simp only [he, hexDecode_eq hlength, hdigits, if_true, Option.map_some]
      · rw [map_hexDecode hlength, callOf, mainCmd, hfind]
        rfl

/-! ## The calls of a session -/

namespace Device
variable (d : Device)

theorem storeState_eq (s : State) (buffer : Option Buffer) :
    ∃ tmp data_buf, d.storeState s buffer = { d with tmp := tmp, data_buf := data_buf } := by
  rcases buffer with _ | buffer
  · exact ⟨d.tmp, d.data_buf, rfl⟩
  · cases buffer with
    | tmp => exact ⟨_, d.data_buf, rfl⟩
    | dataBuf => exact ⟨d.tmp, _, rfl⟩

/-- Callbacks leave the command table and the record of calls as they are. -/
theorem run_frame (fp : Callback) (buffer : Buffer) :
    (d.run fp buffer).2.commands = d.commands ∧ (d.run fp buffer).2.calls = d.calls := by
  cases fp with
  | checkVersion => exact ⟨rfl, rfl⟩
  | getKey => exact ⟨rfl, rfl⟩
  | getPt =>
    obtain ⟨tmp, data_buf, hstore⟩ := storeState_eq { d with state := some buffer }
      (Kuznyechik.crypto d.globals fun i => d.contents buffer i) (some buffer)
    have hcrypto : d.kuznyechikCrypto buffer =
        { d with state := some buffer, tmp := tmp, data_buf := data_buf } := hstore
    simp only [run, getPt, putBlock, send, hcrypto, and_self]
  | getDc =>
    obtain ⟨tmp, data_buf, hstore⟩ := storeState_eq { d with state := some buffer }
      (Kuznyechik.decrypto d.globals fun i => d.contents buffer i) (some buffer)
    have hdecrypto : d.kuznyechikDecrypto buffer =
        { d with state := some buffer, tmp := tmp, data_buf := data_buf } := hstore
    simp only [run, getDc, putBlock, send, hdecrypto, and_self]
  | reset => exact ⟨rfl, rfl⟩

theorem respond_commands (cmd : SsCmd) (data_buf : Nat → Byte) :
    (d.respond cmd data_buf).commands = d.commands := (run_frame _ _ _).1

theorem respond_calls (cmd : SsCmd) (data_buf : Nat → Byte) :
    (d.respond cmd data_buf).calls = d.calls ++ [(cmd.fp, (List.range cmd.len).map data_buf)] :=
  (run_frame _ _ _).2

end Device

theorem mainLoop_calls (stack : Nat → Nat → Byte) (n : Nat) (d : Device) (input : List Byte)
    (hcommands : d.commands = mainCommands) :
    (mainLoop stack n d input).1.calls =
      d.calls ++ ((reader.attempts n input).filter accepts).map callOf := by
  induction n generalizing stack d input with
  | zero => simp [mainLoop, LineReader.attempts]
  | succ n ih =>
    rw [mainLoop, LineReader.attempts, Device.simpleserialGet, hcommands]
    rcases readCommand_cases (stack 0) input with ⟨hattempt, hread⟩ |
      ⟨found, rest, hattempt, hfound, hread⟩ | ⟨x, cmd, data, rest, hattempt, hx, hread, hcall⟩
    · rw [hattempt, hread]
      simp
    · have hlist : found.toList.filter accepts = [] := by
        rw [← Option.toList_filter, hfound]
        rfl
      rw [hattempt, hread]
      simp only
      rw [ih _ d rest hcommands, List.filter_append, hlist, List.nil_append]
    · rw [hattempt, hread]
      simp only
      rw [ih _ _ rest ((d.respond_commands cmd data).trans hcommands), d.respond_calls, ← hcall,
        Option.toList_some, List.singleton_append, List.filter_cons_of_pos hx, List.map_cons,
        List.append_assoc, List.singleton_append]

/-- From power-up the callbacks that run are those that the lines ask for, in their order,
exactly when no line hides a command behind skipped pieces. -/
theorem calls_eq_lineCalls_iff (stack : Nat → Nat → Byte) (stream : List Byte) (n : Nat)
    (hn : stream.length ≤ n) :
    (mainLoop stack n boot stream).1.calls = (reader.completeLines stream).filterMap lineCall ↔
      ∀ line ∈ reader.completeLines stream, ¬ HidesCommand line := by
  have hcalls : (mainLoop stack n boot stream).1.calls =
      (reader.completeLines stream).flatMap fun line =>
        ((reader.lineReads line).filter accepts).map callOf := by
    rw [mainLoop_calls stack n boot stream rfl, LineReader.attempts_eq n stream hn,
      List.filter_flatMap, List.map_flatMap]
    rfl
  rw [hcalls]
  exact LineReader.reads_eq_commands_iff callOf (reader.completeLines stream)

/-- The line `v`. -/
theorem calls_eq_lineCalls_iff_version :
    (mainLoop (fun _ _ => 0) 2 boot [code 'v', code '\n']).1.calls =
        (reader.completeLines [code 'v', code '\n']).filterMap lineCall ↔
      ∀ line ∈ reader.completeLines [code 'v', code '\n'], ¬ HidesCommand line :=
  calls_eq_lineCalls_iff (fun _ _ => 0) [code 'v', code '\n'] 2 (Nat.le_refl 2)

/-- The line `qv` is no command, and `v` runs. -/
theorem unknown_letter_runs :
    (mainLoop (fun _ _ => 0) 3 boot [code 'q', code 'v', code '\n']).1.calls = [(.checkVersion, [])] ∧
      (reader.completeLines [code 'q', code 'v', code '\n']).filterMap lineCall = [] := by
  constructor
  · rfl
  · decide

end KuznyechikDPA.SimpleSerial

import KuznyechikDPA.Firmware.SimpleSerial

/-!
# `simpleserial_get` for any program

The module does not look into its callbacks: a program brings its own type of them. The
Kuznyechik program is one of its programs.
-/

namespace KuznyechikDPA.SimpleSerial

variable {κ : Type}

/-- An entry of `commands`. -/
structure Cmd (κ : Type) where
  c : Byte
  len : Nat
  fp : κ

/-- The return code of `simpleserial_addcmd`, and the table after the call. -/
def addcmd (commands : List (Cmd κ)) (c : Byte) (len : Nat) (fp : κ) : Nat × List (Cmd κ) :=
  if 10 ≤ commands.length then (1, commands)
  else if 64 ≤ len then (1, commands)
  else (0, commands ++ [⟨c, len, fp⟩])

/-- `simpleserial_get` up to the callback. -/
def getCommand (commands : List (Cmd κ)) (data_buf : Nat → Byte) :
    List Byte → Option (Option (Cmd κ × (Nat → Byte)) × List Byte)
  | [] => none
  | c :: rest =>
    match commands.find? fun cmd => cmd.c == c with
    | none => some (none, rest)
    | some cmd =>
      match receive (2 * cmd.len) rest with
      | none => none
      | some (none, rest) => some (none, rest)
      | some (some _, []) => none
      | some (some ascii_buf, c :: rest) =>
        if isNewline c then
          some ((hexDecode cmd.len ascii_buf data_buf).map fun data => (cmd, data), rest)
        else some (none, rest)

/-- A command that has been read is one of the table. -/
theorem getCommand_mem {commands : List (Cmd κ)} {data_buf data : Nat → Byte} {input rest : List Byte}
    {cmd : Cmd κ} (h : getCommand commands data_buf input = some (some (cmd, data), rest)) :
    cmd ∈ commands := by
  rcases input with _ | ⟨c, input⟩
  · contradiction
  rw [getCommand] at h
  rcases hfind : commands.find? fun cmd => cmd.c == c with _ | found
  · rw [hfind] at h
    simp at h
  · have hmem := List.mem_of_find?_eq_some hfind
    rw [hfind] at h
    simp only at h
    split at h
    · contradiction
    · simp at h
    · contradiction
    · split at h
      · simp only [Option.some.injEq, Prod.mk.injEq, Option.map_eq_some_iff] at h
        obtain ⟨⟨_, _, rfl, _⟩, _⟩ := h
        exact hmem
      · simp at h

/-! ## The Kuznyechik program -/

def SsCmd.toCmd (cmd : SsCmd) : Cmd Callback := ⟨cmd.c, cmd.len, cmd.fp⟩

theorem getCommand_toCmd (commands : List SsCmd) (data_buf : Nat → Byte) (input : List Byte) :
    getCommand (commands.map SsCmd.toCmd) data_buf input =
      (readCommand commands data_buf input).map fun read =>
        (read.1.map fun found => (found.1.toCmd, found.2), read.2) := by
  rcases input with _ | ⟨c, input⟩
  · rfl
  have hfind : (commands.map SsCmd.toCmd).find? (fun cmd => cmd.c == c) =
      (findCmd commands c).map SsCmd.toCmd := List.find?_map ..
  rw [getCommand, readCommand, hfind]
  rcases findCmd commands c with _ | cmd
  · rfl
  rw [Option.map_some]
  have hlen : cmd.toCmd.len = cmd.len := rfl
  simp only [hlen]
  rcases receive (2 * cmd.len) input with _ | ⟨_ | ascii_buf, _ | ⟨e, rest⟩⟩
  · rfl
  · rfl
  · rfl
  · rfl
  simp only
  split
  · simp [Function.comp_def]
  · rfl

end KuznyechikDPA.SimpleSerial

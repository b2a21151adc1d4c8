import GuacamoleDiode.Parser.OpcodeParser

/-!
# The parser of the guard

The hooks of `GuardOpcodeParser`: an allowlist of opcodes, and a bound on what a
`blob` may carry. The parser remembers the stream index opened by `clipboard`; a
`blob` must name that index, and its payload is capped.
-/

namespace GuacamoleDiode

open Wire

/-- Maximum plaintext bytes of clipboard payload allowed inbound. -/
def maxInputBytes : ℕ := 50

/-- The on-wire cap, `MAX_INPUT_BYTES * 1.33f` cut to an integer: the payload arrives
base64-encoded. -/
def maxClipboardBytes : ℕ := maxInputBytes * 133 / 100

/-- `std::from_chars` on a 32-bit integer: an optional minus sign and the longest run of
digits. The value and the bytes behind it, or `none` without digits or out of range. -/
def fromChars (v : Bytes) : Option (ℤ × Bytes) :=
  let negative := v.head? = some 45
  let v := if negative then v.tail else v
  let digits := v.takeWhile isDigit
  let n : ℤ := if negative then -declared digits else declared digits
  if digits ≠ [] ∧ -2147483648 ≤ n ∧ n ≤ 2147483647 then some (n, v.dropWhile isDigit) else none

/-- Parses a stream index argument; -1 if it is not a clean, whole number. -/
def parseStreamIndex (arg : Bytes) : ℤ :=
  match fromChars arg with
  | some (idx, []) => idx
  | _ => -1

/-- The members that `GuardOpcodeParser` adds to its base. -/
structure GuardMembers where
  currentOpcode : Bytes := []
  /-- index of the open clipboard stream, or -1 if none -/
  clipboardSidx : ℤ := -1
  /-- 1-based position of the argument being parsed -/
  currentArg : ℕ := 0
  /-- the next argument is a clipboard blob payload -/
  capNextArg : Bool := false
  deriving DecidableEq, Repr

namespace GuardOpcodeParser

/-- The opcodes that may cross toward guacd. -/
def isAllowedOpcode (opcode : Bytes) : Bool :=
  match opcode.length with
  | 3 => opcode == ascii "key" || opcode == ascii "ack" || opcode == ascii "end"
  | 4 => opcode == ascii "blob" || opcode == ascii "size" || opcode == ascii "name" ||
      opcode == ascii "argv"
  | 5 => opcode == ascii "audio" || opcode == ascii "video" || opcode == ascii "image" ||
      opcode == ascii "mouse"
  | 6 => opcode == ascii "select"
  | 7 => opcode == ascii "connect"
  | 8 => opcode == ascii "timezone"
  | 9 => opcode == ascii "clipboard"
  | 10 => opcode == ascii "disconnect"
  | _ => false

/-- `OnInstructionBegin`: the per-instruction members are reset here. -/
def onInstructionBegin (instr : Bytes) (m : GuardMembers) : Bool × GuardMembers :=
  (isAllowedOpcode instr, { m with currentOpcode := instr, currentArg := 0, capNextArg := false })

/-- `OnArgument`. -/
def onArgument (arg : Bytes) (m : GuardMembers) : Bool × GuardMembers :=
  let m := { m with currentArg := m.currentArg + 1 }
  if m.capNextArg then (arg.length ≤ maxClipboardBytes, { m with capNextArg := false })
  -- the first argument of clipboard, blob and end is the stream index
  else if m.currentArg = 1 then
    let sidx := parseStreamIndex arg
    if m.currentOpcode = ascii "clipboard" then (true, { m with clipboardSidx := sidx })
    else if m.currentOpcode = ascii "blob" then
      if sidx < 0 ∨ sidx ≠ m.clipboardSidx then (false, m)
      else (true, { m with capNextArg := true })
    else if m.currentOpcode = ascii "end" ∧ sidx = m.clipboardSidx then
      (true, { m with clipboardSidx := -1 })
    else (true, m)
  else (true, m)

/-- The hooks of the guard. Oversized elements are not tolerated. -/
def hooks : Hooks GuardMembers where
  onInstructionBegin := onInstructionBegin
  onArgument := onArgument

/-- A fresh parser. -/
def fresh : OpcodeParser GuardMembers := { members := {} }

end GuardOpcodeParser

end GuacamoleDiode

import GuacamoleDiode.Lib.Wire
import GuacamoleDiode.Lib.Ranges

/-!
# The opcode parser

The framing state machine that every component shares. A parser reads a stream
in pieces, one `parse` call for each piece; the members survive from call to
call, while `denying` and `opcodeInThisCall` belong to one call. A subclass
supplies hooks that see each closed element and may deny the instruction; the
byte ranges of denied instructions are recorded for `excise`.

## Design notes

- `elementBuffer` lists the bytes that have been stored for the current element.
  The array of the source keeps stale bytes behind them, which no hook can see.
- `currentLength` is an unbounded integer. The parsers that corrupt the stream on
  an oversized element never take it past ten times their limit.
- `Parse` ignores the value that `OnInstructionEnd` returns, so the hook only
  changes the members of the subclass here. It may ask for the current index.
-/

namespace GuacamoleDiode

open Wire

/-- Size of the buffer that holds one element. -/
def maxElementSize : ℕ := 8192

/-- Every state of the opcode-parsing machine. -/
inductive ParserState where
  /-- reading the digits of an element's length -/
  | readingLength
  /-- reading the value bytes -/
  | readingData
  /-- expecting the comma or semicolon that closes the element -/
  | expectDelim
  /-- unparseable byte: the stream can no longer be trusted -/
  | streamCorrupted
  /-- a disallowed opcode or argument value -/
  | deniedData
  deriving DecidableEq, Repr

/-- The virtual functions of a parser class; `σ` holds the members of the subclass. -/
structure Hooks (σ : Type) where
  onInstructionBegin : Bytes → σ → Bool × σ := fun _ s => (true, s)
  onArgument : Bytes → σ → Bool × σ := fun _ s => (true, s)
  onInstructionEnd : ℕ → σ → σ := fun _ s => s
  toleratesOversizedElements : Bool := false

/-- The members of a parser, those of the subclass included. -/
structure OpcodeParser (σ : Type) where
  state : ParserState := .readingLength
  currentIndex : ℕ := 0
  currentLength : ℤ := -1
  currentRead : ℕ := 0
  readingOpcode : Bool := true
  elementBuffer : Bytes := []
  opcodeStartIdx : ℕ := 0
  deniedRanges : List (ℕ × ℕ) := []
  members : σ

/-- The local variables of one `parse` call. -/
structure Call where
  /-- inside a disallowed instruction whose bytes are skipped until its semicolon -/
  denying : Bool := false
  /-- the current instruction started in this call, so its start index is valid -/
  opcodeInThisCall : Bool := false
  deriving DecidableEq, Repr

/-- The end of one turn of the byte loop: go on with the next byte, or return. -/
inductive Turn (σ : Type) where
  | next (p : OpcodeParser σ) (l : Call)
  | ret (p : OpcodeParser σ)

variable {σ : Type}

namespace OpcodeParser

/-- The parser after a byte that makes the stream untrustworthy. -/
def corrupt (p : OpcodeParser σ) : OpcodeParser σ := { p with state := .streamCorrupted }

/-- A byte in state `readingLength`. -/
def readLength (H : Hooks σ) (i : ℕ) (c : UInt8) (p : OpcodeParser σ) (l : Call) : Turn σ :=
  if isDigit c then
    -- the first digit of an opcode marks where the instruction starts in the buffer
    let first := p.currentLength == -1
    let length := if first then 0 else p.currentLength
    let start := first && p.readingOpcode
    let p := { p with
      currentLength := length * 10 + digitValue c
      opcodeStartIdx := if start then i else p.opcodeStartIdx }
    let l := { l with opcodeInThisCall := l.opcodeInThisCall || start }
    if (maxElementSize : ℤ) < p.currentLength ∧ H.toleratesOversizedElements = false then
      .ret p.corrupt
    else .next p l
  else if c = dot then
    if p.currentLength = -1 then .ret p.corrupt
    else .next { p with
      currentRead := 0
      elementBuffer := []
      state := if p.currentLength = 0 then .expectDelim else .readingData } l
  else .ret p.corrupt

/-- A byte in state `readingData`. Only the first `maxElementSize` bytes of an
element are stored, and only those are checked to be ASCII. -/
def readData (c : UInt8) (p : OpcodeParser σ) (l : Call) : Turn σ :=
  if p.currentRead < maxElementSize ∧ 127 < c then .ret p.corrupt
  else .next { p with
    elementBuffer :=
      if p.currentRead < maxElementSize then p.elementBuffer ++ [c] else p.elementBuffer
    currentRead := p.currentRead + 1
    state := if (p.currentRead + 1 : ℤ) = p.currentLength then .expectDelim else p.state } l

/-- The element that a delimiter closes, as the hooks see it. -/
def element (p : OpcodeParser σ) : Bytes :=
  p.elementBuffer.take (min p.currentLength maxElementSize).toNat

/-- Hand the closed element to the hook that is in charge of it. -/
def callHook (H : Hooks σ) (p : OpcodeParser σ) : Bool × σ :=
  if p.readingOpcode then H.onInstructionBegin p.element p.members
  else H.onArgument p.element p.members

/-- The end of state `expectDelim`, once the element has been judged. -/
def closeElement (H : Hooks σ) (i : ℕ) (c : UInt8) (p : OpcodeParser σ) (l : Call) : Turn σ :=
  let p := { p with currentLength := -1, state := .readingLength }
  if c = semicolon then
    if l.denying then
      .next { p with
        deniedRanges := p.deniedRanges ++ [(p.opcodeStartIdx, i - p.opcodeStartIdx + 1)]
        readingOpcode := true } { l with denying := false }
    else .next { p with members := H.onInstructionEnd i p.members, readingOpcode := true } l
  else .next p l

/-- A byte in state `expectDelim`. -/
def expectDelim (H : Hooks σ) (i : ℕ) (c : UInt8) (p : OpcodeParser σ) (l : Call) : Turn σ :=
  if c ≠ comma ∧ c ≠ semicolon then .ret p.corrupt
  else if l.denying then p.closeElement H i c l
  else
    let verdict := p.callHook H
    let p := { p with members := verdict.2 }
    if verdict.1 then { p with readingOpcode := false }.closeElement H i c l
    -- the head of an instruction from an earlier call has been forwarded already
    else if l.opcodeInThisCall = false then .ret p.corrupt
    else { p with readingOpcode := false }.closeElement H i c { l with denying := true }

/-- One turn of the byte loop. -/
def turn (H : Hooks σ) (i : ℕ) (c : UInt8) (p : OpcodeParser σ) (l : Call) : Turn σ :=
  match p.state with
  | .readingLength => { p with currentIndex := i }.readLength H i c l
  | .readingData => { p with currentIndex := i }.readData c l
  | .expectDelim => { p with currentIndex := i }.expectDelim H i c l
  | .streamCorrupted => .ret { p with currentIndex := i }
  | .deniedData => .ret { p with currentIndex := i }

/-- What `parse` returns once every byte has been read. -/
def finish (p : OpcodeParser σ) (l : Call) : ParserState × OpcodeParser σ :=
  if l.denying then (.streamCorrupted, p.corrupt)
  else if p.deniedRanges ≠ [] then (.deniedData, p)
  else (p.state, p)

/-- The byte loop from index `i` on. -/
def parseFrom (H : Hooks σ) : ℕ → Bytes → OpcodeParser σ → Call → ParserState × OpcodeParser σ
  | _, [], p, l => p.finish l
  | i, c :: cs, p, l =>
    match p.turn H i c l with
    | .next p l => parseFrom H (i + 1) cs p l
    | .ret p => (p.state, p)

/-- `OpcodeParser::Parse`: the returned state and the parser afterwards. -/
def parse (H : Hooks σ) (p : OpcodeParser σ) (data : Bytes) : ParserState × OpcodeParser σ :=
  parseFrom H 0 data { p with deniedRanges := [] } {}

/-- `OpcodeParser::Reset`: back to a clean instruction boundary. -/
def reset (p : OpcodeParser σ) : OpcodeParser σ :=
  { p with
    state := .readingLength
    currentIndex := 0
    currentLength := -1
    currentRead := 0
    readingOpcode := true
    opcodeStartIdx := 0
    deniedRanges := [] }

/-- The pointers of the compaction in `Excise`. -/
structure Compaction where
  data : Bytes
  write : ℕ := 0
  read : ℕ := 0

/-- One denied range of the compaction loop. -/
def Compaction.skip (st : Compaction) (range : ℕ × ℕ) : Compaction :=
  let keep := range.1 - st.read
  { data := if st.write ≠ st.read then Ranges.memmove st.data st.write st.read keep else st.data
    write := st.write + keep
    read := range.1 + range.2 }

/-- `OpcodeParser::Excise`: the buffer afterwards, its new length and the parser. -/
def excise (p : OpcodeParser σ) (data : Bytes) (len : ℕ) : Bytes × ℕ × OpcodeParser σ :=
  if p.deniedRanges = [] then (data, len, p)
  else
    let st := p.deniedRanges.foldl Compaction.skip { data := data }
    let data :=
      if st.write ≠ st.read then Ranges.memmove st.data st.write st.read (len - st.read)
      else st.data
    (data, st.write + (len - st.read), { p with deniedRanges := [] })

end OpcodeParser

end GuacamoleDiode

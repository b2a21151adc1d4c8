import GuacamoleDiode.Parser.Morphism

/-!
# The framer and the grammar

The parser without a policy accepts the beginnings of instruction sequences and nothing else,
however the stream is cut into calls. What its hooks are told is the decoding of the elements
that have been closed, and it rests at a clean boundary behind whole instructions only.

## Main definitions

- `BaseParser.hooks`: the hooks of the base class, which allow everything
- `Recorder.hooks`: the same hooks with a record of the calls
- `decode`: the calls that a stream amounts to
- `OpcodeParser.parseAll`, `OpcodeParser.writesAll`: one call for each piece of a stream, and the
  writes to the element buffer

## Main results

- `Recorder.framing`
-/

namespace GuacamoleDiode

open Wire

/-- A call of one of the virtual functions. -/
inductive HookCall where
  | onInstructionBegin (opcode : Bytes)
  | onArgument (arg : Bytes)
  | onInstructionEnd
  deriving DecidableEq, Repr

/-- The hooks of `OpcodeParser` itself. -/
def BaseParser.hooks : Hooks Unit := {}

/-- An `OpcodeParser` in front of its first byte. -/
def BaseParser.fresh : OpcodeParser Unit := { members := () }

/-- The same hooks, with a record of the calls, oldest first. -/
def Recorder.hooks : Hooks (List HookCall) where
  onInstructionBegin opcode calls := (true, calls ++ [.onInstructionBegin opcode])
  onArgument arg calls := (true, calls ++ [.onArgument arg])
  onInstructionEnd _ calls := calls ++ [.onInstructionEnd]

/-- A recording parser in front of its first byte. -/
def Recorder.fresh : OpcodeParser (List HookCall) where
  members := []

variable {limit : ℕ}

/-- The calls for the closed elements of one instruction. -/
def elementCalls : List (Element limit) → List HookCall
  | [] => []
  | opcode :: args => .onInstructionBegin opcode.value :: args.map fun arg => .onArgument arg.value

/-- The calls for a whole instruction. -/
def instructionCalls (i : Instruction limit) : List HookCall :=
  elementCalls i.elements ++ [.onInstructionEnd]

/-- The calls for whole instructions and the closed elements behind them. -/
def callsOf (is : List (Instruction limit)) (cur : Cursor limit) : List HookCall :=
  is.flatMap instructionCalls ++ elementCalls cur.closed

/-- The calls that a stream amounts to, if it is the beginning of an instruction sequence. -/
def decode (w : Bytes) : Option (List HookCall) :=
  ((Cursor.start : Cursor maxElementSize).read w).map fun r => callsOf r.1 r.2

theorem decode_eq_some_iff {w : Bytes} {calls : List HookCall} : decode w = some calls ↔
    ∃ (is : List (Instruction maxElementSize)) (cur : Cursor maxElementSize),
      w = wire is ++ cur.bytes ∧ callsOf is cur = calls := by
  simp only [decode, Option.map_eq_some_iff, Prod.exists, Cursor.read_start_eq_some_iff]

theorem elementCalls_snoc (es : List (Element limit)) (e : Element limit) :
    elementCalls (es ++ [e]) = elementCalls es ++
      [if es.isEmpty = true then .onInstructionBegin e.value else .onArgument e.value] := by
  cases es with
  | nil => rfl
  | cons e' es => simp [elementCalls]

theorem callsOf_snoc (is : List (Instruction limit)) (i : Instruction limit) :
    callsOf (is ++ [i]) .start = is.flatMap instructionCalls ++ instructionCalls i := by
  simp [callsOf, elementCalls, Cursor.start]

namespace OpcodeParser

variable {σ : Type}

/-- One call of `parse` for each piece of a stream. -/
def parseAll (H : Hooks σ) (p : OpcodeParser σ) (pieces : List Bytes) : OpcodeParser σ :=
  pieces.foldl (fun p data => (p.parse H data).2) p

/-- The index of the element buffer that a byte is written to, and the number of bytes of the
element that the buffer holds already. -/
def write (p : OpcodeParser σ) (c : UInt8) : Option (ℕ × ℕ) :=
  if p.state = .readingData ∧ p.currentRead < maxElementSize ∧ c ≤ 127 then
    some (p.currentRead, p.elementBuffer.length)
  else none

/-- The writes of the byte loop from index `i` on. -/
def writesFrom (H : Hooks σ) : ℕ → Bytes → OpcodeParser σ → Call → List (ℕ × ℕ)
  | _, [], _, _ => []
  | i, c :: cs, p, l => (p.write c).toList ++
    match p.turn H i c l with
    | .next p l => writesFrom H (i + 1) cs p l
    | .ret _ => []

/-- The writes of one call of `parse`. -/
def writes (H : Hooks σ) (p : OpcodeParser σ) (data : Bytes) : List (ℕ × ℕ) :=
  writesFrom H 0 data { p with deniedRanges := [] } {}

/-- The writes of all calls. -/
def writesAll (H : Hooks σ) : OpcodeParser σ → List Bytes → List (ℕ × ℕ)
  | _, [] => []
  | p, data :: pieces => p.writes H data ++ writesAll H (p.parse H data).2 pieces

/-- A write goes right behind the bytes that the buffer holds, and stays inside. -/
def InBounds (writes : List (ℕ × ℕ)) : Prop := ∀ x ∈ writes, x.1 < maxElementSize ∧ x.1 = x.2

section

variable {p : OpcodeParser σ} {cur : Cursor limit} {H : Hooks σ}

/-- A tracked parser has stored what it has read of the element, as far as it fits. -/
theorem Tracks.inBounds_write (h : p.Tracks cur) (c : UInt8) : InBounds (p.write c).toList := by
  intro x hx
  rw [write] at hx
  split_ifs at hx with hwrite
  · obtain rfl : x = (p.currentRead, p.elementBuffer.length) := by simpa using hx
    obtain ⟨hstate, hlt, -⟩ := hwrite
    refine ⟨hlt, ?_⟩
    obtain ⟨closed, part⟩ := cur
    obtain ⟨-, hpart⟩ := h
    cases part with
    | length digits hd hle => cases hstate.symm.trans hpart.1
    | delim e => cases hstate.symm.trans hpart.1
    | data digits value hd hle hm ha =>
      obtain ⟨-, -, hread, hbuf⟩ := hpart
      show p.currentRead = p.elementBuffer.length
      rw [hbuf, List.length_take, hread]
      omega
  · cases hx

/-- The resting state of a tracked parser tells whether an instruction has been begun. -/
theorem Tracks.rests_iff (h : p.Tracks cur) :
    (p.state = .readingLength ∧ p.currentLength = -1 ∧ p.readingOpcode = true) ↔ cur = .start := by
  obtain ⟨closed, part⟩ := cur
  obtain ⟨hopcode, hpart⟩ := h
  constructor
  · rintro ⟨hstate, hlength, hreading⟩
    cases part with
    | length digits hd hle =>
      have hclosed : closed = [] := by simpa [hreading] using hopcode.symm
      have hdigits : digits = [] := by
        by_contra hne
        have hval : (-1 : ℤ) = declared digits := by
          rw [← hlength, hpart.2, if_neg hne]
        omega
      subst hclosed hdigits
      rfl
    | data digits value hd hle hm ha => cases hstate.symm.trans hpart.1
    | delim e => cases hstate.symm.trans hpart.1
  · intro heq
    cases heq
    exact ⟨hpart.1, hpart.2, hopcode⟩

/-- Without a denial, a call returns the state that it leaves. -/
theorem finish_of_clean {l : Call} (h : l.denying = false) : (p.finish l).2 = p := by
  unfold finish
  rw [if_neg (by simp [h])]
  split_ifs <;> rfl

/-- A corrupted parser stays corrupted, and writes nothing. -/
theorem corrupted_parse (h : p.state = .streamCorrupted) (data : Bytes) :
    (p.parse H data).2.state = .streamCorrupted ∧ p.writes H data = [] := by
  cases data with
  | nil => exact ⟨h, rfl⟩
  | cons c data =>
    have hturn : OpcodeParser.turn H 0 c { p with deniedRanges := [] } {} =
        .ret { p with deniedRanges := [], currentIndex := 0 } := by
      simp only [turn, h]
    have hwrite : OpcodeParser.write { p with deniedRanges := [] } c = none := by
      simp [write, h]
    rw [parse, writes, parseFrom, writesFrom, hturn, hwrite]
    exact ⟨h, rfl⟩

theorem corrupted_parseAll (h : p.state = .streamCorrupted) (pieces : List Bytes) :
    (p.parseAll H pieces).state = .streamCorrupted ∧ p.writesAll H pieces = [] := by
  induction pieces generalizing p with
  | nil => exact ⟨h, rfl⟩
  | cons data pieces ih =>
    obtain ⟨hstate, hwrites⟩ := corrupted_parse (H := H) h data
    obtain ⟨hstate', hwrites'⟩ := ih hstate
    exact ⟨hstate', by rw [writesAll, hwrites, hwrites', List.append_nil]⟩

end

end OpcodeParser

namespace Hooks.Morphism

open OpcodeParser

variable {σ τ : Type} {H : Hooks σ} {K : Hooks τ} {f : σ → τ}

theorem parseAll (h : H.Morphism K f) (p : OpcodeParser σ) (pieces : List Bytes) :
    (p.map f).parseAll K pieces = (p.parseAll H pieces).map f := by
  induction pieces generalizing p with
  | nil => rfl
  | cons data pieces ih =>
    show ((p.map f).parse K data).2.parseAll K pieces = _
    rw [h.parse]
    exact ih (p.parse H data).2

theorem writesFrom (h : H.Morphism K f) (data : Bytes) (i : ℕ) (p : OpcodeParser σ) (l : Call) :
    (p.map f).writesFrom K i data l = p.writesFrom H i data l := by
  induction data generalizing i p l with
  | nil => rfl
  | cons c data ih =>
    unfold OpcodeParser.writesFrom
    rw [h.turn]
    cases p.turn H i c l with
    | next p' l' => exact congrArg _ (ih (i + 1) p' l')
    | ret p' => rfl

theorem writesAll (h : H.Morphism K f) (p : OpcodeParser σ) (pieces : List Bytes) :
    (p.map f).writesAll K pieces = p.writesAll H pieces := by
  induction pieces generalizing p with
  | nil => rfl
  | cons data pieces ih =>
    have hwrites : (p.map f).writes K data = p.writes H data :=
      h.writesFrom data 0 { p with deniedRanges := [] } {}
    rw [OpcodeParser.writesAll, OpcodeParser.writesAll, hwrites, h.parse, ih]

end Hooks.Morphism

namespace Recorder

open OpcodeParser

/-- The record does not disturb the parser. -/
theorem erases : hooks.Morphism BaseParser.hooks fun _ => () where
  onInstructionBegin _ _ := rfl
  onArgument _ _ := rfl
  onInstructionEnd _ _ := rfl
  tolerates := rfl

/-- The parser behind the whole instructions `is`, inside `cur`. -/
structure Framed (p : OpcodeParser (List HookCall)) (is : List (Instruction maxElementSize))
    (cur : Cursor maxElementSize) : Prop where
  tracks : p.Tracks cur
  calls : p.members = callsOf is cur

variable {p : OpcodeParser (List HookCall)} {is is' : List (Instruction maxElementSize)}
  {cur cur' : Cursor maxElementSize} {c : UInt8} {l : Call}

theorem allows : hooks.Allows := ⟨fun _ _ => rfl, fun _ _ => rfl⟩

/-- The record grows by the calls for the elements. -/
theorem judge_eq (calls : List HookCall) (es : List (Element maxElementSize)) :
    hooks.judge calls (seen es) = (calls ++ elementCalls es, false) := by
  induction es using List.reverseRecOn with
  | nil => rw [seen_nil, Hooks.judge_nil, elementCalls, List.append_nil]
  | append_singleton es e ih =>
    have hvalue : seen [e] = [e.value] := seen_eq_map le_rfl [e]
    rw [seen_append, hvalue, Hooks.judge_append_singleton, ih, isEmpty_seen, elementCalls_snoc,
      ← List.append_assoc]
    cases es with
    | nil => rfl
    | cons e' es => rfl

theorem Framed.session (h : Framed p is cur) :
    Session hooks (is.flatMap instructionCalls) cur p := by
  refine ⟨h.tracks, ?_⟩
  rw [judge_eq, h.calls]
  rfl

/-- A byte that the grammar allows inside an instruction. -/
theorem Framed.more (h : Framed p is cur) (hl : l.denying = false)
    (hf : cur.feed c = some (.more cur')) (i : ℕ) :
    ∃ p' l', p.turn hooks i c l = .next p' l' ∧ l'.denying = false ∧ Framed p' is cur' := by
  obtain ⟨p', l', hturn, hl', hsession⟩ := h.session.turn_more allows hl (.inl le_rfl) hf i
  have hjudged := hsession.judged
  rw [judge_eq] at hjudged
  exact ⟨p', l', hturn, hl', hsession.tracks, (Prod.mk.inj hjudged).1.symm⟩

/-- The semicolon of an instruction. -/
theorem Framed.done (h : Framed p is cur) (hl : l.denying = false) {i : Instruction maxElementSize}
    (hf : cur.feed c = some (.done i)) (k : ℕ) :
    ∃ p' l', p.turn hooks k c l = .next p' l' ∧ l'.denying = false ∧ Framed p' (is ++ [i]) .start := by
  obtain ⟨p', l', hturn, hl', htracks, hmembers⟩ := h.session.turn_end allows hl hf k
  refine ⟨p', l', hturn, hl', htracks, ?_⟩
  rw [hmembers, judge_eq, callsOf_snoc]
  exact List.append_assoc ..

/-- What has become of a parser behind `is` once the rest of the stream has been read, or could
not be read. -/
def Follows (is : List (Instruction maxElementSize))
    (r : Option (List (Instruction maxElementSize) × Cursor maxElementSize))
    (p : OpcodeParser (List HookCall)) : Prop :=
  match r with
  | some (is', cur) => Framed p (is ++ is') cur
  | none => p.state = .streamCorrupted

theorem follows_map {i : Instruction maxElementSize}
    {r : Option (List (Instruction maxElementSize) × Cursor maxElementSize)} :
    Follows is (r.map fun q => (i :: q.1, q.2)) p ↔ Follows (is ++ [i]) r p := by
  cases r with
  | none => rfl
  | some q => simp [Follows]

/-- The byte loop reads on as long as the stream stays inside the grammar, and stops at the
first byte that leaves it. -/
theorem Framed.loop (h : Framed p is cur) (hl : l.denying = false) (w : Bytes) (i : ℕ) :
    Follows is (cur.read w) (parseFrom hooks i w p l).2 ∧ InBounds (writesFrom hooks i w p l) := by
  induction w generalizing is cur p l i with
  | nil =>
    rw [Cursor.read_nil, Follows, List.append_nil, parseFrom, finish_of_clean hl]
    exact ⟨h, by simp [writesFrom, InBounds]⟩
  | cons c w ih =>
    have hwrite := h.tracks.inBounds_write c
    have hnext : ∀ {is₁ cur₁ p₁ l₁}, p.turn hooks i c l = .next p₁ l₁ → l₁.denying = false →
        Framed p₁ is₁ cur₁ →
        Follows is₁ (cur₁.read w) (parseFrom hooks i (c :: w) p l).2 ∧
          InBounds (writesFrom hooks i (c :: w) p l) := by
      intro is₁ cur₁ p₁ l₁ hturn hl₁ h₁
      obtain ⟨hfollows, hwrites⟩ := ih h₁ hl₁ (i + 1)
      rw [parseFrom, writesFrom, hturn]
      refine ⟨hfollows, fun x hx => ?_⟩
      rcases List.mem_append.mp hx with hx | hx
      · exact hwrite x hx
      · exact hwrites x hx
    cases hf : cur.feed c with
    | none =>
      obtain ⟨p', hturn, hstate, -⟩ := h.tracks.turn_none (H := hooks) rfl hf i l
      rw [Cursor.read_cons_none hf, parseFrom, writesFrom, hturn]
      exact ⟨hstate, by simpa using hwrite⟩
    | some fed =>
      cases fed with
      | more cur₁ =>
        obtain ⟨p₁, l₁, hturn, hl₁, h₁⟩ := h.more hl hf i
        rw [Cursor.read_cons_more hf]
        exact hnext hturn hl₁ h₁
      | done instruction =>
        obtain ⟨p₁, l₁, hturn, hl₁, h₁⟩ := h.done hl hf i
        rw [Cursor.read_cons_done hf, follows_map]
        exact hnext hturn hl₁ h₁

/-- What was denied in earlier calls has no bearing on the framing. -/
theorem Framed.clear (h : Framed p is cur) : Framed { p with deniedRanges := [] } is cur :=
  ⟨h.tracks, h.calls⟩

/-- The calls of `parse` for the pieces of a stream read it as one. -/
theorem Framed.parseAll (h : Framed p is cur) (pieces : List Bytes) :
    Follows is (cur.read pieces.flatten) (p.parseAll hooks pieces) ∧
      InBounds (p.writesAll hooks pieces) := by
  induction pieces generalizing is cur p with
  | nil =>
    rw [List.flatten_nil, Cursor.read_nil, Follows, List.append_nil]
    exact ⟨h, nofun⟩
  | cons data pieces ih =>
    have hloop : Follows is (cur.read data) (p.parse hooks data).2 ∧ InBounds (p.writes hooks data) :=
      h.clear.loop (l := {}) rfl data 0
    obtain ⟨hfollows, hwrites⟩ := hloop
    have hparse : p.parseAll hooks (data :: pieces) = (p.parse hooks data).2.parseAll hooks pieces := rfl
    rw [List.flatten_cons, Cursor.read_append, hparse, writesAll]
    cases hr : cur.read data with
    | none =>
      rw [hr] at hfollows
      obtain ⟨hstate, hnone⟩ := corrupted_parseAll (H := hooks) hfollows pieces
      refine ⟨hstate, ?_⟩
      rw [hnone, List.append_nil]
      exact hwrites
    | some r =>
      obtain ⟨is₁, cur₁⟩ := r
      rw [hr] at hfollows
      obtain ⟨hrest, hwrites'⟩ := ih hfollows
      refine ⟨?_, fun x hx => ?_⟩
      · rw [Option.bind_some]
        cases hr₂ : cur₁.read pieces.flatten with
        | none =>
          rw [hr₂] at hrest
          exact hrest
        | some q =>
          rw [hr₂] at hrest
          show Framed _ (is ++ (is₁ ++ q.1)) q.2
          rw [← List.append_assoc]
          exact hrest
      · rcases List.mem_append.mp hx with hx | hx
        · exact hwrites x hx
        · exact hwrites' x hx

theorem framed_fresh : Framed fresh [] .start := ⟨tracks_start _, rfl⟩

/-- However a stream is cut into calls: the parser corrupts it if and only if it is not the
beginning of an instruction sequence; otherwise its hooks have been told what the stream decodes
to. It rests at a clean boundary if and only if the stream consists of whole instructions. All
writes stay inside the element buffer, each right behind the bytes of the element before it. -/
theorem framing (pieces : List Bytes) :
    let w := pieces.flatten
    let p := BaseParser.fresh.parseAll BaseParser.hooks pieces
    (p.state = .streamCorrupted ↔ ¬∃ is : List (Instruction maxElementSize), w <+: wire is) ∧
    (p.state ≠ .streamCorrupted → decode w = some (fresh.parseAll hooks pieces).members) ∧
    (p.state = .readingLength ∧ p.currentLength = -1 ∧ p.readingOpcode = true ↔
      ∃ is : List (Instruction maxElementSize), w = wire is) ∧
    InBounds (BaseParser.fresh.writesAll BaseParser.hooks pieces) := by
  intro w p₀
  have herased : p₀ = (fresh.parseAll hooks pieces).map fun _ => () := erases.parseAll fresh pieces
  have hwritten : BaseParser.fresh.writesAll BaseParser.hooks pieces = fresh.writesAll hooks pieces :=
    erases.writesAll fresh pieces
  obtain ⟨hfollows, hwrites⟩ := framed_fresh.parseAll pieces
  rw [herased, hwritten]
  generalize fresh.parseAll hooks pieces = p at hfollows ⊢
  show (p.state = .streamCorrupted ↔ _) ∧ (p.state ≠ .streamCorrupted → _) ∧
    (p.state = .readingLength ∧ p.currentLength = -1 ∧ p.readingOpcode = true ↔ _) ∧ _
  rw [← Cursor.exists_read_iff]
  cases hr : (Cursor.start : Cursor maxElementSize).read w with
  | none =>
    have hcorrupted : p.state = .streamCorrupted := by
      rw [hr] at hfollows
      exact hfollows
    refine ⟨iff_of_true hcorrupted (by simp), fun hne => absurd hcorrupted hne, ?_, hwrites⟩
    refine iff_of_false (fun hrests => ?_) ?_
    · cases hcorrupted.symm.trans hrests.1
    · rintro ⟨is, hw⟩
      rw [hw, Cursor.read_wire] at hr
      cases hr
  | some r =>
    obtain ⟨is, cur⟩ := r
    rw [hr] at hfollows
    have hframed : Framed p is cur := hfollows
    refine ⟨iff_of_false hframed.tracks.state_ne.1 (by simp), fun _ => ?_, ?_, hwrites⟩
    · rw [decode, hr, Option.map_some, hframed.calls]
    · rw [hframed.tracks.rests_iff]
      constructor
      · rintro rfl
        exact ⟨is, by simpa using Cursor.read_start_eq_some_iff.mp hr⟩
      · rintro ⟨js, hw⟩
        rw [hw, Cursor.read_wire] at hr
        cases hr
        rfl

end Recorder

end GuacamoleDiode

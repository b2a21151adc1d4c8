import GuacamoleDiode.Gmlbroker.HandshakeForger
import GuacamoleDiode.Parser.Framing
import GuacamoleDiode.Parser.Observer

/-!
# The replies of the forger

What the forger writes back depends on the instructions that the stream completes before a byte
leaves the grammar, and not on how the stream is cut. Each `select` is answered with one
instruction and each `connect` with five, whatever the client has sent as its size.

## Main definitions

- `HandshakeForger.makeFakeId`: the id of a `ready`
- `HandshakeForger.feedAll`: the replies to all pieces of a stream
- `HandshakeForger.answers`: the opcodes of the answer to one instruction

## Main results

- `HandshakeForger.replies_well_formed`
-/

namespace GuacamoleDiode

open Wire

namespace HandshakeForger

/-- A turn of the loop of `make_fake_id`. -/
def appendDigit (draw : ℕ → Fin 16) (id : Bytes) (i : ℕ) : Bytes :=
  let id := if i = 8 ∨ i = 12 ∨ i = 16 ∨ i = 20 then id ++ ascii "-" else id
  id ++ [(ascii "0123456789abcdef").getD (draw i) 0]

/-- `make_fake_id`. The digits are those that the random generator draws. -/
def makeFakeId (draw : ℕ → Fin 16) : Bytes := (List.range 32).foldl (appendDigit draw) (ascii "$")

/-- `Feed` for each piece of a stream: all replies, and the forger. -/
def feedAll (ids : ℕ → Bytes) : HandshakeForger → List Bytes → Bytes × HandshakeForger
  | f, [] => ([], f)
  | f, data :: pieces =>
    let r := f.feed ids data
    let q := feedAll ids r.2 pieces
    (r.1 ++ q.1, q.2)

/-- The opcodes of the answer to an instruction. -/
def answers {limit : ℕ} (i : Instruction limit) : List Bytes :=
  if i.opcode = ascii "select" then [ascii "args"]
  else if i.opcode = ascii "connect" then ["ready", "size", "rect", "cfill", "sync"].map ascii
  else []

/-- The calls of the hooks for one instruction with the given elements. -/
def callsFor : List Bytes → List HookCall
  | [] => []
  | opcode :: args => .onInstructionBegin opcode :: args.map .onArgument ++ [.onInstructionEnd]

-- ════════════════════════════════════════════════════════════════════════
-- Single instructions
-- ════════════════════════════════════════════════════════════════════════

section

variable {limit : ℕ}

/-- `instr` writes an instruction of the grammar. -/
theorem encode_ofValues (vs : List Bytes) (hne : vs ≠ []) (h : ∀ v ∈ vs, Fits limit v) :
    (Instruction.ofValues vs hne h).encode = instr vs := by
  have hbody : ∀ v (hv : Fits limit v), (Element.ofValue v hv).body = decimal v.length ++ dot :: v :=
    fun _ _ => rfl
  show encodeElements (vs.pmap Element.ofValue h) = _
  clear hne
  induction vs with
  | nil => rfl
  | cons v vs ih =>
    have hrest := ih fun w hw => h w (List.mem_cons_of_mem v hw)
    cases vs with
    | nil => rfl
    | cons w vs =>
      rw [instr, ← hrest]
      rfl

theorem exists_instruction {vs : List Bytes} (hne : vs ≠ []) (h : ∀ v ∈ vs, Fits limit v) :
    ∃ i : Instruction limit, i.encode = instr vs ∧ i.values = vs :=
  ⟨.ofValues vs hne h, encode_ofValues vs hne h, Instruction.values_ofValues vs hne h⟩

theorem opcode_of_values {i : Instruction limit} {opcode : Bytes} {args : List Bytes}
    (h : i.values = opcode :: args) : i.opcode = opcode := by
  obtain ⟨args', hcons⟩ := i.values_eq_cons
  exact (List.cons.inj (hcons.symm.trans h)).1

/-- The hooks are told the elements of an instruction. -/
theorem instructionCalls_eq (i : Instruction limit) : instructionCalls i = callsFor i.values := by
  obtain ⟨elements, hne⟩ := i
  cases elements with
  | nil => exact absurd rfl hne
  | cons e es => simp [instructionCalls, elementCalls, callsFor, Instruction.values, Function.comp_def]

end

/-- The base parser reads back what `instr` has written, and rests at a boundary. -/
theorem parseAll_instr {elems : List Bytes} (h : ∀ e ∈ elems, Fits maxElementSize e)
    {pieces : List Bytes} (hpieces : pieces.flatten = instr elems) :
    let p := Recorder.fresh.parseAll Recorder.hooks pieces
    p.members = callsFor elems ∧ p.AtBoundary := by
  intro p
  obtain ⟨is, hwire, hcalls⟩ : ∃ is : List (Instruction maxElementSize),
      instr elems = wire is ∧ is.flatMap instructionCalls = callsFor elems := by
    cases elems with
    | nil => exact ⟨[], rfl, rfl⟩
    | cons e es =>
      obtain ⟨i, hencode, hvalues⟩ := exists_instruction (List.cons_ne_nil e es) h
      refine ⟨[i], ?_, ?_⟩
      · rw [wire_cons, wire_nil, List.append_nil, hencode]
      · rw [List.flatMap_singleton, instructionCalls_eq, hvalues]
  have hread := (Recorder.framed_fresh.parseAll pieces).1
  rw [hpieces, hwire, Cursor.read_wire] at hread
  have hframed : Recorder.Framed p is .start := hread
  refine ⟨?_, hframed.tracks.2.1, hframed.tracks.2.2, hframed.tracks.1⟩
  rw [← hcalls, hframed.calls]
  simp [callsOf, elementCalls, Cursor.start]

-- ════════════════════════════════════════════════════════════════════════
-- The answer to an instruction
-- ════════════════════════════════════════════════════════════════════════

/-- A turn adds a digit, and perhaps a dash. -/
theorem fits_appendDigit (draw : ℕ → Fin 16) {id : Bytes} {n : ℕ} (h : Fits n id) (i : ℕ) :
    Fits (n + 2) (appendDigit draw id i) := by
  have hdigit : ∀ k : Fin 16, Fits 1 [(ascii "0123456789abcdef").getD k 0] := by decide +kernel
  have hdash : Fits 1 (ascii "-") := by decide +kernel
  rw [appendDigit]
  split_ifs
  · exact (h.append hdash).append (hdigit (draw i))
  · exact (h.append (hdigit (draw i))).mono (Nat.le_succ _)

/-- The ids of the forger fit into an element. -/
theorem fits_makeFakeId (draw : ℕ → Fin 16) : Fits maxElementSize (makeFakeId draw) := by
  have hloop : ∀ (is : List ℕ) (n : ℕ) (id : Bytes), Fits n id →
      Fits (n + 2 * is.length) (is.foldl (appendDigit draw) id) := by
    intro is
    induction is with
    | nil => exact fun n id h => h
    | cons i is ih =>
      intro n id h
      have hrest := ih (n + 2) (appendDigit draw id i) (fits_appendDigit draw h i)
      rw [List.foldl_cons, List.length_cons]
      exact hrest.mono (by omega)
  have hdollar : Fits 1 (ascii "$") := by decide +kernel
  exact (hloop (List.range 32) 1 (ascii "$") hdollar).mono (by decide)

/-- Instructions with the given opcodes. -/
def Answer (w : Bytes) (opcodes : List Bytes) : Prop :=
  ∃ rs : List (Instruction maxElementSize), w = wire rs ∧ rs.map Instruction.opcode = opcodes

theorem answer_nil : Answer [] [] := ⟨[], rfl, rfl⟩

theorem Answer.append {u w : Bytes} {os os' : List Bytes} (hu : Answer u os) (hw : Answer w os') :
    Answer (u ++ w) (os ++ os') := by
  obtain ⟨rs, rfl, rfl⟩ := hu
  obtain ⟨rs', rfl, rfl⟩ := hw
  exact ⟨rs ++ rs', (wire_append rs rs').symm, List.map_append⟩

theorem answer_instr {opcode : Bytes} {args : List Bytes}
    (h : ∀ v ∈ opcode :: args, Fits maxElementSize v) : Answer (instr (opcode :: args)) [opcode] := by
  obtain ⟨i, hencode, hvalues⟩ := exists_instruction (List.cons_ne_nil opcode args) h
  refine ⟨[i], ?_, ?_⟩
  · rw [wire_cons, wire_nil, List.append_nil, hencode]
  · rw [List.map_singleton, opcode_of_values hvalues]

/-- A canned reply is one instruction. -/
theorem answer_of_read {w : Bytes} {opcodes : List Bytes}
    (h : ((Cursor.start : Cursor maxElementSize).read w).map
      (fun r => (r.1.map Instruction.opcode, r.2.bytes)) = some (opcodes, [])) : Answer w opcodes := by
  obtain ⟨⟨is, cur⟩, hread, heq⟩ := Option.map_eq_some_iff.mp h
  obtain ⟨hopcodes, hbytes⟩ := Prod.mk.inj heq
  have hw := Cursor.read_bytes hread
  rw [Cursor.bytes_start, List.nil_append, hbytes, List.append_nil] at hw
  exact ⟨is, hw, hopcodes⟩

theorem answer_cannedArgs (m : ForgerMembers) : Answer (cannedArgs m) [ascii "args"] := by
  rw [cannedArgs, rdpArgs, sshArgs]
  simp only [List.flatMap_cons, List.flatMap_nil]
  -- the kernel takes long to decode a string
  repeat rw [ascii_ofList]
  split_ifs
  · exact answer_of_read (by decide +kernel)
  · exact answer_of_read (by decide +kernel)

/-- The arguments of `size` that the forger has kept fit into elements. -/
def SizesFit (m : ForgerMembers) : Prop := ∀ v ∈ m.sizeArgs, Fits maxElementSize v

theorem SizesFit.getD {m : ForgerMembers} (h : SizesFit m) (k : ℕ) {v : Bytes}
    (hv : Fits maxElementSize v) : Fits maxElementSize (m.sizeArgs.getD k v) := by
  rw [List.getD_eq_getElem?_getD]
  cases hget : m.sizeArgs[k]? with
  | none => exact hv
  | some w => exact h w (List.mem_of_getElem? hget)

/-- The waiting screen, whatever the client has sent as its size. -/
theorem answer_waitingScreen {m : ForgerMembers} (h : SizesFit m) :
    Answer (waitingScreen m) (["size", "rect", "cfill", "sync"].map ascii) := by
  have hw : Fits maxElementSize (m.sizeArgs.getD 0 (ascii "1024")) := h.getD 0 (by decide +kernel)
  have hh : Fits maxElementSize (m.sizeArgs.getD 1 (ascii "768")) := h.getD 1 (by decide +kernel)
  rw [waitingScreen]
  generalize m.sizeArgs.getD 0 (ascii "1024") = w at hw ⊢
  generalize m.sizeArgs.getD 1 (ascii "768") = h' at hh ⊢
  have hopcode : ∀ s ∈ ["0", "size", "rect"], Fits maxElementSize (ascii s) := by decide +kernel
  have hsize : Answer (instr [ascii "size", ascii "0", w, h']) [ascii "size"] :=
    answer_instr (by simp [hw, hh, hopcode])
  have hrect : Answer (instr [ascii "rect", ascii "0", ascii "0", ascii "0", w, h']) [ascii "rect"] :=
    answer_instr (by simp [hw, hh, hopcode])
  have hcfill : Answer (instr (["cfill", "14", "0", "40", "40", "40", "255"].map ascii))
      [ascii "cfill"] := answer_instr (by decide +kernel)
  have hsync : Answer (instr [ascii "sync", ascii "0"]) [ascii "sync"] := answer_instr (by decide +kernel)
  exact ((hsize.append hrect).append hcfill).append hsync

section

variable {ids : ℕ → Bytes}

theorem SizesFit.onArgument {m : ForgerMembers} (h : SizesFit m) {v : Bytes}
    (hv : Fits maxElementSize v) : SizesFit (onArgument v m).2 := by
  rw [HandshakeForger.onArgument]
  dsimp only
  split_ifs
  · exact h
  · exact h
  · intro w hw
    rcases List.mem_append.mp hw with hw | hw
    · exact h w hw
    · rw [List.mem_singleton.mp hw]
      exact hv
  · exact h

variable (ids) in
/-- The elements of an instruction add nothing to the replies. -/
theorem out_judge (m : ForgerMembers) (vs : List Bytes) : ((hooks ids).judge m vs).1.out = m.out := by
  have hsame : (hooks ids).judge m vs = ({ ((hooks ids).judge m vs).1 with out := m.out }, false) :=
    judge_out m m.out vs
  exact congrArg (fun x => x.1.out) hsame

variable (ids) in
theorem SizesFit.judge {m : ForgerMembers} (h : SizesFit m) {vs : List Bytes}
    (hvs : ∀ v ∈ vs, Fits maxElementSize v) : SizesFit ((hooks ids).judge m vs).1 := by
  induction vs using List.reverseRecOn with
  | nil => exact h
  | append_singleton vs v ih =>
    have hkept := ih fun w hw => hvs w (List.mem_append_left _ hw)
    have hdenied := (judge_eq ids m vs).1
    have hv := hvs v (List.mem_append_right _ List.mem_cons_self)
    rw [Hooks.judge_append_singleton]
    generalize (hooks ids).judge m vs = x at hkept hdenied
    obtain ⟨m', denied⟩ := x
    obtain rfl : denied = false := hdenied
    cases vs with
    | nil => exact hkept
    | cons w vs =>
      rw [List.isEmpty_cons, close_argument]
      exact hkept.onArgument hv

/-- The answer to a completed instruction is added to the replies. -/
theorem after_out (hids : ∀ n, Fits maxElementSize (ids n)) {m : ForgerMembers} (h : SizesFit m)
    (i : Instruction maxElementSize) :
    SizesFit ((hooks ids).after m i) ∧
      ∃ w, ((hooks ids).after m i).out = m.out ++ w ∧ Answer w (answers i) := by
  have hseen : ∀ v ∈ seen i.elements, Fits maxElementSize v := by
    intro v hv
    rw [seen_eq_map le_rfl, List.mem_map] at hv
    obtain ⟨e, -, rfl⟩ := hv
    exact ⟨e.length_le, e.value_ascii⟩
  obtain ⟨hdenied, -, hopcode⟩ := judge_eq ids m (seen i.elements)
  have hkept := h.judge ids hseen
  have hout := out_judge ids m (seen i.elements)
  have hop := hopcode i.opcode (by
    rw [seen_eq_map le_rfl, List.head?_map, List.head?_eq_some_head i.elements_ne_nil]
    rfl)
  rw [Hooks.after, if_neg (by simp [hdenied])]
  generalize ((hooks ids).judge m (seen i.elements)).1 = m' at hkept hout hop
  change SizesFit (onInstructionEnd ids m') ∧ ∃ w, (onInstructionEnd ids m').out = m.out ++ w ∧ _
  rw [onInstructionEnd, answers, hop]
  split_ifs
  · exact ⟨hkept, cannedArgs m', congrArg (· ++ cannedArgs m') hout, answer_cannedArgs m'⟩
  · have hready : Answer (instr [ascii "ready", ids m'.drawn]) [ascii "ready"] :=
      answer_instr (by simpa [hids] using show Fits maxElementSize (ascii "ready") by decide +kernel)
    refine ⟨hkept, _, ?_, hready.append (answer_waitingScreen hkept)⟩
    rw [← hout, ← List.append_assoc]
  · exact ⟨hkept, [], hout.trans (List.append_nil _).symm, answer_nil⟩

theorem afterAll_out (hids : ∀ n, Fits maxElementSize (ids n)) {m : ForgerMembers} (h : SizesFit m)
    (is : List (Instruction maxElementSize)) :
    SizesFit ((hooks ids).afterAll m is) ∧
      ∃ w, ((hooks ids).afterAll m is).out = m.out ++ w ∧ Answer w (is.flatMap answers) := by
  induction is generalizing m with
  | nil => exact ⟨h, [], (List.append_nil _).symm, answer_nil⟩
  | cons i is ih =>
    obtain ⟨hfit, w, hw, hanswer⟩ := after_out hids h i
    obtain ⟨hfit', w', hw', hanswer'⟩ := ih hfit
    refine ⟨hfit', w ++ w', ?_, hanswer.append hanswer'⟩
    rw [Hooks.afterAll_cons, hw', hw, List.append_assoc]

end

-- ════════════════════════════════════════════════════════════════════════
-- Streams
-- ════════════════════════════════════════════════════════════════════════

theorem observes (ids : ℕ → Bytes) : (hooks ids).Observes where
  allows_opcode _ _ := rfl
  allows_argument _ _ := rfl
  stationary := stationary

/-- The forger has completed `is`, and stands inside the instruction that `cur` has begun. -/
def Forging (ids : ℕ → Bytes) (is : List (Instruction maxElementSize)) (cur : Cursor maxElementSize)
    (f : HandshakeForger) : Prop :=
  ∃ m, m.hsState = phase is ∧ SizesFit m ∧ OpcodeParser.Session (hooks ids) m cur f.parser

/-- The forger has been fed a byte that leaves the grammar. -/
def Lost (f : HandshakeForger) : Prop :=
  f.parser.state = .streamCorrupted ∧ f.hsState = .invalidHandshake

theorem forging_nil (ids : ℕ → Bytes) : Forging ids [] .start {} :=
  ⟨{}, rfl, by simp [SizesFit], OpcodeParser.tracks_start ({} : ForgerMembers), rfl⟩

section

variable {ids : ℕ → Bytes} {is js : List (Instruction maxElementSize)}
  {cur cur' : Cursor maxElementSize} {f : HandshakeForger} {data : Bytes}

theorem Forging.hsState (h : Forging ids is cur f) : f.hsState = phase is := by
  obtain ⟨m, hstate, -, hsession⟩ := h
  have hjudged := (judge_eq ids m (seen cur.closed)).2.1
  rw [hsession.judged] at hjudged
  exact hjudged.trans hstate

/-- The parser at the beginning of a call of `Feed`. -/
def begun (f : HandshakeForger) : OpcodeParser ForgerMembers :=
  { f.parser with members := { f.parser.members with out := [] } }

theorem feed_out (ids : ℕ → Bytes) (f : HandshakeForger) (data : Bytes) :
    (f.feed ids data).1 = ((begun f).parse (hooks ids) data).2.members.out := by
  show (if _ then _ else _ : OpcodeParser ForgerMembers).members.out = _
  split_ifs <;> rfl

theorem feed_parser_of_corrupted
    (h : ((begun f).parse (hooks ids) data).2.state = .streamCorrupted) : Lost (f.feed ids data).2 := by
  have hparser : (f.feed ids data).2.parser =
      { ((begun f).parse (hooks ids) data).2 with
        members := { ((begun f).parse (hooks ids) data).2.members with
          hsState := .invalidHandshake } } := if_pos h
  exact ⟨(congrArg OpcodeParser.state hparser).trans h, congrArg (fun p => p.members.hsState) hparser⟩

theorem feed_parser_of_not_corrupted
    (h : ((begun f).parse (hooks ids) data).2.state ≠ .streamCorrupted) :
    (f.feed ids data).2.parser = ((begun f).parse (hooks ids) data).2 := if_neg h

theorem Forging.begun (h : Forging ids is cur f) :
    ∃ m, m.out = [] ∧ m.hsState = phase is ∧ SizesFit m ∧
      OpcodeParser.Session (hooks ids) m cur (begun f) := by
  obtain ⟨m, hstate, hfit, htracks, hjudged⟩ := h
  refine ⟨{ m with out := [] }, rfl, hstate, hfit, htracks, ?_⟩
  rw [judge_out, hjudged]
  rfl

/-- A piece that stays inside the grammar. -/
theorem Forging.feed (hids : ∀ n, Fits maxElementSize (ids n)) (h : Forging ids is cur f)
    (hr : cur.read data = some (js, cur')) :
    Answer (f.feed ids data).1 (js.flatMap answers) ∧ Forging ids (is ++ js) cur' (f.feed ids data).2 := by
  obtain ⟨m, hout, hstate, hfit, hsession⟩ := h.begun
  obtain ⟨-, hnext⟩ := hsession.accepts (observes ids) (.inl le_rfl) hr
  obtain ⟨hfit', w, hw, hanswer⟩ := afterAll_out hids hfit js
  have hparser := feed_parser_of_not_corrupted hnext.tracks.state_ne.1
  constructor
  · have hmembers := out_judge ids ((hooks ids).afterAll m js) (seen cur'.closed)
    rw [hnext.judged] at hmembers
    rw [feed_out, hmembers, hw, hout]
    exact hanswer
  · refine ⟨(hooks ids).afterAll m js, ?_, hfit', hparser ▸ hnext⟩
    rw [afterAll_hsState, phase_append, hstate]

/-- A piece that leaves the grammar. -/
theorem Forging.rejects (hids : ∀ n, Fits maxElementSize (ids n)) (h : Forging ids is cur f)
    (hr : cur.read data = none) :
    Answer (f.feed ids data).1 ((cur.completed data).flatMap answers) ∧ Lost (f.feed ids data).2 := by
  obtain ⟨m, hout, -, hfit, hsession⟩ := h.begun
  obtain ⟨hcorrupted, vs, hmembers⟩ := hsession.rejects (observes ids) rfl hr
  obtain ⟨-, w, hw, hanswer⟩ := afterAll_out hids hfit (cur.completed data)
  refine ⟨?_, feed_parser_of_corrupted hcorrupted⟩
  rw [feed_out, hmembers, out_judge, hw, hout]
  exact hanswer

variable (ids) in
/-- A lost forger answers nothing more. -/
theorem Lost.feed (h : Lost f) (data : Bytes) : (f.feed ids data).1 = [] ∧ Lost (f.feed ids data).2 := by
  have hparse : ((HandshakeForger.begun f).parse (hooks ids) data).2.state = .streamCorrupted ∧
      ((HandshakeForger.begun f).parse (hooks ids) data).2.members.out = [] := by
    cases data with
    | nil => exact ⟨h.1, rfl⟩
    | cons c w =>
      have hturn : ({ HandshakeForger.begun f with deniedRanges := [] } : OpcodeParser _).turn
          (hooks ids) 0 c {} = .ret { HandshakeForger.begun f with deniedRanges := [], currentIndex := 0 } := by
        rw [OpcodeParser.turn]
        simp only [HandshakeForger.begun, h.1]
      rw [OpcodeParser.parse, OpcodeParser.parseFrom_ret hturn]
      exact ⟨h.1, rfl⟩
  exact ⟨(feed_out ids f data).trans hparse.2, feed_parser_of_corrupted hparse.1⟩

variable (ids) in
theorem Lost.feedAll (h : Lost f) (pieces : List Bytes) :
    (feedAll ids f pieces).1 = [] ∧ Lost (feedAll ids f pieces).2 := by
  induction pieces generalizing f with
  | nil => exact ⟨rfl, h⟩
  | cons data pieces ih =>
    obtain ⟨hout, hlost⟩ := h.feed ids data
    obtain ⟨hrest, hlost'⟩ := ih hlost
    refine ⟨?_, hlost'⟩
    rw [HandshakeForger.feedAll]
    dsimp only
    rw [hout, hrest, List.append_nil]

/-- The answers to a stream, and the handshake state behind it, for every way of cutting it. -/
theorem Forging.feedAll (hids : ∀ n, Fits maxElementSize (ids n)) (h : Forging ids is cur f)
    (pieces : List Bytes) :
    Answer (feedAll ids f pieces).1 ((cur.completed pieces.flatten).flatMap answers) ∧
      (feedAll ids f pieces).2.hsState =
        ((cur.read pieces.flatten).map fun r => phase (is ++ r.1)).getD .invalidHandshake := by
  induction pieces generalizing is cur f with
  | nil =>
    refine ⟨answer_nil, ?_⟩
    rw [List.flatten_nil, Cursor.read_nil, Option.map_some, Option.getD_some, List.append_nil]
    exact h.hsState
  | cons data pieces ih =>
    rw [List.flatten_cons, Cursor.completed_append, Cursor.read_append, HandshakeForger.feedAll]
    dsimp only
    cases hr : cur.read data with
    | none =>
      obtain ⟨hanswer, hlost⟩ := h.rejects hids hr
      obtain ⟨hrest, -, hstate⟩ := hlost.feedAll ids pieces
      rw [hrest, hstate]
      simpa using hanswer
    | some r =>
      obtain ⟨js, cur'⟩ := r
      obtain ⟨hanswer, hnext⟩ := h.feed hids hr
      obtain ⟨hrest, hstate⟩ := ih hnext
      rw [hstate, Cursor.completed_of_read hr, Option.map_some, Option.getD_some, Option.bind_some,
        Option.map_map, List.flatMap_append]
      refine ⟨hanswer.append hrest, ?_⟩
      simp [Function.comp_def]

end

/-- What `instr` writes is read back element by element. The replies to a stream are whole
instructions, those that answer the completed instructions of the client in their order, however
the stream is cut, whatever it contains and whether it leaves the grammar or not. -/
theorem replies_well_formed :
    (∀ (elems : List Bytes) (pieces : List Bytes), (∀ e ∈ elems, Fits maxElementSize e) →
      pieces.flatten = instr elems →
      (Recorder.fresh.parseAll Recorder.hooks pieces).members = callsFor elems ∧
        (Recorder.fresh.parseAll Recorder.hooks pieces).AtBoundary) ∧
    ∀ (draws : ℕ → ℕ → Fin 16) (pieces : List Bytes),
      Answer (feedAll (fun n => makeFakeId (draws n)) {} pieces).1
        (((Cursor.start : Cursor maxElementSize).completed pieces.flatten).flatMap answers) :=
  ⟨fun _ _ h hpieces => parseAll_instr h hpieces, fun draws pieces =>
    ((forging_nil fun n => makeFakeId (draws n)).feedAll (fun n => fits_makeFakeId (draws n)) pieces).1⟩

end HandshakeForger

end GuacamoleDiode

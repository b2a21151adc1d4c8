import GuacamoleDiode.Parser.Framing
import GuacamoleDiode.Parser.Resync

/-!
# The first instruction of a call

A fresh parser that is fed a buffer comes to the end of an instruction for the first time at the
last byte of the instruction that the buffer begins with. By then its hooks have been told the
elements of that instruction and nothing else.

## Main definitions

- `Reporter.hooks`: the hooks of the base class with a record of the first end of an instruction
- `firstEnd`: that record behind a call on a fresh parser

## Main results

- `Reporter.erases`: the report does not disturb the parser
- `firstEnd_eq_some_iff`
-/

namespace GuacamoleDiode

open Wire OpcodeParser

/-- The calls of the virtual functions so far. The first call of `onInstructionEnd` is kept apart:
the index of its byte, and the calls in front of it. -/
structure Report where
  calls : List HookCall := []
  first : Option (ℕ × List HookCall) := none

/-- The hooks of the base class, with a report. -/
def Reporter.hooks : Hooks Report where
  onInstructionBegin opcode s := (true, { s with calls := s.calls ++ [.onInstructionBegin opcode] })
  onArgument arg s := (true, { s with calls := s.calls ++ [.onArgument arg] })
  onInstructionEnd i s :=
    { calls := s.calls ++ [.onInstructionEnd], first := s.first.or (some (i, s.calls)) }

/-- A reporting parser in front of its first byte. -/
def Reporter.fresh : OpcodeParser Report where
  members := {}

/-- The index at which a fresh parser first calls `OnInstructionEnd` when it is fed a buffer, and
what it has reported by then. -/
def firstEnd (data : Bytes) : Option (ℕ × List HookCall) :=
  (Reporter.fresh.parse Reporter.hooks data).2.members.first

/-- The calls that report the elements of an instruction. -/
def reportOf : List Bytes → List HookCall
  | [] => []
  | opcode :: args => .onInstructionBegin opcode :: args.map .onArgument

theorem elementCalls_eq {limit : ℕ} (es : List (Element limit)) :
    elementCalls es = reportOf (es.map Element.value) := by
  cases es with
  | nil => rfl
  | cons e es => simp [elementCalls, reportOf]

theorem reportOf_injective {vs ws : List Bytes} (h : reportOf vs = reportOf ws) : vs = ws := by
  have harg : Function.Injective HookCall.onArgument := fun _ _ heq => HookCall.onArgument.inj heq
  cases vs with
  | nil =>
    cases ws with
    | nil => rfl
    | cons w ws => cases h
  | cons v vs =>
    cases ws with
    | nil => cases h
    | cons w ws =>
      obtain ⟨hhead, htail⟩ := List.cons.inj h
      rw [HookCall.onInstructionBegin.inj hhead, harg.list_map htail]

namespace Reporter

/-- The report does not disturb the parser. -/
theorem erases : hooks.Morphism BaseParser.hooks fun _ => () where
  onInstructionBegin _ _ := rfl
  onArgument _ _ := rfl
  onInstructionEnd _ _ := rfl
  tolerates := rfl

/-- Once an instruction has ended, the record stays. -/
theorem keep_first (x : ℕ × List HookCall) : hooks.Keep fun s => s.first = some x where
  onInstructionBegin _ _ _ h := h
  onArgument _ _ _ h := h
  onInstructionEnd i s h := by
    show s.first.or _ = some x
    rw [h]
    rfl

theorem allows : hooks.Allows := ⟨fun _ _ => rfl, fun _ _ => rfl⟩

/-- In front of the first end, the report grows by the calls for the elements. -/
theorem judge_eq (es : List (Element maxElementSize)) :
    hooks.judge {} (seen es) = (⟨elementCalls es, none⟩, false) := by
  induction es using List.reverseRecOn with
  | nil => rfl
  | append_singleton es e ih =>
    have hvalue : seen [e] = [e.value] := seen_eq_map le_rfl [e]
    rw [seen_append, hvalue, Hooks.judge_append_singleton, ih, isEmpty_seen, elementCalls_snoc]
    cases es with
    | nil => rfl
    | cons e' es => rfl

/-- The parser inside the first instruction. -/
structure Begun (p : OpcodeParser Report) (cur : Cursor maxElementSize) : Prop where
  session : Session hooks {} cur p
  ascii : ∀ b ∈ p.elementBuffer, b ≤ 127

variable {p : OpcodeParser Report} {cur cur' : Cursor maxElementSize} {c : UInt8} {l : Call}

theorem Begun.first (h : Begun p cur) : p.members.first = none := by
  have hjudged := h.session.judged
  rw [judge_eq] at hjudged
  rw [← (Prod.mk.inj hjudged).1]

/-- A byte inside the first instruction. -/
theorem Begun.more (h : Begun p cur) (hl : l.denying = false)
    (hf : cur.feed c = some (.more cur')) (i : ℕ) :
    ∃ p' l', p.turn hooks i c l = .next p' l' ∧ l'.denying = false ∧ Begun p' cur' := by
  obtain ⟨p', l', hturn, hl', hsession⟩ := h.session.turn_more allows hl (.inl le_rfl) hf i
  exact ⟨p', l', hturn, hl', hsession, stored_of_turn h.ascii hturn⟩

/-- The semicolon of the first instruction is recorded, whatever comes behind it. -/
theorem Begun.done (h : Begun p cur) (hl : l.denying = false) {i : Instruction maxElementSize}
    (hf : cur.feed c = some (.done i)) (k : ℕ) (w : Bytes) :
    (parseFrom hooks k (c :: w) p l).2.members.first = some (k, elementCalls i.elements) := by
  obtain ⟨p', l', hturn, -, -, hmembers⟩ := h.session.turn_end allows hl hf k
  have hfirst : p'.members.first = some (k, elementCalls i.elements) := by
    rw [hmembers, judge_eq]
    rfl
  have hkept := Kept.parseFrom (keep_first (k, elementCalls i.elements)) w (i := k + 1) (l := l')
    ⟨stored_of_turn h.ascii hturn, hfirst⟩
  rw [parseFrom_next hturn]
  exact hkept.2

/-- The byte loop records the end of the first instruction, if it comes to it. -/
theorem Begun.loop (h : Begun p cur) (hl : l.denying = false) (w : Bytes) (k : ℕ) :
    (parseFrom hooks k w p l).2.members.first =
      (cur.next w).map fun r => (k + w.length - r.2.length - 1, elementCalls r.1.elements) := by
  induction w generalizing cur p l k with
  | nil =>
    rw [parseFrom, finish_of_clean hl]
    exact h.first
  | cons c w ih =>
    cases hf : cur.feed c with
    | none =>
      obtain ⟨p', hturn, -, hmembers⟩ := h.session.tracks.turn_none (H := hooks) rfl hf k l
      rw [Cursor.next_cons_none hf, parseFrom, hturn]
      show p'.members.first = none
      rw [hmembers, h.first]
    | some fed =>
      cases fed with
      | more cur₁ =>
        obtain ⟨p₁, l₁, hturn, hl₁, h₁⟩ := h.more hl hf k
        have hlength : k + (c :: w).length = k + 1 + w.length := by
          rw [List.length_cons]
          omega
        rw [Cursor.next_cons_more hf, parseFrom, hturn, hlength]
        exact ih h₁ hl₁ (k + 1)
      | done instruction =>
        have hindex : k + (c :: w).length - w.length - 1 = k := by
          rw [List.length_cons]
          omega
        rw [h.done hl hf, Cursor.next_cons_done hf, Option.map_some, hindex]

theorem begun_fresh : Begun fresh .start := ⟨⟨tracks_start _, rfl⟩, nofun⟩

end Reporter

/-- The end of an instruction is reached first at index `k` if and only if an instruction of
`k + 1` bytes stands at the beginning of the buffer, and what has been reported are its elements. -/
theorem firstEnd_eq_some_iff {data : Bytes} {k : ℕ} {calls : List HookCall} :
    firstEnd data = some (k, calls) ↔ ∃ (i : Instruction maxElementSize) (rest : Bytes),
      data = i.encode ++ rest ∧ i.encode.length = k + 1 ∧ reportOf i.values = calls := by
  have hclear : Reporter.Begun { Reporter.fresh with deniedRanges := [] } .start :=
    Reporter.begun_fresh
  have hloop : firstEnd data = (Cursor.start.next data).map fun r =>
      (0 + data.length - r.2.length - 1, elementCalls r.1.elements) :=
    hclear.loop (l := {}) rfl data 0
  rw [hloop, Option.map_eq_some_iff]
  constructor
  · rintro ⟨⟨i, rest⟩, hnext, heq⟩
    have hdata := Cursor.next_start_eq_some_iff.mp hnext
    obtain ⟨hindex, hcalls⟩ := Prod.mk.inj heq
    dsimp only at hindex hcalls
    have hpos := List.length_pos_iff.mpr i.encode_ne_nil
    refine ⟨i, rest, hdata, ?_, ?_⟩
    · rw [hdata, List.length_append] at hindex
      omega
    · rw [← hcalls, elementCalls_eq]
      rfl
  · rintro ⟨i, rest, hdata, hindex, hcalls⟩
    refine ⟨(i, rest), Cursor.next_start_eq_some_iff.mpr hdata, Prod.ext ?_ ?_⟩
    · show 0 + data.length - rest.length - 1 = k
      rw [hdata, List.length_append]
      omega
    · rw [← hcalls, elementCalls_eq]
      rfl

end GuacamoleDiode

import GuacamoleDiode.Parser.OpcodeParser
import GuacamoleDiode.Lib.Reader

/-!
# The parser follows the wire grammar

`Tracks` couples the framing members of a parser to a `Cursor` of the wire
grammar. One turn of the byte loop keeps the coupling: a byte that the cursor
accepts advances both, and a byte that the cursor rejects corrupts the stream
when oversized elements are not tolerated.

The hooks see the elements of an instruction one by one. `Hooks.judge` folds them
over the elements closed so far: the members of the subclass, and whether a hook
has denied the instruction.
-/

namespace GuacamoleDiode

open Wire

variable {σ : Type} {limit : ℕ}

namespace Hooks

/-- What the hooks make of one more closed element; a denied instruction is skipped. -/
def close (H : Hooks σ) (opcode : Bool) (v : Bytes) (x : σ × Bool) : σ × Bool :=
  if x.2 then x
  else
    let verdict := if opcode then H.onInstructionBegin v x.1 else H.onArgument v x.1
    (verdict.2, !verdict.1)

/-- The members of the subclass after the closed elements of an instruction, and
whether one of them has been denied. -/
def judge (H : Hooks σ) (s : σ) : List Bytes → σ × Bool
  | [] => (s, false)
  | opcode :: args => args.foldl (fun x v => H.close false v x) (H.close true opcode (s, false))

@[simp] theorem judge_nil (H : Hooks σ) (s : σ) : H.judge s [] = (s, false) := rfl

theorem judge_append_singleton (H : Hooks σ) (s : σ) (vs : List Bytes) (v : Bytes) :
    H.judge s (vs ++ [v]) = H.close vs.isEmpty v (H.judge s vs) := by
  cases vs with
  | nil => rfl
  | cons opcode args => simp [judge]

theorem close_of_denied (H : Hooks σ) (b : Bool) (v : Bytes) {x : σ × Bool} (h : x.2 = true) :
    H.close b v x = x := by
  simp [close, h]

/-- A denial is never taken back. -/
theorem judge_denied_append (H : Hooks σ) (s : σ) {vs : List Bytes} (ws : List Bytes)
    (h : (H.judge s vs).2 = true) : (H.judge s (vs ++ ws)).2 = true := by
  induction ws using List.reverseRecOn with
  | nil => simpa using h
  | append_singleton ws w ih =>
    rw [← List.append_assoc, judge_append_singleton, close_of_denied H _ _ ih]
    exact ih

end Hooks

/-- The values that the hooks see: the buffer holds at most `maxElementSize` bytes. -/
def seen (es : List (Element limit)) : List Bytes := es.map fun e => e.value.take maxElementSize

@[simp] theorem seen_nil : seen ([] : List (Element limit)) = [] := rfl

@[simp] theorem seen_append (es es' : List (Element limit)) :
    seen (es ++ es') = seen es ++ seen es' := by
  simp [seen]

@[simp] theorem isEmpty_seen (es : List (Element limit)) : (seen es).isEmpty = es.isEmpty := by
  cases es <;> rfl

/-- Elements within the limit of the buffer are seen whole. -/
theorem seen_eq_map (h : limit ≤ maxElementSize) (es : List (Element limit)) :
    seen es = es.map Element.value :=
  List.map_congr_left fun e _ => List.take_of_length_le (e.length_le.trans h)

namespace OpcodeParser

/-- The framing members of the parser agree with the cursor. -/
def Tracks (p : OpcodeParser σ) (cur : Cursor limit) : Prop :=
  p.readingOpcode = cur.closed.isEmpty ∧
  match cur.part with
  | .length digits _ _ =>
    p.state = .readingLength ∧ p.currentLength = if digits = [] then -1 else (declared digits : ℤ)
  | .data digits value _ _ _ _ =>
    p.state = .readingData ∧ p.currentLength = declared digits ∧
      p.currentRead = value.length ∧ p.elementBuffer = value.take maxElementSize
  | .delim e =>
    p.state = .expectDelim ∧ p.currentLength = e.value.length ∧
      p.elementBuffer = e.value.take maxElementSize

/-- A fresh parser stands at a clean instruction boundary. -/
theorem tracks_start (s : σ) : Tracks ({ members := s } : OpcodeParser σ) (.start : Cursor limit) :=
  ⟨rfl, rfl, rfl⟩

/-- The hooks see the value of the element that a delimiter closes. -/
theorem Tracks.element_eq {p : OpcodeParser σ} {closed : List (Element limit)} {e : Element limit}
    (h : p.Tracks ⟨closed, .delim e⟩) : p.element = e.value.take maxElementSize := by
  obtain ⟨_, _, hlen, hbuf⟩ := h
  have hmin : (min p.currentLength maxElementSize).toNat = min e.value.length maxElementSize := by
    rw [hlen]
    omega
  rw [element, hmin, hbuf, List.take_take, List.take_eq_take_iff]
  omega

section Turn

variable {H : Hooks σ} {p : OpcodeParser σ} {cur cur' : Cursor limit} {c : UInt8}

theorem turn_readingLength (h : p.state = .readingLength) (i : ℕ) (l : Call) :
    p.turn H i c l = { p with currentIndex := i }.readLength H i c l := by
  rw [turn, h]

theorem turn_readingData (h : p.state = .readingData) (i : ℕ) (l : Call) :
    p.turn H i c l = { p with currentIndex := i }.readData c l := by
  rw [turn, h]

theorem turn_expectDelim (h : p.state = .expectDelim) (i : ℕ) (l : Call) :
    p.turn H i c l = { p with currentIndex := i }.expectDelim H i c l := by
  rw [turn, h]

/-- The sentinel of `currentLength` stands for the empty digit string. -/
theorem length_members {digits : Bytes}
    (h : p.currentLength = if digits = [] then -1 else (declared digits : ℤ)) :
    (p.currentLength == -1) = decide (digits = []) ∧
      (if (p.currentLength == -1) = true then 0 else p.currentLength) = (declared digits : ℤ) := by
  by_cases hd : digits = []
  · simp [h, hd]
  · have hne : (declared digits : ℤ) ≠ -1 := by omega
    simp [h, hd, hne]

/-- A digit that keeps the declared length within bounds. -/
theorem readLength_digit {digits : Bytes}
    (h : p.currentLength = if digits = [] then -1 else (declared digits : ℤ))
    (hc : isDigit c = true) (hle : declared (digits ++ [c]) ≤ limit)
    (hlim : limit ≤ maxElementSize ∨ H.toleratesOversizedElements = true) (i : ℕ) (l : Call) :
    p.readLength H i c l = .next
      { p with
        currentLength := declared (digits ++ [c])
        opcodeStartIdx := if digits = [] ∧ p.readingOpcode = true then i else p.opcodeStartIdx }
      { l with
        opcodeInThisCall := l.opcodeInThisCall || (decide (digits = []) && p.readingOpcode) } := by
  obtain ⟨hfirst, hlen⟩ := length_members h
  have hval : (if (p.currentLength == -1) = true then 0 else p.currentLength) * 10 + digitValue c =
      (declared (digits ++ [c]) : ℤ) := by
    rw [hlen, declared_append_singleton]
    push_cast
    rfl
  have hfits : ¬((maxElementSize : ℤ) < declared (digits ++ [c]) ∧
      H.toleratesOversizedElements = false) := by
    rintro ⟨hgt, htol⟩
    rcases hlim with hlim | hlim
    · omega
    · simp [htol] at hlim
  simp only [readLength, hc, if_true, hval, if_neg hfits]
  simp only [hfirst, Bool.and_eq_true, decide_eq_true_eq]

/-- The dot behind a nonempty length. -/
theorem readLength_dot {digits : Bytes} (hne : digits ≠ [])
    (h : p.currentLength = if digits = [] then -1 else (declared digits : ℤ)) (i : ℕ) (l : Call) :
    p.readLength H i dot l = .next
      { p with
        currentRead := 0
        elementBuffer := []
        state := if declared digits = 0 then .expectDelim else .readingData } l := by
  have hlen : p.currentLength = declared digits := by simpa [hne] using h
  have hsent : (declared digits : ℤ) ≠ -1 := by omega
  have hdigit : isDigit dot = false := by decide
  simp only [readLength, hdigit, Bool.false_eq_true, if_false, if_true, hlen, hsent,
    Int.natCast_eq_zero]

theorem bytes_length_eq_nil_iff {closed : List (Element limit)} {digits : Bytes} {hd hle} :
    (⟨closed, .length digits hd hle⟩ : Cursor limit).bytes = [] ↔ closed = [] ∧ digits = [] := by
  rw [Cursor.bytes, List.append_eq_nil_iff]
  exact and_congr_left' ⟨Cursor.closedBytes_eq_nil, fun h => h ▸ rfl⟩

/-- Only the first byte of an instruction concerns the locals of the call. -/
theorem call_eq_self (h : ¬cur.bytes = []) {l : Call} :
    { l with opcodeInThisCall := l.opcodeInThisCall || decide (cur.bytes = []) } = l := by
  simp [h]

/-- A byte inside an element advances the parser and the cursor together. Only the
first byte of an instruction sets the start index. -/
theorem Tracks.turn_inside (h : p.Tracks cur)
    (hlim : limit ≤ maxElementSize ∨ H.toleratesOversizedElements = true)
    (hpart : ∀ e, cur.part ≠ .delim e) (hf : cur.feed c = some (.more cur')) (i : ℕ) (l : Call) :
    ∃ p', p.turn H i c l =
        .next p' { l with opcodeInThisCall := l.opcodeInThisCall || decide (cur.bytes = []) } ∧
      p'.Tracks cur' ∧ p'.members = p.members ∧ p'.deniedRanges = p.deniedRanges ∧
      p'.opcodeStartIdx = (if cur.bytes = [] then i else p.opcodeStartIdx) ∧
      cur'.closed = cur.closed := by
  obtain ⟨closed, part⟩ := cur
  obtain ⟨hop, hpt⟩ := h
  simp only at hop hpt hpart
  cases part with
  | delim e => exact absurd rfl (hpart e)
  | length digits hd hle =>
    obtain ⟨hst, hlen⟩ := hpt
    simp only [Cursor.feed, Option.map_eq_some_iff] at hf
    obtain ⟨q, hq, heq⟩ := hf
    cases heq
    simp only [Partial.feed] at hq
    split_ifs at hq with hc hdecl hdot hne h0
    · -- another digit
      cases hq
      rw [turn_readingLength hst,
        readLength_digit (p := { p with currentIndex := i }) hlen hc hdecl hlim i l]
      have hstart : decide ((⟨closed, .length digits hd hle⟩ : Cursor limit).bytes = []) =
          (decide (digits = []) && p.readingOpcode) := by
        rw [hop, decide_eq_decide.mpr bytes_length_eq_nil_iff, Bool.decide_and, Bool.and_comm]
        cases closed <;> rfl
      rw [hstart]
      refine ⟨_, rfl, ⟨hop, hst, (if_neg (by simp)).symm⟩, rfl, rfl, ?_, rfl⟩
      simp [bytes_length_eq_nil_iff, hop, and_comm]
    · -- the dot of an empty element
      cases hq
      subst hdot
      have hbytes : ¬(⟨closed, .length digits hd hle⟩ : Cursor limit).bytes = [] :=
        fun h => hne (bytes_length_eq_nil_iff.mp h).2
      rw [turn_readingLength hst, readLength_dot (p := { p with currentIndex := i }) hne hlen i l,
        if_neg hbytes, if_pos h0, call_eq_self hbytes]
      exact ⟨_, rfl, ⟨hop, rfl, by simp [hlen, hne, h0], by simp⟩, rfl, rfl, rfl, rfl⟩
    · -- the dot in front of a value
      cases hq
      subst hdot
      have hbytes : ¬(⟨closed, .length digits hd hle⟩ : Cursor limit).bytes = [] :=
        fun h => hne (bytes_length_eq_nil_iff.mp h).2
      rw [turn_readingLength hst, readLength_dot (p := { p with currentIndex := i }) hne hlen i l,
        if_neg hbytes, if_neg h0, call_eq_self hbytes]
      exact ⟨_, rfl, ⟨hop, rfl, by simp [hlen, hne], rfl, by simp⟩, rfl, rfl, rfl, rfl⟩
  | data digits value hd hle hm ha =>
    obtain ⟨hst, hlen, hread, hbuf⟩ := hpt
    simp only [Cursor.feed, Option.map_eq_some_iff] at hf
    obtain ⟨q, hq, heq⟩ := hf
    cases heq
    have hbytes : ¬(⟨closed, .data digits value hd hle hm ha⟩ : Cursor limit).bytes = [] := by
      simp [Cursor.bytes, Partial.bytes]
    have hbuf' : (if p.currentRead < maxElementSize then p.elementBuffer ++ [c]
        else p.elementBuffer) = (value ++ [c]).take maxElementSize := by
      rw [hread, hbuf]
      split_ifs with hlt
      · rw [List.take_of_length_le hlt.le, List.take_of_length_le (by simp; omega)]
      · rw [List.take_append_of_le_length (by omega)]
    simp only [Partial.feed] at hq
    split_ifs at hq with hc hlast
    · -- the last byte of the value
      cases hq
      have hstop : ¬(p.currentRead < maxElementSize ∧ 127 < c) :=
        fun h => UInt8.not_lt.mpr hc h.2
      have hend : (p.currentRead + 1 : ℤ) = p.currentLength := by rw [hread, hlen]; omega
      rw [turn_readingData hst, readData, if_neg hstop, if_neg hbytes, call_eq_self hbytes,
        if_pos hend]
      exact ⟨_, rfl, ⟨hop, rfl, by simp [hlen, ← hlast], hbuf'⟩, rfl, rfl, rfl, rfl⟩
    · -- a byte further inside the value
      cases hq
      have hstop : ¬(p.currentRead < maxElementSize ∧ 127 < c) :=
        fun h => UInt8.not_lt.mpr hc h.2
      have hend : ¬(p.currentRead + 1 : ℤ) = p.currentLength := by rw [hread, hlen]; omega
      rw [turn_readingData hst, readData, if_neg hstop, if_neg hbytes, call_eq_self hbytes,
        if_neg hend]
      exact ⟨_, rfl, ⟨hop, hst, hlen, by simp [hread], hbuf'⟩, rfl, rfl, rfl, rfl⟩

/-- A byte that no instruction stream continues with corrupts the stream. -/
theorem Tracks.turn_none {cur : Cursor maxElementSize} (h : p.Tracks cur)
    (htol : H.toleratesOversizedElements = false) (hf : cur.feed c = none) (i : ℕ) (l : Call) :
    ∃ p', p.turn H i c l = .ret p' ∧ p'.state = .streamCorrupted ∧ p'.members = p.members := by
  obtain ⟨closed, part⟩ := cur
  obtain ⟨-, hpt⟩ := h
  cases part with
  | length digits hd hle =>
    obtain ⟨hst, hlen⟩ := hpt
    simp only [Cursor.feed, Option.map_eq_none_iff, Partial.feed] at hf
    rw [turn_readingLength hst, readLength]
    split_ifs at hf with hc hdecl hdot hne h0
    · -- the declared length exceeds the buffer
      obtain ⟨-, hval⟩ := length_members hlen
      have hgt : (maxElementSize : ℤ) < (if (p.currentLength == -1) = true then 0
          else p.currentLength) * 10 + digitValue c := by
        rw [declared_append_singleton] at hdecl
        rw [hval]
        omega
      rw [if_pos hc]
      dsimp only
      rw [if_pos ⟨hgt, htol⟩]
      exact ⟨_, rfl, rfl, rfl⟩
    · -- a dot without a length
      have hsent : p.currentLength = -1 := by simp [hlen, hne]
      rw [if_neg hc, if_pos hdot, if_pos hsent]
      exact ⟨_, rfl, rfl, rfl⟩
    · rw [if_neg hc, if_neg hdot]
      exact ⟨_, rfl, rfl, rfl⟩
  | data digits value hd hle hm ha =>
    obtain ⟨hst, hlen, hread, hbuf⟩ := hpt
    simp only [Cursor.feed, Option.map_eq_none_iff, Partial.feed] at hf
    split_ifs at hf with hc hlast
    have hbad : p.currentRead < maxElementSize ∧ 127 < c :=
      ⟨by omega, UInt8.not_le.mp hc⟩
    rw [turn_readingData hst, readData, if_pos hbad]
    exact ⟨_, rfl, rfl, rfl⟩
  | delim e =>
    obtain ⟨hst, -, -⟩ := hpt
    simp only [Cursor.feed] at hf
    split_ifs at hf with hcomma hsemi
    rw [turn_expectDelim hst, OpcodeParser.expectDelim, if_pos ⟨hcomma, hsemi⟩]
    exact ⟨_, rfl, rfl, rfl⟩

/-- A delimiter hands the element to the hooks. A denial that the call cannot excise
corrupts the stream; otherwise the element is closed with the verdict on it. -/
theorem Tracks.turn_delim {closed : List (Element limit)} {e : Element limit}
    (h : p.Tracks ⟨closed, .delim e⟩) (hc : c = comma ∨ c = semicolon) (i : ℕ) (l : Call)
    (hden : l.denying = true → closed ≠ []) :
    let y := H.close closed.isEmpty (e.value.take maxElementSize) (p.members, l.denying)
    (l.denying = false → y.2 = true → l.opcodeInThisCall = false →
      ∃ p', p.turn H i c l = .ret p' ∧ p'.state = .streamCorrupted) ∧
    (¬(l.denying = false ∧ y.2 = true ∧ l.opcodeInThisCall = false) →
      p.turn H i c l = { p with currentIndex := i, members := y.1, readingOpcode := false
        }.closeElement H i c { l with denying := y.2 }) := by
  intro y
  have helem := h.element_eq
  obtain ⟨hop, hst, -, -⟩ := h
  have hcall : ({ p with currentIndex := i } : OpcodeParser σ).callHook H =
      if closed.isEmpty = true then H.onInstructionBegin (e.value.take maxElementSize) p.members
      else H.onArgument (e.value.take maxElementSize) p.members := by
    rw [callHook, ← helem, ← hop]
    rfl
  have hdelim : ¬(c ≠ comma ∧ c ≠ semicolon) := by tauto
  rw [turn_expectDelim hst, OpcodeParser.expectDelim, if_neg hdelim]
  cases hd : l.denying with
  | true =>
    have hy : y = (p.members, true) := by simp [y, Hooks.close, hd]
    have hread : p.readingOpcode = false := by
      rw [hop]
      simpa using hden hd
    refine ⟨by simp, fun _ => ?_⟩
    rw [if_pos rfl, hy]
    congr 1
    · simp [← hread]
    · simp [← hd]
  | false =>
    rw [if_neg (by simp), hcall]
    have hy : y = ((if closed.isEmpty = true then
          H.onInstructionBegin (e.value.take maxElementSize) p.members
        else H.onArgument (e.value.take maxElementSize) p.members).2,
        !(if closed.isEmpty = true then
          H.onInstructionBegin (e.value.take maxElementSize) p.members
        else H.onArgument (e.value.take maxElementSize) p.members).1) := by
      simp [y, Hooks.close, hd]
    rw [hy]
    generalize (if closed.isEmpty = true then
      H.onInstructionBegin (e.value.take maxElementSize) p.members
      else H.onArgument (e.value.take maxElementSize) p.members) = verdict
    obtain ⟨allowed, members⟩ := verdict
    cases allowed with
    | true =>
      refine ⟨by simp, fun _ => ?_⟩
      simp only [if_true, Bool.not_true]
      rw [← hd]
    | false =>
      refine ⟨?_, ?_⟩
      · intro _ _ hcall
        simp only [Bool.false_eq_true, if_false, hcall, if_true]
        exact ⟨_, rfl, rfl⟩
      · intro hn
        have hcall : ¬l.opcodeInThisCall = false := by simpa using hn
        simp only [Bool.false_eq_true, if_false, if_neg hcall, Bool.not_false]

end Turn

end OpcodeParser

end GuacamoleDiode

import GuacamoleDiode.Lib.Segments
import GuacamoleDiode.Parser.Observer

/-!
# Observers on broken streams

An observer that tolerates oversized elements reads any bytes. It stands at the boundary of an
instruction exactly behind whole segments.

## Main definitions

- `OpcodeParser.Opened`: what the parser knows of the bytes behind the last boundary

## Main results

- `OpcodeParser.atBoundary_iff_segmented`
- `OpcodeParser.lengthsWithin_iff`
-/

namespace GuacamoleDiode

open Wire

variable {σ : Type}

namespace OpcodeParser

/-- What digits have made of the length. -/
def lengthOf (ds : Bytes) : ℤ := if ds = [] then -1 else declared ds

/-- The parser has read some digits of a length. -/
structure InLength (p : OpcodeParser σ) (opcode : Bool) (ds : Bytes) : Prop where
  state : p.state = .readingLength
  length : p.currentLength = lengthOf ds
  opcode : p.readingOpcode = opcode

/-- The parser has read a part of a value. -/
structure InValue (p : OpcodeParser σ) (opcode : Bool) (ds v : Bytes) : Prop where
  state : p.state = .readingData
  length : p.currentLength = declared ds
  read : p.currentRead = v.length
  missing : v.length < declared ds
  opcode : p.readingOpcode = opcode

/-- The parser has read a value. -/
structure BehindValue (p : OpcodeParser σ) (opcode : Bool) (ds : Bytes) : Prop where
  state : p.state = .expectDelim
  length : p.currentLength = declared ds
  opcode : p.readingOpcode = opcode

section

variable {H : Hooks σ} {p : OpcodeParser σ} {c : UInt8} {opcode : Bool} {ds v w head : Bytes}

theorem inLength_nil : p.InLength true [] ↔ p.AtBoundary :=
  ⟨fun h => ⟨h.state, h.length, h.opcode⟩, fun h => ⟨h.1, h.2.1, h.2.2⟩⟩

-- ════════════════════════════════════════════════════════════════════════
-- One byte
-- ════════════════════════════════════════════════════════════════════════

/-- A comma behind a value hands it to the hooks. -/
theorem absorb_comma (hH : H.Observes) (hstate : p.state = .expectDelim) :
    (p.absorb H comma).state = .readingLength ∧ (p.absorb H comma).currentLength = -1 ∧
      (p.absorb H comma).readingOpcode = false ∧
      (p.absorb H comma).members = (p.callHook H).2 := by
  rw [OpcodeParser.absorb, turn_expectDelim hstate, expectDelim_allowed hH rfl (.inl rfl),
    closeElement, if_neg (by decide)]
  exact ⟨rfl, rfl, rfl, rfl⟩

/-- A semicolon behind a value ends the instruction, too. -/
theorem absorb_semicolon (hH : H.Observes) (hstate : p.state = .expectDelim) :
    (p.absorb H semicolon).AtBoundary ∧
      (p.absorb H semicolon).members = H.onInstructionEnd 0 (p.callHook H).2 := by
  rw [OpcodeParser.absorb, turn_expectDelim hstate, expectDelim_allowed hH rfl (.inr rfl),
    closeElement, if_pos rfl, if_neg Bool.false_ne_true]
  exact ⟨⟨rfl, rfl, rfl⟩, rfl⟩

/-- Any other byte behind a value corrupts the stream, and the framer starts over. -/
theorem absorb_stray (hstate : p.state = .expectDelim) (hcomma : c ≠ comma) (hsemi : c ≠ semicolon) :
    (p.absorb H c).AtBoundary ∧ (p.absorb H c).members = p.members := by
  rw [OpcodeParser.absorb, turn_expectDelim hstate, OpcodeParser.expectDelim, if_pos ⟨hcomma, hsemi⟩]
  exact ⟨⟨rfl, rfl, rfl⟩, rfl⟩

theorem InLength.digit (htol : H.toleratesOversizedElements = true) (h : p.InLength opcode ds)
    (hc : isDigit c = true) : (p.absorb H c).InLength opcode (ds ++ [c]) := by
  have hvalue : (if (p.currentLength == -1) = true then 0 else p.currentLength) = (declared ds : ℤ) := by
    rw [h.length, lengthOf]
    split_ifs with hnil hfirst hfirst
    · rw [hnil]
      rfl
    · simp at hfirst
    · simp at hfirst
    · rfl
  have hlength : lengthOf (ds ++ [c]) = (declared ds : ℤ) * 10 + digitValue c := by
    rw [lengthOf, if_neg (by simp), declared_append_singleton]
    push_cast
    rfl
  rw [absorb, turn_readingLength h.state, readLength, if_pos hc]
  dsimp only
  rw [hvalue, if_neg (by simp [htol])]
  exact ⟨h.state, hlength.symm, h.opcode⟩

theorem InLength.dot (h : p.InLength opcode ds) (hne : ds ≠ []) :
    (0 < declared ds → (p.absorb H dot).InValue opcode ds []) ∧
      (declared ds = 0 → (p.absorb H dot).BehindValue opcode ds) := by
  have hlength : p.currentLength = declared ds := h.length.trans (if_neg hne)
  have hdigit : ¬isDigit Wire.dot = true := by decide
  rw [absorb, turn_readingLength h.state, readLength, if_neg hdigit, if_pos rfl]
  dsimp only
  rw [if_neg (by omega), hlength]
  refine ⟨fun hpos => ?_, fun hzero => ?_⟩
  · rw [if_neg (by omega)]
    exact ⟨rfl, rfl, rfl, hpos, h.opcode⟩
  · rw [if_pos (by omega)]
    exact ⟨rfl, rfl, h.opcode⟩

/-- A byte that is part of no length. -/
theorem InLength.reject (h : p.InLength opcode ds) (hc : isDigit c = false)
    (hdot : c = Wire.dot → ds = []) : (p.absorb H c).AtBoundary := by
  rw [absorb, turn_readingLength h.state, readLength, if_neg (by simp [hc])]
  dsimp only
  by_cases hcdot : c = Wire.dot
  · have hnone : p.currentLength = -1 := by
      rw [h.length, hdot hcdot]
      rfl
    rw [if_pos hcdot, if_pos hnone]
    exact ⟨rfl, rfl, rfl⟩
  · rw [if_neg hcdot]
    exact ⟨rfl, rfl, rfl⟩

theorem InValue.byte (h : p.InValue opcode ds v) (hc : v.length < maxElementSize → c ≤ 127) :
    ((v ++ [c]).length < declared ds → (p.absorb H c).InValue opcode ds (v ++ [c])) ∧
      ((v ++ [c]).length = declared ds → (p.absorb H c).BehindValue opcode ds) := by
  have hgood : ¬(p.currentRead < maxElementSize ∧ 127 < c) := by
    rintro ⟨hlt, hbad⟩
    exact UInt8.not_lt.mpr (hc (h.read ▸ hlt)) hbad
  rw [absorb, turn_readingData h.state, readData, if_neg hgood]
  dsimp only [settleTurn]
  rw [h.length, h.read, List.length_append, List.length_singleton]
  refine ⟨fun hlt => ?_, fun hlast => ?_⟩
  · rw [if_neg (by omega)]
    exact ⟨h.state, rfl, by simp, by simpa using hlt, h.opcode⟩
  · rw [if_pos (by omega)]
    exact ⟨rfl, rfl, h.opcode⟩

/-- A byte that is not ASCII. -/
theorem InValue.reject (h : p.InValue opcode ds v) (hlt : v.length < maxElementSize) (hc : 127 < c) :
    (p.absorb H c).AtBoundary := by
  rw [absorb, turn_readingData h.state, readData, if_pos ⟨by dsimp only; rw [h.read]; exact hlt, hc⟩]
  exact ⟨rfl, rfl, rfl⟩

theorem BehindValue.comma (hH : H.Observes) (h : p.BehindValue opcode ds) :
    (p.absorb H comma).InLength false [] := by
  obtain ⟨hstate, hlength, hopcode, -⟩ := absorb_comma hH h.state
  exact ⟨hstate, hlength, hopcode⟩

-- ════════════════════════════════════════════════════════════════════════
-- Whole segments
-- ════════════════════════════════════════════════════════════════════════

theorem InLength.digits (htol : H.toleratesOversizedElements = true) (h : p.InLength opcode [])
    (hds : Digits ds) : (ds.foldl (absorb H) p).InLength opcode ds := by
  induction ds using List.reverseRecOn with
  | nil => exact h
  | append_singleton ds c ih =>
    rw [List.foldl_append]
    exact (ih fun d hd => hds d (List.mem_append_left _ hd)).digit htol (hds c (by simp))

theorem InLength.value (h : p.InLength opcode ds) (hne : ds ≠ []) (hv : Readable maxElementSize v)
    (hle : v.length ≤ declared ds) :
    (v.length < declared ds → ((Wire.dot :: v).foldl (absorb H) p).InValue opcode ds v) ∧
      (v.length = declared ds → ((Wire.dot :: v).foldl (absorb H) p).BehindValue opcode ds) := by
  induction v using List.reverseRecOn with
  | nil =>
    obtain ⟨hsome, hnone⟩ := h.dot (H := H) hne
    exact ⟨hsome, fun hzero => hnone hzero.symm⟩
  | append_singleton v c ih =>
    rw [List.length_append, List.length_singleton] at hle
    have hinside := (ih hv.init.1 (by omega)).1 (by omega)
    rw [← List.cons_append, List.foldl_append]
    exact hinside.byte hv.init.2

theorem InLength.element (htol : H.toleratesOversizedElements = true) (h : p.InLength opcode [])
    (hw : CountedElement maxElementSize w) : ∃ ds, (w.foldl (absorb H) p).BehindValue opcode ds := by
  obtain ⟨hne, hds, hlength, hv⟩ := hw
  rw [List.foldl_append]
  exact ⟨_, ((h.digits htol hds).value hne hv hlength.le).2 hlength⟩

/-- Elements in front of the one that is being read. -/
theorem AtBoundary.elements (hH : H.Observes) (htol : H.toleratesOversizedElements = true)
    (h : p.AtBoundary) (hhead : Head maxElementSize head) :
    (head.foldl (absorb H) p).InLength (decide (head = [])) [] := by
  induction hhead with
  | nil => exact inLength_nil.mpr h
  | snoc _ he ih =>
    obtain ⟨ds, hbehind⟩ := ih.element htol he
    rw [List.foldl_append, List.foldl_append, decide_eq_false (by simp)]
    exact hbehind.comma hH

/-- The bytes behind the last boundary, and where in them the parser is. -/
inductive Opened (p : OpcodeParser σ) : Bytes → Prop where
  | length {head ds : Bytes} (init : Head maxElementSize head) (digits : Digits ds)
      (here : p.InLength (decide (head = [])) ds) : Opened p (head ++ ds)
  | value {head ds v : Bytes} (init : Head maxElementSize head) (ne_nil : ds ≠ []) (digits : Digits ds)
      (readable : Readable maxElementSize v) (here : p.InValue (decide (head = [])) ds v) :
      Opened p (head ++ (ds ++ Wire.dot :: v))
  | behind {head ds v : Bytes} (init : Head maxElementSize head) (ne_nil : ds ≠ []) (digits : Digits ds)
      (length : v.length = declared ds) (readable : Readable maxElementSize v)
      (here : p.BehindValue (decide (head = [])) ds) : Opened p (head ++ (ds ++ Wire.dot :: v))

/-- One more byte goes on with what has been opened, or ends a segment. -/
theorem Opened.absorb (hH : H.Observes) (htol : H.toleratesOversizedElements = true)
    (h : p.Opened w) (c : UInt8) :
    (p.absorb H c).Opened (w ++ [c]) ∨
      Segment maxElementSize (w ++ [c]) ∧ (p.absorb H c).AtBoundary := by
  cases h with
  | @length head ds hhead hds here =>
    by_cases hc : isDigit c = true
    · rw [List.append_assoc]
      exact .inl (.length hhead (hds.snoc hc) (here.digit htol hc))
    · have hno : isDigit c = false := by simpa using hc
      by_cases hdot : c = Wire.dot ∧ ds ≠ []
      · obtain ⟨rfl, hne⟩ := hdot
        obtain ⟨hsome, hnone⟩ := here.dot (H := H) hne
        rw [List.append_assoc]
        rcases Nat.eq_zero_or_pos (declared ds) with hzero | hpos
        · exact .inl (.behind hhead hne hds hzero.symm readable_nil (hnone hzero))
        · exact .inl (.value hhead hne hds readable_nil (hsome hpos))
      · have hbare : c = Wire.dot → ds = [] := fun hcdot => by_contra fun hne => hdot ⟨hcdot, hne⟩
        exact .inr ⟨.noLength hhead hds hno hbare, here.reject hno hbare⟩
  | @value head ds v hhead hne hds hv here =>
    by_cases hbad : v.length < maxElementSize ∧ 127 < c
    · exact .inr ⟨.notAscii hhead hne hds here.missing hv hbad.1 hbad.2, here.reject hbad.1 hbad.2⟩
    · have hc : v.length < maxElementSize → c ≤ 127 := fun hlt =>
        UInt8.not_lt.mp fun hgt => hbad ⟨hlt, hgt⟩
      obtain ⟨hmore, hlast⟩ := here.byte (H := H) hc
      rw [List.append_assoc, List.append_assoc, List.cons_append]
      rcases Nat.lt_or_ge (v ++ [c]).length (declared ds) with hlt | hge
      · exact .inl (.value hhead hne hds (hv.snoc hc) (hmore hlt))
      · have hlength : (v ++ [c]).length = declared ds := by
          have hmissing := here.missing
          rw [List.length_append, List.length_singleton] at hge ⊢
          omega
        exact .inl (.behind hhead hne hds hlength (hv.snoc hc) (hlast hlength))
  | @behind head ds v hhead hne hds hlength hv here =>
    have he : CountedElement maxElementSize (ds ++ Wire.dot :: v) := .mk hne hds hlength hv
    by_cases hcomma : c = comma
    · subst hcomma
      left
      have hnext : (p.absorb H comma).InLength
          (decide (head ++ (ds ++ Wire.dot :: v) ++ [comma] = [])) [] := by
        rw [decide_eq_false (by simp)]
        exact here.comma hH
      have hnone : Digits [] := by simp [Digits]
      simpa using Opened.length (.snoc hhead he) hnone hnext
    · by_cases hsemicolon : c = semicolon
      · subst hsemicolon
        exact .inr ⟨.instruction hhead he, (absorb_semicolon hH here.state).1⟩
      · exact .inr ⟨.stray hhead he hcomma hsemicolon, (absorb_stray here.state hcomma hsemicolon).1⟩

end

end OpcodeParser

end GuacamoleDiode

import GuacamoleDiode.Parser.Excise
import GuacamoleDiode.Parser.Observer

/-!
# The ranges that a call records

A call records the range of an instruction when it comes to its semicolon, from the index at which
the first digit of its opcode stood. Whatever the parser has been through before, and whatever the
hooks deny, the ranges of a call lie in its buffer, one behind the other. So an excision never
makes a buffer longer.

## Main definitions

- `OpcodeParser.Ranged`: the ranges recorded so far and the start of the next one

## Main results

- `OpcodeParser.ascending_parse`
- `OpcodeParser.length_excised_le`
-/

namespace GuacamoleDiode

open Wire Ranges

variable {σ : Type}

namespace OpcodeParser

/-- In front of index `i`, all ranges end in front of `hi`. The instruction that has been begun in
this call starts behind them, unless the parser stands between two instructions. -/
structure Ranged (i hi : ℕ) (p : OpcodeParser σ) (l : Call) : Prop where
  ascending : Ascending 0 p.deniedRanges hi
  hi_le : hi ≤ i
  denying : l.denying = true → l.opcodeInThisCall = true ∧ p.readingOpcode = false
  started : l.opcodeInThisCall = true →
    p.opcodeStartIdx < i ∧ (hi ≤ p.opcodeStartIdx ∨ p.AtBoundary)

/-- A turn keeps track of the ranges, or ends the call without a new one. -/
def KeepsRanges (i : ℕ) (p : OpcodeParser σ) : Turn σ → Prop
  | .next q l => ∃ hi, Ranged (i + 1) hi q l
  | .ret q => q.deniedRanges = p.deniedRanges

section

variable {H : Hooks σ} {p : OpcodeParser σ} {l : Call} {i hi : ℕ} {c : UInt8}

/-- Inside an instruction, its start lies behind all ranges. -/
theorem Ranged.start_of_inside (h : Ranged i hi p l) (hinside : ¬p.AtBoundary)
    (hcall : l.opcodeInThisCall = true) : p.opcodeStartIdx < i ∧ hi ≤ p.opcodeStartIdx :=
  ⟨(h.started hcall).1, (h.started hcall).2.resolve_right hinside⟩

/-- A byte of a length. -/
theorem Ranged.readLength (h : Ranged i hi p l) :
    KeepsRanges i p ({ p with currentIndex := i }.readLength H i c l) := by
  rw [OpcodeParser.readLength]
  by_cases hdigit : isDigit c = true
  · rw [if_pos hdigit]
    dsimp only
    generalize (if (p.currentLength == -1) = true then 0 else p.currentLength) * 10 +
      (digitValue c : ℤ) = x
    by_cases hlimit : (maxElementSize : ℤ) < x ∧ H.toleratesOversizedElements = false
    · rw [if_pos hlimit]
      rfl
    · rw [if_neg hlimit]
      refine ⟨hi, h.ascending, Nat.le_succ_of_le h.hi_le, fun hden => ?_, fun hcall => ?_⟩
      · obtain ⟨hcall, hopcode⟩ := h.denying hden
        exact ⟨by simp [hcall], hopcode⟩
      · by_cases hfirst : (p.currentLength == -1 && p.readingOpcode) = true
        · -- the first digit of an opcode
          rw [if_pos hfirst]
          exact ⟨Nat.lt_succ_self i, .inl h.hi_le⟩
        · have hcall' : l.opcodeInThisCall = true := by simpa [hfirst] using hcall
          have hinside : ¬p.AtBoundary := by
            rintro ⟨-, hlength, hopcode⟩
            simp [hlength, hopcode] at hfirst
          obtain ⟨hlt, hle⟩ := h.start_of_inside hinside hcall'
          rw [if_neg hfirst]
          exact ⟨Nat.lt_succ_of_lt hlt, .inl hle⟩
  · rw [if_neg hdigit]
    by_cases hdot : c = dot
    · rw [if_pos hdot]
      by_cases hnone : p.currentLength = -1
      · rw [if_pos hnone]
        rfl
      · rw [if_neg hnone]
        refine ⟨hi, h.ascending, Nat.le_succ_of_le h.hi_le, h.denying, fun hcall => ?_⟩
        have hinside : ¬p.AtBoundary := fun hb => hnone hb.2.1
        obtain ⟨hlt, hle⟩ := h.start_of_inside hinside hcall
        exact ⟨Nat.lt_succ_of_lt hlt, .inl hle⟩
    · rw [if_neg hdot]
      rfl

/-- A byte of a value. -/
theorem Ranged.readData (h : Ranged i hi p l) (hstate : p.state = .readingData) :
    KeepsRanges i p ({ p with currentIndex := i }.readData c l) := by
  rw [OpcodeParser.readData]
  split_ifs
  · rfl
  all_goals
    refine ⟨hi, h.ascending, Nat.le_succ_of_le h.hi_le, h.denying, fun hcall => ?_⟩
    have hinside : ¬p.AtBoundary := fun hb => by cases hstate.symm.trans hb.1
    obtain ⟨hlt, hle⟩ := h.start_of_inside hinside hcall
    exact ⟨Nat.lt_succ_of_lt hlt, .inl hle⟩

/-- The delimiter of an element. A semicolon ends the range of a denied instruction. -/
theorem keeps_closeElement (hranges : Ascending 0 p.deniedRanges hi) (hle : hi ≤ i)
    (hdenying : l.denying = true → l.opcodeInThisCall = true ∧ p.readingOpcode = false)
    (hstart : l.opcodeInThisCall = true → p.opcodeStartIdx < i ∧ hi ≤ p.opcodeStartIdx)
    (q : OpcodeParser σ) : KeepsRanges i q (p.closeElement H i c l) := by
  rw [closeElement]
  by_cases hsemi : c = semicolon
  · rw [if_pos hsemi]
    by_cases hden : l.denying = true
    · obtain ⟨hlt, hhi⟩ := hstart (hdenying hden).1
      rw [if_pos hden]
      -- the length of the range is no `size_t` that has wrapped: its start lies in front of `i`
      have hnew := (hranges.mono hhi).append_singleton (Nat.succ_pos (i - p.opcodeStartIdx))
      have hend : p.opcodeStartIdx + (i - p.opcodeStartIdx + 1) = i + 1 := by omega
      rw [hend] at hnew
      refine ⟨i + 1, hnew, le_rfl, fun hno => ?_, fun _ => ?_⟩
      · cases hno
      · exact ⟨Nat.lt_succ_of_lt hlt, .inr ⟨rfl, rfl, rfl⟩⟩
    · rw [if_neg hden]
      refine ⟨hi, hranges, Nat.le_succ_of_le hle, fun hyes => absurd hyes hden, fun hcall => ?_⟩
      exact ⟨Nat.lt_succ_of_lt (hstart hcall).1, .inl (hstart hcall).2⟩
  · rw [if_neg hsemi]
    refine ⟨hi, hranges, Nat.le_succ_of_le hle, hdenying, fun hcall => ?_⟩
    exact ⟨Nat.lt_succ_of_lt (hstart hcall).1, .inl (hstart hcall).2⟩

theorem Ranged.expectDelim (h : Ranged i hi p l) (hstate : p.state = .expectDelim) :
    KeepsRanges i p ({ p with currentIndex := i }.expectDelim H i c l) := by
  have hinside : ¬p.AtBoundary := fun hb => by cases hstate.symm.trans hb.1
  have hstart := h.start_of_inside hinside
  rw [OpcodeParser.expectDelim]
  dsimp only
  split_ifs with hdelim hden hallowed hcall
  · rfl
  · refine keeps_closeElement ?_ h.hi_le ?_ ?_ p
    · exact h.ascending
    · exact h.denying
    · exact hstart
  · refine keeps_closeElement ?_ h.hi_le ?_ ?_ p
    · exact h.ascending
    · exact fun hyes => absurd hyes hden
    · exact hstart
  · rfl
  · have hcall' : l.opcodeInThisCall = true := by simpa using hcall
    refine keeps_closeElement ?_ h.hi_le ?_ ?_ p
    · exact h.ascending
    · exact fun _ => ⟨hcall', rfl⟩
    · exact hstart

theorem Ranged.turn (h : Ranged i hi p l) (H : Hooks σ) (c : UInt8) :
    KeepsRanges i p (p.turn H i c l) := by
  cases hstate : p.state with
  | readingLength =>
    rw [turn_readingLength hstate]
    exact h.readLength
  | readingData =>
    rw [turn_readingData hstate]
    exact h.readData hstate
  | expectDelim =>
    rw [turn_expectDelim hstate]
    exact h.expectDelim hstate
  | streamCorrupted =>
    rw [OpcodeParser.turn, hstate]
    rfl
  | deniedData =>
    rw [OpcodeParser.turn, hstate]
    rfl

/-- The byte loop records ranges of its buffer only. -/
theorem Ranged.parseFrom (h : Ranged i hi p l) (H : Hooks σ) (data : Bytes) :
    Ascending 0 (p.parseFrom H i data l).2.deniedRanges (i + data.length) := by
  induction data generalizing i hi p l with
  | nil =>
    have hfinish : (p.finish l).2.deniedRanges = p.deniedRanges := by
      rw [OpcodeParser.finish]
      split_ifs <;> rfl
    rw [OpcodeParser.parseFrom, hfinish]
    exact h.ascending.mono h.hi_le
  | cons c data ih =>
    have hkeeps := h.turn H c
    have hlength : i + (c :: data).length = i + 1 + data.length := by
      rw [List.length_cons]
      omega
    rw [hlength]
    cases hturn : p.turn H i c l with
    | next q l' =>
      rw [hturn] at hkeeps
      obtain ⟨hi', hq⟩ := hkeeps
      rw [parseFrom_next hturn]
      exact ih hq
    | ret q =>
      rw [hturn] at hkeeps
      rw [parseFrom_ret hturn]
      have hranges : q.deniedRanges = p.deniedRanges := hkeeps
      have hbound : hi ≤ i + 1 + data.length := by
        have hle := h.hi_le
        omega
      show Ascending 0 q.deniedRanges _
      rw [hranges]
      exact h.ascending.mono hbound

/-- The ranges of a call are nonempty, disjoint and in order, and lie in its buffer. -/
theorem ascending_parse (H : Hooks σ) (p : OpcodeParser σ) (data : Bytes) :
    Ascending 0 (p.parse H data).2.deniedRanges data.length := by
  have hstart : Ranged 0 0 { p with deniedRanges := [] } {} := by
    refine ⟨le_rfl, le_rfl, fun hno => ?_, fun hno => ?_⟩
    · cases hno
    · cases hno
  have hloop := hstart.parseFrom H data
  rwa [Nat.zero_add] at hloop

/-- What is left of a buffer is no longer than the buffer. -/
theorem length_excised_le (H : Hooks σ) (p : OpcodeParser σ) (data : Bytes) :
    let q := (p.parse H data).2
    ((q.excise data data.length).1.take (q.excise data data.length).2.1).length ≤ data.length := by
  intro q
  rw [excise_eq_remove q data (ascending_parse H p data), remove, List.length_map]
  refine (List.length_filter_le _ _).trans ?_
  rw [List.length_zipIdx]

end

end OpcodeParser

end GuacamoleDiode

import GuacamoleDiode.Parser.OpcodeParser
import GuacamoleDiode.Lib.Decimal

/-!
# Watching a stream that may be broken

The fakers watch traffic that is not theirs to police. They skip a byte that corrupts
the stream, start over behind it and keep looking for instructions. Whatever bytes they
are fed, their hooks only ever see elements that fit into the buffer, so that a property
of the members that the hooks keep holds throughout.
-/

namespace GuacamoleDiode

open Wire

variable {σ : Type}

/-- The loop of the fakers: resync behind a byte that corrupts the stream. Every turn
drops at least one byte, so the length of the data is fuel enough. -/
def OpcodeParser.resync (H : Hooks σ) : ℕ → OpcodeParser σ → Bytes → OpcodeParser σ
  | 0, p, _ => p
  | fuel + 1, p, data =>
    if data = [] then p
    else
      let r := p.parse H data
      if r.1 = .streamCorrupted then
        resync H fuel r.2.reset (data.drop (r.2.currentIndex + 1))
      else r.2

/-- The hooks keep a property of the members of the subclass. -/
structure Hooks.Keep (H : Hooks σ) (P : σ → Prop) : Prop where
  onInstructionBegin : ∀ v s, Fits maxElementSize v → P s → P (H.onInstructionBegin v s).2
  onArgument : ∀ v s, Fits maxElementSize v → P s → P (H.onArgument v s).2
  onInstructionEnd : ∀ i s, P s → P (H.onInstructionEnd i s)

/-- The parser at the end of a turn. -/
def Turn.parser : Turn σ → OpcodeParser σ
  | .next p _ => p
  | .ret p => p

namespace OpcodeParser

/-- The stored bytes are ASCII, and the members have the property. -/
def Kept (P : σ → Prop) (p : OpcodeParser σ) : Prop :=
  (∀ b ∈ p.elementBuffer, b ≤ 127) ∧ P p.members

variable {H : Hooks σ} {P : σ → Prop} {p : OpcodeParser σ}

theorem Kept.fits_element (h : p.Kept P) : Fits maxElementSize p.element := by
  refine ⟨?_, fun b hb => h.1 b (List.mem_of_mem_take hb)⟩
  rw [element, List.length_take]
  omega

theorem Kept.readLength (h : p.Kept P) (i : ℕ) (c : UInt8) (l : Call) :
    (p.readLength H i c l).parser.Kept P := by
  unfold OpcodeParser.readLength
  by_cases hc : isDigit c = true
  · rw [if_pos hc]
    dsimp only
    generalize (if (p.currentLength == -1) = true then 0 else p.currentLength) * 10 +
      (digitValue c : ℤ) = length
    split
    · exact h
    · exact h
  · rw [if_neg hc]
    split
    · split
      · exact h
      · exact ⟨by simp [Turn.parser], h.2⟩
    · exact h

theorem Kept.readData (h : p.Kept P) (c : UInt8) (l : Call) :
    (p.readData c l).parser.Kept P := by
  unfold OpcodeParser.readData
  by_cases hbad : p.currentRead < maxElementSize ∧ 127 < c
  · rw [if_pos hbad]
    exact h
  · rw [if_neg hbad]
    refine ⟨?_, h.2⟩
    by_cases hlt : p.currentRead < maxElementSize
    · have hc : c ≤ 127 := UInt8.not_lt.mp fun hc => hbad ⟨hlt, hc⟩
      simpa [Turn.parser, if_pos hlt, or_imp, forall_and] using ⟨h.1, hc⟩
    · simpa only [Turn.parser, if_neg hlt] using h.1

theorem Kept.closeElement (hH : H.Keep P) (h : p.Kept P) (i : ℕ) (c : UInt8) (l : Call) :
    (p.closeElement H i c l).parser.Kept P := by
  unfold OpcodeParser.closeElement
  dsimp only
  split_ifs
  · exact h
  · exact ⟨h.1, hH.onInstructionEnd i _ h.2⟩
  · exact h

theorem Kept.callHook (hH : H.Keep P) (h : p.Kept P) : P (p.callHook H).2 := by
  unfold OpcodeParser.callHook
  split_ifs
  · exact hH.onInstructionBegin _ _ h.fits_element h.2
  · exact hH.onArgument _ _ h.fits_element h.2

theorem Kept.expectDelim (hH : H.Keep P) (h : p.Kept P) (i : ℕ) (c : UInt8) (l : Call) :
    (p.expectDelim H i c l).parser.Kept P := by
  have hcalled : ∀ b, ({ p with members := (p.callHook H).2, readingOpcode := b } :
      OpcodeParser σ).Kept P := fun _ => ⟨h.1, h.callHook hH⟩
  unfold OpcodeParser.expectDelim
  dsimp only
  split_ifs
  · exact h
  · exact h.closeElement hH i c l
  · exact (hcalled false).closeElement hH i c l
  · exact hcalled p.readingOpcode
  · exact (hcalled false).closeElement hH i c _

/-- One turn of the byte loop keeps what the hooks keep. -/
theorem Kept.turn (hH : H.Keep P) (h : p.Kept P) (i : ℕ) (c : UInt8) (l : Call) :
    (p.turn H i c l).parser.Kept P := by
  have hi : ({ p with currentIndex := i } : OpcodeParser σ).Kept P := h
  unfold OpcodeParser.turn
  split
  · exact hi.readLength i c l
  · exact hi.readData c l
  · exact hi.expectDelim hH i c l
  · exact h
  · exact h

theorem Kept.parseFrom (hH : H.Keep P) (data : Bytes) {i : ℕ} (h : p.Kept P) {l : Call} :
    (p.parseFrom H i data l).2.Kept P := by
  induction data generalizing i p l with
  | nil =>
    unfold OpcodeParser.parseFrom finish
    split_ifs <;> exact h
  | cons c data ih =>
    have hturn := h.turn hH i c l
    unfold OpcodeParser.parseFrom
    cases hr : p.turn H i c l with
    | next p' l' =>
      rw [hr] at hturn
      exact ih hturn
    | ret p' =>
      rw [hr] at hturn
      exact hturn

/-- The bytes that a turn stores are ASCII. -/
theorem stored_of_turn {p' : OpcodeParser σ} {i : ℕ} {c : UInt8} {l l' : Call}
    (h : ∀ b ∈ p.elementBuffer, b ≤ 127) (hturn : p.turn H i c l = .next p' l') :
    ∀ b ∈ p'.elementBuffer, b ≤ 127 := by
  have hkeep : H.Keep fun _ => True :=
    ⟨fun _ _ _ _ => trivial, fun _ _ _ _ => trivial, fun _ _ _ => trivial⟩
  have hp : p.Kept fun _ => True := ⟨h, trivial⟩
  have hkept := hp.turn hkeep i c l
  rw [hturn] at hkept
  exact hkept.1

/-- Whatever bytes a faker is fed, its members keep what the hooks keep. -/
theorem Kept.resync (hH : H.Keep P) (fuel : ℕ) (data : Bytes) (h : p.Kept P) :
    (p.resync H fuel data).Kept P := by
  induction fuel generalizing p data with
  | zero => exact h
  | succ fuel ih =>
    have hparse : (p.parse H data).2.Kept P :=
      Kept.parseFrom (p := { p with deniedRanges := [] }) hH data h
    unfold OpcodeParser.resync
    dsimp only
    split_ifs
    · exact h
    · exact ih _ hparse
    · exact hparse

end OpcodeParser

end GuacamoleDiode

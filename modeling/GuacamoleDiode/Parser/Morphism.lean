import GuacamoleDiode.Parser.Calls
import GuacamoleDiode.Parser.Resync

/-!
# Parser classes that differ in their members

Two parser classes whose hooks allow the same, and whose members stay related by a function,
frame every stream alike. The byte loop can also be watched in the middle of a piece: the
members there are those that a call for the first part of the piece leaves.

## Main definitions

- `Hooks.Morphism`: the hooks of one class do to the images what those of the other do
- `OpcodeParser.through`: the byte loop over the first part of a piece

## Main results

- `Hooks.Morphism.parse`
- `OpcodeParser.members_through`
-/

namespace GuacamoleDiode

open Wire

variable {σ τ : Type}

/-- The members of the subclass, seen through a function. -/
@[reducible] def OpcodeParser.map (f : σ → τ) (p : OpcodeParser σ) : OpcodeParser τ where
  state := p.state
  currentIndex := p.currentIndex
  currentLength := p.currentLength
  currentRead := p.currentRead
  readingOpcode := p.readingOpcode
  elementBuffer := p.elementBuffer
  opcodeStartIdx := p.opcodeStartIdx
  deniedRanges := p.deniedRanges
  members := f p.members

def Turn.map (f : σ → τ) : Turn σ → Turn τ
  | .next p l => .next (p.map f) l
  | .ret p => .ret (p.map f)

/-- The hooks `K` do to the images of the members what the hooks `H` do to the members. -/
structure Hooks.Morphism (H : Hooks σ) (K : Hooks τ) (f : σ → τ) : Prop where
  onInstructionBegin : ∀ v s,
    K.onInstructionBegin v (f s) = ((H.onInstructionBegin v s).1, f (H.onInstructionBegin v s).2)
  onArgument : ∀ v s, K.onArgument v (f s) = ((H.onArgument v s).1, f (H.onArgument v s).2)
  onInstructionEnd : ∀ i s, K.onInstructionEnd i (f s) = f (H.onInstructionEnd i s)
  tolerates : K.toleratesOversizedElements = H.toleratesOversizedElements

namespace Hooks.Morphism

open OpcodeParser

variable {H : Hooks σ} {K : Hooks τ} {f : σ → τ}

theorem callHook (h : H.Morphism K f) (p : OpcodeParser σ) :
    (p.map f).callHook K = ((p.callHook H).1, f (p.callHook H).2) := by
  unfold OpcodeParser.callHook
  show (if p.readingOpcode = true then K.onInstructionBegin p.element (f p.members)
    else K.onArgument p.element (f p.members)) = _
  split_ifs
  · exact h.onInstructionBegin _ _
  · exact h.onArgument _ _

theorem closeElement (h : H.Morphism K f) (i : ℕ) (c : UInt8) (p : OpcodeParser σ) (l : Call) :
    (p.map f).closeElement K i c l = (p.closeElement H i c l).map f := by
  unfold OpcodeParser.closeElement
  dsimp only
  split_ifs
  · rfl
  · simp only [Turn.map, OpcodeParser.map, h.onInstructionEnd]
  · rfl

theorem readLength (h : H.Morphism K f) (i : ℕ) (c : UInt8) (p : OpcodeParser σ) (l : Call) :
    (p.map f).readLength K i c l = (p.readLength H i c l).map f := by
  unfold OpcodeParser.readLength
  rw [h.tolerates]
  dsimp only [OpcodeParser.map]
  split_ifs <;> rfl

theorem readData (c : UInt8) (p : OpcodeParser σ) (l : Call) :
    (p.map f).readData c l = (p.readData c l).map f := by
  unfold OpcodeParser.readData
  dsimp only [OpcodeParser.map]
  split_ifs <;> rfl

theorem expectDelim (h : H.Morphism K f) (i : ℕ) (c : UInt8) (p : OpcodeParser σ) (l : Call) :
    (p.map f).expectDelim K i c l = (p.expectDelim H i c l).map f := by
  unfold OpcodeParser.expectDelim
  rw [h.callHook]
  dsimp only
  split_ifs
  · rfl
  · exact h.closeElement i c p l
  · exact h.closeElement i c { p with members := (p.callHook H).2, readingOpcode := false } l
  · rfl
  · exact h.closeElement i c { p with members := (p.callHook H).2, readingOpcode := false }
      { l with denying := true }

theorem turn (h : H.Morphism K f) (i : ℕ) (c : UInt8) (p : OpcodeParser σ) (l : Call) :
    (p.map f).turn K i c l = (p.turn H i c l).map f := by
  have hkept : (p.map f).state = p.state := rfl
  cases hstate : p.state with
  | readingLength =>
    rw [turn_readingLength (hkept.trans hstate), turn_readingLength hstate]
    exact h.readLength i c { p with currentIndex := i } l
  | readingData =>
    rw [turn_readingData (hkept.trans hstate), turn_readingData hstate]
    exact readData c { p with currentIndex := i } l
  | expectDelim =>
    rw [turn_expectDelim (hkept.trans hstate), turn_expectDelim hstate]
    exact h.expectDelim i c { p with currentIndex := i } l
  | streamCorrupted => simp only [OpcodeParser.turn, hstate, Turn.map]
  | deniedData => simp only [OpcodeParser.turn, hstate, Turn.map]

theorem parseFrom (h : H.Morphism K f) (data : Bytes) (i : ℕ) (p : OpcodeParser σ) (l : Call) :
    (p.map f).parseFrom K i data l =
      ((p.parseFrom H i data l).1, (p.parseFrom H i data l).2.map f) := by
  induction data generalizing i p l with
  | nil =>
    unfold OpcodeParser.parseFrom finish
    show (if l.denying = true then _ else if p.deniedRanges ≠ [] then _ else _) = _
    split_ifs <;> rfl
  | cons c data ih =>
    unfold OpcodeParser.parseFrom
    rw [h.turn]
    cases p.turn H i c l with
    | next p' l' => exact ih (i + 1) p' l'
    | ret p' => rfl

/-- Related classes parse alike. -/
theorem parse (h : H.Morphism K f) (p : OpcodeParser σ) (data : Bytes) :
    (p.map f).parse K data = ((p.parse H data).1, (p.parse H data).2.map f) :=
  h.parseFrom data 0 { p with deniedRanges := [] } {}

end Hooks.Morphism

namespace OpcodeParser

variable {H : Hooks σ}

/-- The byte loop over the first part of a piece. -/
def through (H : Hooks σ) : ℕ → Bytes → OpcodeParser σ → Call → Turn σ
  | _, [], p, l => .next p l
  | i, c :: cs, p, l =>
    match p.turn H i c l with
    | .next p l => through H (i + 1) cs p l
    | .ret p => .ret p

/-- The byte loop goes on behind the first part of a piece. -/
theorem parseFrom_append (u v : Bytes) (i : ℕ) (p : OpcodeParser σ) (l : Call) :
    p.parseFrom H i (u ++ v) l =
      match p.through H i u l with
      | .next p l => p.parseFrom H (i + u.length) v l
      | .ret p => (p.state, p) := by
  induction u generalizing i p l with
  | nil => rfl
  | cons c u ih =>
    rw [List.cons_append, parseFrom, through]
    cases p.turn H i c l with
    | next p' l' =>
      have hidx : i + (c :: u).length = i + 1 + u.length := by
        rw [List.length_cons]
        omega
      rw [hidx]
      exact ih (i + 1) p' l'
    | ret p' => rfl

theorem members_finish (p : OpcodeParser σ) (l : Call) : (p.finish l).2.members = p.members := by
  unfold finish
  split_ifs <;> rfl

/-- The members in the middle of a piece are those that a call for its first part leaves. -/
theorem members_through (u : Bytes) (i : ℕ) (p : OpcodeParser σ) (l : Call) :
    (p.through H i u l).parser.members = (p.parseFrom H i u l).2.members := by
  have happend := parseFrom_append (H := H) u [] i p l
  rw [List.append_nil] at happend
  rw [happend]
  cases p.through H i u l with
  | next p' l' => exact (members_finish p' l').symm
  | ret p' => rfl

end OpcodeParser

end GuacamoleDiode

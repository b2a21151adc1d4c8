import GuacamoleDiode.Parser.Lengths
import GuacamoleDiode.Guard.GuardOpcodeParser
import GuacamoleDiode.Gmlbroker.ReadHandler
import GuacamoleDiode.Gmlbroker.ReturnFilter
import GuacamoleDiode.Gcdbroker.SyncFaker

/-!
# The length arithmetic of every parser class

Six classes derive from `OpcodeParser`. They differ in their hooks and in what a call does besides
parsing: a faker starts over behind a byte that corrupts the stream, the keepalive filter starts
over at the next read, the return filter stops parsing once it is piping.

## Main definitions

- `ParserClass`: a class, with the turns of the byte loop in one of its calls
- `Subclass`: the six classes of the repository

## Main results

- `Subclass.exact_iff`
-/

namespace GuacamoleDiode

open Wire

/-- A class that derives from `OpcodeParser`. An object has a base part, and a call makes some
turns of the byte loop. -/
structure ParserClass where
  Members : Type
  Object : Type
  hooks : Hooks Members
  parser : Object → OpcodeParser Members
  fresh : Object
  /-- `Parse`, `Feed` or `Filter` -/
  call : Object → Bytes → Object
  turns : Object → Bytes → List (Step Members)

namespace ParserClass

/-- The turns of all calls. -/
def turnsAll (C : ParserClass) : C.Object → List Bytes → List (Step C.Members)
  | _, [] => []
  | o, data :: pieces => C.turns o data ++ C.turnsAll (C.call o data) pieces

/-- The turns of all calls on a new object. -/
def run (C : ParserClass) (pieces : List Bytes) : List (Step C.Members) := C.turnsAll C.fresh pieces

end ParserClass

/-- The classes that derive from `OpcodeParser`. -/
inductive Subclass where
  | guardOpcodeParser
  | handshakeForger
  | returnFilter
  | forwardKeepaliveFilter
  | clipboardAckFaker
  | syncFaker
  deriving DecidableEq, Repr

namespace Subclass

/-- `GuardOpcodeParser`. -/
def guardClass : ParserClass where
  Members := GuardMembers
  Object := OpcodeParser GuardMembers
  hooks := GuardOpcodeParser.hooks
  parser p := p
  fresh := GuardOpcodeParser.fresh
  call p data := (p.parse GuardOpcodeParser.hooks data).2
  turns p data := p.steps GuardOpcodeParser.hooks data

/-- `HandshakeForger`, which makes up the ids `ids`. -/
def forgerClass (ids : ℕ → Bytes) : ParserClass where
  Members := ForgerMembers
  Object := HandshakeForger
  hooks := HandshakeForger.hooks ids
  parser f := f.parser
  fresh := {}
  call f data := (f.feed ids data).2
  turns f data := { f.parser with members := { f.parser.members with out := [] } }.steps
    (HandshakeForger.hooks ids) data

/-- The turns of `ReturnFilter::Feed`, which parses nothing once it is piping. -/
def returnTurns (p : OpcodeParser ReturnMembers) (data : Bytes) : List (Step ReturnMembers) :=
  if p.members.piping then []
  else { p with members := { p.members with readyEnd := 0 } }.steps ReturnFilter.hooks data

/-- `ReturnFilter`. -/
def returnClass : ParserClass where
  Members := ReturnMembers
  Object := OpcodeParser ReturnMembers
  hooks := ReturnFilter.hooks
  parser p := p
  fresh := ReturnFilter.fresh
  call p data := (ReturnFilter.feed p data).2
  turns := returnTurns

/-- `ForwardKeepaliveFilter`. -/
def keepaliveClass : ParserClass where
  Members := Unit
  Object := OpcodeParser Unit
  hooks := ForwardKeepaliveFilter.hooks
  parser p := p
  fresh := ForwardKeepaliveFilter.fresh
  call p data := (ForwardKeepaliveFilter.filter p data).2
  turns p data := p.steps ForwardKeepaliveFilter.hooks data

/-- `ClipboardAckFaker`. -/
def ackClass : ParserClass where
  Members := ClipboardAckMembers
  Object := OpcodeParser ClipboardAckMembers
  hooks := ClipboardAckFaker.hooks
  parser p := p
  fresh := { members := {} }
  call p data := (ClipboardAckFaker.feed p data).2
  turns p data := ({ p with members := { p.members with acks := [] } } : OpcodeParser _).resyncSteps
    ClipboardAckFaker.hooks data.length data

/-- `SyncFaker`. -/
def syncClass : ParserClass where
  Members := SyncMembers
  Object := OpcodeParser SyncMembers
  hooks := SyncFaker.hooks
  parser p := p
  fresh := SyncFaker.fresh
  call p data := (SyncFaker.feed p data).2
  turns p data := ({ p with members := { p.members with echoes := [] } } : OpcodeParser _).resyncSteps
    SyncFaker.hooks data.length data

/-- The class of a name. -/
def parserClass (ids : ℕ → Bytes) : Subclass → ParserClass
  | guardOpcodeParser => guardClass
  | handshakeForger => forgerClass ids
  | returnFilter => returnClass
  | forwardKeepaliveFilter => keepaliveClass
  | clipboardAckFaker => ackClass
  | syncFaker => syncClass

end Subclass

-- ════════════════════════════════════════════════════════════════════════
-- One call of each class
-- ════════════════════════════════════════════════════════════════════════

/-- The base part keeps track of the turns of every call. -/
structure ParserClass.Lawful (C : ParserClass) : Prop where
  fresh : (C.parser C.fresh).currentLength = -1
  call : ∀ (steps : List (Step C.Members)) (o : C.Object) (data : Bytes),
    OpcodeParser.Traced C.hooks steps (C.parser o) →
      OpcodeParser.Traced C.hooks (steps ++ C.turns o data) (C.parser (C.call o data))

theorem ParserClass.Lawful.turnsAll {C : ParserClass} (hC : C.Lawful) {steps : List (Step C.Members)}
    {o : C.Object} (h : OpcodeParser.Traced C.hooks steps (C.parser o)) (pieces : List Bytes) :
    ∃ q, OpcodeParser.Traced C.hooks (steps ++ C.turnsAll o pieces) q := by
  induction pieces generalizing steps o with
  | nil =>
    rw [ParserClass.turnsAll, List.append_nil]
    exact ⟨C.parser o, h⟩
  | cons data pieces ih =>
    rw [ParserClass.turnsAll, ← List.append_assoc]
    exact ih (hC.call steps o data h)

namespace Subclass

open OpcodeParser

variable {σ : Type} {H : Hooks σ} {steps : List (Step σ)} {p : OpcodeParser σ}

/-- The members of the subclass do not concern the framing. -/
theorem traced_members (h : Traced H steps p) (m : σ) : Traced H steps { p with members := m } :=
  h.congr fun hstate => .inr ⟨hstate, rfl⟩

theorem lawful_guardClass : guardClass.Lawful :=
  ⟨rfl, fun _ _ data h => h.parse data⟩

theorem lawful_forgerClass (ids : ℕ → Bytes) : (forgerClass ids).Lawful := by
  refine ⟨rfl, fun steps f data h => ?_⟩
  have hparse := (traced_members h { f.parser.members with out := [] }).parse data
  apply hparse.congr
  intro hstate
  right
  dsimp only [forgerClass, HandshakeForger.feed] at hstate ⊢
  split_ifs at hstate ⊢ <;> exact ⟨hstate, rfl⟩

theorem traced_returnFeed {steps : List (Step ReturnMembers)} {p : OpcodeParser ReturnMembers}
    (h : Traced ReturnFilter.hooks steps p) (data : Bytes) :
    Traced ReturnFilter.hooks (steps ++ returnTurns p data) (ReturnFilter.feed p data).2 := by
  have hparse := (traced_members h { p.members with readyEnd := 0 }).parse data
  rw [ReturnFilter.feed, returnTurns]
  by_cases hpiping : p.members.piping = true
  · rw [if_pos hpiping, if_pos hpiping, List.append_nil]
    exact h
  · rw [if_neg hpiping, if_neg hpiping]
    dsimp only
    split_ifs <;> exact hparse

theorem lawful_returnClass : returnClass.Lawful :=
  ⟨rfl, fun _ _ data h => traced_returnFeed h data⟩

theorem lawful_keepaliveClass : keepaliveClass.Lawful := by
  refine ⟨rfl, fun steps p data h => ?_⟩
  have hparse := h.parse data
  dsimp only [keepaliveClass]
  by_cases hcorrupt : (p.parse ForwardKeepaliveFilter.hooks data).1 = .streamCorrupted
  · rw [ForwardKeepaliveFilter.filter_of_corrupted hcorrupt]
    exact hparse.reset
  · rw [ForwardKeepaliveFilter.filter_of_excised hcorrupt]
    apply hparse.congr
    intro hstate
    right
    dsimp only [excise] at hstate ⊢
    split_ifs at hstate ⊢ <;> exact ⟨hstate, rfl⟩

theorem lawful_ackClass : ackClass.Lawful :=
  ⟨rfl, fun _ p data h => (traced_members h { p.members with acks := [] }).resync data.length data⟩

theorem lawful_syncClass : syncClass.Lawful :=
  ⟨rfl, fun _ p data h => (traced_members h { p.members with echoes := [] }).resync data.length data⟩

theorem lawful (ids : ℕ → Bytes) (C : Subclass) : (C.parserClass ids).Lawful := by
  cases C with
  | guardOpcodeParser => exact lawful_guardClass
  | handshakeForger => exact lawful_forgerClass ids
  | returnFilter => exact lawful_returnClass
  | forwardKeepaliveFilter => exact lawful_keepaliveClass
  | clipboardAckFaker => exact lawful_ackClass
  | syncFaker => exact lawful_syncClass

/-- Whatever an object of one of the classes is fed, and however it is cut into calls: no
evaluation overflows and the length is the number of its digits, unless the class tolerates
oversized elements and is fed a length that 64 bits cannot hold. -/
theorem exact_iff (ids : ℕ → Bytes) (C : Subclass) (pieces : List Bytes) :
    LengthsExact ((C.parserClass ids).run pieces) ↔
      ((C.parserClass ids).hooks.toleratesOversizedElements = true →
        Moderate ((C.parserClass ids).run pieces)) := by
  have hlawful := lawful ids C
  obtain ⟨q, hq⟩ := hlawful.turnsAll (traced_nil hlawful.fresh) pieces
  exact hq.lengthsExact_iff

/-- `2 ^ 63` in decimal notation. -/
def nineteenDigits : Bytes := ascii "9223372036854775808"

/-- One call with nineteen digits overflows in the faker that watches guacd. -/
theorem not_exact_nineteenDigits :
    ¬∀ (ids : ℕ → Bytes) (C : Subclass) (pieces : List Bytes),
      LengthsExact ((C.parserClass ids).run pieces) := by
  intro hclaim
  have hexact := hclaim (fun _ => []) syncFaker [nineteenDigits]
  have hoverflow : ∃ s ∈ (syncFaker.parserClass fun _ => []).run [nineteenDigits],
      s.1.evaluation s.2 = some 9223372036854775808 := by
    decide +kernel
  obtain ⟨s, hs, hvalue⟩ := hoverflow
  exact absurd (hexact.in_range s hs _ hvalue) (by decide)

end Subclass

end GuacamoleDiode

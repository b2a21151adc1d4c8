import GuacamoleDiode.Parser.Resync

/-!
# Faked sync acknowledgements

The guard blocks the `sync` of the client, so a faker watches the output of guacd and
answers every `sync` that it finds with the same timestamp. Whatever guacd sends, the
answers are whole instructions.
-/

namespace GuacamoleDiode

open Wire

/-- The members that `SyncFaker` adds to its base. -/
structure SyncMembers where
  /-- the current instruction is a `sync` -/
  isSync : Bool := false
  /-- 1-based index of the argument being parsed -/
  argIndex : ℕ := 0
  /-- the timestamp argument of the `sync` -/
  timestamp : Bytes := []
  /-- replies accumulated during the current `feed` -/
  echoes : Bytes := []
  deriving DecidableEq, Repr

namespace SyncFaker

def onInstructionBegin (instr : Bytes) (m : SyncMembers) : Bool × SyncMembers :=
  (true, { m with isSync := instr == ascii "sync", argIndex := 0, timestamp := [] })

def onArgument (arg : Bytes) (m : SyncMembers) : Bool × SyncMembers :=
  let m := { m with argIndex := m.argIndex + 1 }
  -- a sync carries a single argument: its timestamp
  (true, if m.isSync = true ∧ m.argIndex = 1 then { m with timestamp := arg } else m)

/-- The ack of a client for a timestamp. -/
def echo (timestamp : Bytes) : Bytes :=
  ascii "4.sync," ++ decimal timestamp.length ++ dot :: timestamp ++ [semicolon]

def onInstructionEnd (m : SyncMembers) : SyncMembers :=
  if m.isSync = true ∧ m.timestamp ≠ [] then { m with echoes := m.echoes ++ echo m.timestamp }
  else m

def hooks : Hooks SyncMembers where
  onInstructionBegin := onInstructionBegin
  onArgument := onArgument
  onInstructionEnd := fun _ => onInstructionEnd
  toleratesOversizedElements := true

/-- A new faker. -/
def fresh : OpcodeParser SyncMembers := { members := {} }

/-- `SyncFaker::Feed`: the replies to send back to guacd, and the faker. -/
def feed (p : OpcodeParser SyncMembers) (data : Bytes) : Bytes × OpcodeParser SyncMembers :=
  let p := ({ p with members := { p.members with echoes := [] } } : OpcodeParser _).resync hooks
    data.length data
  (p.members.echoes, p)

/-- A timestamp that can be acknowledged. -/
abbrev Timestamp := { ts : Bytes // ts ≠ [] ∧ Fits maxElementSize ts }

theorem fits_sync : Fits maxElementSize (ascii "sync") := by decide +kernel

/-- The ack of a client as an instruction. -/
def ack (ts : Timestamp) : Instruction maxElementSize :=
  .ofValues [ascii "sync", ts.1] (by simp) (by simpa using ⟨fits_sync, ts.2.2⟩)

theorem encode_ack (ts : Timestamp) : (ack ts).encode = echo ts.1 := by
  have hlen : decimal (ascii "sync").length = ascii "4" := by decide
  simp only [ack, Instruction.encode, Instruction.ofValues, List.pmap, encodeElements,
    Element.body, Element.ofValue, hlen, echo]
  rfl

/-- A sequence of acks. -/
def Acks (w : Bytes) : Prop := ∃ tss : List Timestamp, w = wire (tss.map ack)

theorem acks_nil : Acks [] := ⟨[], rfl⟩

theorem Acks.append_echo {w ts : Bytes} (h : Acks w) (hne : ts ≠ []) (hts : Fits maxElementSize ts) :
    Acks (w ++ echo ts) := by
  obtain ⟨tss, rfl⟩ := h
  refine ⟨tss ++ [⟨ts, hne, hts⟩], ?_⟩
  rw [List.map_append, wire_append, List.map_singleton, wire_cons, wire_nil, List.append_nil,
    encode_ack]

/-- The timestamp fits into an element, and the replies so far are acks. -/
def Echoing (m : SyncMembers) : Prop := Fits maxElementSize m.timestamp ∧ Acks m.echoes

theorem hooks_keep_echoing : hooks.Keep Echoing where
  onInstructionBegin _ _ _ h := ⟨by simp [hooks, onInstructionBegin, Fits], h.2⟩
  onArgument v m hv h := by
    simp only [hooks, onArgument]
    split_ifs
    · exact ⟨hv, h.2⟩
    · exact h
  onInstructionEnd _ m h := by
    simp only [hooks, onInstructionEnd]
    split_ifs with hm
    · exact ⟨h.1, h.2.append_echo hm.2 h.1⟩
    · exact h

theorem kept_fresh : fresh.Kept Echoing := ⟨by simp [fresh], ⟨by simp [fresh, Fits], acks_nil⟩⟩

/-- Whatever guacd sends, the replies are acks. -/
theorem feed_spec {p : OpcodeParser SyncMembers} (h : p.Kept Echoing) (data : Bytes) :
    Acks (feed p data).1 ∧ (feed p data).2.Kept Echoing := by
  have hcleared : ({ p with members := { p.members with echoes := [] } } :
      OpcodeParser SyncMembers).Kept Echoing := ⟨h.1, h.2.1, acks_nil⟩
  have hkept := hcleared.resync hooks_keep_echoing data.length data
  exact ⟨hkept.2.2, hkept⟩

end SyncFaker

end GuacamoleDiode

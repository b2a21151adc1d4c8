import GuacamoleDiode.Guard.Loop
import GuacamoleDiode.Gmlbroker.Broker
import GuacamoleDiode.Gcdbroker.Broker

/-!
# Datagrams that do not fit

Each of the three programs receives into a buffer of its own and hands to `tryCast` what has
arrived there. The length that `tryCast` checks is therefore that of the buffer's contents, and
not that of the datagram.

## Main definitions

- `Program.receive`: the message that a program makes of a datagram
- `Program.Faithful`: the datagram is taken whole, or not at all

## Main results

- `Program.faithful_iff`
-/

namespace GuacamoleDiode

open Wire

/-- The programs that receive datagrams. -/
inductive Program where
  | guard
  | gmlbroker
  | gcdbroker
  deriving DecidableEq, Repr

namespace Program

/-- The message that a program makes of a datagram, if it does not drop it. -/
def receive : Program → Bytes → Option BridgeMessage
  | .guard, data => Multiplexer.tryCast (UDPReceiver.receive Guard.bufferSize data)
  | .gmlbroker, data => Gmlbroker.arrival (.datagram data)
  | .gcdbroker, data => Gcdbroker.arrival (.datagram data)

/-- A program goes on as if the datagram had not come, whatever its state. -/
def Unaffected : Program → Bytes → Prop
  | .guard, data => ∀ g : Guard, g.receiving = true →
    g.step (.datagram data) = ({ g with receiving := false }, [])
  | .gmlbroker, data => ∀ ids (s : Gmlbroker), s.step ids (.datagram data) = (s, [])
  | .gcdbroker, data => ∀ s : Gcdbroker, s.step (.datagram data) = (s, [])

/-- The payload of a datagram. -/
def payload (data : Bytes) : Bytes := data.drop Multiplexer.headerSize

/-- A datagram is taken with its whole payload, or it is dropped and changes nothing. A payload
that is too long is dropped. -/
structure Faithful (program : Program) (data : Bytes) : Prop where
  whole : ∀ msg, program.receive data = some msg → msg.payload = payload data
  dropped : program.receive data = none → program.Unaffected data
  oversized : Multiplexer.maxPayloadSize < (payload data).length → program.receive data = none

/-- All programs keep the buffers at one size, which leaves room for one full datagram. -/
theorem receive_eq (program : Program) (data : Bytes) :
    program.receive data = Multiplexer.tryCast (data.take Multiplexer.maxDatagramSize) := by
  cases program <;> rfl

/-- What is dropped leaves no trace. -/
theorem unaffected_of_dropped (program : Program) (data : Bytes) (h : program.receive data = none) :
    program.Unaffected data := by
  cases program with
  | guard =>
    have hcast : Multiplexer.tryCast (UDPReceiver.receive Guard.bufferSize data) = none := h
    intro g hg
    simp only [Guard.step, hg, if_true, Guard.handle, hcast]
  | gmlbroker =>
    have harrival : Gmlbroker.arrival (.datagram data) = none := h
    intro ids s
    simp only [Gmlbroker.step, harrival]
  | gcdbroker =>
    have harrival : Gcdbroker.arrival (.datagram data) = none := h
    intro s
    simp only [Gcdbroker.step, harrival]

/-- The flags byte survives the truncation. -/
theorem flags_take (data : Bytes) : (data.take Multiplexer.maxDatagramSize).getD 2 0 = data.getD 2 0 := by
  have hlt : 2 < Multiplexer.maxDatagramSize := by decide
  rw [List.getD_eq_getElem?_getD, List.getElem?_take_of_lt hlt, ← List.getD_eq_getElem?_getD]

/-- The message of a datagram that has been taken holds what has arrived of its payload. -/
theorem payload_of_receive {program : Program} {data : Bytes} {msg : BridgeMessage}
    (h : program.receive data = some msg) :
    msg.payload = (payload data).take Multiplexer.maxPayloadSize := by
  rw [receive_eq] at h
  have hserial := (Multiplexer.serialize_of_tryCast h).1
  have hpayload : msg.payload = (Multiplexer.serialize msg).drop Multiplexer.headerSize := rfl
  rw [hpayload, hserial, payload]
  exact List.take_drop.symm

/-- What is taken: a header without reserved bits and enough bytes for it. How long the datagram
is does not matter. -/
theorem isSome_receive_iff (program : Program) (data : Bytes) :
    (program.receive data).isSome = true ↔ 3 ≤ data.length ∧ data.getD 2 0 &&& 0x3F = 0 := by
  rw [receive_eq, Multiplexer.isSome_tryCast_iff, flags_take, List.length_take]
  show 3 ≤ min 1203 data.length ∧ min 1203 data.length ≤ 1203 ∧ _ ↔ _
  have hmin : min 1203 data.length ≤ 1203 := min_le_left 1203 data.length
  have hlen : 3 ≤ min 1203 data.length ↔ 3 ≤ data.length := by omega
  rw [hlen]
  exact and_congr_right fun _ => and_iff_right hmin

/-- A datagram is taken whole or not at all if and only if it fits into the buffer, or its header
sets reserved bits. Any other one is cut to the size of the buffer, and then it fits. -/
theorem faithful_iff (program : Program) (data : Bytes) :
    program.Faithful data ↔
      (payload data).length ≤ Multiplexer.maxPayloadSize ∨ data.getD 2 0 &&& 0x3F ≠ 0 := by
  have hlength : (payload data).length = data.length - 3 := List.length_drop
  have hmax : Multiplexer.maxPayloadSize = 1200 := rfl
  have hsome := isSome_receive_iff program data
  constructor
  · intro h
    by_contra hboth
    rw [not_or, not_le, not_not] at hboth
    have htaken := hsome.mpr ⟨by omega, hboth.2⟩
    rw [h.oversized hboth.1] at htaken
    cases htaken
  · intro h
    refine ⟨fun msg hmsg => ?_, unaffected_of_dropped program data, fun hlong => ?_⟩
    · rw [payload_of_receive hmsg]
      rw [hmsg] at hsome
      have hfits := h.resolve_right (not_not_intro (hsome.mp rfl).2)
      exact List.take_of_length_le hfits
    · have hflags := h.resolve_left (not_le.mpr hlong)
      rw [← Option.not_isSome_iff_eq_none, hsome]
      exact fun htaken => hflags htaken.2

/-- Payload for channel 1 that is one byte too long. -/
def oversized : Bytes := [0, 1, 0] ++ List.replicate 1201 120

/-- The guard takes the datagram, without its last byte. -/
theorem not_faithful_oversized :
    guard.receive oversized = some ⟨1, .none, List.replicate 1200 120⟩ ∧
      ¬guard.Faithful oversized := by
  have htaken : guard.receive oversized = some ⟨1, .none, List.replicate 1200 120⟩ := by
    decide +kernel
  refine ⟨htaken, fun h => ?_⟩
  have hdropped := h.oversized (by decide +kernel)
  rw [htaken] at hdropped
  cases hdropped

end Program

end GuacamoleDiode

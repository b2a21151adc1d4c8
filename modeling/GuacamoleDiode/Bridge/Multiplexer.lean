import GuacamoleDiode.Lib.Wire

/-!
# The bridge messages

Each message sent over the bridge is wrapped in a `BridgeMessage`: three header
bytes (the channel, big-endian, and a flags byte) followed by the payload. The top
two bits of the flags hold the action, the others are reserved and must be zero.
-/

namespace GuacamoleDiode

open Wire

/-- What a system needs to do when a message is received. -/
inductive ChannelAction where
  /-- the message carries payload for an existing channel -/
  | none
  | createChannel
  | shutdownChannel
  /-- the verdict on a channel -/
  | approval
  deriving DecidableEq, Repr

/-- The action, shifted into the top two bits of the flags byte. -/
def ChannelAction.flags : ChannelAction → UInt8
  | .none => 0
  | .createChannel => 64
  | .shutdownChannel => 128
  | .approval => 192

/-- The verdict characters in the first byte of an `approval` payload. -/
abbrev approvalApprove : UInt8 := 65

@[inherit_doc approvalApprove]
abbrev approvalDeny : UInt8 := 68

structure BridgeMessage where
  channel : UInt16 := 0
  action : ChannelAction := .none
  payload : Bytes := []
  deriving DecidableEq, Repr

/-- A SHUTDOWN of a channel. -/
def BridgeMessage.isShutdown (message : BridgeMessage) : Bool := message.action == .shutdownChannel

/-- How many of the messages are SHUTDOWNs. -/
def shutdowns (messages : List BridgeMessage) : ℕ := messages.countP BridgeMessage.isShutdown

@[simp] theorem shutdowns_nil : shutdowns [] = 0 := rfl

@[simp] theorem shutdowns_append (a b : List BridgeMessage) :
    shutdowns (a ++ b) = shutdowns a + shutdowns b :=
  List.countP_append

theorem shutdowns_cons (message : BridgeMessage) (messages : List BridgeMessage) :
    shutdowns (message :: messages) = shutdowns [message] + shutdowns messages :=
  shutdowns_append [message] messages

namespace Multiplexer

def headerSize : ℕ := 3

/-- Max size that a single payload over the bridge can ever be. -/
def maxPayloadSize : ℕ := 1200

/-- Max size of a full datagram. -/
def maxDatagramSize : ℕ := headerSize + maxPayloadSize

def actionMask : UInt8 := 0xC0

def reservedMask : UInt8 := 0x3F

/-- The on-wire representation of a message. -/
def serialize (message : BridgeMessage) : Bytes :=
  (message.channel >>> 8).toUInt8 :: (message.channel &&& 0xFF).toUInt8 ::
    message.action.flags :: message.payload

/-- The action in a flags byte. -/
def action (flags : UInt8) : Option ChannelAction :=
  if flags &&& actionMask = ChannelAction.none.flags then some .none
  else if flags &&& actionMask = ChannelAction.createChannel.flags then some .createChannel
  else if flags &&& actionMask = ChannelAction.shutdownChannel.flags then some .shutdownChannel
  else if flags &&& actionMask = ChannelAction.approval.flags then some .approval
  else none

/-- The message in a raw buffer. `none` when the buffer is too short, sets reserved bits,
has an unknown action or carries an oversized payload. -/
def tryCast : Bytes → Option BridgeMessage
  | hi :: lo :: flags :: payload =>
    if flags &&& reservedMask ≠ 0 then none
    else
      match action flags with
      | none => none
      | some action =>
        if maxPayloadSize < payload.length then none
        else some {
          channel := hi.toUInt16 <<< 8 ||| lo.toUInt16
          action := action
          payload := payload }
  | _ => none

/-- `tryCast` with its output parameter: whether the buffer is a message, and what `message`
holds afterwards. Its fields are written one by one, after the last check. -/
def tryCastInto (buffer : Bytes) (message : BridgeMessage) : Bool × BridgeMessage :=
  if buffer.length < headerSize then (false, message)
  else
    let channel := (buffer.getD 0 0).toUInt16 <<< 8 ||| (buffer.getD 1 0).toUInt16
    let flags := buffer.getD 2 0
    -- lower 6 bits are reserved and must be zero
    if flags &&& reservedMask ≠ 0 then (false, message)
    else
      match action flags with
      | none => (false, message)
      | some action =>
        let payloadLen := buffer.length - headerSize
        if maxPayloadSize < payloadLen then (false, message)
        else
          let message := { message with channel := channel }
          let message := { message with action := action }
          (true, { message with payload := (buffer.drop headerSize).take payloadLen })

/-- The flags byte of an action has no reserved bits and holds the action. -/
theorem action_flags (a : ChannelAction) :
    a.flags &&& reservedMask = 0 ∧ action a.flags = some a := by
  cases a <;> decide

/-- A flags byte without reserved bits is the flags byte of its action. -/
theorem flags_of_action {f : UInt8} (hres : f &&& reservedMask = 0) {a : ChannelAction}
    (h : action f = some a) : a.flags = f := by
  have hall : ∀ n < 256, (UInt8.ofNat n) &&& reservedMask = 0 → ∀ a, action (UInt8.ofNat n) = some a →
      a.flags = UInt8.ofNat n := by
    decide +kernel
  have := hall f.toNat f.toNat_lt
  rw [UInt8.ofNat_toNat] at this
  exact this hres a h

/-- The low byte of a number. -/
theorem and_255 (n : ℕ) : n &&& 255 = n % 256 := Nat.and_two_pow_sub_one_eq_mod n 8

/-- Two bytes side by side. -/
theorem join_eq_or (hi : ℕ) {lo : ℕ} (h : lo < 256) : hi * 256 ||| lo = hi * 256 + lo := by
  have := Nat.shiftLeft_add_eq_or_of_lt (i := 8) h hi
  rw [Nat.shiftLeft_eq] at this
  exact this.symm

theorem channel_join (c : UInt16) :
    (c >>> 8).toUInt8.toUInt16 <<< 8 ||| (c &&& 0xFF).toUInt8.toUInt16 = c := by
  apply UInt16.toNat_inj.mp
  have hc := c.toNat_lt
  have hhi : c.toNat / 256 % 256 * 256 % 65536 = c.toNat / 256 * 256 := by omega
  have hlo : c.toNat % 256 % 256 < 256 := Nat.mod_lt _ (by decide)
  simp only [UInt16.toNat_or, UInt16.toNat_shiftLeft, UInt16.toNat_shiftRight, UInt16.toNat_and,
    UInt8.toNat_toUInt16, UInt16.toNat_toUInt8, UInt16.toNat_ofNat, Nat.shiftRight_eq_div_pow,
    Nat.shiftLeft_eq, and_255, Nat.reducePow, Nat.reduceMod, hhi, join_eq_or _ hlo]
  omega

theorem channel_split (hi lo : UInt8) :
    ((hi.toUInt16 <<< 8 ||| lo.toUInt16) >>> 8).toUInt8 = hi ∧
      ((hi.toUInt16 <<< 8 ||| lo.toUInt16) &&& 0xFF).toUInt8 = lo := by
  have hh := hi.toNat_lt
  have hl : lo.toNat < 256 := lo.toNat_lt
  have hhi : hi.toNat * 256 % 65536 = hi.toNat * 256 := by omega
  constructor <;> apply UInt8.toNat_inj.mp <;>
    simp only [UInt16.toNat_or, UInt16.toNat_shiftLeft, UInt16.toNat_shiftRight, UInt16.toNat_and,
      UInt8.toNat_toUInt16, UInt16.toNat_toUInt8, UInt16.toNat_ofNat, Nat.shiftRight_eq_div_pow,
      Nat.shiftLeft_eq, and_255, Nat.reducePow, Nat.reduceMod, hhi, join_eq_or _ hl] <;>
    omega

theorem flags_injective : Function.Injective ChannelAction.flags := by
  intro a b h
  cases a <;> cases b <;> first | rfl | exact absurd h (by decide)

/-- A message is determined by its representation. -/
theorem serialize_injective : Function.Injective serialize := by
  intro m m' h
  simp only [serialize, List.cons.injEq] at h
  obtain ⟨hhi, hlo, hflags, hpayload⟩ := h
  have hchannel := channel_join m.channel
  rw [hhi, hlo, channel_join] at hchannel
  have haction := flags_injective hflags
  obtain ⟨c, a, p⟩ := m
  obtain ⟨c', a', p'⟩ := m'
  dsimp only at hchannel haction hpayload
  rw [hchannel, haction, hpayload]

/-- A message whose payload fits is read back. -/
theorem tryCast_serialize {message : BridgeMessage} (h : message.payload.length ≤ maxPayloadSize) :
    tryCast (serialize message) = some message := by
  obtain ⟨hres, hact⟩ := action_flags message.action
  have hlen : ¬maxPayloadSize < message.payload.length := Nat.not_lt.mpr h
  rw [serialize, tryCast, if_neg (by simp [hres]), hact]
  dsimp only
  rw [if_neg hlen, channel_join]

/-- What `tryCast` accepts is the representation of the message that it returns. -/
theorem serialize_of_tryCast {buffer : Bytes} {message : BridgeMessage}
    (h : tryCast buffer = some message) :
    serialize message = buffer ∧ message.payload.length ≤ maxPayloadSize := by
  match buffer with
  | hi :: lo :: flags :: payload =>
    rw [tryCast] at h
    by_cases hres : flags &&& reservedMask ≠ 0
    · simp [hres] at h
    rw [if_neg hres] at h
    cases ha : action flags with
    | none => simp [ha] at h
    | some a =>
      rw [ha] at h
      dsimp only at h
      by_cases hlen : maxPayloadSize < payload.length
      · simp [hlen] at h
      rw [if_neg hlen] at h
      cases h
      obtain ⟨hhi, hlo⟩ := channel_split hi lo
      have hflags := flags_of_action (by simpa using hres) ha
      exact ⟨by rw [serialize, hhi, hlo, hflags], Nat.not_lt.mp hlen⟩

/-- A flags byte without reserved bits holds one of the four actions. -/
theorem exists_action {f : UInt8} (h : f &&& reservedMask = 0) : ∃ a, action f = some a := by
  have hall : ∀ n < 256, (UInt8.ofNat n) &&& reservedMask = 0 →
      (action (UInt8.ofNat n)).isSome = true := by
    decide +kernel
  have hsome := hall f.toNat f.toNat_lt
  rw [UInt8.ofNat_toNat] at hsome
  exact Option.isSome_iff_exists.mp (hsome h)

/-- What is accepted: a header without reserved bits, and a payload that fits. -/
theorem isSome_tryCast_iff (buffer : Bytes) :
    (tryCast buffer).isSome = true ↔
      3 ≤ buffer.length ∧ buffer.length ≤ 1203 ∧ buffer.getD 2 0 &&& 0x3F = 0 := by
  match buffer with
  | [] | [_] | [_, _] => simp [tryCast]
  | hi :: lo :: flags :: payload =>
    show _ ↔ 3 ≤ payload.length + 3 ∧ payload.length + 3 ≤ 1203 ∧ flags &&& reservedMask = 0
    rw [tryCast]
    by_cases hres : flags &&& reservedMask = 0
    · obtain ⟨a, ha⟩ := exists_action hres
      rw [if_neg (not_not_intro hres), ha]
      dsimp only
      by_cases hlen : maxPayloadSize < payload.length
      · rw [if_pos hlen]
        unfold maxPayloadSize at hlen
        exact iff_of_false Bool.false_ne_true (by omega)
      · rw [if_neg hlen]
        unfold maxPayloadSize at hlen
        exact iff_of_true rfl ⟨by omega, by omega, hres⟩
    · rw [if_pos hres]
      exact iff_of_false Bool.false_ne_true fun h => hres h.2.2

/-- The output parameter takes what `tryCast` returns, and is left alone by a failure. -/
theorem tryCastInto_eq (buffer : Bytes) (message : BridgeMessage) :
    tryCastInto buffer message = ((tryCast buffer).isSome, (tryCast buffer).getD message) := by
  match buffer with
  | [] | [_] | [_, _] => rfl
  | hi :: lo :: flags :: payload =>
    have hlen : ¬(hi :: lo :: flags :: payload).length < headerSize := by
      simp [headerSize]
    have hpayload : (hi :: lo :: flags :: payload).length - headerSize = payload.length := by
      simp [headerSize]
    rw [tryCastInto, if_neg hlen, tryCast, hpayload]
    simp only [List.getD_cons_zero, List.getD_cons_succ]
    by_cases hres : flags &&& reservedMask = 0
    · obtain ⟨a, ha⟩ := exists_action hres
      rw [if_neg (not_not_intro hres), if_neg (not_not_intro hres), ha]
      dsimp only
      by_cases hfits : maxPayloadSize < payload.length
      · rw [if_pos hfits, if_pos hfits]
        rfl
      · rw [if_neg hfits, if_neg hfits]
        have htake : (payload.take payload.length) = payload := List.take_length
        exact congrArg (fun p => (true, BridgeMessage.mk _ a p)) htake
    · rw [if_pos hres, if_pos hres]
      rfl

/-- The encoder and the decoder of the bridge agree on every message whose payload fits and on
every buffer, and a buffer that is refused leaves the output message as it was. -/
theorem codec_round_trip (message : BridgeMessage) (buffer : Bytes) (out : BridgeMessage) :
    (message.payload.length ≤ 1200 → tryCastInto (serialize message) out = (true, message)) ∧
      ((tryCastInto buffer out).1 = true ↔
        3 ≤ buffer.length ∧ buffer.length ≤ 1203 ∧ buffer.getD 2 0 &&& 0x3F = 0) ∧
      ((tryCastInto buffer out).1 = true → serialize (tryCastInto buffer out).2 = buffer) ∧
      ((tryCastInto buffer out).1 = false → (tryCastInto buffer out).2 = out) := by
  rw [tryCastInto_eq, tryCastInto_eq]
  refine ⟨?_, isSome_tryCast_iff buffer, ?_, ?_⟩
  · intro hlen
    rw [tryCast_serialize hlen]
    rfl
  · intro h
    obtain ⟨cast, hcast⟩ := Option.isSome_iff_exists.mp h
    rw [hcast]
    exact (serialize_of_tryCast hcast).1
  · intro h
    rw [Option.isSome_eq_false_iff, Option.isNone_iff_eq_none] at h
    rw [h]
    rfl

/-- Every byte of the header of the last channel's verdict has its top bit set. -/
theorem codec_round_trip_verdict :
    tryCastInto (serialize ⟨0xFFFF, .approval, [approvalDeny, 0xFF, 0]⟩) {} =
      (true, ⟨0xFFFF, .approval, [approvalDeny, 0xFF, 0]⟩) :=
  (codec_round_trip ⟨0xFFFF, .approval, [approvalDeny, 0xFF, 0]⟩ [] {}).1 (by decide)

end Multiplexer

/-- `UDPReceiver::Receive` with a buffer of `size` bytes: the last one is kept free. -/
def UDPReceiver.receive (size : ℕ) (data : Bytes) : Bytes := data.take (size - 1)

end GuacamoleDiode

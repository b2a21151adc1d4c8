import GuacamoleDiode.Gmlbroker.Broker
import GuacamoleDiode.Lib.Tables

/-!
# Faked acks

The guard drops a paste that is too long, so that guacd never acknowledges it. The reader of
the session fakes the ack and queues it for its own browser. Whatever the browser sends, what
the readers queue are whole acks.

## Main definitions

- `ClipboardAckFaker.ack`: a success ack as an instruction
- `ReadHandler.Fakes`: a reader queues nothing but acks
- `Gmlbroker.Faked`: nor have the readers queued anything else
-/

namespace GuacamoleDiode

open Wire

namespace ClipboardAckFaker

/-- What `std::from_chars` makes of a stream index. -/
abbrev StreamIndex := { sidx : ℤ // -2147483648 ≤ sidx ∧ sidx ≤ 2147483647 }

theorem parseIndex_bounds (arg : Bytes) :
    -2147483648 ≤ parseIndex arg ∧ parseIndex arg ≤ 2147483647 := by
  unfold parseIndex parseStreamIndex
  split
  · next h =>
    unfold fromChars at h
    dsimp only at h
    split_ifs at h with hsign hbounds hbounds
    · obtain ⟨rfl, -⟩ := Prod.mk.inj (Option.some.inj h)
      exact hbounds.2
    · obtain ⟨rfl, -⟩ := Prod.mk.inj (Option.some.inj h)
      exact hbounds.2
  · decide

/-- The index as `make_ack` writes it. -/
def digits (sidx : ℤ) : Bytes :=
  if sidx < 0 then 45 :: decimal sidx.natAbs else decimal sidx.natAbs

theorem fits_digits (sidx : StreamIndex) : Fits maxElementSize (digits sidx.1) := by
  obtain ⟨sidx, hlo, hhi⟩ := sidx
  have hlen : (decimal sidx.natAbs).length ≤ 10 := length_decimal_le (by decide) (by omega)
  have hascii : ∀ b ∈ decimal sidx.natAbs, b ≤ 127 := by
    intro b hb
    have hdigit := isDigit_of_mem_decimal hb
    simp only [isDigit, Bool.and_eq_true, decide_eq_true_eq] at hdigit
    exact UInt8.le_trans hdigit.2 (by decide)
  unfold digits
  split_ifs
  · refine ⟨?_, ?_⟩
    · simp only [List.length_cons, maxElementSize]
      omega
    · intro b hb
      rcases List.mem_cons.mp hb with rfl | hb
      · decide
      · exact hascii b hb
  · exact ⟨hlen.trans (by decide), hascii⟩

/-- A success ack as an instruction. -/
def ack (sidx : StreamIndex) : Instruction maxElementSize :=
  .ofValues [ascii "ack", digits sidx.1, ascii "OK", ascii "0"] (by simp) (by
    have hack : Fits maxElementSize (ascii "ack") := by decide +kernel
    have hok : Fits maxElementSize (ascii "OK") := by decide +kernel
    have hzero : Fits maxElementSize (ascii "0") := by decide +kernel
    simpa using ⟨hack, fits_digits sidx, hok, hzero⟩)

theorem encode_ack (sidx : StreamIndex) : (ack sidx).encode = makeAck sidx.1 := by
  have h3 : decimal (ascii "ack").length = ascii "3" := by decide
  have h2 : decimal (ascii "OK").length = ascii "2" := by decide
  have h1 : decimal (ascii "0").length = ascii "1" := by decide
  simp only [ack, Instruction.encode, Instruction.ofValues, List.pmap, encodeElements,
    Element.body, Element.ofValue, h1, h2, h3, makeAck, digits]
  simp [ascii]

theorem opcode_ack (sidx : StreamIndex) : (ack sidx).opcode = ascii "ack" := rfl

/-- A sequence of acks. -/
def Acks (w : Bytes) : Prop := ∃ idxs : List StreamIndex, w = wire (idxs.map ack)

/-- The index is that of a stream, and the acks of the call are whole. -/
def Faking (m : ClipboardAckMembers) : Prop :=
  (-2147483648 ≤ m.clipboardSidx ∧ m.clipboardSidx ≤ 2147483647) ∧ Acks m.acks

theorem Acks.append_makeAck {w : Bytes} (h : Acks w) (sidx : StreamIndex) :
    Acks (w ++ makeAck sidx.1) := by
  obtain ⟨idxs, rfl⟩ := h
  refine ⟨idxs ++ [sidx], ?_⟩
  rw [List.map_append, wire_append, List.map_singleton, wire_cons, wire_nil, List.append_nil,
    encode_ack]

theorem hooks_keep_faking : hooks.Keep Faking where
  onInstructionBegin _ _ _ h := h
  onArgument v m _ h := by
    simp only [hooks, onArgument]
    split_ifs
    · exact ⟨parseIndex_bounds v, h.2⟩
    · exact h
    · exact ⟨⟨by simp, by simp⟩, h.2⟩
    · exact h
    · exact ⟨h.1, h.2.append_makeAck ⟨m.clipboardSidx, h.1⟩⟩
    · exact h
  onInstructionEnd _ _ h := h

/-- Whatever the browser sends, the faked acks are whole. -/
theorem feed_spec {p : OpcodeParser ClipboardAckMembers} (h : p.Kept Faking) (data : Bytes) :
    Acks (feed p data).1 ∧ (feed p data).2.Kept Faking := by
  have hcleared : ({ p with members := { p.members with acks := [] } } :
      OpcodeParser ClipboardAckMembers).Kept Faking := ⟨h.1, h.2.1, [], rfl⟩
  have hkept := hcleared.resync hooks_keep_faking data.length data
  exact ⟨hkept.2.2, hkept⟩

end ClipboardAckFaker

namespace ReadHandler

/-- The faker is in order, and what is left to queue for the browser are acks. -/
def Fakes (r : ReadHandler × List Effect) : Prop :=
  r.1.clipboardFaker.Kept ClipboardAckFaker.Faking ∧
    ∀ msg, .enqueueRecv msg ∈ r.2 → ClipboardAckFaker.Acks msg.payload

section

variable {ids : ℕ → Bytes} {channel : UInt16} {s : ReadHandler}

theorem fakes_maybeReplay (channel : UInt16) (h : s.clipboardFaker.Kept ClipboardAckFaker.Faking) :
    Fakes (maybeReplay channel s) := by
  unfold maybeReplay
  split_ifs
  · refine ⟨h, fun msg hmsg => ?_⟩
    obtain ⟨payload, -, heq⟩ := List.mem_map.mp hmsg
    cases heq
  · exact ⟨h, by simp⟩

theorem fakes_pipe (channel : UInt16) (h : s.clipboardFaker.Kept ClipboardAckFaker.Faking)
    (data : Bytes) :
    Fakes (pipe channel data s) := by
  obtain ⟨hacks, hkept⟩ := ClipboardAckFaker.feed_spec h data
  refine ⟨hkept, fun msg hmsg => ?_⟩
  simp only [pipe, List.mem_append] at hmsg
  rcases hmsg with hmsg | hmsg
  · split_ifs at hmsg
    · cases List.mem_singleton.mp hmsg
      exact hacks
    · simp at hmsg
  · split_ifs at hmsg <;> simp at hmsg

theorem fakes_established (h : s.clipboardFaker.Kept ClipboardAckFaker.Faking) (data : Bytes) :
    Fakes (established channel data s) := by
  have hreplay := fakes_maybeReplay channel h
  unfold established
  dsimp only
  split_ifs
  · have hpipe := fakes_pipe channel hreplay.1 data
    refine ⟨hpipe.1, fun msg hmsg => ?_⟩
    rcases List.mem_append.mp hmsg with hmsg | hmsg
    · exact hreplay.2 msg hmsg
    · exact hpipe.2 msg hmsg
  · exact hreplay

theorem fakes_leave (h : s.clipboardFaker.Kept ClipboardAckFaker.Faking) (announce : Bool)
    (before : List Effect) (hbefore : ∀ msg, .enqueueRecv msg ∉ before) :
    Fakes ((leave channel announce s).1, before ++ (leave channel announce s).2) := by
  refine ⟨h, fun msg hmsg => ?_⟩
  rcases List.mem_append.mp hmsg with hmsg | hmsg
  · exact absurd hmsg (hbefore msg)
  · cases announce <;> simp [leave] at hmsg

theorem fakes_feedForger (h : s.clipboardFaker.Kept ClipboardAckFaker.Faking)
    (data requestId : Bytes) : Fakes (feedForger ids channel data requestId s) := by
  have hreply : ∀ msg, .enqueueRecv msg ∉ (if (s.forger.feed ids data).1 ≠ [] then
      [Effect.send (s.forger.feed ids data).1] else []) := by
    intro msg
    split_ifs <;> simp
  unfold feedForger
  dsimp only
  generalize (if (s.forger.feed ids data).1 ≠ [] then
    [Effect.send (s.forger.feed ids data).1] else []) = reply at hreply ⊢
  split_ifs
  · exact fakes_leave (s := { s with forger := (s.forger.feed ids data).2 }) h true reply hreply
  · exact ⟨h, fun msg hmsg => absurd hmsg (by simp [hreply msg])⟩
  · exact ⟨h, fun msg hmsg => absurd hmsg (hreply msg)⟩

/-- Whatever a turn queues for the browser are acks. -/
theorem fakes_turn (h : s.clipboardFaker.Kept ClipboardAckFaker.Faking) (p : Poll) :
    Fakes (turn ids channel s p) := by
  cases p with
  | heartbeat ms =>
    simp only [turn]
    split_ifs <;> exact ⟨h, by simp⟩
  | timeout => exact fakes_maybeReplay channel h
  | read data requestId =>
    simp only [turn]
    split_ifs
    · exact fakes_leave h true [] (by simp)
    · exact fakes_established (s := { s with socket := s.socket ++ data }) h data
    · exact fakes_feedForger (s := { s with socket := s.socket ++ data }) h data requestId
  | drain chunks failed teardown =>
    simp only [turn]
    split
    · exact fakes_leave h _ _ (by simp)
    · split_ifs
      · exact fakes_leave h true _ (by simp)
      · exact ⟨h, by simp⟩
  | stop => exact fakes_leave h true [] (by simp)

end

end ReadHandler

namespace Gmlbroker

/-- Whatever a reader has queued for the browser are acks. -/
def Item.Faked (item : Item) : Prop :=
  item.origin ≠ .bridge → ClipboardAckFaker.Acks item.msg.payload

/-- Whatever readers have queued or are about to queue are acks. -/
structure Faked (s : Gmlbroker) : Prop where
  queued : ∀ item ∈ s.recvQueue, item.Faked
  busy : ∀ item, s.handler = .busy item → item.Faked
  readers : ∀ n session, s.sessions n = some session →
    ReadHandler.Fakes (session.reader, session.pending)

section

variable {ids : ℕ → ℕ → Bytes} {s : Gmlbroker} {n : ℕ} {session : Session}

theorem fakes_update {sessions : ℕ → Option Session} {s : Session}
    (h : ∀ n session, sessions n = some session → ReadHandler.Fakes (session.reader, session.pending))
    (hnew : ReadHandler.Fakes (s.reader, s.pending)) (m : ℕ) :
    ∀ n session', Function.update sessions m (some s) n = some session' →
      ReadHandler.Fakes (session'.reader, session'.pending) := by
  intro n session' hn
  obtain ⟨rfl, rfl⟩ | ⟨hnm, hn⟩ := Table.of_update hn
  · exact hnew
  · exact h n session' hn

theorem fakes_map {sessions : ℕ → Option Session} {f : Session → Session}
    (h : ∀ n session, sessions n = some session → ReadHandler.Fakes (session.reader, session.pending))
    (hf : ∀ session, (f session).reader.clipboardFaker = session.reader.clipboardFaker ∧
      (f session).pending = session.pending) (m : ℕ) :
    ∀ n session', Function.update sessions m ((sessions m).map f) n = some session' →
      ReadHandler.Fakes (session'.reader, session'.pending) := by
  intro n session' hn
  obtain ⟨old, hold, ⟨-, rfl⟩ | ⟨-, rfl⟩⟩ := Table.of_update_map hn
  · obtain ⟨hkept, hacks⟩ := h n old hold
    refine ⟨?_, ?_⟩
    · dsimp only
      rw [(hf old).1]
      exact hkept
    · dsimp only
      rw [(hf old).2]
      exact hacks
  · exact h n old hold

/-- The handler comes to something that it has not just fetched. -/
theorem Faked.of_handler {s' : Gmlbroker} (h : Faked s) (hqueue : s'.recvQueue = s.recvQueue)
    (hhandler : ∀ item, s'.handler ≠ .busy item)
    (hreaders : ∀ n session, s'.sessions n = some session →
      ReadHandler.Fakes (session.reader, session.pending)) : Faked s' where
  queued := by
    rw [hqueue]
    exact h.queued
  busy item hitem := absurd hitem (hhandler item)
  readers := hreaders

theorem Faked.dispatch (h : Faked s) (item : Item) : Faked (s.dispatch item).1 := by
  unfold Gmlbroker.dispatch
  split
  · dsimp only
    split <;> exact h.of_handler rfl (by simp) h.readers
  · exact h.of_handler rfl (by simp) h.readers
  · split
    · exact h.of_handler rfl (by simp) h.readers
    · split_ifs
      · refine h.of_handler rfl (by simp) ?_
        dsimp only [setFlag]
        refine fakes_map h.readers ?_ _
        exact fun _ => ⟨rfl, rfl⟩
      · exact h.of_handler rfl (by simp) h.readers
  · split
    · exact h.of_handler rfl (by simp) h.readers
    · dsimp only
      split_ifs <;> exact h.of_handler rfl (by simp) h.readers

theorem Faked.handle (h : Faked s) : Faked s.handle.1 := by
  unfold Gmlbroker.handle
  split
  · split
    · exact h
    · next item rest hqueue =>
      have hall := h.queued
      rw [hqueue, List.forall_mem_cons] at hall
      refine ⟨hall.2, ?_, h.readers⟩
      rintro _ ⟨⟩
      exact hall.1
  · exact h.dispatch _
  · split <;> exact h.of_handler rfl (by simp) h.readers
  · exact h.of_handler rfl (by simp) h.readers
  · refine h.of_handler rfl (by simp) ?_
    dsimp only [deliver]
    refine fakes_map h.readers ?_ _
    exact fun _ => ⟨rfl, rfl⟩

theorem Faked.perform (h : Faked s) (hn : s.sessions n = some session) {effect : ReadHandler.Effect}
    {pending : List ReadHandler.Effect} (hpending : session.pending = effect :: pending) :
    Faked (Gmlbroker.perform { s with
      sessions := Function.update s.sessions n (some { session with pending }) } n
      session.channel effect) := by
  have hfakes := h.readers n session hn
  rw [hpending] at hfakes
  have hleft : ReadHandler.Fakes (session.reader, pending) :=
    ⟨hfakes.1, fun msg hmsg => hfakes.2 msg (List.mem_cons_of_mem _ hmsg)⟩
  have hreaders := fakes_update h.readers (s := { session with pending }) hleft n
  cases effect with
  | enqueueRecv msg =>
    refine ⟨fun item hitem => ?_, h.busy, hreaders⟩
    rcases List.mem_append.mp hitem with hitem | hitem
    · exact h.queued item hitem
    · cases List.mem_singleton.mp hitem
      exact fun _ => hfakes.2 msg List.mem_cons_self
  | _ => exact ⟨h.queued, h.busy, hreaders⟩

theorem Faked.step (h : Faked s) (ids : ℕ → ℕ → Bytes) (e : Event) : Faked (s.step ids e).1 := by
  unfold Gmlbroker.step
  cases e with
  | datagram data =>
    dsimp only
    split
    · exact h
    · refine ⟨fun item hitem => ?_, h.busy, h.readers⟩
      rcases List.mem_append.mp hitem with hitem | hitem
      · exact h.queued item hitem
      · cases List.mem_singleton.mp hitem
        exact fun hne => absurd rfl hne
  | accept =>
    dsimp only [Gmlbroker.accept]
    split_ifs
    · split
      · exact h
      · refine ⟨h.queued, h.busy, fakes_update h.readers ⟨⟨?_, ?_, [], rfl⟩, by simp⟩ _⟩
        · simp
        · simp
    · exact h
  | register =>
    dsimp only [Gmlbroker.register]
    split
    · exact h
    · exact ⟨h.queued, h.busy, h.readers⟩
    · refine ⟨h.queued, h.busy, ?_⟩
      dsimp only [start]
      refine fakes_map h.readers ?_ _
      exact fun _ => ⟨rfl, rfl⟩
  | handle => exact h.handle
  | wake n wake =>
    dsimp only
    split
    · exact h
    · next session hn =>
      split_ifs
      · refine ⟨h.queued, h.busy, fakes_update h.readers ?_ n⟩
        have hfakes := h.readers n session hn
        dsimp only [Gmlbroker.turn, ReadHandler.step]
        split_ifs
        · exact ⟨hfakes.1, by simp⟩
        · exact ReadHandler.fakes_turn hfakes.1 _
      · exact h
  | perform n =>
    dsimp only
    split
    · exact h
    · next session hn =>
      split
      · exact h
      · next hpending => exact h.perform hn hpending
  | transmit =>
    dsimp only
    split
    · exact h
    · exact ⟨h.queued, h.busy, h.readers⟩

theorem faked_run (ids : ℕ → ℕ → Bytes) (es : List Event) : Faked ((machine ids).run es) := by
  refine Machine.invariant (M := machine ids) (P := fun _ s => Faked s) ?_
    (fun _ e h => h.step ids e) es
  refine ⟨?_, ?_, ?_⟩ <;> simp [machine]

end

end Gmlbroker

end GuacamoleDiode

import GuacamoleDiode.Parser.DeniedRanges
import GuacamoleDiode.Gmlbroker.Outbound
import GuacamoleDiode.System.Agreement
import GuacamoleDiode.System.Truncation

/-!
# Every datagram fits

`Serialize` takes a payload of any length. That no program sends one that the next program would
cut or refuse rests on each place where a message is made: the chunks of the replay, the buffers of
the readers, the filters that only shorten, the verdicts with their ids.

## Main definitions

- `Gmlbroker.Possible`: what `Receive` and `make_request_id` return
- `Program.Sends`: a program sends a datagram in some run
- `Program.Carried`: a program receives a datagram whole, and accepts it

## Main results

- `Program.carried_of_sends`
-/

namespace GuacamoleDiode

open Wire

/-- A message whose payload fits. -/
def BridgeMessage.Fits (msg : BridgeMessage) : Prop :=
  msg.payload.length ≤ Multiplexer.maxPayloadSize

theorem fits_of_tryCast {buffer : Bytes} {msg : BridgeMessage} (h : Multiplexer.tryCast buffer = some msg) :
    msg.Fits :=
  (Multiplexer.serialize_of_tryCast h).2

theorem fits_of_nil {msg : BridgeMessage} (h : msg.payload = []) : msg.Fits := by
  rw [BridgeMessage.Fits, h]
  exact Nat.zero_le _

/-- The bytes of a message whose payload fits. -/
def Fitted (data : Bytes) : Prop := ∃ msg : BridgeMessage, data = Multiplexer.serialize msg ∧ msg.Fits

theorem BridgeMessage.Fits.fitted {msg : BridgeMessage} (h : msg.Fits) :
    Fitted (Multiplexer.serialize msg) :=
  ⟨msg, rfl, h⟩

-- ════════════════════════════════════════════════════════════════════════
-- The readers of gmlbroker
-- ════════════════════════════════════════════════════════════════════════

namespace ReadHandler

/-- All messages that are queued for the bridge fit. -/
def QueuesFit (effects : List Effect) : Prop := ∀ msg, .enqueue msg ∈ effects → msg.Fits

/-- A read fills the buffer at most, and an id is valid. -/
def Poll.Possible : Poll → Prop
  | .read data requestId =>
    data.length ≤ Multiplexer.maxPayloadSize ∧ isValidRequestId requestId = true
  | _ => True

variable {ids : ℕ → Bytes} {channel : UInt16} {s : ReadHandler} {data : Bytes}

theorem QueuesFit.append {xs ys : List Effect} (hx : QueuesFit xs) (hy : QueuesFit ys) :
    QueuesFit (xs ++ ys) := by
  intro msg hmsg
  rcases List.mem_append.mp hmsg with hmsg | hmsg
  · exact hx msg hmsg
  · exact hy msg hmsg

theorem queuesFit_nil : QueuesFit [] := by simp [QueuesFit]

/-- A reply to the browser is no message for the bridge. -/
theorem queuesFit_sends (chunks : List Bytes) : QueuesFit (chunks.map .send) := by
  simp [QueuesFit]

theorem queuesFit_leave (announce : Bool) : QueuesFit (leave channel announce s).2 := by
  intro msg hmsg
  have hshutdown : msg = { channel := channel, action := .shutdownChannel } := by
    cases announce
    · simp [leave] at hmsg
    · simpa [leave] using hmsg
  exact fits_of_nil (by rw [hshutdown])

/-- The replay is cut to the size of a payload. -/
theorem queuesFit_maybeReplay : QueuesFit (maybeReplay channel s).2 := by
  rw [maybeReplay]
  split_ifs
  · intro msg hmsg
    obtain ⟨chunk, hchunk, heq⟩ := List.mem_map.mp hmsg
    cases heq
    exact length_le_of_mem_substrs hchunk
  · exact queuesFit_nil

/-- The keepalive filter only shortens what has been read. -/
theorem length_filter_le (p : OpcodeParser Unit) (data : Bytes) :
    (ForwardKeepaliveFilter.filter p data).1.length ≤ data.length := by
  by_cases hcorrupt : (p.parse ForwardKeepaliveFilter.hooks data).1 = .streamCorrupted
  · rw [ForwardKeepaliveFilter.filter_of_corrupted hcorrupt]
  · rw [ForwardKeepaliveFilter.filter_of_excised hcorrupt]
    exact OpcodeParser.length_excised_le _ p data

theorem queuesFit_pipe (hdata : data.length ≤ Multiplexer.maxPayloadSize) :
    QueuesFit (pipe channel data s).2 := by
  have hfilter := (length_filter_le s.keepaliveFilter data).trans hdata
  apply QueuesFit.append
  · intro msg hmsg
    split_ifs at hmsg <;> simp at hmsg
  · intro msg hmsg
    split_ifs at hmsg
    · have heq := List.mem_singleton.mp hmsg
      cases heq
      exact hfilter
    · cases hmsg

theorem queuesFit_established (hdata : data.length ≤ Multiplexer.maxPayloadSize) :
    QueuesFit (established channel data s).2 := by
  rw [established]
  dsimp only
  split_ifs
  · exact queuesFit_maybeReplay.append (queuesFit_pipe hdata)
  · exact queuesFit_maybeReplay

/-- The request of a channel carries its id. -/
theorem queuesFit_feedForger {requestId : Bytes} (hid : isValidRequestId requestId = true) :
    QueuesFit (feedForger ids channel data requestId s).2 := by
  have hreply : QueuesFit (if (s.forger.feed ids data).1 ≠ [] then
      [.send (s.forger.feed ids data).1] else []) := by
    split_ifs
    · exact queuesFit_sends [(s.forger.feed ids data).1]
    · exact queuesFit_nil
  simp only [feedForger]
  generalize (if (s.forger.feed ids data).1 ≠ [] then
    [Effect.send (s.forger.feed ids data).1] else []) = reply at hreply ⊢
  split_ifs
  · exact hreply.append (queuesFit_leave true)
  · refine hreply.append fun msg hmsg => ?_
    obtain rfl : msg = { channel := channel, action := .createChannel, payload := requestId } := by
      simpa using hmsg
    rw [BridgeMessage.Fits, Diode.length_of_drawn hid]
    decide
  · exact hreply

theorem queuesFit_turn {p : Poll} (hp : p.Possible) : QueuesFit (turn ids channel s p).2 := by
  cases p with
  | heartbeat ms =>
    rw [turn]
    split_ifs
    · exact queuesFit_sends [syncInstruction ms]
    · exact queuesFit_nil
  | timeout => exact queuesFit_maybeReplay
  | read data requestId =>
    rw [turn]
    dsimp only
    split_ifs
    · exact queuesFit_leave true
    · exact queuesFit_established hp.1
    · exact queuesFit_feedForger hp.2
  | drain chunks failed teardown =>
    cases teardown with
    | some announce => exact (queuesFit_sends chunks).append (queuesFit_leave announce)
    | none =>
      simp only [turn]
      split_ifs
      · exact (queuesFit_sends chunks).append (queuesFit_leave true)
      · exact queuesFit_sends chunks
  | stop => exact queuesFit_leave true

end ReadHandler

namespace Gmlbroker

/-- A read returns what fits into the buffer of the reader, of the bytes that are available, and an
id is one that `make_request_id` returns. -/
def Possible : Event → Prop
  | .wake _ (.read data requestId) =>
    (∃ available : Bytes, data = available.take Multiplexer.maxPayloadSize) ∧
      ∃ drawn, requestId = ReadHandler.makeRequestId drawn
  | _ => True

/-- Everything that is queued for the bridge fits, and what readers have left to queue. -/
structure Fitting (s : Gmlbroker) : Prop where
  sendQueue : ∀ msg ∈ s.sendQueue, msg.Fits
  pending : ∀ n session, s.sessions n = some session → ∀ msg, .enqueue msg ∈ session.pending → msg.Fits

section

variable {ids : ℕ → ℕ → Bytes} {s : Gmlbroker} {e : Event}

theorem possible_poll {n : ℕ} {wake : Wake} (h : Possible (.wake n wake)) (mailbox : Mailbox) :
    (poll mailbox wake).1.Possible := by
  cases wake with
  | read data requestId =>
    obtain ⟨⟨available, rfl⟩, drawn, rfl⟩ := h
    exact ⟨List.length_take_le _ available, Diode.drawn_iff.mpr ⟨drawn, rfl⟩⟩
  | drain failed =>
    rw [poll]
    dsimp only
    split <;> trivial
  | _ => trivial

theorem Fitting.step (h : Fitting s) (hwf : Wf s) (he : Possible e) : Fitting (s.step ids e).1 := by
  constructor
  · intro msg hmsg
    rw [sendQueue_step] at hmsg
    rcases List.mem_append.mp hmsg with hmsg | hmsg
    · have hold : msg ∈ s.sendQueue := by
        cases e with
        | transmit => exact List.mem_of_mem_tail hmsg
        | _ => exact hmsg
      exact h.sendQueue msg hold
    · obtain ⟨n, session, pending, -, hn, hpending⟩ :=
        exists_enqueue_of_queued (Option.mem_toList.mp hmsg)
      apply h.pending n session hn
      rw [hpending]
      exact List.mem_cons_self
  · refine pending_step hwf h.pending fun n session wake hwake hclosed msg hmsg => ?_
    subst hwake
    have hturn : ReadHandler.QueuesFit (ReadHandler.turn (ids n) session.channel session.reader
        (poll session.mailbox wake).1).2 :=
      ReadHandler.queuesFit_turn (possible_poll he session.mailbox)
    simp only [turn, ReadHandler.step, hclosed, Bool.false_eq_true, if_false] at hmsg
    exact hturn msg hmsg

/-- What is sent comes from the send queue. -/
theorem Fitting.transmits (h : Fitting s) {data : Bytes} (hdata : .transmit data ∈ (s.step ids e).2) :
    Fitted data := by
  have hmem : data ∈ (s.sending e).map Multiplexer.serialize := by
    rw [← transmitted_step ids]
    exact List.mem_filterMap.mpr ⟨_, hdata, rfl⟩
  obtain ⟨msg, hmsg, rfl⟩ := List.mem_map.mp hmem
  apply BridgeMessage.Fits.fitted
  apply h.sendQueue
  rw [← sending_append_unsent s e]
  exact List.mem_append_left _ hmsg

theorem fitted_of_emitted (ids : ℕ → ℕ → Bytes) {es : List Event} (hes : ∀ e ∈ es, Possible e)
    {data : Bytes} (h : .transmit data ∈ (machine ids).emitted es) : Fitted data := by
  have hinit : Fitting (machine ids).init := by
    refine ⟨fun msg hmsg => ?_, fun n session hn => ?_⟩
    · cases hmsg
    · cases hn
  have hrun := Machine.emitted_of_invariant (Q := fun o => ∀ data, o = .transmit data → Fitted data)
    hinit (fun es e hfit he => ⟨hfit.step (wf_run ids es) he, fun o ho data hdata => by
      subst hdata
      exact hfit.transmits ho⟩) hes
  exact hrun.2 _ h data rfl

end

end Gmlbroker

-- ════════════════════════════════════════════════════════════════════════
-- gcdbroker
-- ════════════════════════════════════════════════════════════════════════

namespace Gcdbroker

/-- An approval fits. The acks of a reader may be longer, but they only go to guacd. -/
def ApprovalFits (msg : BridgeMessage) : Prop := msg.action = .approval → msg.Fits

/-- The message that the handler is about to relay fits. -/
def HandlerFits : SendHandler → Prop
  | .busy item .fetched => ApprovalFits item.msg
  | .busy item (.dialed _ _) => item.msg.Fits
  | .relaying msg => msg.Fits
  | _ => True

structure Fitting (s : Gcdbroker) : Prop where
  recvQueue : ∀ item ∈ s.recvQueue, ApprovalFits item.msg
  handler : HandlerFits s.handler
  sendQueue : ∀ msg ∈ s.sendQueue, msg.Fits

section

variable {s : Gcdbroker} {e : Event}

theorem fits_downgrade {msg : BridgeMessage} (h : msg.Fits) : (downgrade msg).Fits := by
  rw [BridgeMessage.Fits, downgrade, List.length_set]
  exact h

/-- An ack is no approval. -/
theorem approvalFits_sync {k : ℕ} {channel : UInt16} {ack : Option Bytes} {item : Item}
    (h : ack.map (sync k channel) = some item) : ApprovalFits item.msg := by
  obtain ⟨w, -, rfl⟩ := Option.map_eq_some_iff.mp h
  intro happroval
  cases happroval

theorem approvalFits_ackOf {item : Item} (h : s.ackOf e = some item) : ApprovalFits item.msg := by
  cases e with
  | timeout k due =>
    simp only [ackOf] at h
    split at h
    · split_ifs at h
      exact approvalFits_sync h
    · cases h
  | read k =>
    simp only [ackOf] at h
    split at h
    · split at h
      · exact approvalFits_sync h
      · cases h
    · cases h
  | _ => cases h

/-- What a step queues for the handler fits: what has arrived has been accepted. -/
theorem approvalFits_queued {item : Item} (h : item ∈ s.queued e) : ApprovalFits item.msg := by
  rcases List.mem_append.mp h with harrival | hack
  · obtain ⟨msg, hmsg, rfl⟩ := Option.map_eq_some_iff.mp (Option.mem_toList.mp harrival)
    intro
    cases e with
    | datagram data => exact fits_of_tryCast hmsg
    | _ => cases hmsg
  · exact approvalFits_ackOf (Option.mem_toList.mp hack)

/-- The handler alone takes messages off the receive queue. -/
theorem mem_recvQueue_step {item : Item} (h : item ∈ (s.step e).1.recvQueue) :
    item ∈ s.recvQueue ∨ item ∈ s.queued e := by
  cases e with
  | datagram data =>
    cases harrival : arrival (.datagram data) with
    | none =>
      simp only [step, harrival] at h
      exact .inl h
    | some msg =>
      simp only [step, harrival] at h
      rcases List.mem_append.mp h with hold | hnew
      · exact .inl hold
      · refine .inr (List.mem_append_left _ ?_)
        rw [harrival]
        exact hnew
  | handle =>
    left
    simp only [step, handle] at h
    split at h
    · split at h
      · exact h
      · next hqueue =>
        rw [hqueue]
        exact List.mem_cons_of_mem _ h
    · simp only [Gcdbroker.dispatch] at h
      repeat' split at h
      all_goals exact h
    · rw [insert] at h
      split at h <;> exact h
    · exact h
    · exact h
    · exact h
  | dial fd =>
    left
    simp only [step, dial] at h
    repeat' split at h
    all_goals exact h
  | send taken =>
    left
    simp only [step, send] at h
    repeat' split at h
    all_goals exact h
  | receive k data due =>
    left
    simp only [step, receive] at h
    repeat' split at h
    all_goals exact h
  | timeout k due => exact List.mem_append.mp h
  | read k =>
    cases hreader : s.readers k with
    | none =>
      simp only [step, hreader] at h
      exact .inl h
    | some r =>
      simp only [step, hreader, read] at h
      split at h
      all_goals first | exact .inl h | exact List.mem_append.mp h
  | transmit =>
    left
    simp only [step] at h
    split at h <;> exact h

theorem Fitting.dispatch (h : Fitting s) {item : Item} (hitem : ApprovalFits item.msg) :
    HandlerFits (s.dispatch item).1.handler := by
  rw [Gcdbroker.dispatch]
  cases haction : item.msg.action with
  | createChannel => trivial
  | approval =>
    dsimp only
    split_ifs
    · exact h.handler
    · exact hitem haction
  | shutdownChannel => exact fits_of_nil rfl
  | none =>
    dsimp only
    split <;> trivial

theorem handlerFits_handle (h : Fitting s) : HandlerFits s.handle.1.handler := by
  have hold := h.handler
  rw [handle]
  cases hhandler : s.handler with
  | waiting =>
    dsimp only
    cases hqueue : s.recvQueue with
    | nil => exact hold
    | cons item rest =>
      apply h.recvQueue
      rw [hqueue]
      exact List.mem_cons_self
  | busy item stage =>
    rw [hhandler] at hold
    cases stage with
    | fetched => exact h.dispatch hold
    | dialed fd k =>
      dsimp only
      rw [insert]
      split
      · exact hold
      · exact fits_downgrade hold
    | routed fd => exact h.handler
  | relaying msg => trivial
  | failed channel => trivial

theorem handlerFits_dial (h : Fitting s) (fd : Option ℕ) : HandlerFits (s.dial fd).1.handler := by
  have hold := h.handler
  rw [dial]
  split
  · next item hhandler =>
    rw [hhandler] at hold
    split_ifs with happroval
    · have hfits := hold happroval.1
      cases fd with
      | none => exact fits_downgrade hfits
      | some fd =>
        dsimp only
        split_ifs
        · exact hfits
        · exact h.handler
    · exact h.handler
  · exact hold

theorem handlerFits_step (h : Fitting s) (e : Event) : HandlerFits (s.step e).1.handler := by
  have hold := h.handler
  cases e with
  | handle => exact handlerFits_handle h
  | dial fd => exact handlerFits_dial h fd
  | send taken =>
    simp only [step, send]
    repeat' split
    all_goals first | exact hold | trivial
  | datagram data =>
    simp only [step]
    split <;> exact hold
  | receive k data due =>
    simp only [step, receive]
    repeat' split
    all_goals exact hold
  | timeout k due => exact hold
  | read k =>
    simp only [step, read]
    repeat' split
    all_goals exact hold
  | transmit =>
    simp only [step]
    split <;> exact hold

/-- A relayed message fits, a read fills the buffer at most, and a SHUTDOWN is empty. -/
theorem Fitting.enqueued (h : Fitting s) {msg : BridgeMessage} (hmsg : msg ∈ s.enqueued e) :
    msg.Fits := by
  cases e with
  | handle =>
    simp only [Gcdbroker.enqueued] at hmsg
    split at hmsg
    · next hhandler =>
      have hold := h.handler
      rw [hhandler] at hold
      rw [List.mem_singleton.mp hmsg]
      exact hold
    · cases hmsg
  | receive k data due =>
    simp only [Gcdbroker.enqueued] at hmsg
    split at hmsg
    · split_ifs at hmsg
      · rw [List.mem_singleton.mp hmsg]
        exact List.length_take_le _ data
      · cases hmsg
    · cases hmsg
  | read k =>
    simp only [Gcdbroker.enqueued] at hmsg
    split at hmsg
    · split_ifs at hmsg
      · rw [List.mem_singleton.mp hmsg]
        exact fits_of_nil rfl
      · cases hmsg
    · cases hmsg
  | _ => cases hmsg

theorem Fitting.step (h : Fitting s) (e : Event) : Fitting (s.step e).1 := by
  refine ⟨fun item hitem => ?_, handlerFits_step h e, fun msg hmsg => ?_⟩
  · rcases mem_recvQueue_step hitem with hold | hnew
    · exact h.recvQueue item hold
    · exact approvalFits_queued hnew
  · rw [sendQueue_step] at hmsg
    rcases List.mem_append.mp hmsg with hmsg | hmsg
    · have hold : msg ∈ s.sendQueue := by
        cases e with
        | transmit => exact List.mem_of_mem_tail hmsg
        | _ => exact hmsg
      exact h.sendQueue msg hold
    · exact h.enqueued hmsg

/-- What is sent comes from the send queue. -/
theorem exists_sent {data : Bytes} (h : .transmit data ∈ (s.step e).2) :
    ∃ msg ∈ s.sendQueue, data = Multiplexer.serialize msg := by
  cases e with
  | datagram received =>
    simp only [step] at h
    split at h <;> simp at h
  | handle =>
    simp only [step, handle] at h
    split at h
    · split at h <;> simp at h
    · simp only [Gcdbroker.dispatch] at h
      repeat' split at h
      all_goals simp at h
    · rw [insert] at h
      split at h <;> simp at h
    · simp at h
    · simp at h
    · simp at h
  | dial fd =>
    simp only [step, dial] at h
    repeat' split at h
    all_goals simp at h
  | send taken =>
    simp only [step, send] at h
    repeat' split at h
    all_goals simp at h
  | receive k received due =>
    simp only [step, receive] at h
    repeat' split at h
    all_goals simp at h
  | timeout k due => simp [step] at h
  | read k =>
    simp only [step, read] at h
    repeat' split at h
    all_goals simp at h
  | transmit =>
    simp only [step] at h
    split at h
    · cases h
    · next msg rest hqueue =>
      rw [hqueue]
      have hdata := List.mem_singleton.mp h
      cases hdata
      exact ⟨msg, List.mem_cons_self, rfl⟩

theorem fitted_of_emitted {es : List Event} {data : Bytes} (h : .transmit data ∈ machine.emitted es) :
    Fitted data := by
  have hinit : Fitting machine.init := by
    refine ⟨fun item hitem => ?_, trivial, fun msg hmsg => ?_⟩
    · cases hitem
    · cases hmsg
  have hall : ∀ e ∈ es, True := fun _ _ => trivial
  have hrun := Machine.emitted_of_invariant (Q := fun o => ∀ data, o = .transmit data → Fitted data)
    hinit (fun es e hfit _ => ⟨hfit.step e, fun o ho data hdata => by
      subst hdata
      obtain ⟨msg, hmsg, rfl⟩ := exists_sent ho
      exact (hfit.sendQueue msg hmsg).fitted⟩) hall
  exact hrun.2 _ h data rfl

end

end Gcdbroker

-- ════════════════════════════════════════════════════════════════════════
-- The guard
-- ════════════════════════════════════════════════════════════════════════

namespace Guard

section

variable {g : Guard} {buffer data : Bytes} {msg : BridgeMessage}

theorem fitted_shutdown (channel : UInt16) : Fitted (shutdown channel) := (fits_of_nil rfl).fitted

theorem fitted_shutdowns {order : List UInt16} (h : data ∈ order.map shutdown) : Fitted data := by
  obtain ⟨channel, -, rfl⟩ := List.mem_map.mp h
  exact fitted_shutdown channel

/-- What is passed on as it has come has been accepted. -/
theorem fitted_buffer (hcast : Multiplexer.tryCast buffer = some msg) : Fitted buffer := by
  obtain ⟨hserial, hfits⟩ := Multiplexer.serialize_of_tryCast hcast
  exact ⟨msg, hserial.symm, hfits⟩

/-- A verdict is one byte longer than the id. -/
theorem fitted_create (hcast : Multiplexer.tryCast buffer = some msg)
    (h : data ∈ (g.create buffer msg).2) : Fitted data := by
  rw [create] at h
  by_cases hid : isValidRequestId msg.payload = true
  · have happroval : ∀ v : UInt8, Fitted (Multiplexer.serialize
        { channel := msg.channel, action := .approval, payload := v :: msg.payload }) := by
      intro v
      apply BridgeMessage.Fits.fitted
      show (v :: msg.payload).length ≤ Multiplexer.maxPayloadSize
      rw [List.length_cons, Diode.length_of_drawn hid]
      decide
    rw [if_pos hid] at h
    dsimp only at h
    split_ifs at h
    · rcases List.mem_cons.mp h with rfl | h
      · exact fitted_buffer hcast
      · rw [List.mem_singleton.mp h]
        exact happroval _
    · rcases List.mem_cons.mp h with rfl | h
      · exact fitted_buffer hcast
      · rcases List.mem_cons.mp h with rfl | h
        · exact happroval _
        · rw [List.mem_singleton.mp h]
          exact fitted_shutdown msg.channel
  · rw [if_neg hid] at h
    cases h

/-- An excision leaves no more than there was. -/
theorem fitted_settle (p : OpcodeParser GuardMembers) (hcast : Multiplexer.tryCast buffer = some msg)
    (h : data ∈ (g.settle buffer msg (p.parse GuardOpcodeParser.hooks msg.payload)).2) :
    Fitted data := by
  have hexcised := OpcodeParser.length_excised_le GuardOpcodeParser.hooks p msg.payload
  generalize p.parse GuardOpcodeParser.hooks msg.payload = outcome at h hexcised
  obtain ⟨state, q⟩ := outcome
  have hbuffer : ∀ {g' : Guard}, data ∈ ((g', [buffer]) : Guard × List Bytes).2 → Fitted data := by
    intro g' hmem
    rw [List.mem_singleton.mp hmem]
    exact fitted_buffer hcast
  cases state with
  | streamCorrupted =>
    rw [List.mem_singleton.mp h]
    exact fitted_shutdown msg.channel
  | deniedData =>
    simp only [settle] at h
    split_ifs at h
    · cases h
    · rw [List.mem_singleton.mp h]
      apply BridgeMessage.Fits.fitted
      exact hexcised.trans (fits_of_tryCast hcast)
  | readingLength => exact hbuffer h
  | readingData => exact hbuffer h
  | expectDelim => exact hbuffer h

theorem fitted_relay (hcast : Multiplexer.tryCast buffer = some msg)
    (h : data ∈ (g.relay buffer msg).2) : Fitted data := by
  rw [relay] at h
  split_ifs at h
  · cases h
  · exact fitted_settle _ hcast h
  · cases h

theorem fitted_handle {received : Bytes} (h : data ∈ (g.handle received).2) : Fitted data := by
  rw [handle] at h
  cases hcast : Multiplexer.tryCast (UDPReceiver.receive bufferSize received) with
  | none =>
    rw [hcast] at h
    cases h
  | some msg =>
    rw [hcast] at h
    simp only [dispatch] at h
    cases haction : msg.action with
    | createChannel =>
      rw [haction] at h
      exact fitted_create hcast h
    | shutdownChannel =>
      rw [haction] at h
      rw [List.mem_singleton.mp h]
      exact fitted_buffer hcast
    | none =>
      rw [haction] at h
      exact fitted_relay hcast h
    | approval =>
      rw [haction] at h
      exact fitted_relay hcast h

theorem fitted_step {e : Event} (h : data ∈ (g.step e).2) : Fitted data := by
  cases e with
  | command raw =>
    simp only [step] at h
    repeat' split at h
    all_goals cases h
  | flagTeardown =>
    simp only [step] at h
    split at h <;> cases h
  | poll order =>
    simp only [step] at h
    split_ifs at h
    · cases h
    · exact fitted_shutdowns h
    · cases h
    · cases h
  | datagram received =>
    simp only [step] at h
    split_ifs at h
    · exact fitted_handle h
    · cases h
  | timeout => cases h
  | stop order =>
    simp only [step] at h
    split_ifs at h
    · cases h
    · exact fitted_shutdowns h
    · cases h

theorem fitted_of_emitted {es : List Event} (h : data ∈ machine.emitted es) : Fitted data := by
  have hall : ∀ e ∈ es, True := fun _ _ => trivial
  have hrun := Machine.emitted_of_invariant (M := machine) (P := fun _ => True) (Q := Fitted) trivial
    (fun es e _ _ => ⟨trivial, fun o ho => fitted_step ho⟩) hall
  exact hrun.2 data h

end

end Guard

-- ════════════════════════════════════════════════════════════════════════
-- The bridge
-- ════════════════════════════════════════════════════════════════════════

namespace Program

/-- The program that receives what a program sends. -/
def next : Program → Program
  | .gmlbroker => .guard
  | .guard => .gcdbroker
  | .gcdbroker => .gmlbroker

/-- The buffer that a program receives datagrams in. -/
def bufferSize : Program → ℕ
  | .guard => Guard.bufferSize
  | .gmlbroker => Gmlbroker.bufferSize
  | .gcdbroker => Gcdbroker.bufferSize

/-- A program sends the datagram in some run, whatever it receives and whatever its clients do. -/
inductive Sends : Program → Bytes → Prop where
  | guard {es : List Guard.Event} {data : Bytes} (emitted : data ∈ Guard.machine.emitted es) :
      Sends .guard data
  | gmlbroker (ids : ℕ → ℕ → Bytes) {es : List Gmlbroker.Event} {data : Bytes}
      (possible : ∀ e ∈ es, Gmlbroker.Possible e)
      (emitted : .transmit data ∈ (Gmlbroker.machine ids).emitted es) : Sends .gmlbroker data
  | gcdbroker {es : List Gcdbroker.Event} {data : Bytes}
      (emitted : .transmit data ∈ Gcdbroker.machine.emitted es) : Sends .gcdbroker data

/-- The datagram is the form of a message whose payload fits. It comes whole into the buffer of the
program, which reads the message back. -/
structure Carried (program : Program) (data : Bytes) : Prop where
  payload_le : (payload data).length ≤ Multiplexer.maxPayloadSize
  whole : UDPReceiver.receive program.bufferSize data = data
  accepted : ∃ msg, Multiplexer.serialize msg = data ∧ program.receive data = some msg

/-- The datagram of a message that fits is carried to every program. -/
theorem carried_of_fitted (program : Program) {data : Bytes} (h : Fitted data) :
    program.Carried data := by
  obtain ⟨msg, rfl, hfits⟩ := h
  have hpayload : payload (Multiplexer.serialize msg) = msg.payload := rfl
  have hlength : (Multiplexer.serialize msg).length ≤ Multiplexer.maxDatagramSize := by
    show msg.payload.length + 3 ≤ 1203
    have hle : msg.payload.length ≤ 1200 := hfits
    omega
  have hwhole : (Multiplexer.serialize msg).take Multiplexer.maxDatagramSize =
      Multiplexer.serialize msg := List.take_of_length_le hlength
  refine ⟨?_, ?_, msg, rfl, ?_⟩
  · rw [hpayload]
    exact hfits
  · cases program <;> exact hwhole
  · rw [receive_eq, hwhole]
    exact Multiplexer.tryCast_serialize hfits

/-- Every datagram that a program sends carries a payload that fits, comes whole into the buffer of
the next program, and is accepted there. -/
theorem carried_of_sends {program : Program} {data : Bytes} (h : program.Sends data) :
    program.next.Carried data := by
  apply carried_of_fitted
  cases h with
  | guard hemitted => exact Guard.fitted_of_emitted hemitted
  | gmlbroker ids hpossible hemitted => exact Gmlbroker.fitted_of_emitted ids hpossible hemitted
  | gcdbroker hemitted => exact Gcdbroker.fitted_of_emitted hemitted

/-- The verdict on a request that the guard has received. -/
theorem carried_verdict : gcdbroker.Carried (Multiplexer.serialize
    { channel := 7, action := .approval, payload := approvalApprove :: ascii "0123456789ab" }) := by
  have hemitted : Multiplexer.serialize
      { channel := 7, action := .approval, payload := approvalApprove :: ascii "0123456789ab" } ∈
      Guard.machine.emitted [.poll [], .datagram (Multiplexer.serialize
        { channel := 7, action := .createChannel, payload := ascii "0123456789ab" })] := by
    decide +kernel
  exact carried_of_sends (.guard hemitted)

end Program

end GuacamoleDiode

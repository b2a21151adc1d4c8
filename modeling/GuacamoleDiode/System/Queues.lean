import GuacamoleDiode.Bridge.QueueUser
import GuacamoleDiode.Gcdbroker.Broker
import GuacamoleDiode.Gmlbroker.Broker
import GuacamoleDiode.System.Shutdown

/-!
# The send queues of the brokers

The threads of the brokers know the send queue through `NetQueue` only. Whatever the order of their
accesses to it, they do what the models of the brokers do, where a message is put on the queue or
taken off it in one step.

## Main definitions

- `Gmlbroker.queueUser`, `Gcdbroker.queueUser`: the brokers as users of their send queue

## Main results

- `send_queues`: the accesses of the brokers to their send queues
- `Shutdown.send_dequeuing`: the sender at the end of a broker
-/

namespace GuacamoleDiode

open Wire
open QueueUser (puts_nothing puts_same)

-- ════════════════════════════════════════════════════════════════════════
-- gmlbroker
-- ════════════════════════════════════════════════════════════════════════

namespace Gmlbroker

/-- The thread that takes a step. -/
def thread : Event → ℕ
  | .transmit => 0
  | .datagram _ => 1
  | .accept | .register => 2
  | .handle => 3
  | .wake n _ | .perform n => n + 4

def setSendQueue (q : List BridgeMessage) (s : Gmlbroker) : Gmlbroker := { s with sendQueue := q }

section

variable (q : List BridgeMessage) (s : Gmlbroker)

theorem accept_setSendQueue :
    (s.setSendQueue q).accept = (s.accept.1.setSendQueue q, s.accept.2) := by
  have hacceptor : (s.setSendQueue q).acceptor = s.acceptor := rfl
  simp only [accept, hacceptor]
  by_cases h : s.acceptor = .accepting
  · simp only [if_pos h, setSendQueue]
    cases ChannelTable.allocate s.table s.nextChannel <;> rfl
  · simp only [if_neg h]

theorem register_setSendQueue :
    (s.setSendQueue q).register = (s.register.1.setSendQueue q, s.register.2) := by
  obtain ⟨_, _, _, _, _, _, acceptor, _, _, _, _⟩ := s
  cases acceptor <;> rfl

theorem dispatch_setSendQueue (item : Item) :
    (s.setSendQueue q).dispatch item = ((s.dispatch item).1.setSendQueue q, (s.dispatch item).2) := by
  have hmatching : (s.setSendQueue q).matching item.msg = s.matching item.msg := rfl
  have hfiltered : (s.setSendQueue q).filtered item.msg = s.filtered item.msg := rfl
  have hmailboxes : (s.setSendQueue q).mailboxes = s.mailboxes := rfl
  simp only [dispatch, hmatching, hfiltered]
  cases item.msg.action with
  | shutdownChannel =>
    simp only [hmailboxes]
    cases s.mailboxes item.msg.channel <;> rfl
  | createChannel => rfl
  | approval =>
    cases s.matching item.msg with
    | none => rfl
    | some n =>
      by_cases h : verdict item.msg = approvalApprove
      · simp only [if_pos h]
        rfl
      · simp only [if_neg h]
        rfl
  | none =>
    simp only [hmailboxes]
    cases s.mailboxes item.msg.channel with
    | none => rfl
    | some n =>
      by_cases h : (s.filtered item.msg).1 = []
      · simp only [if_pos h]
        rfl
      · simp only [if_neg h]
        rfl

theorem handle_setSendQueue :
    (s.setSendQueue q).handle = (s.handle.1.setSendQueue q, s.handle.2) := by
  obtain ⟨recvQueue, _, _, _, _, mailboxes, _, handler, _, _, _⟩ := s
  cases handler with
  | waiting => cases recvQueue <;> rfl
  | busy item => exact dispatch_setSendQueue q _ item
  | matched item =>
    simp only [handle, setSendQueue]
    cases mailboxes item.msg.channel <;> rfl
  | holding item n mails => cases mails <;> rfl

theorem perform_setSendQueue (n : ℕ) (channel : UInt16) {effect : ReadHandler.Effect}
    (h : ∀ msg, effect ≠ .enqueue msg) :
    perform (s.setSendQueue q) n channel effect = (perform s n channel effect).setSendQueue q := by
  cases effect with
  | enqueue msg => exact absurd rfl (h msg)
  | _ => rfl

/-- A turn of a reader. -/
theorem puts_wake (ids : ℕ → ℕ → Bytes) (n : ℕ) (wake : Wake) :
    QueueUser.Puts setSendQueue (step ids) s (.wake n wake) := by
  cases hn : s.sessions n with
  | none => exact puts_same fun q => by simp only [step, setSendQueue, hn]
  | some session =>
    by_cases hstart : session.started = true ∧ session.pending = []
    · refine puts_nothing
        { s with sessions := Function.update s.sessions n (some (turn ids n session wake)) } [] fun q => ?_
      simp only [step, setSendQueue, hn, if_pos hstart]
    · exact puts_same fun q => by simp only [step, setSendQueue, hn, if_neg hstart]

/-- What a reader has for the bridge goes on the queue. -/
theorem puts_perform (ids : ℕ → ℕ → Bytes) (n : ℕ) :
    QueueUser.Puts setSendQueue (step ids) s (.perform n) := by
  cases hn : s.sessions n with
  | none => exact puts_same fun q => by simp only [step, setSendQueue, hn]
  | some session =>
    cases hpending : session.pending with
    | nil => exact puts_same fun q => by simp only [step, setSendQueue, hn, hpending]
    | cons effect pending =>
      let s₁ : Gmlbroker :=
        { s with sessions := Function.update s.sessions n (some { session with pending }) }
      by_cases heffect : ∃ msg, effect = .enqueue msg
      · obtain ⟨msg, rfl⟩ := heffect
        refine ⟨some msg, s₁, [.performed n (.enqueue msg)], fun q => ?_⟩
        simp only [step, setSendQueue, hn, hpending]
        rfl
      · refine puts_nothing (perform s₁ n session.channel effect) [.performed n effect] fun q => ?_
        rw [← perform_setSendQueue q s₁ n session.channel fun msg h => heffect ⟨msg, h⟩]
        simp only [step, setSendQueue, hn, hpending]
        rfl

end

/-- Only the sender looks at the send queue, and only the readers put messages on it. -/
theorem puts_step (ids : ℕ → ℕ → Bytes) (s : Gmlbroker) (e : Event) (he : thread e ≠ 0) :
    QueueUser.Puts setSendQueue (step ids) s e := by
  cases e with
  | datagram data =>
    cases hmsg : arrival (.datagram data) with
    | none => exact puts_same fun q => by simp only [step, hmsg]
    | some msg =>
      refine puts_nothing { s with recvQueue := s.recvQueue ++ [⟨.bridge, msg⟩] } [] fun q => ?_
      rw [step]
      simp only [hmsg]
      rfl
  | accept => exact puts_nothing _ _ fun q => accept_setSendQueue q s
  | register => exact puts_nothing _ _ fun q => register_setSendQueue q s
  | handle => exact puts_nothing _ _ fun q => handle_setSendQueue q s
  | wake n wake => exact puts_wake s ids n wake
  | perform n => exact puts_perform s ids n
  | transmit => exact absurd rfl he

/-- gmlbroker as a user of its send queue. -/
def queueUser (ids : ℕ → ℕ → Bytes) : QueueUser Gmlbroker Event Effect where
  machine := machine ids
  queue := sendQueue
  setQueue := setSendQueue
  thread := thread
  transmit := .transmit
  sent msg := [.transmit (Multiplexer.serialize msg)]
  queue_setQueue _ _ := rfl
  setQueue_setQueue _ _ _ := rfl
  setQueue_init := rfl
  thread_eq_zero e := by cases e <;> simp [thread]
  transmit_nil _ := rfl
  transmit_cons _ _ _ := rfl
  step_other e he s := puts_step ids s e he

end Gmlbroker

-- ════════════════════════════════════════════════════════════════════════
-- gcdbroker
-- ════════════════════════════════════════════════════════════════════════

namespace Gcdbroker

/-- The thread that takes a step. -/
def thread : Event → ℕ
  | .transmit => 0
  | .datagram _ => 1
  | .handle | .dial _ | .send _ => 2
  | .receive k _ _ | .timeout k _ | .read k => k + 3

def setSendQueue (q : List BridgeMessage) (s : Gcdbroker) : Gcdbroker := { s with sendQueue := q }

section

variable (q : List BridgeMessage) (s : Gcdbroker)

theorem dispatch_setSendQueue (item : Item) :
    (s.setSendQueue q).dispatch item = ((s.dispatch item).1.setSendQueue q, (s.dispatch item).2) := by
  have htable : (s.setSendQueue q).table = s.table := rfl
  simp only [dispatch, htable]
  cases item.msg.action with
  | createChannel => rfl
  | approval =>
    by_cases h : verdict item.msg = approvalApprove
    · simp only [if_pos h]
    · simp only [if_neg h]
      rfl
  | shutdownChannel => rfl
  | none => cases s.table item.msg.channel <;> rfl

theorem dial_setSendQueue (fd : Option ℕ) :
    (s.setSendQueue q).dial fd = ((s.dial fd).1.setSendQueue q, (s.dial fd).2) := by
  have hhandler : (s.setSendQueue q).handler = s.handler := rfl
  have hsockets : (s.setSendQueue q).sockets = s.sockets := rfl
  simp only [dial, hhandler, hsockets]
  split
  · split_ifs
    · cases fd with
      | none => rfl
      | some fd =>
        dsimp only
        split_ifs <;> rfl
    · rfl
  · rfl

theorem insert_setSendQueue (item : Item) (fd k : ℕ) :
    (s.setSendQueue q).insert item fd k = ((s.insert item fd k).1.setSendQueue q, (s.insert item fd k).2) := by
  have htable : (s.setSendQueue q).table = s.table := rfl
  simp only [insert, htable]
  cases s.table item.msg.channel <;> rfl

theorem send_setSendQueue (taken : ℕ) :
    (s.setSendQueue q).send taken = ((s.send taken).1.setSendQueue q, (s.send taken).2) := by
  have hhandler : (s.setSendQueue q).handler = s.handler := rfl
  have hsockets : (s.setSendQueue q).sockets = s.sockets := rfl
  simp only [send, hhandler, hsockets]
  split
  · split <;> rfl
  · rfl

/-- A step of a reader that does not announce a SHUTDOWN. -/
theorem read_setSendQueue (k : ℕ) {r : Reader} (h : r.stage ≠ .announcing) :
    (s.setSendQueue q).read k r = ((s.read k r).1.setSendQueue q, (s.read k r).2) := by
  obtain ⟨channel, fd, syncFaker, lastAck, stage⟩ := r
  cases stage with
  | announcing => exact absurd rfl h
  | _ => rfl

/-- What the handler relays goes on the queue. -/
theorem puts_handle : QueueUser.Puts setSendQueue step s .handle := by
  cases hhandler : s.handler with
  | waiting =>
    cases hqueue : s.recvQueue with
    | nil => exact puts_same fun q => by simp only [step, handle, setSendQueue, hhandler, hqueue]
    | cons item rest =>
      refine puts_nothing { s with recvQueue := rest, handler := .busy item .fetched } [] fun q => ?_
      simp only [step, handle, setSendQueue, hhandler, hqueue]
  | busy item stage =>
    cases stage with
    | fetched =>
      refine puts_nothing (s.dispatch item).1 (s.dispatch item).2 fun q => ?_
      simp only [step, handle, show (s.setSendQueue q).handler = _ from hhandler]
      exact dispatch_setSendQueue q s item
    | dialed fd k =>
      refine puts_nothing (s.insert item fd k).1 (s.insert item fd k).2 fun q => ?_
      simp only [step, handle, show (s.setSendQueue q).handler = _ from hhandler]
      exact insert_setSendQueue q s item fd k
    | routed fd => exact puts_same fun q => by simp only [step, handle, setSendQueue, hhandler]
  | relaying msg =>
    refine ⟨some msg, { s with handler := .waiting }, [], fun q => ?_⟩
    simp only [step, handle, setSendQueue, hhandler]
    rfl
  | failed channel =>
    refine puts_nothing { s with table := Function.update s.table channel none, handler := .waiting }
      ((s.table channel).toList.map .shutdown) fun q => ?_
    simp only [step, handle, setSendQueue, hhandler]

/-- What a reader has received goes on the queue. -/
theorem puts_receive (k : ℕ) (data : Bytes) (due : Bool) :
    QueueUser.Puts setSendQueue step s (.receive k data due) := by
  cases hk : s.readers k with
  | none => exact puts_same fun q => by simp only [step, setSendQueue, hk]
  | some r =>
    by_cases hstage : r.stage = .receiving
    · by_cases hdata : data.take Multiplexer.maxPayloadSize = []
      · refine puts_nothing { s with
          readers := Function.update s.readers k (some { r with stage := .leaving }) } [] fun q => ?_
        simp only [step, setSendQueue, hk, receive, if_pos hstage, if_pos hdata]
      · refine ⟨some { channel := r.channel, action := .none, payload := data.take Multiplexer.maxPayloadSize },
          { s with readers := Function.update s.readers k (some { r with
              stage := .feeding (data.take Multiplexer.maxPayloadSize) due }) }, [], fun q => ?_⟩
        simp only [step, setSendQueue, hk, receive, if_pos hstage, if_neg hdata]
        rfl
    · exact puts_same fun q => by simp only [step, setSendQueue, hk, receive, if_neg hstage]

/-- The SHUTDOWN of a reader goes on the queue. -/
theorem puts_read (k : ℕ) : QueueUser.Puts setSendQueue step s (.read k) := by
  cases hk : s.readers k with
  | none => exact puts_same fun q => by simp only [step, setSendQueue, hk]
  | some r =>
    by_cases hannouncing : r.stage = .announcing
    · refine ⟨some { channel := r.channel, action := .shutdownChannel }, { s with
        readers := Function.update s.readers k (some { r with stage := .closing }) }, [], fun q => ?_⟩
      simp only [step, setSendQueue, hk, read, hannouncing]
      rfl
    · refine puts_nothing (s.read k r).1 (s.read k r).2 fun q => ?_
      simp only [step, show (s.setSendQueue q).readers k = _ from hk]
      exact read_setSendQueue q s k hannouncing

end

/-- Only the sender looks at the send queue. The handler puts what it relays on it, and a reader
what it has received and its SHUTDOWN. -/
theorem puts_step (s : Gcdbroker) (e : Event) (he : thread e ≠ 0) :
    QueueUser.Puts setSendQueue step s e := by
  cases e with
  | datagram data =>
    cases hmsg : arrival (.datagram data) with
    | none => exact puts_same fun q => by simp only [step, hmsg]
    | some msg =>
      refine puts_nothing { s with
        recvQueue := s.recvQueue ++ [⟨.bridge s.arrived, msg⟩]
        arrived := s.arrived + 1 } [] fun q => ?_
      rw [step]
      simp only [hmsg]
      rfl
  | handle => exact puts_handle s
  | dial fd => exact puts_nothing _ _ fun q => dial_setSendQueue q s fd
  | send taken => exact puts_nothing _ _ fun q => send_setSendQueue q s taken
  | receive k data due => exact puts_receive s k data due
  | timeout k due => exact puts_nothing (s.step (.timeout k due)).1 [] fun q => rfl
  | read k => exact puts_read s k
  | transmit => exact absurd rfl he

/-- gcdbroker as a user of its send queue. -/
def queueUser : QueueUser Gcdbroker Event Effect where
  machine := machine
  queue := sendQueue
  setQueue := setSendQueue
  thread := thread
  transmit := .transmit
  sent msg := [.transmit (Multiplexer.serialize msg)]
  queue_setQueue _ _ := rfl
  setQueue_setQueue _ _ _ := rfl
  setQueue_init := rfl
  thread_eq_zero e := by cases e <;> simp [thread]
  transmit_nil _ := rfl
  transmit_cons _ _ _ := rfl
  step_other e he s := puts_step s e he

end Gcdbroker

-- ════════════════════════════════════════════════════════════════════════
-- The queues
-- ════════════════════════════════════════════════════════════════════════

/-- Whatever the order in which the threads of a broker get at their send queue, they do what the
model of the broker does, and all that it does. The sender does not sleep while there is a message
for it. -/
theorem send_queues :
    (∀ ids : ℕ → ℕ → Bytes, (Gmlbroker.queueUser ids).Implements) ∧ Gcdbroker.queueUser.Implements :=
  ⟨fun ids => (Gmlbroker.queueUser ids).implements, Gcdbroker.queueUser.implements⟩

/-- At the end of a broker, the sender finds in `Dequeue` what the locked part of `Dequeue` finds,
and blocks while it would wait. -/
theorem Shutdown.send_dequeuing {σ : Type} (s : Shutdown σ) (h : s.sender = .dequeuing) (high_water : ℕ) :
    s.send = if NetQueue.ready ⟨s.queue, s.closed, high_water⟩ then
      ({ s with
          queue := (NetQueue.take ⟨s.queue, s.closed, high_water⟩).1.queue
          sender := match (NetQueue.take ⟨s.queue, s.closed, high_water⟩).2 with
            | some msg => .sending msg
            | none => .returned }, []) else (s, []) := by
  obtain ⟨threads, queue, closed, running, sender, joined⟩ := s
  obtain rfl : sender = .dequeuing := h
  cases queue with
  | nil => cases closed <;> rfl
  | cons msg rest => cases closed <;> rfl

end GuacamoleDiode

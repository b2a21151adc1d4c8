import GuacamoleDiode.Bridge.ChannelTable
import GuacamoleDiode.Gmlbroker.ReadHandler
import GuacamoleDiode.Gmlbroker.ReturnFilter

/-!
# The broker in front of the web server

The threads of gmlbroker as one machine: the receiver and the sender of datagrams, the
thread that accepts connections, one reader for each of them, and the handler that routes
bridge messages to their mailboxes. They share two queues, the channel table, the approval
registry and the mailboxes. A step of the machine is one access of one thread to what is
shared, so that the order of the events is an interleaving of the threads.

## Design notes

- A reader takes a turn of its loop in one step, and then does what the turn has to do to
  the rest of the system one effect at a time. It loads the approved flag before the first
  of them.
- Sessions are numbered in the order in which they are accepted, and stand for the
  descriptors of the source. A finished session keeps its number.
- The reader fetches its flag and its mailbox when it starts. The accept thread has put
  them there before, and nobody but the reader takes them away, so they are its own.
- Items of the receive queue say where they come from. The source does not keep this.
-/

namespace GuacamoleDiode

open Wire

namespace HandshakeForger

/-- `DeniedScreen`: the default layer solid red, then ask the client to leave. -/
def deniedScreen : Bytes :=
  instr (["size", "0", "1024", "768"].map ascii) ++
    instr (["rect", "0", "0", "0", "1024", "768"].map ascii) ++
    instr (["cfill", "14", "0", "180", "30", "30", "255"].map ascii) ++
    instr (["sync", "0"].map ascii) ++ instr [ascii "disconnect"]

end HandshakeForger

namespace Gmlbroker

/-- Who has put a message on the receive queue. -/
inductive Origin where
  /-- the receiver of datagrams -/
  | bridge
  /-- the reader of a session -/
  | reader (n : ℕ)
  deriving DecidableEq, Repr

/-- A message on the receive queue. -/
structure Item where
  origin : Origin
  msg : BridgeMessage
  deriving DecidableEq, Repr

/-- An entry of the approval registry. The flag is that of its session. -/
structure Entry where
  session : ℕ
  requestId : Bytes := []
  deriving DecidableEq, Repr

/-- `ChannelMailbox`. -/
structure Mailbox where
  outbox : List Bytes := []
  teardown : Bool := false
  announce : Bool := true
  deriving DecidableEq, Repr

/-- What the send handler does to a mailbox. -/
inductive Mail where
  | post (data : Bytes)
  | requestTeardown (announce : Bool)
  deriving DecidableEq, Repr

def Mailbox.deliver (mailbox : Mailbox) : Mail → Mailbox
  | .post data => { mailbox with outbox := mailbox.outbox ++ [data] }
  | .requestTeardown announce => { mailbox with teardown := true, announce := announce }

/-- Where `GuacamoleSendHandler` stands. -/
inductive SendHandler where
  | waiting
  | busy (item : Item)
  /-- a denial has been matched to the request of its channel -/
  | matched (item : Item)
  /-- the mailbox of a session has been fetched -/
  | holding (item : Item) (n : ℕ) (mails : List Mail)
  deriving DecidableEq, Repr

/-- Where `GuacamoleAcceptHandler` stands. -/
inductive AcceptHandler where
  | accepting
  /-- a channel has been allocated -/
  | allocated (n : ℕ) (channel : UInt16)
  /-- its entry is in the approval registry -/
  | created (n : ℕ) (channel : UInt16)
  deriving DecidableEq, Repr

/-- A connection of the web server and its reader. -/
structure Session where
  channel : UInt16
  reader : ReadHandler := {}
  /-- what the reader still has to do in the current turn -/
  pending : List ReadHandler.Effect := []
  mailbox : Mailbox := {}
  started : Bool := false

/-- What wakes a reader up. -/
inductive Wake where
  | heartbeat (ms : ℕ)
  | timeout
  | read (data : Bytes) (requestId : Bytes)
  /-- the mailbox; if a write fails, after this many bytes have been taken -/
  | drain (failed : Option ℕ)
  | stop
  deriving DecidableEq, Repr

inductive Event where
  | datagram (data : Bytes)
  /-- `Accept` returns -/
  | accept
  /-- the accept thread goes on -/
  | register
  /-- the send handler goes on -/
  | handle
  /-- a reader begins a turn -/
  | wake (n : ℕ) (wake : Wake)
  /-- a reader goes on with its turn -/
  | perform (n : ℕ)
  /-- the sender takes a message off the send queue -/
  | transmit
  deriving DecidableEq, Repr

/-- What the threads do, as far as the steps of the machine do not show it. -/
inductive Effect where
  /-- a session is accepted on a channel -/
  | accepted (n : ℕ) (channel : UInt16)
  /-- a reader does something to the rest of the system -/
  | performed (n : ℕ) (effect : ReadHandler.Effect)
  /-- a verdict sets the approved flag of a session -/
  | approved (n : ℕ) (item : Item)
  /-- a message is brought to the mailbox of a session -/
  | mailed (n : ℕ) (item : Item) (mail : Mail)
  | transmit (data : Bytes)
  deriving DecidableEq, Repr

end Gmlbroker

open Gmlbroker in
/-- The state that the threads share, and their own. -/
structure Gmlbroker where
  recvQueue : List Item := []
  sendQueue : List BridgeMessage := []
  table : UInt16 → Option ℕ := fun _ => none
  nextChannel : UInt16 := 0
  approvals : UInt16 → Option Entry := fun _ => none
  mailboxes : UInt16 → Option ℕ := fun _ => none
  acceptor : AcceptHandler := .accepting
  handler : SendHandler := .waiting
  /-- the return filters of the send handler -/
  filters : UInt16 → Option (OpcodeParser ReturnMembers) := fun _ => none
  sessions : ℕ → Option Session := fun _ => none
  /-- the number of sessions accepted so far -/
  accepted : ℕ := 0

namespace Gmlbroker

/-- The buffer of the receiver holds one datagram. -/
def bufferSize : ℕ := Multiplexer.maxDatagramSize + 1

-- ════════════════════════════════════════════════════════════════════════
-- The accept thread
-- ════════════════════════════════════════════════════════════════════════

/-- `Accept` returns. A client is rejected if no channel is free. -/
def accept (s : Gmlbroker) : Gmlbroker × List Effect :=
  if s.acceptor = .accepting then
    match ChannelTable.allocate s.table s.nextChannel with
    | none => (s, [])
    | some channel =>
      ({ s with
          table := Function.update s.table channel (some s.accepted)
          nextChannel := channel + 1
          sessions := Function.update s.sessions s.accepted (some { channel := channel })
          accepted := s.accepted + 1
          acceptor := .allocated s.accepted channel }, [.accepted s.accepted channel])
  else (s, [])

/-- The session with its reader running. -/
def start (s : Gmlbroker) (n : ℕ) : ℕ → Option Session :=
  Function.update s.sessions n ((s.sessions n).map fun session => { session with started := true })

/-- The approval state and the mailbox of a new channel, before its reader can run. -/
def register (s : Gmlbroker) : Gmlbroker × List Effect :=
  match s.acceptor with
  | .accepting => (s, [])
  | .allocated n channel =>
    ({ s with
        approvals := Function.update s.approvals channel (some { session := n })
        acceptor := .created n channel }, [])
  | .created n channel =>
    ({ s with
        mailboxes := Function.update s.mailboxes channel (some n)
        sessions := s.start n
        acceptor := .accepting }, [])

-- ════════════════════════════════════════════════════════════════════════
-- The send handler
-- ════════════════════════════════════════════════════════════════════════

/-- The verdict in an approval; an empty payload counts as a denial. -/
def verdict (msg : BridgeMessage) : UInt8 := msg.payload.headD approvalDeny

/-- The id behind the verdict. -/
def verdictId (msg : BridgeMessage) : Bytes := msg.payload.tail

/-- `ApprovalRegistry::Matches`: the session whose outstanding request has the id. -/
def matching (s : Gmlbroker) (msg : BridgeMessage) : Option ℕ :=
  match s.approvals msg.channel with
  | none => none
  | some entry => if entry.requestId = verdictId msg then some entry.session else none

/-- The approved flag of a session is set. -/
def setFlag (s : Gmlbroker) (n : ℕ) : ℕ → Option Session :=
  Function.update s.sessions n ((s.sessions n).map fun session =>
    { session with reader := { session.reader with approved := true } })

/-- What is piped to the web server of a payload, and the filters afterwards. -/
def filtered (s : Gmlbroker) (msg : BridgeMessage) :
    Bytes × (UInt16 → Option (OpcodeParser ReturnMembers)) :=
  match s.filters msg.channel with
  | none => (msg.payload, s.filters)
  | some filter =>
    let r := ReturnFilter.feed filter msg.payload
    (r.1, Function.update s.filters msg.channel (some r.2))

/-- A message that nothing has been done with yet. -/
def dispatch (s : Gmlbroker) (item : Item) : Gmlbroker × List Effect :=
  match item.msg.action with
  | .shutdownChannel =>
    let s := { s with filters := Function.update s.filters item.msg.channel none }
    match s.mailboxes item.msg.channel with
    | none => ({ s with handler := .waiting }, [])
    | some n => ({ s with handler := .holding item n [.requestTeardown false] }, [])
  | .createChannel => ({ s with handler := .waiting }, [])
  | .approval =>
    match s.matching item.msg with
    | none => ({ s with handler := .waiting }, [])
    | some n =>
      if verdict item.msg = approvalApprove then
        ({ s with
            sessions := s.setFlag n
            filters := Function.update s.filters item.msg.channel (some ReturnFilter.fresh)
            handler := .waiting }, [.approved n item])
      else ({ s with handler := .matched item }, [])
  | .none =>
    match s.mailboxes item.msg.channel with
    | none => ({ s with handler := .waiting }, [])
    | some n =>
      let r := s.filtered item.msg
      let s := { s with filters := r.2 }
      if r.1 = [] then ({ s with handler := .waiting }, [])
      else ({ s with handler := .holding item n [.post r.1] }, [])

/-- The mailbox of a session with a new message. -/
def deliver (s : Gmlbroker) (n : ℕ) (mail : Mail) : ℕ → Option Session :=
  Function.update s.sessions n ((s.sessions n).map fun session =>
    { session with mailbox := session.mailbox.deliver mail })

/-- The next access of the handler. -/
def handle (s : Gmlbroker) : Gmlbroker × List Effect :=
  match s.handler with
  | .waiting =>
    match s.recvQueue with
    | [] => (s, [])
    | item :: rest => ({ s with recvQueue := rest, handler := .busy item }, [])
  | .busy item => s.dispatch item
  | .matched item =>
    match s.mailboxes item.msg.channel with
    | none => ({ s with handler := .waiting }, [])
    | some n =>
      ({ s with
          handler := .holding item n
            [.post HandshakeForger.deniedScreen, .requestTeardown true] }, [])
  | .holding _ _ [] => ({ s with handler := .waiting }, [])
  | .holding item n (mail :: mails) =>
    ({ s with sessions := s.deliver n mail, handler := .holding item n mails },
      [.mailed n item mail])

-- ════════════════════════════════════════════════════════════════════════
-- The readers
-- ════════════════════════════════════════════════════════════════════════

/-- What poll reports to a reader. `Drain` takes everything out of the mailbox. -/
def poll (mailbox : Mailbox) : Wake → ReadHandler.Poll × Mailbox
  | .heartbeat ms => (.heartbeat ms, mailbox)
  | .timeout => (.timeout, mailbox)
  | .read data requestId => (.read data requestId, mailbox)
  | .drain failed =>
    let teardown := if mailbox.teardown then some mailbox.announce else none
    -- nothing can fail if there is nothing to write
    let failed := if mailbox.outbox = [] then none else failed
    (match failed with
      | none => .drain mailbox.outbox false teardown
      | some taken => .drain [mailbox.outbox.flatten.take taken] true teardown,
      { mailbox with outbox := [] })
  | .stop => (.stop, mailbox)

/-- A turn of the loop of a reader. -/
def turn (ids : ℕ → ℕ → Bytes) (n : ℕ) (session : Session) (wake : Wake) : Session :=
  let p := poll session.mailbox wake
  let r := session.reader.step (ids n) session.channel (.poll p.1)
  { session with reader := r.1, pending := r.2, mailbox := p.2 }

/-- What a reader does to the rest of the system. -/
def perform (s : Gmlbroker) (n : ℕ) (channel : UInt16) : ReadHandler.Effect → Gmlbroker
  | .enqueue msg => { s with sendQueue := s.sendQueue ++ [msg] }
  | .enqueueRecv msg => { s with recvQueue := s.recvQueue ++ [⟨.reader n, msg⟩] }
  | .send _ => s
  | .setRequestId id =>
    { s with
      approvals := Function.update s.approvals channel
        ((s.approvals channel).map fun entry => { entry with requestId := id }) }
  | .removeApproval => { s with approvals := Function.update s.approvals channel none }
  | .removeMailbox => { s with mailboxes := Function.update s.mailboxes channel none }
  | .removeChannel => { s with table := Function.update s.table channel none }
  | .close => s

-- ════════════════════════════════════════════════════════════════════════
-- The machine
-- ════════════════════════════════════════════════════════════════════════

/-- The message that the receiver queues in a step. -/
def arrival : Event → Option BridgeMessage
  | .datagram data => Multiplexer.tryCast (UDPReceiver.receive bufferSize data)
  | _ => none

def step (ids : ℕ → ℕ → Bytes) (s : Gmlbroker) (e : Event) : Gmlbroker × List Effect :=
  match e with
  | .datagram _ =>
    match arrival e with
    | none => (s, [])
    | some msg => ({ s with recvQueue := s.recvQueue ++ [⟨.bridge, msg⟩] }, [])
  | .accept => s.accept
  | .register => s.register
  | .handle => s.handle
  | .wake n wake =>
    match s.sessions n with
    | none => (s, [])
    | some session =>
      if session.started = true ∧ session.pending = [] then
        ({ s with sessions := Function.update s.sessions n (some (turn ids n session wake)) }, [])
      else (s, [])
  | .perform n =>
    match s.sessions n with
    | none => (s, [])
    | some session =>
      match session.pending with
      | [] => (s, [])
      | effect :: pending =>
        (perform { s with sessions := Function.update s.sessions n (some { session with pending }) } n
          session.channel effect, [.performed n effect])
  | .transmit =>
    match s.sendQueue with
    | [] => (s, [])
    | msg :: rest => ({ s with sendQueue := rest }, [.transmit (Multiplexer.serialize msg)])

/-- The broker. The ids are those that the forgers of the sessions draw. -/
def machine (ids : ℕ → ℕ → Bytes) : Machine Gmlbroker Event Effect where
  init := {}
  step := step ids

end Gmlbroker

end GuacamoleDiode

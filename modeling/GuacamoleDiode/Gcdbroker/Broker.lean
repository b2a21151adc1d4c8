import GuacamoleDiode.Bridge.Multiplexer
import GuacamoleDiode.Gcdbroker.SyncFaker
import GuacamoleDiode.Lib.Machine

/-!
# The broker in front of guacd

The threads of gcdbroker as one machine: the receiver and the sender of datagrams, the
handler that routes bridge messages to guacd connections, and one reader for each
connection. They share two queues, the channel table and the descriptors. A step of the
machine is one access of one thread to what is shared, so that the order of the events is
an interleaving of the threads.

## Design notes

- What the operating system decides is part of the event: the descriptor that `Connect`
  returns, the number of bytes that a write takes, the data that guacd has sent, and
  whether the keepalive is due. An event that does not apply changes nothing.
- Descriptors may be used again once they are closed. Connections are numbered in the
  order in which they are dialed, and never share a number.
- Items of the receive queue say where they come from. The source does not keep this.
-/

namespace GuacamoleDiode

open Wire

namespace Gcdbroker

/-- Who has put a message on the receive queue. -/
inductive Origin where
  /-- the receiver of datagrams, and how many it had queued before -/
  | bridge (n : ℕ)
  /-- the reader of a connection -/
  | reader (k : ℕ)
  deriving DecidableEq, Repr

/-- A message on the receive queue. -/
structure Item where
  origin : Origin
  msg : BridgeMessage
  deriving DecidableEq, Repr

/-- How far the handler has come with a message. -/
inductive Stage where
  | fetched
  /-- guacd has been dialed for it -/
  | dialed (fd k : ℕ)
  /-- the descriptor of its channel has been looked up -/
  | routed (fd : ℕ)
  deriving DecidableEq, Repr

/-- Where `GuacdSendHandler` stands. -/
inductive SendHandler where
  | waiting
  | busy (item : Item) (stage : Stage)
  /-- about to queue a message for the return path -/
  | relaying (msg : BridgeMessage)
  /-- a write has failed -/
  | failed (channel : UInt16)
  deriving DecidableEq, Repr

/-- Where a `GuacdReadHandler` stands. -/
inductive ReaderStage where
  | receiving
  /-- data has been queued for the return path, and now goes to the faker -/
  | feeding (data : Bytes) (due : Bool)
  /-- the loop has been left -/
  | leaving
  /-- the channel has been removed -/
  | announcing
  | closing
  deriving DecidableEq, Repr

/-- The locals of a reader. -/
structure Reader where
  channel : UInt16
  fd : ℕ
  syncFaker : OpcodeParser SyncMembers := SyncFaker.fresh
  /-- most recent sync ack, re-sent as a keepalive -/
  lastAck : Bytes := []
  stage : ReaderStage := .receiving

inductive Event where
  | datagram (data : Bytes)
  /-- the handler goes on -/
  | handle
  /-- `Connect` returns -/
  | dial (fd : Option ℕ)
  /-- `Send` returns once this many bytes have been taken, or fails behind them -/
  | send (taken : ℕ)
  /-- `Receive` of a reader returns; no data means that the connection has ended -/
  | receive (k : ℕ) (data : Bytes) (due : Bool)
  /-- `Receive` of a reader times out -/
  | timeout (k : ℕ) (due : Bool)
  /-- a reader goes on -/
  | read (k : ℕ)
  /-- the sender takes a message off the send queue -/
  | transmit
  deriving DecidableEq, Repr

/-- What the threads do to the rest of the system. -/
inductive Effect where
  | connect (k fd : ℕ)
  /-- a connection is bound to the channel of an approval -/
  | insert (k : ℕ) (item : Item)
  /-- bytes of an item are written to a connection -/
  | write (k : ℕ) (item : Item) (data : Bytes)
  | shutdown (fd : ℕ)
  | close (fd : ℕ)
  | transmit (data : Bytes)
  deriving DecidableEq, Repr

/-- Re-send the last ack if guacd has not heard from us for long enough. -/
def Reader.keepalive (r : Reader) (due : Bool) : Option Bytes :=
  if r.lastAck ≠ [] ∧ due = true then some r.lastAck else none

/-- The faker sees data of guacd. A new ack makes a keepalive unnecessary. -/
def Reader.feed (r : Reader) (data : Bytes) (due : Bool) : Reader × Option Bytes :=
  let ack := SyncFaker.feed r.syncFaker data
  let r := { r with syncFaker := ack.2, stage := .receiving }
  if ack.1 ≠ [] then ({ r with lastAck := ack.1 }, some ack.1)
  else (r, r.keepalive due)

end Gcdbroker

open Gcdbroker in
/-- The state that the threads share, and their own. -/
structure Gcdbroker where
  recvQueue : List Item := []
  sendQueue : List BridgeMessage := []
  table : UInt16 → Option ℕ := fun _ => none
  handler : SendHandler := .waiting
  readers : ℕ → Option Reader := fun _ => none
  /-- the connections of the open descriptors -/
  sockets : ℕ → Option ℕ := fun _ => none
  /-- the number of datagrams queued so far -/
  arrived : ℕ := 0
  /-- the number of connections dialed so far -/
  dialed : ℕ := 0

namespace Gcdbroker

/-- The buffer of the receiver holds one datagram. -/
def bufferSize : ℕ := Multiplexer.maxDatagramSize + 1

-- ════════════════════════════════════════════════════════════════════════
-- The send handler
-- ════════════════════════════════════════════════════════════════════════

/-- The verdict in an approval; an empty payload counts as a denial. -/
def verdict (msg : BridgeMessage) : UInt8 := msg.payload.headD approvalDeny

/-- The approval that is relayed if the dial fails. -/
def downgrade (msg : BridgeMessage) : BridgeMessage :=
  { msg with payload := msg.payload.set 0 approvalDeny }

/-- A message that nothing has been done with yet. -/
def dispatch (s : Gcdbroker) (item : Item) : Gcdbroker × List Effect :=
  match item.msg.action with
  | .createChannel => ({ s with handler := .waiting }, [])
  | .approval =>
    -- an approved channel has to be dialed first
    if verdict item.msg = approvalApprove then (s, [])
    else ({ s with handler := .relaying item.msg }, [])
  | .shutdownChannel =>
    ({ s with
        table := Function.update s.table item.msg.channel none
        handler := .relaying { channel := item.msg.channel, action := .shutdownChannel } },
      (s.table item.msg.channel).toList.map .shutdown)
  | .none =>
    match s.table item.msg.channel with
    | none => ({ s with handler := .waiting }, [])
    | some fd => ({ s with handler := .busy item (.routed fd) }, [])

/-- `Connect` returns. The descriptor is one that is not in use. -/
def dial (s : Gcdbroker) (fd : Option ℕ) : Gcdbroker × List Effect :=
  match s.handler with
  | .busy item .fetched =>
    if item.msg.action = .approval ∧ verdict item.msg = approvalApprove then
      match fd with
      | none => ({ s with handler := .relaying (downgrade item.msg) }, [])
      | some fd =>
        if s.sockets fd = none then
          ({ s with
              sockets := Function.update s.sockets fd (some s.dialed)
              dialed := s.dialed + 1
              handler := .busy item (.dialed fd s.dialed) }, [.connect s.dialed fd])
        else (s, [])
    else (s, [])
  | _ => (s, [])

/-- `Insert`, and what follows from it. -/
def insert (s : Gcdbroker) (item : Item) (fd k : ℕ) : Gcdbroker × List Effect :=
  match s.table item.msg.channel with
  | none =>
    ({ s with
        table := Function.update s.table item.msg.channel (some fd)
        readers := Function.update s.readers k (some { channel := item.msg.channel, fd := fd })
        handler := .relaying item.msg }, [.insert k item])
  | some _ =>
    ({ s with
        sockets := Function.update s.sockets fd none
        handler := .relaying (downgrade item.msg) }, [.close fd])

/-- The next access of the handler that needs nothing from outside. -/
def handle (s : Gcdbroker) : Gcdbroker × List Effect :=
  match s.handler with
  | .waiting =>
    match s.recvQueue with
    | [] => (s, [])
    | item :: rest => ({ s with recvQueue := rest, handler := .busy item .fetched }, [])
  | .busy item .fetched => s.dispatch item
  | .busy item (.dialed fd k) => s.insert item fd k
  | .busy _ (.routed _) => (s, [])
  | .relaying msg => ({ s with sendQueue := s.sendQueue ++ [msg], handler := .waiting }, [])
  | .failed channel =>
    ({ s with table := Function.update s.table channel none, handler := .waiting },
      (s.table channel).toList.map .shutdown)

/-- `Send`, on a descriptor that its reader may have closed. -/
def send (s : Gcdbroker) (taken : ℕ) : Gcdbroker × List Effect :=
  match s.handler with
  | .busy item (.routed fd) =>
    match s.sockets fd with
    | some k =>
      ({ s with
          handler := if taken < item.msg.payload.length then .failed item.msg.channel
            else .waiting }, [.write k item (item.msg.payload.take taken)])
    | none =>
      ({ s with
          handler := if item.msg.payload ≠ [] then .failed item.msg.channel else .waiting }, [])
  | _ => (s, [])

-- ════════════════════════════════════════════════════════════════════════
-- The readers
-- ════════════════════════════════════════════════════════════════════════

/-- An ack or a keepalive on its way to guacd. -/
def sync (k : ℕ) (channel : UInt16) (ack : Bytes) : Item where
  origin := .reader k
  msg := { channel := channel, action := .none, payload := ack }

/-- The ack or the keepalive that a step of a reader queues. -/
def ackOf (s : Gcdbroker) : Event → Option Item
  | .timeout k due =>
    match s.readers k with
    | some r => if r.stage = .receiving then (r.keepalive due).map (sync k r.channel) else none
    | none => none
  | .read k =>
    match s.readers k with
    | some r =>
      match r.stage with
      | .feeding data due => (r.feed data due).2.map (sync k r.channel)
      | _ => none
    | none => none
  | _ => none

/-- `Receive` returns. The buffer holds one payload. -/
def receive (s : Gcdbroker) (k : ℕ) (r : Reader) (data : Bytes) (due : Bool) :
    Gcdbroker × List Effect :=
  if r.stage = .receiving then
    let data := data.take Multiplexer.maxPayloadSize
    if data = [] then
      ({ s with readers := Function.update s.readers k (some { r with stage := .leaving }) }, [])
    else
      ({ s with
          sendQueue := s.sendQueue ++ [{ channel := r.channel, action := .none, payload := data }]
          readers := Function.update s.readers k (some { r with stage := .feeding data due }) }, [])
  else (s, [])

/-- The next access of a reader that needs nothing from outside. -/
def read (s : Gcdbroker) (k : ℕ) (r : Reader) : Gcdbroker × List Effect :=
  match r.stage with
  | .receiving => (s, [])
  | .feeding data due =>
    ({ s with
        recvQueue := s.recvQueue ++ (s.ackOf (.read k)).toList
        readers := Function.update s.readers k (some (r.feed data due).1) }, [])
  | .leaving =>
    -- only the side that removes the channel announces the shutdown
    ({ s with
        table := Function.update s.table r.channel none
        readers := Function.update s.readers k (some { r with
          stage := if (s.table r.channel).isSome then .announcing else .closing }) }, [])
  | .announcing =>
    ({ s with
        sendQueue := s.sendQueue ++ [{ channel := r.channel, action := .shutdownChannel }]
        readers := Function.update s.readers k (some { r with stage := .closing }) }, [])
  | .closing =>
    ({ s with
        sockets := Function.update s.sockets r.fd none
        readers := Function.update s.readers k none }, [.close r.fd])

-- ════════════════════════════════════════════════════════════════════════
-- The machine
-- ════════════════════════════════════════════════════════════════════════

/-- The message that the receiver queues in a step. -/
def arrival : Event → Option BridgeMessage
  | .datagram data => Multiplexer.tryCast (UDPReceiver.receive bufferSize data)
  | _ => none

def step (s : Gcdbroker) (e : Event) : Gcdbroker × List Effect :=
  match e with
  | .datagram _ =>
    match arrival e with
    | none => (s, [])
    | some msg =>
      ({ s with
          recvQueue := s.recvQueue ++ [⟨.bridge s.arrived, msg⟩]
          arrived := s.arrived + 1 }, [])
  | .handle => s.handle
  | .dial fd => s.dial fd
  | .send taken => s.send taken
  | .receive k data due =>
    match s.readers k with
    | none => (s, [])
    | some r => s.receive k r data due
  | .timeout _ _ => ({ s with recvQueue := s.recvQueue ++ (s.ackOf e).toList }, [])
  | .read k =>
    match s.readers k with
    | none => (s, [])
    | some r => s.read k r
  | .transmit =>
    match s.sendQueue with
    | [] => (s, [])
    | msg :: rest => ({ s with sendQueue := rest }, [.transmit (Multiplexer.serialize msg)])

def machine : Machine Gcdbroker Event Effect where
  init := {}
  step := step

end Gcdbroker

end GuacamoleDiode

import GuacamoleDiode.Gmlbroker.HandshakeForger
import GuacamoleDiode.Gmlbroker.KeepaliveFilter
import GuacamoleDiode.Parser.Resync
import GuacamoleDiode.Lib.Machine

/-!
# The reader of one browser connection

The loop of `GuacamoleReadHandler` as a machine. Its events are what poll reports,
what the socket returns and the moment at which the thread that receives the
verdict sets the approved flag. Its outputs are the messages that it enqueues and
the bytes that it writes to the browser.

## Design notes

- An idle timeout loads the approved flag twice, once for the heartbeat and once for
  the replay. These are two events, so that the flag may change in between.
- `socket` lists the bytes read so far. The source does not keep them.
-/

namespace GuacamoleDiode

open Wire

/-- The members that `ClipboardAckFaker` adds to its base. -/
structure ClipboardAckMembers where
  currentOpcode : Bytes := []
  /-- currently open clipboard stream, or -1 -/
  clipboardSidx : ℤ := -1
  /-- 1-based index of the argument being parsed -/
  currentArg : ℕ := 0
  /-- the current blob is on the clipboard stream -/
  blobOnClipboard : Bool := false
  /-- acks produced during the current `feed` -/
  acks : Bytes := []
  deriving DecidableEq, Repr

namespace ClipboardAckFaker

/-- Parse a stream-index argument, just as the guard does. -/
def parseIndex (arg : Bytes) : ℤ := parseStreamIndex arg

/-- A success ack for a stream. -/
def makeAck (sidx : ℤ) : Bytes :=
  let idx := if sidx < 0 then 45 :: decimal sidx.natAbs else decimal sidx.natAbs
  ascii "3.ack," ++ decimal idx.length ++ dot :: idx ++ ascii ",2.OK,1.0;"

def onInstructionBegin (instr : Bytes) (m : ClipboardAckMembers) : Bool × ClipboardAckMembers :=
  (true, { m with currentOpcode := instr, currentArg := 0, blobOnClipboard := false })

def onArgument (arg : Bytes) (m : ClipboardAckMembers) : Bool × ClipboardAckMembers :=
  let m := { m with currentArg := m.currentArg + 1 }
  (true,
    if m.currentArg = 1 then
      let sidx := parseIndex arg
      if m.currentOpcode = ascii "clipboard" then { m with clipboardSidx := sidx }
      else if m.currentOpcode = ascii "blob" then
        { m with blobOnClipboard := 0 ≤ sidx && sidx == m.clipboardSidx }
      else if m.currentOpcode = ascii "end" ∧ sidx = m.clipboardSidx then
        { m with clipboardSidx := -1 }
      else m
    else if m.currentArg = 2 ∧ m.blobOnClipboard = true ∧ maxClipboardBytes < arg.length then
      { m with acks := m.acks ++ makeAck m.clipboardSidx }
    else m)

def hooks : Hooks ClipboardAckMembers where
  onInstructionBegin := onInstructionBegin
  onArgument := onArgument
  toleratesOversizedElements := true

/-- `ClipboardAckFaker::Feed`: the acks to send back to the browser, and the faker. -/
def feed (p : OpcodeParser ClipboardAckMembers) (data : Bytes) :
    Bytes × OpcodeParser ClipboardAckMembers :=
  let p := ({ p with members := { p.members with acks := [] } } : OpcodeParser _).resync hooks
    data.length data
  (p.members.acks, p)

end ClipboardAckFaker

/-- The locals of one reader thread. -/
structure ReadHandler where
  forger : HandshakeForger := {}
  keepaliveFilter : OpcodeParser Unit := ForwardKeepaliveFilter.fresh
  clipboardFaker : OpcodeParser ClipboardAckMembers := { members := {} }
  /-- the flag that the verdict sets -/
  approved : Bool := false
  replayed : Bool := false
  /-- the loop has been left -/
  closed : Bool := false
  /-- the bytes read so far -/
  socket : Bytes := []

namespace ReadHandler

/-- What the reader thread does to the rest of the system. -/
inductive Effect where
  /-- a message for the bridge -/
  | enqueue (message : BridgeMessage)
  /-- a message for the browser, through the receive queue -/
  | enqueueRecv (message : BridgeMessage)
  /-- bytes written to the browser -/
  | send (data : Bytes)
  | setRequestId (id : Bytes)
  /-- the entry of the approval registry is removed -/
  | removeApproval
  /-- the mailbox is removed -/
  | removeMailbox
  /-- the channel is free again -/
  | removeChannel
  /-- the socket is closed -/
  | close
  deriving DecidableEq, Repr

/-- One turn of the read loop. -/
inductive Poll where
  /-- idle timeout: the heartbeat of the waiting screen -/
  | heartbeat (ms : ℕ)
  /-- idle timeout: the replay -/
  | timeout
  /-- bytes from the browser; an empty read means that the client has closed. The id is
  the one that is drawn if this read completes the handshake. -/
  | read (data : Bytes) (requestId : Bytes)
  /-- return traffic that has been written, whether a write failed, and the teardown
  request with its wish to announce it -/
  | drain (chunks : List Bytes) (failed : Bool) (teardown : Option Bool)
  /-- poll error or the end of the process -/
  | stop
  deriving DecidableEq, Repr

inductive Event where
  /-- another thread sets the approved flag -/
  | approve
  | poll (turn : Poll)
  deriving DecidableEq, Repr

/-- `make_request_id`: an id of the digits that are drawn. -/
def makeRequestId (drawn : Fin 12 → Fin 16) : Bytes :=
  let digits := ascii "0123456789abcdef"
  List.ofFn fun i => digits.getD (drawn i) 0

/-- The `sync` of the waiting screen. -/
def syncInstruction (ms : ℕ) : Bytes :=
  let ts := decimal ms
  ascii "4.sync," ++ decimal ts.length ++ dot :: ts ++ [semicolon]

/-- Cut a string into pieces of at most `n` bytes. -/
def substrs (n : ℕ) : ℕ → Bytes → List Bytes
  | 0, _ => []
  | fuel + 1, s => if s = [] then [] else s.take n :: substrs n fuel (s.drop n)

/-- `replay_handshake`: the captured handshake as payload messages. -/
def replayHandshake (channel : UInt16) (handshake : Bytes) : List Effect :=
  (substrs Multiplexer.maxPayloadSize handshake.length handshake).map fun payload =>
    .enqueue { channel := channel, action := .none, payload := payload }

/-- `maybe_replay`: replay the handshake once it is established and approved. -/
def maybeReplay (channel : UInt16) (s : ReadHandler) : ReadHandler × List Effect :=
  if s.replayed = false ∧ s.forger.hsState = .established ∧ s.approved = true then
    ({ s with replayed := true }, replayHandshake channel s.forger.handshakeRaw)
  else (s, [])

/-- Leave the loop. -/
def leave (channel : UInt16) (announce : Bool) (s : ReadHandler) : ReadHandler × List Effect :=
  ({ s with closed := true },
    [.removeApproval, .removeMailbox, .removeChannel] ++
      (if announce then [.enqueue { channel := channel, action := .shutdownChannel }] else []) ++
      [.close])

/-- A read before the handshake is established: it is answered here. -/
def feedForger (ids : ℕ → Bytes) (channel : UInt16) (data requestId : Bytes) (s : ReadHandler) :
    ReadHandler × List Effect :=
  let r := s.forger.feed ids data
  let s := { s with forger := r.2 }
  let reply := if r.1 ≠ [] then [Effect.send r.1] else []
  if r.2.hsState = .invalidHandshake then
    ((leave channel true s).1, reply ++ (leave channel true s).2)
  else if r.2.hsState = .established then
    (s, reply ++ [.setRequestId requestId,
      .enqueue { channel := channel, action := .createChannel, payload := requestId }])
  else (s, reply)

/-- A read behind the replay: it is piped across the bridge. -/
def pipe (channel : UInt16) (data : Bytes) (s : ReadHandler) : ReadHandler × List Effect :=
  let faked := ClipboardAckFaker.feed s.clipboardFaker data
  let filtered := ForwardKeepaliveFilter.filter s.keepaliveFilter data
  ({ s with clipboardFaker := faked.2, keepaliveFilter := filtered.2 },
    (if faked.1 ≠ [] then
      [.enqueueRecv { channel := channel, action := .none, payload := faked.1 }] else []) ++
    (if filtered.1 ≠ [] then
      [.enqueue { channel := channel, action := .none, payload := filtered.1 }] else []))

/-- A read behind the handshake. Before the approval it is dropped. -/
def established (channel : UInt16) (data : Bytes) (s : ReadHandler) : ReadHandler × List Effect :=
  let r := maybeReplay channel s
  if r.1.replayed then
    let q := pipe channel data r.1
    (q.1, r.2 ++ q.2)
  else r

/-- A turn of the loop. -/
def turn (ids : ℕ → Bytes) (channel : UInt16) (s : ReadHandler) : Poll → ReadHandler × List Effect
  | .heartbeat ms =>
    if s.forger.hsState = .established ∧ s.approved = false then
      (s, [.send (syncInstruction ms)])
    else (s, [])
  | .timeout => maybeReplay channel s
  | .read data requestId =>
    if data = [] then leave channel true s
    else
      let s := { s with socket := s.socket ++ data }
      if s.forger.hsState = .established then established channel data s
      else feedForger ids channel data requestId s
  | .drain chunks failed teardown =>
    let sent := chunks.map Effect.send
    match teardown with
    | some announce => ((leave channel announce s).1, sent ++ (leave channel announce s).2)
    | none =>
      if failed then ((leave channel true s).1, sent ++ (leave channel true s).2)
      else (s, sent)
  | .stop => leave channel true s

def step (ids : ℕ → Bytes) (channel : UInt16) (s : ReadHandler) : Event → ReadHandler × List Effect
  | .approve => ({ s with approved := true }, [])
  | .poll p => if s.closed then (s, []) else turn ids channel s p

/-- The reader of a channel. The ids are those that the forger draws. -/
def machine (ids : ℕ → Bytes) (channel : UInt16) : Machine ReadHandler Event Effect where
  init := {}
  step := step ids channel

/-- The payload bytes that the reader has sent across the bridge. -/
def forwarded (effects : List Effect) : Bytes :=
  effects.flatMap fun
    | .enqueue message => if message.action = .none then message.payload else []
    | _ => []

end ReadHandler

end GuacamoleDiode

import GuacamoleDiode.Guard.GuardOpcodeParser
import GuacamoleDiode.Bridge.Multiplexer
import GuacamoleDiode.Lib.Machine
import Mathlib.Data.Finset.Basic

/-!
# The receive loop of the guard

The guard as a machine. The main thread alternates between the teardown poll and one
receive; the control thread applies approve and deny commands, and announces a deny
in a second step. Outputs are the datagrams sent toward gcdbroker, as raw bytes.

## Design notes

- The order in which an unordered set is traversed is part of the event. An event
  that does not apply (a wrong order, a thread that stands elsewhere) changes nothing.
- Datagrams are arbitrary byte strings. `recvfrom` cuts them to the size of the buffer.
-/

namespace GuacamoleDiode

open Wire

/-- Length of a request id. -/
def requestIdLen : ℕ := 12

/-- A request id has `requestIdLen` lowercase hex characters. -/
def isValidRequestId (id : Bytes) : Bool :=
  id.length == requestIdLen && id.all fun c => (48 ≤ c && c ≤ 57) || (97 ≤ c && c ≤ 102)

namespace ControlChannel

/-- `std::isspace` in the C locale. -/
def isSpace (c : UInt8) : Bool := c == 32 || (9 ≤ c && c ≤ 13)

/-- `std::tolower` in the C locale. -/
def toLower (c : UInt8) : UInt8 := if 65 ≤ c && c ≤ 90 then c + 32 else c

/-- Parses a plaintext approval-toggle command. -/
def parseApprovalToggle (raw : Bytes) : Option Bool :=
  let s := (raw.filter fun c => !isSpace c).map toLower
  if s = ascii "approve" then some true
  else if s = ascii "deny" then some false
  else none

end ControlChannel

/-- Outcome of an approval decision; the reason is populated on denial. -/
structure ApprovalResult where
  approved : Bool
  reason : Bytes
  deriving DecidableEq, Repr

/-- `Approver::HandleRequest`: honour the approve/deny switch. -/
def Approver.handleRequest (approve : Bool) (_requestId : Bytes) : ApprovalResult :=
  if approve then { approved := true, reason := [] }
  else { approved := false, reason := ascii "operator denied the request" }

@[simp] theorem Approver.handleRequest_approved (approve : Bool) (requestId : Bytes) :
    (handleRequest approve requestId).approved = approve := by
  cases approve <;> rfl

/-- The state of the guard process. -/
structure Guard where
  /-- one parser per channel -/
  parsers : UInt16 → Option (OpcodeParser GuardMembers) := fun _ => none
  /-- channels that violated the policy -/
  poisoned : Finset UInt16 := ∅
  /-- channels cleared to carry Guacamole -/
  approved : Finset UInt16 := ∅
  /-- the switch of the approver -/
  approve : Bool := true
  denyTeardown : Bool := false
  /-- the control thread has flipped the switch to deny, but not yet flagged the teardown -/
  denying : Bool := false
  /-- the main thread has polled the teardown flag and is about to receive -/
  receiving : Bool := false
  /-- the main loop has been left -/
  stopped : Bool := false

namespace Guard

inductive Event where
  /-- the control thread receives a command -/
  | command (raw : Bytes)
  /-- the control thread flags the teardown behind a deny -/
  | flagTeardown
  /-- the top of the main loop, with the order in which approved channels are visited -/
  | poll (order : List UInt16)
  /-- the main thread receives a datagram -/
  | datagram (data : Bytes)
  /-- the receive times out -/
  | timeout
  /-- the main loop ends, with the order in which approved channels are visited -/
  | stop (order : List UInt16)
  deriving DecidableEq, Repr

/-- The buffer of the main loop holds one datagram. -/
def bufferSize : ℕ := Multiplexer.maxDatagramSize + 1

/-- The buffer of the control thread. -/
def commandBufferSize : ℕ := 256

/-- A shutdown of a channel. -/
def shutdown (channel : UInt16) : Bytes :=
  Multiplexer.serialize { channel := channel, action := .shutdownChannel }

/-- The order visits each approved channel once. -/
def Visits (g : Guard) (order : List UInt16) : Prop := order.Nodup ∧ order.toFinset = g.approved

instance (g : Guard) (order : List UInt16) : Decidable (g.Visits order) :=
  inferInstanceAs (Decidable (_ ∧ _))

/-- `CREATE_CHANNEL`: the operator decides. -/
def create (g : Guard) (buffer : Bytes) (msg : BridgeMessage) : Guard × List Bytes :=
  if isValidRequestId msg.payload then
    let c := msg.channel
    -- fresh state for a (possibly reused) channel id
    let g := { g with
      parsers := Function.update g.parsers c (some GuardOpcodeParser.fresh)
      poisoned := g.poisoned.erase c
      approved := g.approved.erase c }
    let verdict := Approver.handleRequest g.approve msg.payload
    let v := if verdict.approved then approvalApprove else approvalDeny
    let approval := Multiplexer.serialize
      { channel := c, action := .approval, payload := v :: msg.payload }
    if verdict.approved then ({ g with approved := insert c g.approved }, [buffer, approval])
    else
      ({ g with parsers := Function.update g.parsers c none }, [buffer, approval, shutdown c])
  else (g, [])

/-- `SHUTDOWN_CHANNEL`: remove the channel. -/
def shutdownChannel (g : Guard) (buffer : Bytes) (msg : BridgeMessage) : Guard × List Bytes :=
  let c := msg.channel
  ({ g with
    parsers := Function.update g.parsers c none
    poisoned := g.poisoned.erase c
    approved := g.approved.erase c }, [buffer])

/-- What follows from the state that `Parse` returns. -/
def settle (g : Guard) (buffer : Bytes) (msg : BridgeMessage) :
    ParserState × OpcodeParser GuardMembers → Guard × List Bytes
  | (.streamCorrupted, _) =>
    ({ g with
      parsers := Function.update g.parsers msg.channel none
      approved := g.approved.erase msg.channel
      poisoned := insert msg.channel g.poisoned }, [shutdown msg.channel])
  | (.deniedData, parser) =>
    let (data, plen, parser) := parser.excise msg.payload msg.payload.length
    let payload := data.take plen
    ({ g with parsers := Function.update g.parsers msg.channel (some parser) },
      if payload = [] then [] else [Multiplexer.serialize { msg with payload := payload }])
  | (_, parser) =>
    ({ g with parsers := Function.update g.parsers msg.channel (some parser) }, [buffer])

/-- `NONE` and every other action: the payload goes through the parser of the channel, which
is default-constructed if there is none. -/
def relay (g : Guard) (buffer : Bytes) (msg : BridgeMessage) : Guard × List Bytes :=
  if msg.channel ∈ g.poisoned then (g, [])
  else if msg.channel ∈ g.approved then
    let parser := (g.parsers msg.channel).getD GuardOpcodeParser.fresh
    g.settle buffer msg (parser.parse GuardOpcodeParser.hooks msg.payload)
  else (g, [])

/-- The action switch. -/
def dispatch (g : Guard) (buffer : Bytes) (msg : BridgeMessage) : Guard × List Bytes :=
  match msg.action with
  | .createChannel => g.create buffer msg
  | .shutdownChannel => g.shutdownChannel buffer msg
  | .none => g.relay buffer msg
  | .approval => g.relay buffer msg

/-- One received datagram. -/
def handle (g : Guard) (data : Bytes) : Guard × List Bytes :=
  let buffer := UDPReceiver.receive bufferSize data
  match Multiplexer.tryCast buffer with
  | none => (g, [])
  | some msg => g.dispatch buffer msg

/-- Act on a global deny: tear down every approved channel. -/
def teardown (g : Guard) (order : List UInt16) : Guard × List Bytes :=
  ({ g with
    denyTeardown := false
    parsers := fun c => if c ∈ order then none else g.parsers c
    approved := ∅ }, order.map shutdown)

def step (g : Guard) : Event → Guard × List Bytes
  | .command raw =>
    if g.denying then (g, [])
    else
      match ControlChannel.parseApprovalToggle (UDPReceiver.receive commandBufferSize raw) with
      | none => (g, [])
      | some mode => ({ g with approve := mode, denying := !mode }, [])
  | .flagTeardown =>
    if g.denying then ({ g with denyTeardown := true, denying := false }, []) else (g, [])
  | .poll order =>
    if g.receiving ∨ g.stopped then (g, [])
    else if g.denyTeardown then
      if g.Visits order then
        let r := g.teardown order
        ({ r.1 with receiving := true }, r.2)
      else (g, [])
    else ({ g with receiving := true }, [])
  | .datagram data =>
    if g.receiving then { g with receiving := false }.handle data else (g, [])
  | .timeout => ({ g with receiving := false }, [])
  | .stop order =>
    if g.receiving ∨ g.stopped then (g, [])
    else if g.Visits order then
      ({ g with approved := ∅, stopped := true }, order.map shutdown)
    else (g, [])

def machine : Machine Guard Event Bytes where
  init := {}
  step := step

end Guard

end GuacamoleDiode

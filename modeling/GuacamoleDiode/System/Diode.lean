import GuacamoleDiode.Gcdbroker.Bindings
import GuacamoleDiode.Gmlbroker.Requests
import GuacamoleDiode.System.Sessions

/-!
# The three programs

gmlbroker, the guard and gcdbroker, joined by links that neither lose nor reorder datagrams:
from gmlbroker through the guard to gcdbroker, and from gcdbroker back to gmlbroker past the
guard. The browsers, the instances of guacd and the operator are part of the run, and so is
every interleaving of the threads.

## Design notes

- An event is one of a program. That a datagram arrives is only possible if it is the oldest
  one on its link, and a request id is one that `make_request_id` can draw. An event that
  does not apply changes nothing.
- Nothing leaves the system, so that it has no outputs.

## Main definitions

- `Diode`: the programs and the links between them
- `Diode.gmlEvents`, `Diode.guardEvents`, `Diode.gcdEvents`: the steps of each program in a run
- `Diode.severed`: a channel has been given up without telling the guard
- `Diode.Quiet`: no message is on its way

## Main results

- `gml_run`, `guard_run`, `gcd_run`: the part of each program in a run is a run of this program
-/

namespace GuacamoleDiode

open Wire

/-- What a step leaves on the link to the guard. -/
def Guard.undelivered (link : List Bytes) : Guard.Event → List Bytes
  | .datagram _ => link.tail
  | _ => link

namespace Gmlbroker

/-- What a step leaves on the link to gmlbroker. -/
def undelivered (link : List Bytes) : Event → List Bytes
  | .datagram _ => link.tail
  | _ => link

/-- The datagrams among the effects of a step. -/
def transmitted (out : List Effect) : List Bytes :=
  out.filterMap fun
    | .transmit data => some data
    | _ => none

end Gmlbroker

namespace Gcdbroker

/-- What a step leaves on the link to gcdbroker. -/
def undelivered (link : List Bytes) : Event → List Bytes
  | .datagram _ => link.tail
  | _ => link

/-- The datagrams among the effects of a step. -/
def transmitted (out : List Effect) : List Bytes :=
  out.filterMap fun
    | .transmit data => some data
    | _ => none

end Gcdbroker

/-- The programs, and the datagrams on the links between them, oldest first. -/
structure Diode where
  gml : Gmlbroker := {}
  toGuard : List Bytes := []
  guard : Guard := {}
  toGcd : List Bytes := []
  gcd : Gcdbroker := {}
  toGml : List Bytes := []

namespace Diode

inductive Event where
  | gml (e : Gmlbroker.Event)
  | guard (e : Guard.Event)
  | gcd (e : Gcdbroker.Event)
  deriving DecidableEq, Repr

/-- The event is possible. -/
def applies (s : Diode) : Event → Bool
  | .gml (.datagram data) => s.toGml.head? == some data
  | .gml (.wake _ (.read _ requestId)) => isValidRequestId requestId
  | .guard (.datagram data) => s.guard.receiving && s.toGuard.head? == some data
  | .gcd (.datagram data) => s.toGcd.head? == some data
  | _ => true

/-- A step of gmlbroker. -/
def stepGml (ids : ℕ → ℕ → Bytes) (s : Diode) (e : Gmlbroker.Event) : Diode :=
  let r := s.gml.step ids e
  { s with
    gml := r.1
    toGml := Gmlbroker.undelivered s.toGml e
    toGuard := s.toGuard ++ Gmlbroker.transmitted r.2 }

/-- A step of the guard. -/
def stepGuard (s : Diode) (e : Guard.Event) : Diode :=
  let r := s.guard.step e
  { s with
    guard := r.1
    toGuard := Guard.undelivered s.toGuard e
    toGcd := s.toGcd ++ r.2 }

/-- A step of gcdbroker. -/
def stepGcd (s : Diode) (e : Gcdbroker.Event) : Diode :=
  let r := s.gcd.step e
  { s with
    gcd := r.1
    toGcd := Gcdbroker.undelivered s.toGcd e
    toGml := s.toGml ++ Gcdbroker.transmitted r.2 }

def step (ids : ℕ → ℕ → Bytes) (s : Diode) (e : Event) : Diode × List Empty :=
  if s.applies e then
    match e with
    | .gml e => (s.stepGml ids e, [])
    | .guard e => (s.stepGuard e, [])
    | .gcd e => (s.stepGcd e, [])
  else (s, [])

/-- The system. The ids are those that the forgers of gmlbroker draw. -/
def machine (ids : ℕ → ℕ → Bytes) : Machine Diode Event Empty where
  init := {}
  step := step ids

/-- The channel that a step gives up without telling the guard. -/
def drops (s : Diode) : Event → Option UInt16
  | .gml e => s.gml.drops e
  | .guard _ => none
  | .gcd e => s.gcd.drops e

/-- The channel whose request a step queues. -/
def requests (s : Diode) : Event → Option UInt16
  | .gml e => s.gml.requests e
  | _ => none

/-- Since the last request on the channel, gcdbroker has given it up of its own accord, or
gmlbroker at the wish of gcdbroker. -/
def severed (ids : ℕ → ℕ → Bytes) (c : UInt16) (es : List Event) : Bool :=
  (machine ids).observe (fun cut s e _ =>
    if s.requests e = some c then false else cut || s.drops e == some c) false es

/-- No message is on its way, and no teardown that has been requested is outstanding. -/
structure Quiet (s : Diode) : Prop where
  links : s.toGuard = [] ∧ s.toGcd = [] ∧ s.toGml = []
  gml : s.gml.recvQueue = [] ∧ s.gml.sendQueue = [] ∧ s.gml.handler = .waiting
  gcd : s.gcd.recvQueue = [] ∧ s.gcd.sendQueue = [] ∧ s.gcd.handler = .waiting
  sessions : ∀ n session, s.gml.sessions n = some session → session.pending = [] ∧
    (session.mailbox.teardown = true → session.reader.closed = true)

/-- The step of gmlbroker that an event is. -/
def gmlEvent (s : Diode) (e : Event) : Option Gmlbroker.Event :=
  if s.applies e then
    match e with
    | .gml e => some e
    | _ => none
  else none

/-- The step of the guard that an event is. -/
def guardEvent (s : Diode) (e : Event) : Option Guard.Event :=
  if s.applies e then
    match e with
    | .guard e => some e
    | _ => none
  else none

/-- The step of gcdbroker that an event is. -/
def gcdEvent (s : Diode) (e : Event) : Option Gcdbroker.Event :=
  if s.applies e then
    match e with
    | .gcd e => some e
    | _ => none
  else none

section

variable (ids : ℕ → ℕ → Bytes) (es : List Event)

/-- The steps of gmlbroker in a run. -/
def gmlEvents : List Gmlbroker.Event := (machine ids).collect (fun s e => (s.gmlEvent e).toList) es

/-- The steps of the guard in a run. -/
def guardEvents : List Guard.Event := (machine ids).collect (fun s e => (s.guardEvent e).toList) es

/-- The steps of gcdbroker in a run. -/
def gcdEvents : List Gcdbroker.Event := (machine ids).collect (fun s e => (s.gcdEvent e).toList) es

theorem gml_run : ((machine ids).run es).gml = (Gmlbroker.machine ids).run (gmlEvents ids es) := by
  refine Machine.run_part (N := Gmlbroker.machine ids) Diode.gml gmlEvent rfl (fun s e => ?_) es
  simp only [machine, step, gmlEvent]
  split_ifs
  · cases e <;> rfl
  · rfl

theorem guard_run : ((machine ids).run es).guard = Guard.machine.run (guardEvents ids es) := by
  refine Machine.run_part (N := Guard.machine) Diode.guard guardEvent rfl (fun s e => ?_) es
  simp only [machine, step, guardEvent]
  split_ifs
  · cases e <;> rfl
  · rfl

theorem gcd_run : ((machine ids).run es).gcd = Gcdbroker.machine.run (gcdEvents ids es) := by
  refine Machine.run_part (N := Gcdbroker.machine) Diode.gcd gcdEvent rfl (fun s e => ?_) es
  simp only [machine, step, gcdEvent]
  split_ifs
  · cases e <;> rfl
  · rfl

end

end Diode

end GuacamoleDiode

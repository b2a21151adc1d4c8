import GuacamoleDiode.Guard.Gate
import GuacamoleDiode.Gcdbroker.Ledger

/-!
# The forward path

The guard and gcdbroker, joined by a link that neither loses nor reorders datagrams.
Whatever arrives at the guard is part of the run, and so is every interleaving of the
guard with the threads of gcdbroker.

## Design notes

The parsers of the guard are counted. A CREATE with a valid request id starts one for its
channel, and each datagram on the link carries the number of the parser that its channel
had when it was sent. No step depends on these numbers.

## Main results

- `broker_run`: the part of gcdbroker in a run is a run of gcdbroker
-/

namespace GuacamoleDiode

open Wire

/-- The channel whose parser a step of the guard starts. -/
def Guard.starts (g : Guard) (e : Guard.Event) : Option UInt16 :=
  match g.received e with
  | some msg =>
    if msg.action = .createChannel ∧ isValidRequestId msg.payload = true then some msg.channel
    else none
  | none => none

/-- The guard, the link and gcdbroker. -/
structure ForwardPath where
  guard : Guard := {}
  /-- the datagrams on their way, oldest first, and the parser that each was sent under -/
  link : List (Bytes × ℕ) := []
  broker : Gcdbroker := {}
  /-- the number of parsers started so far -/
  started : ℕ := 0
  /-- the parser of each channel -/
  session : UInt16 → ℕ := fun _ => 0
  /-- the parsers of the messages that gcdbroker has received -/
  labels : List ℕ := []

namespace ForwardPath

inductive Event where
  | guard (e : Guard.Event)
  /-- the oldest datagram on the link arrives -/
  | deliver
  /-- a thread of gcdbroker moves on; its datagrams only come from the link -/
  | broker (e : Gcdbroker.Event)
  deriving DecidableEq, Repr

/-- The message that gcdbroker makes of a datagram. -/
def heard (d : Bytes) : Option BridgeMessage := Gcdbroker.arrival (.datagram d)

/-- The parser that the guard sends a datagram under. -/
def label (session : UInt16 → ℕ) (d : Bytes) : ℕ := ((heard d).map fun m => session m.channel).getD 0

/-- The parsers of the channels behind a step of the guard. -/
def sessions (g : Guard) (e : Guard.Event) (started : ℕ) (session : UInt16 → ℕ) : UInt16 → ℕ :=
  match g.starts e with
  | some c => Function.update session c started
  | none => session

/-- A step of the guard. -/
def forward (s : ForwardPath) (e : Guard.Event) : ForwardPath :=
  let r := s.guard.step e
  let session := sessions s.guard e s.started s.session
  { s with
    guard := r.1
    link := s.link ++ r.2.map fun d => (d, label session d)
    started := s.started + (s.guard.starts e).toList.length
    session := session }

/-- The step of gcdbroker that an event amounts to. -/
def brokerEvent (s : ForwardPath) : Event → Option Gcdbroker.Event
  | .guard _ => none
  | .deliver => s.link.head?.map fun d => .datagram d.1
  | .broker (.datagram _) => none
  | .broker e => some e

def step (s : ForwardPath) (e : Event) : ForwardPath × List Gcdbroker.Effect :=
  match e with
  | .guard e => (s.forward e, [])
  | .deliver =>
    match s.link with
    | [] => (s, [])
    | (d, g) :: rest =>
      let r := s.broker.step (.datagram d)
      ({ s with
          link := rest
          broker := r.1
          labels := s.labels ++ ((heard d).map fun _ => g).toList }, r.2)
  | .broker _ =>
    match s.brokerEvent e with
    | none => (s, [])
    | some e =>
      let r := s.broker.step e
      ({ s with broker := r.1 }, r.2)

def machine : Machine ForwardPath Event Gcdbroker.Effect where
  init := {}
  step := step

/-- The steps of gcdbroker in a run. -/
def brokerEvents (es : List Event) : List Gcdbroker.Event :=
  machine.observe (fun trace s e _ => trace ++ (s.brokerEvent e).toList) [] es

@[simp] theorem brokerEvents_snoc (es : List Event) (e : Event) :
    brokerEvents (es ++ [e]) = brokerEvents es ++ ((machine.run es).brokerEvent e).toList :=
  Machine.observe_snoc ..

theorem step_of_brokerEvent {s : ForwardPath} {e : Event} {be : Gcdbroker.Event}
    (h : s.brokerEvent e = some be) :
    (s.step e).1.broker = (s.broker.step be).1 ∧ (s.step e).2 = (s.broker.step be).2 := by
  cases e with
  | guard e => cases h
  | deliver =>
    simp only [brokerEvent, Option.map_eq_some_iff, List.head?_eq_some_iff] at h
    obtain ⟨⟨d, g⟩, ⟨rest, hlink⟩, rfl⟩ := h
    simp [step, hlink]
  | broker e => simp [step, h]

theorem step_of_brokerEvent_eq_none {s : ForwardPath} {e : Event} (h : s.brokerEvent e = none) :
    (s.step e).1.broker = s.broker ∧ (s.step e).2 = [] := by
  cases e with
  | guard e => exact ⟨rfl, rfl⟩
  | deliver =>
    cases hlink : s.link with
    | nil => simp [step, hlink]
    | cons d rest => simp [brokerEvent, hlink] at h
  | broker e => simp [step, h]

/-- The part of gcdbroker in a run is a run of gcdbroker. -/
theorem broker_run (es : List Event) :
    (machine.run es).broker = Gcdbroker.machine.run (brokerEvents es) ∧
      machine.emitted es = Gcdbroker.machine.emitted (brokerEvents es) := by
  induction es using List.reverseRecOn with
  | nil => exact ⟨rfl, rfl⟩
  | append_singleton es e ih =>
    obtain ⟨hrun, hemitted⟩ := ih
    rw [Machine.run_snoc, Machine.emitted_snoc, brokerEvents_snoc]
    change ((machine.run es).step e).1.broker = _ ∧ _ ++ ((machine.run es).step e).2 = _
    cases hbe : (machine.run es).brokerEvent e with
    | none =>
      obtain ⟨hbroker, hout⟩ := step_of_brokerEvent_eq_none hbe
      rw [hbroker, hout, Option.toList_none, List.append_nil, List.append_nil]
      exact ⟨hrun, hemitted⟩
    | some be =>
      obtain ⟨hbroker, hout⟩ := step_of_brokerEvent hbe
      rw [hbroker, hout, Option.toList_some, Machine.run_snoc, Machine.emitted_snoc, hrun, hemitted]
      exact ⟨rfl, rfl⟩

end ForwardPath

end GuacamoleDiode
